import Redispp.LiveStreams
import Redispp.Schedules

/-!
# What a session makes of the bytes it gets

Whatever bytes have arrived, a session has read a definite piece of them and
returned, or is stuck for want of more, or has failed for good.  Behind the
piece it read anything may follow, also the end of the file or a failure: the
session does not look at it.  Of anything less than that piece it makes
nothing, and the end of the file behind it is not noticed either.
-/

namespace Redispp

open StateExcept CLibrary

/-! ## The readers -/

abbrev Decides {α : Type} (m : Recv α) : Prop :=
  DecidesWith (fun _ => True) m

theorem readString_decides : Decides readString := by
  apply (getline_decides _).bind
  intro str
  refine .ite (.ite (.pure _) (.ite ?_ (.pure _))) (.pure _)
  have hbody := (readBody_decides (toInt (atol str.tail))).weaken
    fun _ _ => trivial
  exact hbody.bind fun s => .pure _

theorem readSingleLine_decides : Decides readSingleLine := by
  apply (getline_decides _).bind
  intro str
  refine .ite ?_ (.pure _)
  dsimp only
  split
  · exact .throw trivial
  · exact .pure _

theorem multiBulkLoop_decides (left : ℕ) (ret : Response) :
    Decides (multiBulkLoop left ret) := by
  induction left generalizing ret with
  | zero => exact .pure _
  | succ left ih =>
      apply readString_decides.bind
      intro s
      exact .ite (.pure _) (ih _)

theorem readMultiBulk_decides : Decides readMultiBulk := by
  apply (getline_decides _).bind
  intro str
  exact .ite (.pure _) (.ite (.pure _) (multiBulkLoop_decides _ _))

theorem keyValueLoop_decides (l : List Buffer) (ret : Response) :
    Decides (keyValueLoop l ret) := by
  fun_induction keyValueLoop l ret with
  | case1 ret => exact .pure _
  | case2 ret => exact .throw trivial
  | case3 key val rest ret ih => exact ih

theorem StreamReader.recv_decides (reader : StreamReader) :
    Decides reader.recv := by
  cases reader with
  | readString => exact readString_decides
  | readSingleLine => exact readSingleLine_decides
  | readMultiBulk => exact readMultiBulk_decides
  | readInteger =>
      apply (getline_decides _).bind
      intro str
      exact .ite (.pure _) (.pure _)
  | readDouble =>
      apply readString_decides.bind
      intro ret
      exact .ite (.pure _) (.pure _)
  | readIntegerAsBool =>
      apply (getline_decides _).bind
      intro str
      exact .ite (.ite (.pure _) (.pure _)) (.pure _)
  | readStatusCode =>
      apply (getline_decides _).bind
      intro str
      exact .ite (.pure _) (.pure _)
  | readQueued =>
      apply (getline_decides _).bind
      intro str
      exact .ite (.pure _) (.pure _)
  | readInfoReply =>
      apply readString_decides.bind
      intro ret
      refine .ite (.pure _) ?_
      dsimp only
      rw [infoLoop_eq_pure]
      exact .pure _
  | readTypeReply =>
      apply readSingleLine_decides.bind
      intro ret
      apply Feed.Decides.ite (.pure _)
      repeat
        apply Feed.Decides.ite (.pure _)
      exact .pure _
  | readKeyValueList =>
      apply readMultiBulk_decides.bind
      intro bulk
      exact .ite (.pure _) (keyValueLoop_decides _ _)

theorem multiStringLoop_decides (keys : List Buffer) (ret : Response) :
    Decides (multiStringLoop keys ret) := by
  induction keys generalizing ret with
  | nil => exact .pure _
  | cons key keys ih =>
      apply readString_decides.bind
      intro v
      exact .ite (ih _) (ih _)

theorem ResponseReader.call_decides (reader : ResponseReader)
    (mgetKeys : List (List Buffer)) : Decides (reader.call mgetKeys) := by
  cases reader with
  | stream reader =>
      apply reader.recv_decides.bind
      intro resp
      exact .pure _
  | readMultiString =>
      apply (getline_decides _).bind
      intro str
      refine .ite (.pure _) ?_
      split
      · exact .pure _
      · refine .ite (.pure _) ?_
        apply (multiStringLoop_decides _ _).bind
        intro ret
        exact .pure _

namespace Client

/-- The same client on another stream. -/
def onto (c : Client) (input : Stream) : Client :=
  { c with input := input }

/-- Whatever pieces these bytes come in, the program is not done behind them. -/
def StuckOn {α : Type} (m : ClientM α) (c : Client) (bs : List Byte) : Prop :=
  ∀ arrivals ending, ending ≠ .failure → Delivers arrivals bs →
    ∃ e, Stuck ending e ∧ m.run (c.onto ⟨arrivals, ending⟩) = .error e

theorem StuckOn.blocked {α : Type} {m : ClientM α} {c : Client}
    {bs : List Byte} {arrivals : List Arrival} (h : StuckOn m c bs)
    (harrivals : Delivers arrivals bs) :
    m.run (c.onto ⟨arrivals, .silent⟩) = .error .blocked := by
  obtain ⟨e, hwait, hrun⟩ := h arrivals .silent (by simp) harrivals
  rw [hrun, hwait.of_silent]

/-- What a program makes of these bytes in front of this client: it takes a
piece of them, in whatever pieces they come and whatever follows, or it is
stuck behind them, or it fails whatever follows. -/
inductive Standing {α : Type} (m : ClientM α) (c : Client) :
    List Byte → Prop
  | returns {taken left : List Byte} (a : α) (d : Client) :
      (∀ others (rest : Stream), Delivers others taken →
        m.run (c.onto (rest.push others)) = .ok (a, d.onto rest)) →
      Standing m c (taken ++ left)
  | waits {bs : List Byte} : StuckOn m c bs → Standing m c bs
  | fails {bs : List Byte} {e : Fault} :
      (∀ others (rest : Stream), Delivers others bs →
        m.run (c.onto (rest.push others)) = .error e) →
      Standing m c bs

def Decided {α : Type} (m : ClientM α) : Prop :=
  ∀ c bs, Standing m c bs

/-! ## Rules -/

section Rules

variable {α β : Type}

theorem Decided.pure (a : α) : Decided (pure a) := by
  intro c bs
  have hruns : Standing (Pure.pure a : ClientM α) c ([] ++ bs) := by
    refine .returns a c ?_
    intro others rest hothers
    rw [Feed.carries_nil_iff.mp hothers, Feed.push_nil, run_pure]
  exact hruns

theorem Decided.bind {m : ClientM α} {k : α → ClientM β} (hm : Decided m)
    (hk : ∀ a, Decided (k a)) : Decided (m >>= k) := by
  intro c bs
  cases hm c bs with
  | @returns taken left a d hruns =>
      cases hk a d left with
      | @returns more left b last hmore =>
          rw [← List.append_assoc]
          refine Standing.returns b last ?_
          intro others rest hothers
          obtain ⟨first, second, rfl, hfirst, hsecond⟩ :=
            Feed.carries_append_iff.mp hothers
          rw [Feed.push_append, run_bind_of_ok (hruns first _ hfirst)]
          exact hmore second rest hsecond
      | waits hwaits =>
          apply Standing.waits
          intro arrivals ending hending harrivals
          obtain ⟨first, second, rfl, hfirst, hsecond⟩ :=
            Feed.carries_append_iff.mp harrivals
          have hfront := hruns first ⟨second, ending⟩ hfirst
          rw [Feed.push] at hfront
          rw [run_bind_of_ok hfront]
          exact hwaits second ending hending hsecond
      | fails hfails =>
          apply Standing.fails
          intro others rest hothers
          obtain ⟨first, second, rfl, hfirst, hsecond⟩ :=
            Feed.carries_append_iff.mp hothers
          rw [Feed.push_append, run_bind_of_ok (hruns first _ hfirst)]
          exact hfails second rest hsecond
  | waits hwaits =>
      apply Standing.waits
      intro arrivals ending hending harrivals
      obtain ⟨e, hwait, hrun⟩ := hwaits arrivals ending hending harrivals
      exact ⟨e, hwait, run_bind_of_error hrun⟩
  | fails hfails =>
      apply Standing.fails
      intro others rest hothers
      exact run_bind_of_error (hfails others rest hothers)

theorem Decided.ite {p : Prop} [Decidable p] {m other : ClientM α}
    (hthen : Decided m) (helse : Decided other) :
    Decided (if p then m else other) := by
  split
  · exact hthen
  · exact helse

/-- A program that runs on each stream as another does from this client. -/
theorem Standing.congr {m other : ClientM α} {c d : Client} {bs : List Byte}
    (h : Standing m d bs)
    (hrun : ∀ input, other.run (c.onto input) = m.run (d.onto input)) :
    Standing other c bs := by
  cases h with
  | returns a last hruns =>
      refine .returns a last fun others rest hothers => ?_
      exact (hrun _).trans (hruns others rest hothers)
  | waits hwaits =>
      refine .waits fun arrivals ending hending harrivals => ?_
      obtain ⟨e, hwait, hstuck⟩ := hwaits arrivals ending hending harrivals
      exact ⟨e, hwait, (hrun _).trans hstuck⟩
  | fails hfails =>
      exact .fails fun others rest hothers =>
        (hrun _).trans (hfails others rest hothers)

/-- What is decided by the fields other than the input. -/
theorem Decided.get_bind {k : Client → ClientM α}
    (hinput : ∀ c input, k (c.onto input) = k c) (hk : ∀ c, Decided (k c)) :
    Decided (get >>= k) := by
  intro c bs
  apply (hk c c bs).congr
  intro input
  rw [run_get_bind, hinput]

theorem Decided.modify_bind {f : Client → Client} {k : PUnit → ClientM α}
    (hf : ∀ c input, f (c.onto input) = (f c).onto input)
    (hk : Decided (k ⟨⟩)) : Decided (modify f >>= k) := by
  intro c bs
  apply (hk (f c) bs).congr
  intro input
  rw [run_modify_bind, hf]

theorem Decided.receive {m : Recv α} (hm : Decides m) :
    Decided (receive m) := by
  intro c bs
  cases hm bs with
  | @reads front back a hreads =>
      refine .returns a c fun others rest hothers => ?_
      exact run_receive_of_ok (hreads others rest hothers)
  | waits hwaits =>
      refine .waits fun arrivals ending hending harrivals => ?_
      obtain ⟨e, hwait, hrun⟩ := hwaits arrivals ending hending harrivals
      exact ⟨e, hwait, run_receive_of_error hrun⟩
  | @fails _ e _ hfails =>
      refine .fails (e := e) fun others rest hothers => ?_
      exact run_receive_of_error (hfails others rest hothers)

theorem Decided.write (bs : Buffer) : Decided (write bs) :=
  .modify_bind (fun _ _ => rfl) (.pure _)

/-- On anything less than what it reads, a program that returns is waiting. -/
theorem Decided.starved {m : ClientM α} {c d : Client} {a : α}
    {arrivals others : List Arrival} {part rest : List Byte}
    (hm : Decided m) (h : m.run c = .ok (a, d))
    (hinput : c.input = d.input.push arrivals)
    (harrivals : Delivers arrivals (part ++ rest)) (hrest : rest ≠ [])
    (hothers : Delivers others part) :
    m.run (c.onto ⟨others, .silent⟩) = .error .blocked := by
  have hwhole : m.run (c.onto (d.input.push arrivals)) = .ok (a, d) := by
    rw [← hinput]
    exact h
  cases hm c part with
  | @returns front left early last hruns =>
      rw [List.append_assoc] at harrivals
      obtain ⟨first, second, rfl, hfirst, hsecond⟩ :=
        Feed.carries_append_iff.mp harrivals
      rw [Feed.push_append] at hwhole
      have hearly := hruns first (d.input.push second) hfirst
      have hleft : d.input = d.input.push second :=
        congrArg Client.input (run_unique hwhole hearly).2
      have hnone : second = [] := by
        simpa using congrArg Feed.pending hleft
      have hempty := hsecond.length_eq
      rw [hnone, List.length_nil, List.length_append] at hempty
      have hpos := List.length_pos_of_ne_nil hrest
      omega
  | waits hwaits => exact hwaits.blocked hothers
  | fails hfails =>
      obtain ⟨first, second, rfl, hfirst, _⟩ :=
        Feed.carries_append_iff.mp harrivals
      rw [Feed.push_append, hfails first _ hfirst] at hwhole
      contradiction

end Rules

/-! ## The calls -/

theorem call_decided (reader : ResponseReader) : Decided (call reader) := by
  apply Decided.get_bind (fun _ _ => rfl)
  intro c
  apply (Decided.receive (reader.call_decides c.mMgetKeys)).bind
  intro result
  exact .modify_bind (fun _ _ => rfl) (.pure _)

theorem run_decided (cmd : Command) (reader : ResponseReader) :
    Decided (run cmd reader) := by
  apply Decided.get_bind (fun _ _ => rfl)
  intro c
  apply Decided.ite
  · exact .modify_bind (fun _ _ => rfl) (.pure _)
  · apply (Decided.write cmd.get).bind
    intro _
    apply Decided.ite
    · exact .modify_bind (fun _ _ => rfl)
        (.receive StreamReader.readQueued.recv_decides)
    · exact call_decided reader

theorem query_decided (query : Query) : Decided query.perform := by
  cases query with
  | command cmd reader => exact run_decided cmd (.stream reader)
  | mget keys => exact .modify_bind (fun _ _ => rfl) (run_decided _ _)

theorem multi_decided : Decided multi := by
  apply Decided.get_bind (fun _ _ => rfl)
  intro c
  apply Decided.ite (.pure _)
  apply (run_decided _ _).bind
  intro ret
  exact .modify_bind (fun _ _ => rfl) (.pure _)

theorem pipeline_decided : Decided pipeline := by
  apply Decided.get_bind (fun _ _ => rfl)
  intro c
  exact .ite (.pure _) (.modify_bind (fun _ _ => rfl) (.pure _))

theorem discard_decided : Decided discard :=
  .modify_bind (fun _ _ => rfl) (run_decided _ _)

theorem readBack_decided (readers : List ResponseReader) :
    Decided (readBack readers) := by
  induction readers with
  | nil => exact .pure _
  | cons reader readers ih =>
      apply (call_decided reader).bind
      intro resp
      apply ih.bind
      intro ret
      exact .pure _

theorem execHeader_decided : Decided execHeader := by
  apply (Decided.write _).bind
  intro _
  apply (Decided.receive (getline_decides _)).bind
  intro str
  exact .get_bind (fun _ _ => rfl) fun c => .pure _

theorem execPipeline_decided : Decided execPipeline := by
  apply Decided.get_bind (fun _ _ => rfl)
  intro c
  apply (Decided.write _).bind
  intro _
  apply (readBack_decided _).bind
  intro ret
  exact .modify_bind (fun _ _ => rfl) (.pure _)

theorem exec_decided : Decided exec := by
  apply Decided.get_bind (fun _ _ => rfl)
  intro c
  apply Decided.ite
  · apply execHeader_decided.bind
    intro found
    apply Decided.ite (.pure _)
    apply Decided.get_bind (fun _ _ => rfl)
    intro c
    apply (readBack_decided _).bind
    intro ret
    exact .modify_bind (fun _ _ => rfl) (.pure _)
  · exact .ite execPipeline_decided (.pure _)

theorem result_decided (made : Call) : Decided made.result := by
  cases made with
  | query query => exact (query_decided query).bind fun _ => .pure _
  | multi => exact multi_decided.bind fun _ => .pure _
  | pipeline => exact pipeline_decided.bind fun _ => .pure _
  | exec => exact exec_decided.bind fun _ => .pure _
  | discard => exact discard_decided.bind fun _ => .pure _

/-! ## Sessions -/

/-- Whatever calls are made and whatever bytes arrive, the session has taken a
piece of them and returned, or it is stuck, or it has failed for good. -/
theorem session_decided (calls : List Call) : Decided (session calls) := by
  induction calls with
  | nil => exact .pure _
  | cons made rest ih =>
      apply (result_decided made).bind
      intro outcome
      apply ih.bind
      intro outcomes
      exact .pure _

/-- Two sessions of the same calls whose streams carry the same bytes, in
whatever pieces, return the same, leave the same client and the same bytes, or
fail with the same fault. -/
theorem session_schedule {calls : List Call} {c : Client}
    {stream other : Stream} (h : SameBytes stream other) :
    (∃ outcomes d left, SameBytes d.input left ∧
        (session calls).run { c with input := stream } = .ok (outcomes, d) ∧
        (session calls).run { c with input := other } =
          .ok (outcomes, { d with input := left })) ∨
      ∃ e, LiveFault e ∧
        (session calls).run { c with input := stream } = .error e ∧
        (session calls).run { c with input := other } = .error e := by
  obtain ⟨hsilent, hsilent', bs, hbs, hbs'⟩ := h
  obtain ⟨pending, ending⟩ := stream
  obtain ⟨pending', ending'⟩ := other
  simp only at hsilent hsilent' hbs hbs'
  subst hsilent hsilent'
  cases session_decided calls c bs with
  | @returns taken left outcomes d hruns =>
      obtain ⟨first, second, rfl, hfirst, hsecond⟩ :=
        Feed.carries_append_iff.mp hbs
      obtain ⟨first', second', rfl, hfirst', hsecond'⟩ :=
        Feed.carries_append_iff.mp hbs'
      exact Or.inl ⟨outcomes, d.onto ⟨second, .silent⟩, ⟨second', .silent⟩,
        ⟨rfl, rfl, left, hsecond, hsecond'⟩,
        hruns first ⟨second, .silent⟩ hfirst,
        hruns first' ⟨second', .silent⟩ hfirst'⟩
  | waits hwaits =>
      exact Or.inr ⟨.blocked, .blocked, hwaits.blocked hbs,
        hwaits.blocked hbs'⟩
  | @fails _ e hfails =>
      right
      have hrun := hfails pending ⟨[], .silent⟩ hbs
      have hother := hfails pending' ⟨[], .silent⟩ hbs'
      rw [Feed.push, List.append_nil] at hrun hother
      exact ⟨e, session_faults ⟨rfl, bs, hbs⟩ hrun, hrun, hother⟩

theorem session_schedule_bytewise :
    let get := Query.command (.withArguments (bytes "GET") [bytes "k"])
      .readString
    let reply := bytes "$2\r\nab\r\n"
    let bytewise : Stream := ⟨reply.map fun b => .byte b true, .silent⟩
    let c := connected (streamOf [])
    ∃ d, (session [.pipeline, .query get, .exec]).run
      { c with input := bytewise } = .ok ([.entered true,
        .response (.new .queued), .responses [.ofString (bytes "ab")]], d) := by
  intro get reply bytewise c
  have hsame : SameBytes (streamOf reply) bytewise :=
    ⟨rfl, rfl, reply, delivers_arrivalsOf reply, by
      unfold Delivers Feed.Carries
      decide +kernel⟩
  have hwhole : (session [.pipeline, .query get, .exec]).run
      { c with input := streamOf reply } = .ok ([.entered true,
        .response (.new .queued), .responses [.ofString (bytes "ab")]],
        { c with output := get.cmd.get }) := by
    decide +kernel
  clear_value get reply bytewise c
  have hpieces := @session_schedule [.pipeline, .query get, .exec] c _ _ hsame
  rcases hpieces with ⟨outcomes, d, left, _, hrun, hother⟩ | ⟨e, _, hrun, _⟩
  · rw [← (run_unique hwhole hrun).1] at hother
    exact ⟨_, hother⟩
  · rw [hwhole] at hrun
    contradiction

/-- On anything less than the bytes that it reads, a session that returned
is still waiting. -/
theorem session_waits {calls : List Call} {c d : Client}
    {outcomes : List Outcome} {arrivals others : List Arrival}
    {taken : List Byte} {n : ℕ}
    (h : (session calls).run c = .ok (outcomes, d))
    (hinput : c.input = d.input.push arrivals)
    (harrivals : Delivers arrivals taken) (hn : n < taken.length)
    (hothers : Delivers others (taken.take n)) :
    (session calls).run { c with input := ⟨others, .silent⟩ } =
      .error .blocked := by
  have hrest : taken.drop n ≠ [] := by
    intro hempty
    have hlength := List.drop_eq_nil_iff.mp hempty
    omega
  rw [← List.take_append_drop n taken] at harrivals
  exact (session_decided calls).starved h hinput harrivals hrest hothers

/-- Without the line feed at its end the body of a reply is not there. -/
theorem session_waits_body :
    let get := Query.command (.withArguments (bytes "GET") [bytes "k"])
      .readString
    (session [.query get]).run
      (connected ⟨arrivalsOf (bytes "$1\r\na\r"), .silent⟩) =
        .error .blocked := by
  intro get
  let c := connected ⟨arrivalsOf (bytes "$1\r\na\r\n"), .silent⟩
  let d := { connected (streamOf []) with output := get.cmd.get }
  have hrun : (session [.query get]).run c =
      .ok ([.response (.ofString (bytes "a"))], d) := by decide +kernel
  have harrivals := delivers_arrivalsOf (bytes "$1\r\na\r\n")
  have hothers := delivers_arrivalsOf (bytes "$1\r\na\r")
  have hwaits := session_waits (n := 6) hrun rfl harrivals (by decide)
    hothers
  exact hwaits

end Client

end Redispp
