import Redispp.Outcomes

/-!
# Live connections

On a connection that does not fail the bytes to come decide everything.
`getline` and the body of a bulk reply read a piece from the front of them, or
are stuck for want of more, or fail for a length that the server announced.
By the contracts of the readers no sequence of public calls fails otherwise
while the connection is open.
-/

namespace Redispp

open StateExcept CLibrary

/-- What can go wrong on a live connection. -/
inductive LiveFault : Fault → Prop
  | blocked : LiveFault .blocked
  | signedOverflow : LiveFault .signedOverflow
  | badArrayLength : LiveFault .badArrayLength
  | invertedRange : LiveFault .invertedRange

/-- How a loop goes on when nothing more comes: it waits on an open connection
and spins on a closed one. -/
inductive Stuck : Closing → Fault → Prop
  | blocked : Stuck .silent .blocked
  | endless : Stuck .eof .endless
  | indeterminate : Stuck .eof .indeterminate

theorem Stuck.of_silent {e : Fault} (h : Stuck .silent e) : e = .blocked := by
  cases h with
  | blocked => rfl

def Live (stream : Stream) : Prop :=
  stream.ending = .silent ∧ ∃ bs, Delivers stream.pending bs

def SameBytes (stream other : Stream) : Prop :=
  stream.ending = .silent ∧ other.ending = .silent ∧
    ∃ bs, Delivers stream.pending bs ∧ Delivers other.pending bs

theorem live_streamOf (bs : List Byte) : Live (streamOf bs) :=
  ⟨rfl, bs, delivers_arrivalsOf bs⟩

/-! ## The two loops -/

abbrev DecidesWith {α : Type} (may : Fault → Prop) (m : Recv α) : Prop :=
  Feed.Decides Arrival.carry (· ≠ Closing.failure) Stuck may m

theorem getline_stuck {bs : List Byte} {arrivals : List Arrival}
    {ending : Closing} (hbs : LF ∉ bs) (harrivals : Delivers arrivals bs)
    (hending : ending ≠ .failure) :
    ∃ e, Stuck ending e ∧ getline.run ⟨arrivals, ending⟩ = .error e := by
  have hdrain : getline.run ⟨arrivals, ending⟩ =
      (getlineLoop 1 (bs.getLast?.or none) ([] ++ bs)).run ⟨[], ending⟩ :=
    getlineLoop_drain ending 1 hbs harrivals
  rw [hdrain, Option.or_none]
  cases ending with
  | silent => exact ⟨.blocked, .blocked, rfl⟩
  | eof =>
      cases hlast : bs.getLast? with
      | none => exact ⟨.indeterminate, .indeterminate, rfl⟩
      | some b =>
          have hb : b ≠ LF := by
            rintro rfl
            exact hbs (List.mem_of_getLast? hlast)
          exact ⟨.endless, .endless, getlineLoop_endless hb 1⟩
  | failure => exact absurd rfl hending

theorem bodyBytes_stuck {sz : ℤ} {bs : List Byte} {arrivals : List Arrival}
    {ending : Closing} (hcut : (bs.length : ℤ) < sz + 2)
    (harrivals : Delivers arrivals bs) (hending : ending ≠ .failure) :
    ∃ e, Stuck ending e ∧
      (bodyBytes sz).run ⟨arrivals, ending⟩ = .error e := by
  have hlength := harrivals.length_eq
  have hcalls : arrivals.length < 2 * arrivals.length + 3 := by omega
  cases ending with
  | silent =>
      exact ⟨.blocked, .blocked,
        bodyLoop_blocked hcut (by simp) harrivals hcalls⟩
  | eof =>
      obtain ⟨left, _, hdrain⟩ : ∃ left, 0 < left ∧
          (bodyBytes sz).run ⟨arrivals, .eof⟩ =
            (bodyLoop sz left (sz + 2 - bs.length) ([] ++ bs)).run
              ⟨[], .eof⟩ :=
        bodyLoop_drain .eof hcut (by simp) harrivals hcalls
      have hspins : (bodyLoop sz left (sz + 2 - bs.length) ([] ++ bs)).run
          ⟨[], .eof⟩ = .error .endless :=
        bodyLoop_endless (by omega) (by omega) left
      exact ⟨.endless, .endless, hdrain.trans hspins⟩
  | failure => exact absurd rfl hending

theorem getline_decides (may : Fault → Prop) : DecidesWith may getline := by
  intro bs
  by_cases hmem : LF ∈ bs
  · obtain ⟨line, rest, rfl, hline⟩ := List.eq_append_cons_of_mem hmem
    have hreads := getline_reads hline
    rw [List.append_cons]
    exact .reads hreads
  · apply Feed.Verdict.waits
    intro arrivals ending hending harrivals
    exact getline_stuck hmem harrivals hending

theorem bodyBytes_decides {sz : ℤ} (hsz : 0 ≤ sz + 2) (may : Fault → Prop) :
    DecidesWith may (bodyBytes sz) := by
  intro bs
  by_cases henough : sz + 2 ≤ bs.length
  · have hlength : ((bs.take (sz + 2).toNat).length : ℤ) = sz + 2 := by
      rw [List.length_take]
      omega
    rw [← List.take_append_drop (sz + 2).toNat bs]
    exact .reads (bodyBytes_reads hlength)
  · apply Feed.Verdict.waits
    intro arrivals ending hending harrivals
    exact bodyBytes_stuck (by omega) harrivals hending

theorem readBody_decides (sz : ℤ) : DecidesWith LiveFault (readBody sz) := by
  unfold readBody
  refine Feed.Decides.ite (.throw .signedOverflow) ?_
  split
  · exact .throw .badArrayLength
  · next hsz =>
      apply (bodyBytes_decides (by omega) LiveFault).bind
      intro buf
      exact .ite (.throw .invertedRange) (.pure _)

theorem DecidesWith.meets {α : Type} {m : Recv α} {post : α → Prop}
    (hm : DecidesWith LiveFault m)
    (hpost : ∀ {stream next : Stream} {a : α},
      m.run stream = .ok (a, next) → post a) :
    Meets Live LiveFault m post where
  returns {stream next a} hlive hrun := by
    obtain ⟨hsilent, bs, hbs⟩ := hlive
    refine ⟨?_, hpost hrun⟩
    cases hm bs with
    | @reads front back a' hreads =>
        obtain ⟨first, second, hsplit, hfirst, hsecond⟩ :=
          Feed.carries_append_iff.mp hbs
        have hread := hreads first ⟨second, stream.ending⟩ hfirst
        rw [← Feed.eq_push hsplit] at hread
        rw [(run_unique hrun hread).2]
        exact ⟨hsilent, back, hsecond⟩
    | waits hwaits =>
        obtain ⟨e, _, hstuck⟩ :=
          hwaits stream.pending stream.ending (by simp [hsilent]) hbs
        exact absurd (hrun.symm.trans hstuck) (by simp)
    | fails _ hfails =>
        have hfailed := hfails stream.pending ⟨[], stream.ending⟩ hbs
        rw [← Feed.eq_push (List.append_nil _).symm, hrun] at hfailed
        contradiction
  fails {stream e} hlive hrun := by
    obtain ⟨hsilent, bs, hbs⟩ := hlive
    cases hm bs with
    | @reads front back a hreads =>
        obtain ⟨first, second, hsplit, hfirst, _⟩ :=
          Feed.carries_append_iff.mp hbs
        have hread := hreads first ⟨second, stream.ending⟩ hfirst
        rw [← Feed.eq_push hsplit, hrun] at hread
        contradiction
    | waits hwaits =>
        obtain ⟨e', hwait, hstuck⟩ :=
          hwaits stream.pending stream.ending (by simp [hsilent]) hbs
        rw [hsilent] at hwait
        rw [Except.error.inj (hrun.symm.trans hstuck), hwait.of_silent]
        exact .blocked
    | fails he hfails =>
        have hfailed := hfails stream.pending ⟨[], stream.ending⟩ hbs
        rw [← Feed.eq_push (List.append_nil _).symm] at hfailed
        exact Except.error.inj (hrun.symm.trans hfailed) ▸ he

theorem receives_live : Receives Live LiveFault where
  line := (getline_decides LiveFault).meets fun _ => trivial
  body sz := (readBody_decides sz).meets fun hrun => readBody_length hrun
  inverted := .invertedRange

namespace Client

/-! ## Sessions -/

/-- Calls one after another on one connection, with what they return. -/
def session : List Call → ClientM (List Outcome)
  | [] => return []
  | made :: rest => do
      let outcome ← made.result
      let outcomes ← session rest
      return outcome :: outcomes

theorem session_meets {inv : Stream → Prop} {may : Fault → Prop}
    (hinv : Receives inv may) (calls : List Call) :
    Meets (Kept inv fun _ => True) may (session calls) fun _ => True := by
  induction calls with
  | nil => exact .pure trivial
  | cons made rest ih =>
      apply (result_meets hinv fun _ _ => trivial).bind
      intro outcome _
      apply ih.bind
      intro outcomes _
      exact .pure trivial

/-- On a live connection no session writes outside the buffer of a bulk reply,
uses a character without a value, runs a loop for ever, reads past the end of
a list or cuts a string past its end, whatever the server sends. -/
theorem session_faults {calls : List Call} {c : Client} {e : Fault}
    (hlive : Live c.input) (h : (session calls).run c = .error e) :
    LiveFault e :=
  (session_meets receives_live calls).fails ⟨hlive, fun _ _ => trivial⟩ h

theorem session_faults_blocked :
    let get := Query.command (.withArguments (bytes "GET") [bytes "k"])
      .readString
    let c := connected (streamOf (bytes "$5\r\nab"))
    (session [.query get]).run c = .error .blocked ∧ LiveFault .blocked := by
  intro get c
  have hblocked : (session [.query get]).run c = .error .blocked := by
    decide +kernel
  exact ⟨hblocked, session_faults (live_streamOf _) hblocked⟩

end Client

end Redispp
