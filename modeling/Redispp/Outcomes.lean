import Redispp.KeyLists
import Redispp.Ranges

/-!
# Outcomes of the public calls

What a call returns, besides what it does to the client.  Each mode expects
outcomes of certain kinds of each call, and in any run, whatever the server
sends, no call returns anything else.
-/

namespace Redispp

open StateExcept CLibrary

inductive Outcome
  | response (resp : Response)
  | entered (entered : Bool)
  | responses (responses : List Response)
  deriving DecidableEq

def Call.result : Call → ClientM Outcome
  | .query q => do
      let resp ← q.perform
      return .response resp
  | .multi => do
      let resp ← Client.multi
      return .response resp
  | .pipeline => do
      let entered ← Client.pipeline
      return .entered entered
  | .exec => do
      let responses ← Client.exec
      return .responses responses
  | .discard => do
      let resp ← Client.discard
      return .response resp

theorem run_wrapped_iff {α β : Type} {m : ClientM α} {wrap : α → β}
    {c d : Client} {b : β} :
    (do let a ← m; return wrap a : ClientM β).run c = .ok (b, d) ↔
      ∃ a, m.run c = .ok (a, d) ∧ b = wrap a := by
  constructor
  · intro h
    obtain ⟨a, next, hm, hpure⟩ := run_bind_eq_ok h
    obtain ⟨rfl, rfl⟩ := run_pure_eq_ok hpure
    exact ⟨a, hm, rfl⟩
  · rintro ⟨a, hm, rfl⟩
    exact run_bind_of_ok hm

theorem Call.run_perform_iff {call : Call} {c d : Client} :
    call.perform.run c = .ok ((), d) ↔
      ∃ outcome, call.result.run c = .ok (outcome, d) := by
  cases call <;>
    simp only [Call.perform, Call.result, run_wrapped_iff] <;> simp

/-! ## What the modes expect -/

def ResponseReader.Gives (asked : Buffer → Prop) :
    ResponseReader → Response → Prop
  | .stream reader => reader.Gives
  | .readMultiString => ErrOr (HashOf asked)

def Query.Gives : Query → Response → Prop
  | .command _ reader => reader.Gives
  | .mget keys => ErrOr (HashOf (· ∈ keys))

/-- A batch's MGETs may be answered with the keys of one another. -/
def GivesEach (asked : Buffer → Prop) (issued : List Query)
    (responses : List Response) : Prop :=
  List.Forall₂ (fun query => query.reader.Gives asked) issued responses

def Mode.Expects (asked : Buffer → Prop) : Mode → Call → Outcome → Prop
  | .normal, .query query, .response resp => query.Gives resp
  | .multi _, .query _, .response resp => StreamReader.readQueued.Gives resp
  | .pipeline _, .query _, .response resp => resp = .new .queued
  | .normal, .multi, .response resp => StreamReader.readStatusCode.Gives resp
  | _, .multi, .response resp => resp = .new .err
  | mode, .pipeline, .entered entered => entered = decide (mode = .normal)
  | .normal, .exec, .responses responses => responses = []
  | .multi issued, .exec, .responses responses =>
      responses = [] ∨ GivesEach asked issued responses
  | .pipeline issued, .exec, .responses responses =>
      GivesEach asked issued responses
  | _, .discard, .response resp => StreamReader.readStatusCode.Gives resp
  | _, _, _ => False

theorem GivesEach.mono {asked wider : Buffer → Prop}
    (hasked : ∀ key, asked key → wider key) {issued : List Query}
    {responses : List Response} (h : GivesEach asked issued responses) :
    GivesEach wider issued responses := by
  refine h.imp fun query resp hgives => ?_
  cases hreader : query.reader with
  | stream reader => rwa [hreader] at hgives
  | readMultiString =>
      rw [hreader] at hgives
      rcases hgives with herr | ⟨map, hresp, hmap⟩
      · exact Or.inl herr
      · exact Or.inr ⟨map, hresp, fun key val hlookup =>
          ⟨hasked key (hmap key val hlookup).1, (hmap key val hlookup).2⟩⟩

theorem Mode.Expects.mono {asked wider : Buffer → Prop}
    (hasked : ∀ key, asked key → wider key) {mode : Mode} {call : Call}
    {outcome : Outcome} (h : mode.Expects asked call outcome) :
    mode.Expects wider call outcome := by
  cases call <;> cases outcome <;> cases mode <;>
    simp only [Mode.Expects] at h ⊢ <;> try exact h
  · exact h.imp_right (GivesEach.mono hasked)
  · exact h.mono hasked

namespace Client

/-! ## Contracts of the calls -/

/-- The invariant of the stream, and key lists that were asked for. -/
structure Kept (inv : Stream → Prop) (asked : List Buffer → Prop)
    (c : Client) : Prop where
  input : inv c.input
  keys : ∀ keys ∈ c.mMgetKeys, asked keys

def AskedKey (asked : List Buffer → Prop) (key : Buffer) : Prop :=
  ∃ keys, asked keys ∧ key ∈ keys

section Contracts

variable {inv : Stream → Prop} {may : Fault → Prop}
  {asked : List Buffer → Prop}

theorem receive_meets {α : Type} {m : Recv α} {post : α → Prop}
    (hm : Meets inv may m post) :
    Meets (Kept inv asked) may (receive m) post where
  returns hc hrun := by
    obtain ⟨input, hread, rfl⟩ := run_receive_eq_ok hrun
    obtain ⟨hinput, hpost⟩ := hm.returns hc.input hread
    exact ⟨⟨hinput, hc.keys⟩, hpost⟩
  fails {c e} hc hrun := by
    cases hread : m.run c.input with
    | ok result =>
        rw [run_receive_of_ok hread] at hrun
        contradiction
    | error e' =>
        rw [run_receive_of_error hread] at hrun
        exact Except.error.inj hrun ▸ hm.fails hc.input hread

theorem send_meets (cmd : Command) :
    Meets (Kept inv asked) may (send cmd) fun _ => True where
  returns hc hrun := by
    rw [run_send] at hrun
    obtain ⟨_, rfl⟩ := Prod.mk.inj (Except.ok.inj hrun)
    exact ⟨⟨hc.input, hc.keys⟩, trivial⟩
  fails _ hrun := by
    rw [run_send] at hrun
    contradiction

variable (hinv : Receives inv may)

include hinv

theorem readerCall_meets (reader : ResponseReader)
    {mgetKeys : List (List Buffer)} (hkeys : ∀ keys ∈ mgetKeys, asked keys) :
    Meets inv may (reader.call mgetKeys) fun result =>
      reader.Gives (AskedKey asked) result.1 ∧
        ∀ keys ∈ result.2, asked keys := by
  cases reader with
  | stream reader =>
      apply (reader.recv_meets hinv).bind
      intro resp hresp
      exact .pure ⟨hresp, hkeys⟩
  | readMultiString =>
      apply (readMultiString_meets hinv mgetKeys).weaken
      rintro ⟨resp, left⟩ ⟨hresp, hleft⟩
      constructor
      · rcases hresp with herr | ⟨map, rfl, hmap⟩
        · exact Or.inl herr
        · refine Or.inr ⟨map, rfl, fun key val hlookup => ?_⟩
          obtain ⟨⟨keys, hlast, hkey⟩, hval⟩ := hmap key val hlookup
          exact ⟨⟨keys, hkeys keys (List.mem_of_getLast? hlast), hkey⟩, hval⟩
      · rcases hleft with rfl | rfl
        · exact hkeys
        · exact fun keys hmem => hkeys keys (List.mem_of_mem_dropLast hmem)

theorem call_meets (reader : ResponseReader) :
    Meets (Kept inv asked) may (call reader)
      (reader.Gives (AskedKey asked)) := by
  refine .get_bind fun c hc => ?_
  apply (receive_meets (readerCall_meets hinv reader hc.keys)).bind
  rintro ⟨resp, left⟩ ⟨hresp, hleft⟩
  exact .modify_bind (fun d hd => ⟨hd.input, hleft⟩) (.pure hresp)

theorem readBack_meets (readers : List ResponseReader) :
    Meets (Kept inv asked) may (readBack readers)
      (List.Forall₂ (ResponseReader.Gives (AskedKey asked)) readers) := by
  induction readers with
  | nil => exact .pure .nil
  | cons reader readers ih =>
      apply (call_meets hinv reader).bind
      intro resp hresp
      apply ih.bind
      intro ret hret
      exact .pure (.cons hresp hret)

theorem run_meets (cmd : Command) (reader : ResponseReader) :
    Meets (Kept inv asked) may (run cmd reader) fun _ => True := by
  refine .get_bind fun c hc => .ite (fun _ => ?_) fun _ => ?_
  · exact .modify_bind (fun d hd => ⟨hd.input, hd.keys⟩) (.pure trivial)
  · apply (send_meets cmd).bind
    intro _ _
    refine .ite (fun _ => ?_) fun _ => ?_
    · refine .modify_bind (fun d hd => ⟨hd.input, hd.keys⟩) ?_
      exact (receive_meets (StreamReader.readQueued.recv_meets hinv)).weaken
        fun _ _ => trivial
    · exact (call_meets hinv reader).weaken fun _ _ => trivial

theorem query_meets {query : Query} (hkeys : ∀ keys ∈ query.keys, asked keys) :
    Meets (Kept inv asked) may query.perform fun _ => True := by
  cases query with
  | command cmd reader => exact run_meets hinv cmd (.stream reader)
  | mget keys =>
      refine .modify_bind (fun c hc => ⟨hc.input, fun others hmem => ?_⟩)
        (run_meets hinv _ _)
      rcases List.mem_append.mp hmem with hold | hnew
      · exact hc.keys others hold
      · exact hkeys others hnew

theorem multi_meets :
    Meets (Kept inv asked) may multi fun _ => True := by
  refine .get_bind fun c hc => .ite (fun _ => .pure trivial) fun _ => ?_
  apply (run_meets hinv _ _).bind
  intro ret _
  exact .modify_bind (fun d hd => ⟨hd.input, hd.keys⟩) (.pure trivial)

omit hinv in
theorem pipeline_meets :
    Meets (Kept inv asked) may pipeline fun _ => True := by
  refine .get_bind fun c hc => .ite (fun _ => .pure trivial) fun _ => ?_
  exact .modify_bind (fun d hd => ⟨hd.input, hd.keys⟩) (.pure trivial)

theorem discard_meets :
    Meets (Kept inv asked) may discard fun _ => True :=
  .modify_bind (fun _ hc => ⟨hc.input, hc.keys⟩) (run_meets hinv _ _)

theorem execHeader_meets :
    Meets (Kept inv asked) may execHeader fun _ => True := by
  apply (send_meets _).bind
  intro _ _
  apply (receive_meets hinv.line).bind
  intro str _
  exact .get_bind fun c hc => .pure trivial

theorem execMulti_meets :
    Meets (Kept inv asked) may execMulti fun _ => True := by
  apply (execHeader_meets hinv).bind
  intro found _
  refine .ite (fun _ => .pure trivial) fun _ => ?_
  refine .get_bind fun c hc => ?_
  apply (readBack_meets hinv _).bind
  intro ret _
  exact .modify_bind (fun d hd => ⟨hd.input, hd.keys⟩) (.pure trivial)

theorem execPipeline_meets :
    Meets (Kept inv asked) may execPipeline fun _ => True := by
  refine .get_bind fun c hc => ?_
  refine .modify_bind (fun d hd => ⟨hd.input, hd.keys⟩) ?_
  apply (readBack_meets hinv _).bind
  intro ret _
  exact .modify_bind (fun d hd => ⟨hd.input, hd.keys⟩) (.pure trivial)

theorem exec_meets : Meets (Kept inv asked) may exec fun _ => True := by
  refine .get_bind fun c hc => .ite (fun _ => execMulti_meets hinv) fun _ => ?_
  exact .ite (fun _ => execPipeline_meets hinv) fun _ => .pure trivial

theorem result_meets {call : Call}
    (hkeys : ∀ keys, call = .query (.mget keys) → asked keys) :
    Meets (Kept inv asked) may call.result fun _ => True := by
  cases call with
  | query query =>
      refine (query_meets hinv ?_).bind fun _ _ => .pure trivial
      intro keys hmem
      cases query with
      | command cmd reader => simp [Query.keys] at hmem
      | mget others =>
          obtain rfl := List.mem_singleton.mp hmem
          exact hkeys keys rfl
  | multi => exact (multi_meets hinv).bind fun _ _ => .pure trivial
  | pipeline => exact pipeline_meets.bind fun _ _ => .pure trivial
  | exec => exact (exec_meets hinv).bind fun _ _ => .pure trivial
  | discard => exact (discard_meets hinv).bind fun _ _ => .pure trivial

end Contracts

/-! ## What a call returns -/

theorem receives_any : Receives (fun _ => True) fun _ => True where
  line := ⟨fun _ _ => ⟨trivial, trivial⟩, fun _ _ => trivial⟩
  body _ := ⟨fun _ hrun => ⟨trivial, readBody_length hrun⟩, fun _ _ => trivial⟩
  inverted := trivial

section Expected

variable {mode : Mode} {c d : Client} {resp : Response}
  {responses : List Response}

theorem call_mget_gives {keys : List Buffer} {front : List (List Buffer)}
    (hkeys : c.mMgetKeys = front ++ [keys])
    (hrun : (call .readMultiString).run c = .ok (resp, d)) :
    (Query.mget keys).Gives resp := by
  obtain ⟨hread, _⟩ := run_call_reader hrun
  have hgives := (readMultiString_meets receives_any c.mMgetKeys).returns
    trivial hread
  rw [hkeys] at hgives
  rcases hgives.2.1 with herr | ⟨map, hresp, hmap⟩
  · exact Or.inl herr
  · refine Or.inr ⟨map, hresp, fun key val hlookup => ?_⟩
    obtain ⟨⟨others, hlast, hkey⟩, hval⟩ := hmap key val hlookup
    simp only [List.getLast?_append, List.getLast?_singleton,
      Option.some_or, Option.mem_def, Option.some.injEq] at hlast
    exact ⟨hlast ▸ hkey, hval⟩

theorem receive_gives {reader : StreamReader}
    (hrun : (receive reader.recv).run c = .ok (resp, d)) :
    reader.Gives resp := by
  have hmeets : Meets (Kept (fun _ => True) fun _ => True) (fun _ => True)
      (receive reader.recv) reader.Gives :=
    receive_meets (reader.recv_meets receives_any)
  exact (hmeets.returns ⟨trivial, fun _ _ => trivial⟩ hrun).2

theorem readBack_gives {issued : List Query} {next : Client}
    (hreaders : c.mReaders = issued.map Query.reader)
    (hkeys : next.mMgetKeys = c.mMgetKeys)
    (hrun : (readBack c.mReaders).run next = .ok (responses, d)) :
    GivesEach (AskedKey (· ∈ c.mMgetKeys)) issued responses := by
  have hgives := (readBack_meets receives_any _).returns
    ⟨trivial, fun _ hmem => hmem⟩ hrun
  rw [hkeys, hreaders] at hgives
  exact List.forall₂_map_left_iff.mp hgives.2

theorem run_status_gives {keyword : Buffer} (hmulti : c.mMulti = false)
    (hpipeline : c.mPipeline = false)
    (hrun : (run (.ofKeyword keyword) (.stream .readStatusCode)).run c =
      .ok (resp, d)) :
    StreamReader.readStatusCode.Gives resp := by
  rw [run_run_normal hpipeline hmulti, run_call_stream] at hrun
  exact receive_gives hrun

theorem query_expected {asked : Buffer → Prop} {query : Query}
    (h : Mode.Represents mode c)
    (hrun : query.perform.run c = .ok (resp, d)) :
    mode.Expects asked (.query query) (.response resp) := by
  have hmulti := h.multi
  have hpipeline := h.pipeline
  rw [query.run_perform] at hrun
  cases mode with
  | normal =>
      rw [run_run_normal (by exact hpipeline) (by exact hmulti)] at hrun
      cases query with
      | command cmd reader =>
          rw [Query.reader, run_call_stream] at hrun
          exact receive_gives hrun
      | mget keys => exact call_mget_gives rfl hrun
  | multi issued =>
      rw [run_run_multi (by exact hpipeline) (by exact hmulti)] at hrun
      have hgives : StreamReader.readQueued.Gives resp := receive_gives hrun
      exact hgives
  | pipeline issued =>
      exact (run_unique hrun (run_run_pipeline (by exact hpipeline) _ _)).1

theorem multi_expected {asked : Buffer → Prop} (h : Mode.Represents mode c)
    (hrun : multi.run c = .ok (resp, d)) :
    mode.Expects asked .multi (.response resp) := by
  have hmulti := h.multi
  have hpipeline := h.pipeline
  cases mode with
  | normal =>
      simp only [Mode.isMulti, Mode.isPipeline] at hmulti hpipeline
      rw [multi, run_get_bind, if_neg (by simp [hmulti, hpipeline])] at hrun
      obtain ⟨ret, next, hsent, hrest⟩ := run_bind_eq_ok hrun
      rw [run_modify_bind] at hrest
      obtain ⟨rfl, _⟩ := run_pure_eq_ok hrest
      exact run_status_gives hmulti hpipeline hsent
  | multi issued =>
      exact (run_unique hrun (run_multi_open (by simp [hmulti]))).1
  | pipeline issued =>
      exact (run_unique hrun (run_multi_open (by simp [hpipeline]))).1

theorem pipeline_expected {asked : Buffer → Prop} {entered : Bool}
    (h : Mode.Represents mode c)
    (hrun : pipeline.run c = .ok (entered, d)) :
    mode.Expects asked .pipeline (.entered entered) := by
  have hmulti := h.multi
  have hpipeline := h.pipeline
  cases mode with
  | normal =>
      exact (run_unique hrun
        (run_pipeline_normal (by exact hmulti) (by exact hpipeline))).1
  | multi issued =>
      exact (run_unique hrun (run_pipeline_open (by simp [hmulti]))).1
  | pipeline issued =>
      exact (run_unique hrun (run_pipeline_open (by simp [hpipeline]))).1

theorem execMulti_expected {issued : List Query}
    (h : Mode.Represents (.multi issued) c)
    (hrun : execMulti.run c = .ok (responses, d)) :
    responses = [] ∨
      GivesEach (AskedKey (· ∈ c.mMgetKeys)) issued responses := by
  rw [execMulti] at hrun
  obtain ⟨found, next, hheader, hrest⟩ := run_bind_eq_ok hrun
  obtain ⟨hkeys, hreaders⟩ := execHeader_frame hheader
  cases found with
  | false =>
      rw [if_pos rfl] at hrest
      exact Or.inl (run_pure_eq_ok hrest).1
  | true =>
      rw [if_neg (by simp), run_get_bind, hreaders] at hrest
      obtain ⟨ret, last, hback, hclean⟩ := run_bind_eq_ok hrest
      rw [run_modify_bind] at hclean
      obtain ⟨rfl, _⟩ := run_pure_eq_ok hclean
      exact Or.inr (readBack_gives h.readers hkeys hback)

theorem execPipeline_expected {issued : List Query}
    (h : Mode.Represents (.pipeline issued) c)
    (hrun : execPipeline.run c = .ok (responses, d)) :
    GivesEach (AskedKey (· ∈ c.mMgetKeys)) issued responses := by
  rw [execPipeline, run_get_bind, run_bind_of_ok (run_write _)] at hrun
  obtain ⟨ret, last, hback, hclean⟩ := run_bind_eq_ok hrun
  rw [run_modify_bind] at hclean
  obtain ⟨rfl, _⟩ := run_pure_eq_ok hclean
  exact readBack_gives h.readers (by rfl) hback

theorem exec_expected (h : Mode.Represents mode c)
    (hrun : exec.run c = .ok (responses, d)) :
    mode.Expects (AskedKey (· ∈ c.mMgetKeys)) .exec
      (.responses responses) := by
  have hmulti := h.multi
  have hpipeline := h.pipeline
  cases mode with
  | normal =>
      exact (run_unique hrun
        (run_exec_normal (by exact hmulti) (by exact hpipeline))).1
  | multi issued =>
      rw [run_exec_multi (by exact hmulti)] at hrun
      exact execMulti_expected h hrun
  | pipeline issued =>
      rw [run_exec_pipeline (by exact hmulti) (by exact hpipeline)] at hrun
      exact execPipeline_expected h hrun

theorem discard_expected {asked : Buffer → Prop}
    (hrun : discard.run c = .ok (resp, d)) :
    mode.Expects asked .discard (.response resp) := by
  rw [discard, run_modify_bind] at hrun
  have hgives := run_status_gives (by exact rfl) (by exact rfl) hrun
  cases mode <;> exact hgives

theorem result_expected {call : Call} {outcome : Outcome}
    (h : Mode.Represents mode c)
    (hrun : call.result.run c = .ok (outcome, d)) :
    mode.Expects (AskedKey (· ∈ c.mMgetKeys)) call outcome := by
  cases call <;> rw [Call.result, run_wrapped_iff] at hrun <;>
    obtain ⟨value, hvalue, rfl⟩ := hrun
  case query query => exact query_expected h hvalue
  case multi => exact multi_expected h hvalue
  case pipeline => exact pipeline_expected h hvalue
  case exec => exact exec_expected h hvalue
  case discard => exact discard_expected hvalue

end Expected

/-! ## Whole runs -/

/-- A call with what comes in for it and what it returns. -/
structure Made where
  input : Stream
  call : Call
  outcome : Outcome

def Returns (c : Client) (made : Made) (d : Client) : Prop :=
  made.call.result.run { c with input := made.input } = .ok (made.outcome, d)

def AskedIn (calls : List Call) (keys : List Buffer) : Prop :=
  .query (.mget keys) ∈ calls

/-- A run is one of the modes, and only key lists of its calls are waiting. -/
structure Follows (history : List Made) (c : Client) (mode : Mode) : Prop where
  steps : Runs.Run Mode.Step .normal (history.map Made.call) mode
  represents : Mode.Represents mode c
  keys : ∀ keys ∈ c.mMgetKeys, AskedIn (history.map Made.call) keys

theorem Follows.step {history : List Made} {c d : Client} {mode : Mode}
    {made : Made} (h : Follows history c mode) (hmade : Returns c made d) :
    ∃ next, Follows (history ++ [made]) d next := by
  have hperform := Call.run_perform_iff.mpr ⟨made.outcome, hmade⟩
  obtain ⟨next, hstep, hreaches⟩ := perform_refines
    (h.represents.frame made.input c.output c.mMgetKeys) hperform
  have hmeets : Meets (Kept (fun _ => True)
      (AskedIn ((history ++ [made]).map Made.call))) (fun _ => True)
      made.call.result fun _ => True :=
    result_meets receives_any (by simp +contextual [AskedIn])
  have hkeys := hmeets.returns ⟨trivial, fun keys hmem => ?_⟩ hmade
  · refine ⟨next, ?_, hreaches.represents, hkeys.1.keys⟩
    rw [List.map_append]
    exact h.steps.snoc hstep
  · have hold := h.keys keys hmem
    simp only [AskedIn, List.map_append, List.mem_append] at hold ⊢
    exact Or.inl hold

theorem run_follows {input : Stream} {history : List Made} {c : Client}
    (h : Runs.Run Returns (connected input) history c) :
    ∃ mode, Follows history c mode := by
  apply h.history_invariant fun history c => ∃ mode, Follows history c mode
  · exact ⟨.normal, .nil,
      Mode.represents_normal_iff.mpr (connected_normal input), by
        simp [connected]⟩
  · rintro past c made d ⟨mode, hfollows⟩ hmade
    exact hfollows.step hmade

/-- Whatever the server sends, in a run no call returns anything but what the
mode it is made in expects of it. -/
theorem outcome_expected {input : Stream} {history : List Made}
    {c d : Client} {made : Made}
    (h : Runs.Run Returns (connected input) history c)
    (hmade : Returns c made d) :
    ∃ mode, Runs.Run Mode.Step .normal (history.map Made.call) mode ∧
      Mode.Represents mode c ∧
      mode.Expects (AskedKey (AskedIn (history.map Made.call))) made.call
        made.outcome := by
  obtain ⟨mode, hfollows⟩ := run_follows h
  refine ⟨mode, hfollows.steps, hfollows.represents, ?_⟩
  apply (result_expected (hfollows.represents.frame made.input c.output
    c.mMgetKeys) hmade).mono
  rintro key ⟨keys, hmem, hkey⟩
  exact ⟨keys, hfollows.keys keys hmem, hkey⟩

theorem outcome_expected_mismatch :
    let get := Query.command (.withArguments (bytes "GET") [bytes "k"])
      .readString
    let c := { connected (streamOf []) with
      mReaders := [get.reader], mPipeline := true, mCmd := get.cmd.get }
    let history : List Made := [⟨streamOf [], .pipeline, .entered true⟩,
      ⟨streamOf [], .query get, .response (.new .queued)⟩]
    let made : Made :=
      ⟨streamOf (bytes ":1\r\n"), .exec, .responses [.new .err]⟩
    ∃ mode, Runs.Run Mode.Step .normal (history.map Made.call) mode ∧
      Mode.Represents mode c ∧
      mode.Expects (AskedKey (AskedIn (history.map Made.call))) made.call
        made.outcome := by
  intro get c history made
  have hfirst : Returns (connected (streamOf [])) history[0]
      { connected (streamOf []) with mPipeline := true } := rfl
  have hsecond : Returns { connected (streamOf []) with mPipeline := true }
      history[1] c := rfl
  have hexec : ∃ d, Returns c made d :=
    ⟨{ connected (streamOf []) with output := get.cmd.get }, by
      unfold Returns
      decide +kernel⟩
  obtain ⟨d, hmade⟩ := hexec
  exact outcome_expected (.snoc (.snoc .nil hfirst) hsecond) hmade

end Client

end Redispp
