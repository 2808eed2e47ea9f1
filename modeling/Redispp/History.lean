import Redispp.Commands

/-!
# What a run writes

A history is the list of public calls made so far, each with the mode it was
made in.  It determines the bytes on the wire and, with the mode, the queues of
the client: in a pipeline `m_cmd` holds the commands issued since `pipeline()`
was called, and no other command is written late, twice or not at all.
-/

namespace Redispp

open StateExcept Runs Client

inductive Kind
  | normal
  | multi
  | pipeline
  deriving DecidableEq, Repr

def Client.kind (c : Client) : Kind :=
  if c.mPipeline then .pipeline
  else if c.mMulti then .multi
  else .normal

/-- A public call and the mode it is made in. -/
structure Event where
  kind : Kind
  action : Action
  deriving DecidableEq

namespace Event

def issues (event : Event) : Option Query :=
  if event.action.rejected then none
  else
    match event.action.accepted with
    | .query query => some query
    | _ => none

/-- The call that sets the flag of a mode. -/
def opens : Kind → Event → Bool
  | .normal, _ => false
  | .multi, event => event.kind = .normal && event.action = .call .multi
  | .pipeline, event => event.kind = .normal && event.action = .call .pipeline

/-- The commands issued since the last call that opened a batch. -/
def issuedSince (kind : Kind) (past : List Event) : List Query :=
  (since (opens kind) past).filterMap issues

/-- The bytes a call puts on the wire. -/
def writes (past : List Event) (event : Event) : Buffer :=
  if event.action.rejected then []
  else
    match event.kind, event.action.accepted with
    | .pipeline, .query _ => []
    | _, .query query => query.cmd.get
    | .normal, .multi => (Command.ofKeyword (bytes "MULTI")).get
    | _, .multi => []
    | _, .pipeline => []
    | .normal, .exec => []
    | .multi, .exec => (Command.ofKeyword (bytes "EXEC")).get
    | .pipeline, .exec => wire (issuedSince .pipeline past)
    | _, .discard => (Command.ofKeyword (bytes "DISCARD")).get

/-- The call returns, on whatever the server has sent by then. -/
def Made (c : Client) (event : Event) (d : Client) : Prop :=
  event.kind = c.kind ∧ ∃ stream,
    event.action.perform.run { c with input := stream } = .ok ((), d)

/-! ## The mode behind a history -/

def mode (kind : Kind) (past : List Event) : Mode :=
  match kind with
  | .normal => .normal
  | .multi => .multi (issuedSince .multi past)
  | .pipeline => .pipeline (issuedSince .pipeline past)

theorem issuedSince_concat (kind : Kind) (past : List Event) (event : Event) :
    issuedSince kind (past ++ [event]) =
      if opens kind event then []
      else issuedSince kind past ++ event.issues.toList := by
  unfold issuedSince
  rw [since_concat]
  split
  · rfl
  · rw [List.filterMap_append]
    cases h : event.issues <;> simp [h]

theorem issues_of_query {event : Event} {query : Query}
    (haccepted : event.action.rejected = false)
    (hquery : event.action.accepted = .query query) :
    event.issues = some query := by
  simp [issues, haccepted, hquery]

theorem opens_of_query (kind : Kind) {event : Event} {query : Query}
    (hquery : event.action.accepted = .query query) :
    opens kind event = false := by
  have hmulti : event.action ≠ .call .multi := by
    intro h
    simp [h, Action.accepted] at hquery
  have hpipeline : event.action ≠ .call .pipeline := by
    intro h
    simp [h, Action.accepted] at hquery
  cases kind <;> simp [opens, hmulti, hpipeline]

theorem issues_of_rejected {event : Event}
    (h : event.action.rejected = true) : event.issues = none := by
  simp [issues, h]

theorem opens_of_rejected (kind : Kind) {event : Event}
    (h : event.action.rejected = true) : opens kind event = false := by
  have hcall : ∀ made, event.action ≠ .call made := by
    intro made hmade
    simp [hmade, Action.rejected] at h
  cases kind <;> simp [opens, hcall]

theorem kind_eq_of_represents {kind : Kind} {past : List Event} {c : Client}
    (h : Mode.Represents (mode kind past) c) : c.kind = kind := by
  unfold Client.kind
  rw [h.multi, h.pipeline]
  cases kind <;> rfl

theorem mode_concat_of_silent {past : List Event} {event : Event} (kind : Kind)
    (hopens : opens kind event = false) (hissues : event.issues = none) :
    mode kind (past ++ [event]) = mode kind past := by
  cases kind <;> simp [mode, issuedSince_concat, hopens, hissues]

theorem mode_concat_of_query {past : List Event} {event : Event}
    {query : Query} (haccepted : event.action.rejected = false)
    (hquery : event.action.accepted = .query query) :
    mode event.kind (past ++ [event]) =
      (mode event.kind past).issue query := by
  have hopens := opens_of_query event.kind hquery
  have hissues := issues_of_query haccepted hquery
  cases hkind : event.kind <;> rw [hkind] at hopens <;>
    simp [mode, issuedSince_concat, hopens, hissues]

theorem call_of_accepted {event : Event} {made : Call}
    (h : event.action.accepted = made)
    (hquery : ∀ query, made ≠ .query query) : event.action = .call made := by
  cases haction : event.action with
  | call other =>
      rw [haction, Action.accepted] at h
      rw [h]
  | _ => simp [haction, Action.accepted, ← h] at hquery

theorem issues_of_call {event : Event} {made : Call}
    (h : event.action = .call made) (hquery : ∀ query, made ≠ .query query) :
    event.issues = none := by
  unfold issues
  rw [h]
  cases made with
  | query query => exact absurd rfl (hquery query)
  | _ => rfl

theorem opens_of_batch {event : Event} (h : event.kind ≠ .normal)
    (kind : Kind) : opens kind event = false := by
  cases kind <;> simp [opens, h]

theorem enter_mode (kind : Kind) {past : List Event} {event : Event}
    (hissues : event.issues = none) (hkind : kind ≠ .normal)
    (hopens : event.kind = .normal → opens kind event = true) :
    ∃ after, (mode event.kind past).enter (mode kind []) =
      mode after (past ++ [event]) := by
  by_cases hnormal : event.kind = .normal
  · have hnil : issuedSince kind (past ++ [event]) = [] := by
      simp [issuedSince_concat, hopens hnormal]
    refine ⟨kind, ?_⟩
    rw [hnormal]
    cases kind with
    | normal => exact absurd rfl hkind
    | multi => exact congrArg Mode.multi hnil.symm
    | pipeline => exact congrArg Mode.pipeline hnil.symm
  · refine ⟨event.kind, ?_⟩
    rw [mode_concat_of_silent _ (opens_of_batch hnormal _) hissues]
    cases hevent : event.kind with
    | normal => exact absurd hevent hnormal
    | multi => rfl
    | pipeline => rfl

/-- The mode after a call is again the one that the history gives. -/
theorem next_mode {past : List Event} {event : Event} {next : Mode}
    (haccepted : event.action.rejected = false)
    (h : Mode.Step (mode event.kind past) event.action.accepted next) :
    ∃ kind, next = mode kind (past ++ [event]) := by
  generalize hmade : event.action.accepted = made at h
  generalize hbefore : mode event.kind past = before at h
  cases h with
  | @query query =>
      refine ⟨event.kind, ?_⟩
      rw [mode_concat_of_query haccepted hmade, hbefore]
  | multi =>
      have hcall := call_of_accepted hmade (by simp)
      rw [← hbefore]
      exact enter_mode .multi (issues_of_call hcall (by simp))
        (by simp) (fun hkind => by simp [opens, hkind, hcall])
  | pipeline =>
      have hcall := call_of_accepted hmade (by simp)
      rw [← hbefore]
      exact enter_mode .pipeline (issues_of_call hcall (by simp))
        (by simp) (fun hkind => by simp [opens, hkind, hcall])
  | discard => exact ⟨.normal, rfl⟩
  | exec => exact ⟨.normal, rfl⟩
  | execRefused =>
      have hcall := call_of_accepted hmade (by simp)
      have hopens : opens event.kind event = false := by
        cases hkind : event.kind <;> simp [opens, hcall]
      refine ⟨event.kind, ?_⟩
      rw [mode_concat_of_silent _ hopens (issues_of_call hcall (by simp)),
        hbefore]

theorem sends_eq_writes {past : List Event} {event : Event}
    (haccepted : event.action.rejected = false) :
    (((mode event.kind past).sends event.action.accepted).map
      Command.get).flatten = writes past event := by
  unfold writes
  rw [if_neg (by simp [haccepted])]
  cases hkind : event.kind <;> cases hmade : event.action.accepted <;>
    simp [mode, wire, Function.comp_def]

/-! ## Runs with their history -/

/-- The client is as its history says. -/
structure Records (past : List Event) (c : Client) : Prop where
  represents : Mode.Represents (mode c.kind past) c
  output : c.output = written writes [] past

theorem made_records {past : List Event} {c d : Client} {event : Event}
    (h : Records past c) (hmade : Made c event d) :
    Records (past ++ [event]) d := by
  obtain ⟨hkind, stream, hrun⟩ := hmade
  have hbefore := h.represents.frame stream c.output c.mMgetKeys
  rw [← hkind] at hbefore
  cases hrejected : event.action.rejected with
  | true =>
      obtain rfl := Action.eq_of_rejected hrejected hrun
      have hmode : mode event.kind (past ++ [event]) = mode event.kind past :=
        mode_concat_of_silent event.kind (opens_of_rejected _ hrejected)
          (issues_of_rejected hrejected)
      rw [← hmode] at hbefore
      refine ⟨?_, ?_⟩
      · rw [kind_eq_of_represents hbefore]
        exact hbefore
      · rw [written_concat, writes, if_pos hrejected, List.append_nil]
        exact h.output
  | false =>
      have hcalled := Action.run_perform_accepted hrejected hrun
      obtain ⟨next, hstep, hnext⟩ := perform_refines hbefore hcalled
      obtain ⟨kind, rfl⟩ := next_mode hrejected hstep
      refine ⟨?_, ?_⟩
      · rw [kind_eq_of_represents hnext.represents]
        exact hnext.represents
      · rw [written_concat, ← sends_eq_writes hrejected, ← h.output]
        exact hnext.output

theorem run_records {input : Stream} {events : List Event} {c : Client}
    (h : Run Made (connected input) events c) : Records events c := by
  apply h.history_invariant Records
  · exact ⟨Mode.represents_normal_iff.mpr (connected_normal input), rfl⟩
  · intro past before event after hbefore hmade
    exact made_records hbefore hmade

/-! ## Calls that never write -/

/-- A command issued in a pipeline which `discard()` ends. -/
def Discarded (event : Event) (later : List Event) : Prop :=
  event.kind = .pipeline ∧ event.issues.isSome ∧
    ∃ middle last back, later = middle ++ last :: back ∧
      last.action = .call .discard ∧
      ∀ other ∈ middle, other.action ≠ .call .exec

theorem issuedSince_congr {kind : Kind} {past other : List Event}
    (h : issuedSince kind past = issuedSince kind other)
    (back : List Event) :
    issuedSince kind (past ++ back) = issuedSince kind (other ++ back) := by
  induction back using List.reverseRecOn with
  | nil => simpa using h
  | append_singleton back event ih =>
      rw [← List.append_assoc, ← List.append_assoc, issuedSince_concat,
        issuedSince_concat, ih]

theorem writes_congr {past other : List Event}
    (h : issuedSince .pipeline past = issuedSince .pipeline other)
    (event : Event) : writes past event = writes other event := by
  unfold writes
  rw [h]

/-- Only `exec` in a pipeline looks back. -/
theorem writes_of_not_exec {event : Event}
    (h : event.kind = .pipeline → event.action ≠ .call .exec)
    (past other : List Event) : writes past event = writes other event := by
  unfold writes
  split
  · rfl
  · cases hkind : event.kind with
    | pipeline =>
        cases hmade : event.action.accepted with
        | exec => exact absurd (call_of_accepted hmade (by simp)) (h hkind)
        | _ => rfl
    | normal | multi => cases event.action.accepted <;> rfl

theorem written_erase {front back : List Event} {event : Event}
    (hsilent : writes front event = [])
    (hlater : ∀ middle label rest, back = middle ++ label :: rest →
      writes (front ++ [event] ++ middle) label =
        writes (front ++ middle) label) :
    written writes [] (front ++ event :: back) =
      written writes [] (front ++ back) := by
  rw [written_append, written_append, written, List.nil_append, hsilent,
    List.nil_append, written_congr hlater]

theorem written_erase_rejected {event : Event}
    (h : event.action.rejected = true) (front back : List Event) :
    written writes [] (front ++ event :: back) =
      written writes [] (front ++ back) := by
  apply written_erase
  · rw [writes, if_pos h]
  · intro middle label rest _
    apply writes_congr
    apply issuedSince_congr
    rw [issuedSince_concat, if_neg (by simp [opens_of_rejected _ h]),
      issues_of_rejected h]
    simp

theorem pipeline_of_step {before next : Mode} {made : Call}
    (h : Mode.Step before made next) (hnext : next.isPipeline = true) :
    before.isPipeline = true ∨ before = .normal ∧ made = .pipeline := by
  cases h with
  | query | multi | discard | exec => cases before <;> simp_all
  | pipeline => cases before <;> simp_all
  | execRefused => simp at hnext

theorem kind_eq_pipeline_iff {m : Mode} {c : Client}
    (h : Mode.Represents m c) : c.kind = .pipeline ↔ m.isPipeline = true := by
  unfold Client.kind
  rw [h.multi, h.pipeline]
  cases m <;> simp

theorem kind_eq_normal {c : Client} (h : Mode.Represents .normal c) :
    c.kind = .normal := by
  have hmode : Mode.Represents (mode .normal []) c := h
  exact kind_eq_of_represents hmode

theorem made_opens {m : Mode} {c d : Client} {event : Event}
    (h : Mode.Represents m c) (hmade : Made c event d) :
    (∃ next, Mode.Represents next d) ∧
      (d.kind = .pipeline →
        c.kind = .pipeline ∨ opens .pipeline event = true) := by
  obtain ⟨hkind, stream, hrun⟩ := hmade
  have hbefore := h.frame stream c.output c.mMgetKeys
  cases hrejected : event.action.rejected with
  | true =>
      obtain rfl := Action.eq_of_rejected hrejected hrun
      exact ⟨⟨m, hbefore⟩, Or.inl⟩
  | false =>
      have hcalled := Action.run_perform_accepted hrejected hrun
      obtain ⟨next, hstep, hnext⟩ := perform_refines hbefore hcalled
      refine ⟨⟨next, hnext.represents⟩, ?_⟩
      intro hpipeline
      have hopen := (kind_eq_pipeline_iff hnext.represents).mp hpipeline
      rcases pipeline_of_step hstep hopen with hstill | ⟨rfl, hcall⟩
      · exact Or.inl ((kind_eq_pipeline_iff h).mpr hstill)
      · right
        have haction := call_of_accepted hcall (by simp)
        rw [kind_eq_normal h] at hkind
        simp [opens, hkind, haction]

/-- A pipeline that is open was opened since the client was in normal mode. -/
theorem opened_of_pipeline {c d : Client} {events : List Event}
    (h : Run Made c events d) (hc : Mode.Represents .normal c)
    (hd : d.kind = .pipeline) :
    ∃ event ∈ events, opens .pipeline event = true := by
  have hinv := h.history_invariant (fun past d =>
    (∃ m, Mode.Represents m d) ∧
      (d.kind = .pipeline → ∃ event ∈ past, opens .pipeline event = true))
  refine (hinv ⟨⟨.normal, hc⟩, ?_⟩ ?_).2 hd
  · intro hpipeline
    rw [kind_eq_normal hc] at hpipeline
    contradiction
  · rintro past before event after ⟨⟨m, hm⟩, hopened⟩ hmade
    obtain ⟨hnext, hkind⟩ := made_opens hm hmade
    refine ⟨hnext, ?_⟩
    intro hpipeline
    rcases hkind hpipeline with hstill | hopens
    · obtain ⟨opened, hmem, hmark⟩ := hopened hstill
      exact ⟨opened, List.mem_append_left _ hmem, hmark⟩
    · exact ⟨event, by simp, hopens⟩

theorem opened_since_discard {c d : Client} {front middle back : List Event}
    {last label : Event}
    (h : Run Made c (front ++ last :: (middle ++ label :: back)) d)
    (hlast : last.action = .call .discard) (hlabel : label.kind = .pipeline) :
    ∃ event ∈ middle, opens .pipeline event = true := by
  have hsplit : front ++ last :: (middle ++ label :: back) =
      (front ++ [last] ++ middle ++ [label]) ++ back := by simp
  rw [hsplit] at h
  obtain ⟨after, hlabelled, _⟩ := h.split
  obtain ⟨before, hrest, hmade⟩ := hlabelled.of_snoc
  obtain ⟨discarded, hfront, hmiddle⟩ := hrest.split
  obtain ⟨_, _, _, stream, hrun⟩ := hfront.of_snoc
  rw [hlast] at hrun
  obtain ⟨resp, hdiscard⟩ := run_discarded_eq_ok hrun
  have hreaches : Mode.Reaches .normal _ (Mode.normal.sends .discard)
    discarded := discard_reaches hdiscard
  exact opened_of_pipeline hmiddle hreaches.represents
    (hmade.1.symm.trans hlabel)

theorem written_erase_discarded {c d : Client} {front back : List Event}
    {event : Event} (h : Run Made c (front ++ event :: back) d)
    (hdiscarded : event.Discarded back) :
    written writes [] (front ++ event :: back) =
      written writes [] (front ++ back) := by
  obtain ⟨hkind, hissues, middle, last, rest, rfl, hlast, hmiddle⟩ :=
    hdiscarded
  obtain ⟨query, hquery⟩ := Option.isSome_iff_exists.mp hissues
  apply written_erase
  · unfold writes
    unfold issues at hquery
    split at hquery
    · contradiction
    · next haccepted =>
        rw [if_neg haccepted, hkind]
        cases hmade : event.action.accepted <;> simp [hmade] at hquery ⊢
  · intro between label others hsplit
    by_cases hexec : label.kind = .pipeline ∧ label.action = .call .exec
    · obtain ⟨hlabel, haction⟩ := hexec
      have hlater : ∃ found, between = middle ++ last :: found ∧
          rest = found ++ label :: others := by
        rcases List.append_eq_append_iff.mp hsplit with
          ⟨found, rfl, htail⟩ | ⟨found, hshort, htail⟩
        · cases found with
          | nil =>
              obtain ⟨rfl, _⟩ := List.cons.inj htail
              simp [hlast] at haction
          | cons first found =>
              obtain ⟨rfl, hrest⟩ := List.cons.inj htail
              exact ⟨found, rfl, hrest⟩
        · cases found with
          | nil =>
              obtain ⟨rfl, _⟩ := List.cons.inj htail
              simp [hlast] at haction
          | cons first found =>
              obtain ⟨rfl, _⟩ := List.cons.inj htail
              exact absurd haction (hmiddle label (by simp [hshort]))
      obtain ⟨found, rfl, rfl⟩ := hlater
      have hrun : Run Made c ((front ++ event :: middle) ++
          last :: (found ++ label :: others)) d := by
        simpa using h
      obtain ⟨opened, hmem, hmark⟩ :=
        opened_since_discard hrun hlast hlabel
      have hopened : opened ∈ middle ++ last :: found := by simp [hmem]
      apply writes_congr
      unfold issuedSince
      rw [since_append_of_marked hopened hmark,
        since_append_of_marked hopened hmark]
    · exact writes_of_not_exec (fun hlabel haction =>
        hexec ⟨hlabel, haction⟩) _ _

/-- The bytes written so far are those of the history: each command once, at
its call or with the `exec()` of its pipeline.  Taking a rejected call or a
discarded command out of the history changes nothing. -/
theorem output_of_run {input : Stream} {events : List Event} {c : Client}
    (h : Run Made (connected input) events c) :
    c.output = written writes [] events ∧
      ∀ front event back, events = front ++ event :: back →
        event.action.rejected = true ∨ event.Discarded back →
        c.output = written writes [] (front ++ back) := by
  have houtput := (run_records h).output
  refine ⟨houtput, ?_⟩
  rintro front event back rfl hsilent
  rw [houtput]
  rcases hsilent with hrejected | hdiscarded
  · exact written_erase_rejected hrejected front back
  · exact written_erase_discarded h hdiscarded

/-- A command is issued in a pipeline, another call is rejected there, and the
pipeline is discarded; a second pipeline is left open. -/
def abandoned : List Event :=
  [⟨.normal, .call .pipeline⟩,
    ⟨.pipeline, .call (.query (.mget [bytes "x"]))⟩,
    ⟨.pipeline, .mset [bytes "x"] []⟩,
    ⟨.pipeline, .call .discard⟩,
    ⟨.normal, .call .pipeline⟩,
    ⟨.pipeline, .call (.query (.command
      (.withArguments (bytes "GET") [bytes "y"]) .readString))⟩]

def afterAbandoned : Client := { connected (streamOf []) with
  output := (Command.ofKeyword (bytes "DISCARD")).get
  mReaders := [.stream .readString]
  mMgetKeys := [[bytes "x"]]
  mPipeline := true
  mCmd := (Command.withArguments (bytes "GET") [bytes "y"]).get }

theorem run_abandoned :
    Run Made (connected (streamOf [])) abandoned afterAbandoned := by
  let entered : Client := { connected (streamOf []) with mPipeline := true }
  let queued : Client := { entered with
    mReaders := [.readMultiString]
    mMgetKeys := [[bytes "x"]]
    mCmd := (Command.withArguments (bytes "MGET") [bytes "x"]).get }
  let discarded : Client := { connected (streamOf []) with
    output := (Command.ofKeyword (bytes "DISCARD")).get
    mMgetKeys := [[bytes "x"]] }
  have hentered : Made (connected (streamOf [])) ⟨.normal, .call .pipeline⟩
      entered := ⟨rfl, streamOf [], by decide +kernel⟩
  have hqueued : Made entered
      ⟨.pipeline, .call (.query (.mget [bytes "x"]))⟩ queued :=
    ⟨rfl, streamOf [], by decide +kernel⟩
  have hrejected : Made queued ⟨.pipeline, .mset [bytes "x"] []⟩ queued :=
    ⟨rfl, streamOf [], by decide +kernel⟩
  have hdiscarded : Made queued ⟨.pipeline, .call .discard⟩ discarded :=
    ⟨rfl, streamOf (bytes "-ERR\r\n"), by decide +kernel⟩
  have hagain : Made discarded ⟨.normal, .call .pipeline⟩
      { discarded with mPipeline := true } :=
    ⟨rfl, streamOf [], by decide +kernel⟩
  have hget : Made { discarded with mPipeline := true } ⟨.pipeline,
      .call (.query (.command (.withArguments (bytes "GET") [bytes "y"])
        .readString))⟩ afterAbandoned :=
    ⟨rfl, streamOf [], by decide +kernel⟩
  exact .snoc (.snoc (.snoc (.snoc (.snoc (.snoc .nil hentered) hqueued)
    hrejected) hdiscarded) hagain) hget

theorem output_of_run_abandoned :
    afterAbandoned.output = written writes [] abandoned ∧
      ∀ front event back, abandoned = front ++ event :: back →
        event.action.rejected = true ∨ event.Discarded back →
        afterAbandoned.output = written writes [] (front ++ back) :=
  output_of_run run_abandoned

/-- The flags and the queues are those of the batch that is open. -/
theorem queues_of_run {input : Stream} {events : List Event} {c : Client}
    (h : Run Made (connected input) events c) :
    ¬ (c.mMulti = true ∧ c.mPipeline = true) ∧
      (c.mMulti = false → c.mPipeline = false →
        c.mReaders = [] ∧ c.mCmd = []) ∧
      (c.mPipeline = true →
        c.mReaders = (issuedSince .pipeline events).map Query.reader ∧
        c.mCmd = wire (issuedSince .pipeline events)) ∧
      (c.mMulti = true → c.mCmd = [] ∧
        c.mReaders = (issuedSince .multi events).map Query.reader) := by
  have hmode := (run_records h).represents
  generalize c.kind = kind at hmode
  obtain ⟨hmulti, hpipeline, hreaders, hcmd⟩ := hmode
  cases kind with
  | normal =>
      refine ⟨?_, fun _ _ => ⟨hreaders, hcmd⟩, ?_, ?_⟩
      · simp [hmulti, mode]
      · simp [hpipeline, mode]
      · simp [hmulti, mode]
  | multi =>
      refine ⟨?_, ?_, ?_, fun _ => ⟨hcmd, hreaders⟩⟩
      · simp [hpipeline, mode]
      · simp [hmulti, mode]
      · simp [hpipeline, mode]
  | pipeline =>
      refine ⟨?_, ?_, fun _ => ⟨hreaders, hcmd⟩, ?_⟩
      · simp [hmulti, mode]
      · simp [hpipeline, mode]
      · simp [hmulti, mode]

theorem queues_of_run_abandoned :
    ¬ (afterAbandoned.mMulti = true ∧ afterAbandoned.mPipeline = true) ∧
      (afterAbandoned.mMulti = false → afterAbandoned.mPipeline = false →
        afterAbandoned.mReaders = [] ∧ afterAbandoned.mCmd = []) ∧
      (afterAbandoned.mPipeline = true →
        afterAbandoned.mReaders =
          (issuedSince .pipeline abandoned).map Query.reader ∧
        afterAbandoned.mCmd = wire (issuedSince .pipeline abandoned)) ∧
      (afterAbandoned.mMulti = true → afterAbandoned.mCmd = [] ∧
        afterAbandoned.mReaders =
          (issuedSince .multi abandoned).map Query.reader) :=
  queues_of_run run_abandoned

end Event

end Redispp
