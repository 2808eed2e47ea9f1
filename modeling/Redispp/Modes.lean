import Redispp.Batch
import Redispp.Runs

/-!
# Modes

A client is in normal mode, in a transaction or in a pipeline, and in the last
two it has issued some commands since the batch was opened.  `Mode` says only
that; `Represents` ties it to the four fields of the client, and every public
call that returns is a step of the mode and writes what the mode says.  The
one step that a reader of the interface would not expect is `execRefused`:
`exec` may leave a transaction open.
-/

namespace Redispp

open StateExcept CLibrary

inductive Call
  | query (query : Query)
  | multi
  | pipeline
  | exec
  | discard
  deriving DecidableEq

def Call.perform : Call → ClientM Unit
  | .query q => do
      let _ ← q.perform
  | .multi => do
      let _ ← Client.multi
  | .pipeline => do
      let _ ← Client.pipeline
  | .exec => do
      let _ ← Client.exec
  | .discard => do
      let _ ← Client.discard

/-- The mode of a client and the calls made since it was entered. -/
inductive Mode
  | normal
  | multi (issued : List Query)
  | pipeline (issued : List Query)
  deriving DecidableEq

namespace Mode

@[simp] def isMulti : Mode → Bool
  | .multi _ => true
  | _ => false

@[simp] def isPipeline : Mode → Bool
  | .pipeline _ => true
  | _ => false

@[simp] def issued : Mode → List Query
  | .normal => []
  | .multi issued => issued
  | .pipeline issued => issued

@[simp] def unsent : Mode → List Query
  | .pipeline issued => issued
  | _ => []

@[simp] def issue (query : Query) : Mode → Mode
  | .normal => .normal
  | .multi issued => .multi (issued ++ [query])
  | .pipeline issued => .pipeline (issued ++ [query])

@[simp] def enter : Mode → Mode → Mode
  | .normal, opened => opened
  | mode, _ => mode

@[simp] def sends : Mode → Call → List Command
  | .pipeline _, .query _ => []
  | _, .query query => [query.cmd]
  | .normal, .multi => [.ofKeyword (bytes "MULTI")]
  | _, .multi => []
  | _, .pipeline => []
  | .multi _, .exec => [.ofKeyword (bytes "EXEC")]
  | mode, .exec => mode.unsent.map Query.cmd
  | _, .discard => [.ofKeyword (bytes "DISCARD")]

inductive Step : Mode → Call → Mode → Prop
  | query {mode : Mode} {query : Query} :
      Step mode (.query query) (mode.issue query)
  | multi {mode : Mode} : Step mode .multi (mode.enter (.multi []))
  | pipeline {mode : Mode} : Step mode .pipeline (mode.enter (.pipeline []))
  | discard {mode : Mode} : Step mode .discard .normal
  | exec {mode : Mode} : Step mode .exec .normal
  | execRefused {issued : List Query} :
      Step (.multi issued) .exec (.multi issued)

structure Represents (mode : Mode) (c : Client) : Prop where
  multi : c.mMulti = mode.isMulti
  pipeline : c.mPipeline = mode.isPipeline
  readers : c.mReaders = mode.issued.map Query.reader
  cmd : c.mCmd = Client.wire mode.unsent

theorem represents_normal_iff {c : Client} :
    Represents .normal c ↔ c.Normal := by
  constructor
  · intro h
    exact ⟨h.multi, h.pipeline, h.readers, h.cmd⟩
  · intro h
    exact ⟨h.notMulti, h.notPipeline, h.noReaders, h.noCmd⟩

theorem Represents.frame {mode : Mode} {c : Client} (h : Represents mode c)
    (input : Stream) (output : Buffer) (keys : List (List Buffer)) :
    Represents mode { c with
      input := input, output := output, mMgetKeys := keys } :=
  ⟨h.multi, h.pipeline, h.readers, h.cmd⟩

/-- The client after a call: in this mode, and with these commands written. -/
structure Reaches (next : Mode) (c : Client) (sent : List Command)
    (d : Client) : Prop where
  represents : Represents next d
  output : d.output = c.output ++ (sent.map Command.get).flatten

theorem Represents.reaches_self {mode : Mode} {c : Client}
    (h : Represents mode c) : Reaches mode c [] c :=
  ⟨h, by simp⟩

end Mode

namespace Client

open Mode

variable {mode : Mode} {c d : Client}

theorem query_reaches {query : Query} {resp : Response}
    (h : Represents mode c) (hrun : query.perform.run c = .ok (resp, d)) :
    Reaches (mode.issue query) c (mode.sends (.query query)) d := by
  rw [query.run_perform] at hrun
  cases mode with
  | normal =>
      rw [run_run_normal (by exact h.pipeline) (by exact h.multi)] at hrun
      obtain ⟨input, keys, rfl⟩ := run_call_eq_ok hrun
      exact ⟨h.frame input _ keys, by simp⟩
  | multi issued =>
      rw [run_run_multi (by exact h.pipeline) (by exact h.multi)] at hrun
      obtain ⟨input, _, rfl⟩ := run_receive_eq_ok hrun
      refine ⟨⟨h.multi, h.pipeline, ?_, h.cmd⟩, by simp⟩
      simp [h.readers]
  | pipeline issued =>
      have hqueued := run_run_pipeline
        (c := { c with mMgetKeys := c.mMgetKeys ++ query.keys })
        h.pipeline query.cmd query.reader
      obtain ⟨_, rfl⟩ := run_unique hqueued hrun
      refine ⟨⟨h.multi, h.pipeline, ?_, ?_⟩, by simp⟩
      · simp [h.readers]
      · simp [h.cmd, wire]

theorem run_status_eq_ok {keyword : Buffer} {resp : Response}
    (hmulti : c.mMulti = false) (hpipeline : c.mPipeline = false)
    (hrun : (run (.ofKeyword keyword) (.stream .readStatusCode)).run c =
      .ok (resp, d)) :
    ∃ input, d = { c with
      input := input
      output := c.output ++ (Command.ofKeyword keyword).get } := by
  rw [run_run_normal hpipeline hmulti, run_call_stream] at hrun
  obtain ⟨input, _, rfl⟩ := run_receive_eq_ok hrun
  exact ⟨input, rfl⟩

theorem multi_reaches {resp : Response} (h : Represents mode c)
    (hrun : multi.run c = .ok (resp, d)) :
    Reaches (mode.enter (.multi [])) c (mode.sends .multi) d := by
  cases mode with
  | normal =>
      rw [multi, run_get_bind, if_neg (by simp [h.multi, h.pipeline])] at hrun
      obtain ⟨ret, next, hsend, hrest⟩ := run_bind_eq_ok hrun
      obtain ⟨input, rfl⟩ := run_status_eq_ok h.multi h.pipeline hsend
      rw [run_modify_bind] at hrest
      obtain ⟨_, rfl⟩ := run_pure_eq_ok hrest
      exact ⟨⟨rfl, h.pipeline, h.readers, h.cmd⟩, by simp⟩
  | multi issued =>
      have hopen := run_multi_open (c := c) (by simp [h.multi])
      rw [← (run_unique hopen hrun).2]
      exact h.reaches_self
  | pipeline issued =>
      have hopen := run_multi_open (c := c) (by simp [h.pipeline])
      rw [← (run_unique hopen hrun).2]
      exact h.reaches_self

theorem pipeline_reaches {entered : Bool} (h : Represents mode c)
    (hrun : pipeline.run c = .ok (entered, d)) :
    Reaches (mode.enter (.pipeline [])) c (mode.sends .pipeline) d := by
  cases mode with
  | normal =>
      have hentered := run_pipeline_normal h.multi h.pipeline
      rw [← (run_unique hentered hrun).2]
      exact ⟨⟨h.multi, rfl, h.readers, h.cmd⟩, by simp⟩
  | multi issued =>
      have hopen := run_pipeline_open (c := c) (by simp [h.multi])
      rw [← (run_unique hopen hrun).2]
      exact h.reaches_self
  | pipeline issued =>
      have hopen := run_pipeline_open (c := c) (by simp [h.pipeline])
      rw [← (run_unique hopen hrun).2]
      exact h.reaches_self

theorem discard_reaches {resp : Response}
    (hrun : discard.run c = .ok (resp, d)) :
    Reaches .normal c (mode.sends .discard) d := by
  rw [discard, run_modify_bind] at hrun
  obtain ⟨input, rfl⟩ := run_status_eq_ok rfl rfl hrun
  exact ⟨⟨rfl, rfl, rfl, rfl⟩, by cases mode <;> simp⟩

theorem execMulti_reaches {issued : List Query}
    {responses : List Response} (h : Represents (.multi issued) c)
    (hrun : execMulti.run c = .ok (responses, d)) :
    Reaches .normal c [.ofKeyword (bytes "EXEC")] d ∨
      Reaches (.multi issued) c [.ofKeyword (bytes "EXEC")] d := by
  rw [execMulti] at hrun
  obtain ⟨found, next, hheader, hrest⟩ := run_bind_eq_ok hrun
  rw [execHeader, run_bind_of_ok (run_send _)] at hheader
  obtain ⟨str, after, hline, hcheck⟩ := run_bind_eq_ok hheader
  obtain ⟨input, _, rfl⟩ := run_receive_eq_ok hline
  rw [run_get_bind] at hcheck
  obtain ⟨_, rfl⟩ := run_pure_eq_ok hcheck
  cases found with
  | false =>
      right
      rw [if_pos rfl] at hrest
      obtain ⟨_, rfl⟩ := run_pure_eq_ok hrest
      exact ⟨h.frame input _ c.mMgetKeys, by simp⟩
  | true =>
      left
      rw [if_neg (by simp), run_get_bind] at hrest
      obtain ⟨ret, last, hback, hclean⟩ := run_bind_eq_ok hrest
      obtain ⟨input', keys, rfl⟩ := run_readBack_eq_ok hback
      rw [run_modify_bind] at hclean
      obtain ⟨_, rfl⟩ := run_pure_eq_ok hclean
      exact ⟨⟨rfl, h.pipeline, rfl, rfl⟩, by simp⟩

theorem execPipeline_reaches {issued : List Query}
    {responses : List Response} (h : Represents (.pipeline issued) c)
    (hrun : execPipeline.run c = .ok (responses, d)) :
    Reaches .normal c (issued.map Query.cmd) d := by
  rw [execPipeline, run_get_bind, run_bind_of_ok (run_write _)] at hrun
  obtain ⟨ret, last, hback, hclean⟩ := run_bind_eq_ok hrun
  obtain ⟨input, keys, rfl⟩ := run_readBack_eq_ok hback
  rw [run_modify_bind] at hclean
  obtain ⟨_, rfl⟩ := run_pure_eq_ok hclean
  refine ⟨⟨h.multi, rfl, rfl, rfl⟩, ?_⟩
  simp [h.cmd, wire, Function.comp_def]

theorem exec_reaches {responses : List Response} (h : Represents mode c)
    (hrun : exec.run c = .ok (responses, d)) :
    ∃ next, Step mode .exec next ∧ Reaches next c (mode.sends .exec) d := by
  cases mode with
  | normal =>
      have hnone := run_exec_normal h.multi h.pipeline
      rw [← (run_unique hnone hrun).2]
      exact ⟨.normal, .exec, h.reaches_self⟩
  | multi issued =>
      rw [run_exec_multi (by exact h.multi)] at hrun
      rcases execMulti_reaches h hrun with hnormal | hmulti
      · exact ⟨.normal, .exec, hnormal⟩
      · exact ⟨.multi issued, .execRefused, hmulti⟩
  | pipeline issued =>
      rw [run_exec_pipeline (by exact h.multi) (by exact h.pipeline)] at hrun
      exact ⟨.normal, .exec, execPipeline_reaches h hrun⟩

/-- Every public call that returns is a step of the mode and writes what the
mode says. -/
theorem perform_refines {call : Call} (h : Represents mode c)
    (hrun : call.perform.run c = .ok ((), d)) :
    ∃ next, Step mode call next ∧ Reaches next c (mode.sends call) d := by
  cases call with
  | query query =>
      obtain ⟨resp, hcall⟩ := run_discarded_eq_ok hrun
      exact ⟨_, .query, query_reaches h hcall⟩
  | multi =>
      obtain ⟨resp, hcall⟩ := run_discarded_eq_ok hrun
      exact ⟨_, .multi, multi_reaches h hcall⟩
  | pipeline =>
      obtain ⟨entered, hcall⟩ := run_discarded_eq_ok hrun
      exact ⟨_, .pipeline, pipeline_reaches h hcall⟩
  | exec =>
      obtain ⟨responses, hcall⟩ := run_discarded_eq_ok hrun
      exact exec_reaches h hcall
  | discard =>
      obtain ⟨resp, hcall⟩ := run_discarded_eq_ok hrun
      exact ⟨_, .discard, discard_reaches hcall⟩

/-- A public call that returns; the stream before it may be any, since the
server may have sent anything. -/
def Called (c : Client) (label : Stream × Call) (d : Client) : Prop :=
  label.2.perform.run { c with input := label.1 } = .ok ((), d)

def Reachable (c : Client) : Prop :=
  ∃ input labels, Runs.Run Called (connected input) labels c

/-- Every reachable client is in exactly the state its mode describes. -/
theorem Reachable.represents (h : Reachable c) :
    ∃ mode, Represents mode c := by
  obtain ⟨input, labels, hrun⟩ := h
  apply hrun.invariant fun c => ∃ mode, Represents mode c
  · exact ⟨.normal, represents_normal_iff.mpr (connected_normal input)⟩
  · rintro c ⟨stream, call⟩ d ⟨mode, hmode⟩ hcalled
    obtain ⟨next, _, hnext⟩ :=
      perform_refines (hmode.frame stream _ _) hcalled
    exact ⟨next, hnext.represents⟩

theorem Reachable.notPipeline (h : Reachable c) (hmulti : c.mMulti = true) :
    c.mPipeline = false := by
  obtain ⟨mode, hmode⟩ := h.represents
  have hflag := hmode.multi
  rw [hmulti] at hflag
  cases mode with
  | normal => simp at hflag
  | multi issued => exact hmode.pipeline
  | pipeline issued => simp at hflag

end Client

end Redispp
