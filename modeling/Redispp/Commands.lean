import Redispp.Modes

/-!
# Commands that may be rejected before they are sent

`mset`, `msetnx`, `zunion` and `zinter` check the number of their arguments.
A call that fails the check returns an error and does nothing else; any other
is a command call like those of `Query`.
-/

namespace Redispp

open CLibrary

/-- The loop of `generic_mset`, over both lists at once. -/
def msetCommand (keyword : Buffer) (keys vals : List Buffer) : Command :=
  (keys.zip vals).foldl (fun cmd pair => (cmd.push pair.1).push pair.2)
    (.ofKeyword keyword)

def zSetCommand (keyword key : Buffer) (keys : List Buffer)
    (weights : List Double) (aggregate : Option Buffer) : Command :=
  let cmd := ((Command.ofKeyword keyword).push key).pushLong
    (toLong keys.length)
  let cmd := keys.foldl Command.push cmd
  let cmd :=
    if weights.length ≠ 0 then
      weights.foldl Command.pushDouble (cmd.push (bytes "WEIGHTS"))
    else cmd
  match aggregate with
  | none => cmd
  | some s => (cmd.push (bytes "AGGREGATE")).push s

namespace Client

def genericMset (keyword : Buffer) (keys vals : List Buffer)
    (reader : ResponseReader) : ClientM Response :=
  if keys.length ≠ vals.length ∨ keys.length = 0 then return .new .err
  else run (msetCommand keyword keys vals) reader

def genericZSetOperation (keyword key : Buffer) (keys : List Buffer)
    (weights : List Double) (aggregate : List Byte) : ClientM Response :=
  if weights.length ≠ 0 ∧ keys.length ≠ weights.length then return .new .err
  else if aggregate.length ≠ 0 then
    match Buffer.ofCString aggregate with
    | none => throw .invertedRange
    | some s => run (zSetCommand keyword key keys weights (some s))
        (.stream .readInteger)
  else run (zSetCommand keyword key keys weights none) (.stream .readInteger)

def mset (keys vals : List Buffer) : ClientM Response :=
  genericMset (bytes "MSET") keys vals (.stream .readStatusCode)

def msetnx (keys vals : List Buffer) : ClientM Response :=
  genericMset (bytes "MSETNX") keys vals (.stream .readIntegerAsBool)

def zunion (key : Buffer) (keys : List Buffer) (weights : List Double)
    (aggregate : List Byte) : ClientM Response :=
  genericZSetOperation (bytes "ZUNION") key keys weights aggregate

def zinter (key : Buffer) (keys : List Buffer) (weights : List Double)
    (aggregate : List Byte) : ClientM Response :=
  genericZSetOperation (bytes "ZINTER") key keys weights aggregate

/-! ### The overloads without weights or without an aggregate -/

def zunionKeys (key : Buffer) (keys : List Buffer) : ClientM Response :=
  zunion key keys [] (bytes "")

def zunionAggregate (key : Buffer) (keys : List Buffer)
    (aggregate : List Byte) : ClientM Response :=
  zunion key keys [] aggregate

def zunionWeights (key : Buffer) (keys : List Buffer)
    (weights : List Double) : ClientM Response :=
  zunion key keys weights (bytes "")

def zinterKeys (key : Buffer) (keys : List Buffer) : ClientM Response :=
  zinter key keys [] (bytes "")

def zinterAggregate (key : Buffer) (keys : List Buffer)
    (aggregate : List Byte) : ClientM Response :=
  zinter key keys [] aggregate

def zinterWeights (key : Buffer) (keys : List Buffer)
    (weights : List Double) : ClientM Response :=
  zinter key keys weights (bytes "")

end Client

/-- The public calls, those with a check among them. -/
inductive Action
  | call (call : Call)
  | mset (keys vals : List Buffer)
  | msetnx (keys vals : List Buffer)
  | zunion (key : Buffer) (keys : List Buffer) (weights : List Double)
      (aggregate : List Byte)
  | zinter (key : Buffer) (keys : List Buffer) (weights : List Double)
      (aggregate : List Byte)
  deriving DecidableEq

namespace Action

def perform : Action → ClientM Unit
  | .call made => made.perform
  | .mset keys vals => do
      let _ ← Client.mset keys vals
  | .msetnx keys vals => do
      let _ ← Client.msetnx keys vals
  | .zunion key keys weights aggregate => do
      let _ ← Client.zunion key keys weights aggregate
  | .zinter key keys weights aggregate => do
      let _ ← Client.zinter key keys weights aggregate

/-- Empty or unequal lists. -/
def listsRejected (keys vals : List Buffer) : Bool :=
  keys.isEmpty || vals.isEmpty || keys.length ≠ vals.length

/-- What stands behind `AGGREGATE`. -/
def copiedAggregate (aggregate : List Byte) : Option Buffer :=
  if aggregate.length ≠ 0 then Buffer.ofCString aggregate else none

/-- Weights, and not one for each key. -/
def weightsRejected (keys : List Buffer) (weights : List Double) : Bool :=
  !weights.isEmpty && keys.length ≠ weights.length

def rejected : Action → Bool
  | .call _ => false
  | .mset keys vals | .msetnx keys vals => listsRejected keys vals
  | .zunion _ keys weights _ | .zinter _ keys weights _ =>
      weightsRejected keys weights

/-- The call that an action is unless it is rejected. -/
def accepted : Action → Call
  | .call made => made
  | .mset keys vals =>
      .query (.command (msetCommand (bytes "MSET") keys vals) .readStatusCode)
  | .msetnx keys vals =>
      .query (.command (msetCommand (bytes "MSETNX") keys vals)
        .readIntegerAsBool)
  | .zunion key keys weights aggregate =>
      .query (.command
        (zSetCommand (bytes "ZUNION") key keys weights
          (copiedAggregate aggregate)) .readInteger)
  | .zinter key keys weights aggregate =>
      .query (.command
        (zSetCommand (bytes "ZINTER") key keys weights
          (copiedAggregate aggregate)) .readInteger)

theorem genericMset_eq (keyword : Buffer) (keys vals : List Buffer)
    (reader : ResponseReader) :
    Client.genericMset keyword keys vals reader =
      if listsRejected keys vals then return .new .err
      else Client.run (msetCommand keyword keys vals) reader := by
  have hcheck : keys.length ≠ vals.length ∨ keys.length = 0 ↔
      listsRejected keys vals = true := by
    cases keys <;> cases vals <;> simp [listsRejected]
  unfold Client.genericMset
  simp only [hcheck]

theorem weightsRejected_iff {keys : List Buffer} {weights : List Double} :
    weights.length ≠ 0 ∧ keys.length ≠ weights.length ↔
      weightsRejected keys weights = true := by
  simp [weightsRejected]

theorem genericZSetOperation_rejected {keys : List Buffer}
    {weights : List Double} (h : weightsRejected keys weights = true)
    (keyword key : Buffer) (aggregate : List Byte) :
    Client.genericZSetOperation keyword key keys weights aggregate =
      pure (.new .err) := by
  unfold Client.genericZSetOperation
  rw [if_pos (weightsRejected_iff.mpr h)]

/-- With an aggregate that cannot be copied the call does not return. -/
theorem genericZSetOperation_accepted {keys : List Buffer}
    {weights : List Double} (h : weightsRejected keys weights = false)
    (keyword key : Buffer) (aggregate : List Byte) :
    Client.genericZSetOperation keyword key keys weights aggregate =
      if aggregate.length ≠ 0 ∧ Buffer.ofCString aggregate = none then
        throw .invertedRange
      else Client.run (zSetCommand keyword key keys weights
        (copiedAggregate aggregate)) (.stream .readInteger) := by
  unfold Client.genericZSetOperation copiedAggregate
  rw [if_neg (mt weightsRejected_iff.mp (by simp [h]))]
  by_cases hlength : aggregate.length ≠ 0
  · rw [if_pos hlength, if_pos hlength]
    cases Buffer.ofCString aggregate with
    | none => rw [if_pos ⟨hlength, rfl⟩]
    | some s => rw [if_neg (by simp)]
  · rw [if_neg hlength, if_neg hlength, if_neg (fun hfault => hlength hfault.1)]

theorem run_perform_rejected {action : Action} (h : action.rejected = true)
    (c : Client) : action.perform.run c = .ok ((), c) := by
  cases action with
  | call made => simp [rejected] at h
  | mset keys vals =>
      rw [rejected] at h
      rw [perform, Client.mset, genericMset_eq, if_pos h]
      rfl
  | msetnx keys vals =>
      rw [rejected] at h
      rw [perform, Client.msetnx, genericMset_eq, if_pos h]
      rfl
  | zunion key keys weights aggregate =>
      rw [rejected] at h
      rw [perform, Client.zunion, genericZSetOperation_rejected h]
      rfl
  | zinter key keys weights aggregate =>
      rw [rejected] at h
      rw [perform, Client.zinter, genericZSetOperation_rejected h]
      rfl

theorem eq_of_rejected {action : Action} {c d : Client}
    (h : action.rejected = true) (hrun : action.perform.run c = .ok ((), d)) :
    d = c := by
  rw [run_perform_rejected h, Except.ok.injEq, Prod.mk.injEq] at hrun
  exact hrun.2.symm

/-- An action that is not rejected and returns is its call. -/
theorem run_perform_accepted {action : Action} {c d : Client}
    (h : action.rejected = false) (hrun : action.perform.run c = .ok ((), d)) :
    action.accepted.perform.run c = .ok ((), d) := by
  cases action with
  | call made => exact hrun
  | mset keys vals =>
      rw [rejected] at h
      rw [perform, Client.mset, genericMset_eq, if_neg (by simp [h])] at hrun
      exact hrun
  | msetnx keys vals =>
      rw [rejected] at h
      rw [perform, Client.msetnx, genericMset_eq, if_neg (by simp [h])] at hrun
      exact hrun
  | zunion key keys weights aggregate =>
      rw [perform, Client.zunion, genericZSetOperation_accepted h] at hrun
      split at hrun
      · contradiction
      · exact hrun
  | zinter key keys weights aggregate =>
      rw [perform, Client.zinter, genericZSetOperation_accepted h] at hrun
      split at hrun
      · contradiction
      · exact hrun

end Action

end Redispp
