import Redispp.Requests

/-!
# Commands with an integer argument

`incr`, `decr`, `expire` and `expireat` share one helper.  It takes the number
as an `int`, and two conditions of its own decide about the keyword and about
the argument.  What arrives at the server is compared with what was asked for.
-/

namespace Redispp

open Decimal CLibrary

def keyIntCommand (keyword key : Buffer) (val : ℤ) (addBy : Bool) : Command :=
  let keyword := if 1 < val ∧ addBy then keyword ++ bytes "BY" else keyword
  let cmd := (Command.ofKeyword keyword).push key
  if !addBy ∨ (1 < val ∧ addBy) then cmd.pushLong val else cmd

namespace Client

def genericKeyIntReturnInt (keyword key : Buffer) (val : ℤ) (addBy : Bool) :
    ClientM Response :=
  run (keyIntCommand keyword key val addBy) (.stream .readInteger)

def incr (key : Buffer) (val : ℤ) : ClientM Response :=
  genericKeyIntReturnInt (bytes "INCR") key val true

def decr (key : Buffer) (val : ℤ) : ClientM Response :=
  genericKeyIntReturnInt (bytes "DECR") key val true

/-- The `long` is passed on as an `int`. -/
def expire (key : Buffer) (ttl : ℤ) : ClientM Response :=
  genericKeyIntReturnInt (bytes "EXPIRE") key (toInt ttl) false

def expireat (key : Buffer) (timestamp : ℤ) : ClientM Response :=
  genericKeyIntReturnInt (bytes "EXPIREAT") key (toInt timestamp) false

end Client

/-! ## The amount that a request asks for -/

/-- The key and what is to be added to it, if the elements are such a request
to the server. -/
def increment (elements : List Buffer) : Option (Buffer × ℤ) :=
  match elements with
  | [keyword, key] =>
      if keyword = bytes "INCR" then some (key, 1)
      else if keyword = bytes "DECR" then some (key, -1)
      else none
  | [keyword, key, amount] =>
      if keyword = bytes "INCRBY" then
        (intValue? amount).map fun n => (key, n)
      else if keyword = bytes "DECRBY" then
        (intValue? amount).map fun n => (key, -n)
      else none
  | _ => none

theorem keyIntCommand_addBy (keyword key : Buffer) (val : ℤ) :
    (keyIntCommand keyword key val true).mElements =
      if 1 < val then [keyword ++ bytes "BY", key, intText val]
      else [keyword, key] := by
  unfold keyIntCommand
  by_cases hval : 1 < val <;> simp [hval, Command.pushLong]

theorem keyIntCommand_plain (keyword key : Buffer) (val : ℤ) :
    (keyIntCommand keyword key val false).mElements =
      [keyword, key, intText val] := by
  simp [keyIntCommand, Command.pushLong]

theorem increment_incr (key : Buffer) (val : ℤ) :
    increment (keyIntCommand (bytes "INCR") key val true).mElements =
      some (key, max val 1) := by
  rw [keyIntCommand_addBy]
  split
  · next hval =>
      have hBY : bytes "INCR" ++ bytes "BY" = bytes "INCRBY" := by decide
      simp [increment, hBY, intValue?_intText, max_eq_left hval.le]
  · next hval => simp [increment, max_eq_right (not_lt.mp hval)]

theorem increment_decr (key : Buffer) (val : ℤ) :
    increment (keyIntCommand (bytes "DECR") key val true).mElements =
      some (key, -max val 1) := by
  rw [keyIntCommand_addBy]
  split
  · next hval =>
      have hBY : bytes "DECR" ++ bytes "BY" = bytes "DECRBY" := by decide
      have hne : bytes "DECRBY" ≠ bytes "INCRBY" := by decide
      simp [increment, hBY, hne, intValue?_intText, max_eq_left hval.le]
  · next hval =>
      have hne : bytes "DECR" ≠ bytes "INCR" := by decide
      simp [increment, hne, max_eq_right (not_lt.mp hval)]

namespace Client

/-- `incr` and `decr` ask for the amount they are given exactly when it is at
least 1; for any other they ask for 1. -/
theorem increment_sent_iff (key : Buffer) (val : ℤ) :
    ((∃ elements, SendsElements (incr key val) elements ∧
          increment elements = some (key, val)) ↔ 1 ≤ val) ∧
      ((∃ elements, SendsElements (decr key val) elements ∧
          increment elements = some (key, -val)) ↔ 1 ≤ val) := by
  constructor
  · simp [incr, genericKeyIntReturnInt, run_sendsElements_iff, increment_incr]
  · simp [decr, genericKeyIntReturnInt, run_sendsElements_iff, increment_decr]

/-- An increment by 0 is sent as one by 1. -/
theorem increment_sent_zero :
    SendsElements (incr (bytes "x") 0) [bytes "INCR", bytes "x"] ∧
      increment [bytes "INCR", bytes "x"] = some (bytes "x", 1) ∧
      ¬ ∃ elements, SendsElements (incr (bytes "x") 0) elements ∧
        increment elements = some (bytes "x", 0) := by
  refine ⟨run_sendsElements_iff.mpr (by decide), by decide, ?_⟩
  rintro ⟨elements, hsends, hamount⟩
  rw [run_sendsElements_iff.mp hsends] at hamount
  exact absurd hamount (by decide)

/-! ## Expiry times -/

/-- The third element of what a call sends, read as a number. -/
def SendsThird (call : ClientM Response) (t : ℤ) : Prop :=
  ∃ elements third, SendsElements call elements ∧
    elements[2]? = some third ∧ intValue? third = some t

theorem genericKeyIntReturnInt_sendsThird {keyword key : Buffer} {val t : ℤ} :
    SendsThird (genericKeyIntReturnInt keyword key val false) t ↔
      val = t := by
  simp [SendsThird, genericKeyIntReturnInt, run_sendsElements_iff,
    keyIntCommand_plain, intValue?_intText]

/-- `expire` and `expireat` send the time they are given exactly when it is an
`int`. -/
theorem expiry_sent_iff (key : Buffer) (t : ℤ) :
    (SendsThird (expire key t) t ↔ INT_MIN ≤ t ∧ t ≤ INT_MAX) ∧
      (SendsThird (expireat key t) t ↔ INT_MIN ≤ t ∧ t ≤ INT_MAX) := by
  rw [expire, expireat, genericKeyIntReturnInt_sendsThird,
    genericKeyIntReturnInt_sendsThird, toInt_eq_self_iff]
  exact ⟨Iff.rfl, Iff.rfl⟩

/-- The second after the last that an `int` counts is sent as one long past. -/
theorem expiry_sent_wrapped :
    SendsElements (expireat (bytes "x") 2147483648)
        [bytes "EXPIREAT", bytes "x", bytes "-2147483648"] ∧
      intValue? (bytes "-2147483648") = some (-2147483648) ∧
      ¬ SendsThird (expireat (bytes "x") 2147483648) 2147483648 := by
  refine ⟨run_sendsElements_iff.mpr (by decide +kernel), by decide, ?_⟩
  rw [expireat, genericKeyIntReturnInt_sendsThird]
  decide

end Client

end Redispp
