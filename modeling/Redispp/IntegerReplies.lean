import Redispp.Replies

/-!
# Integer replies

`operator<<(long)` writes a number and `atol` reads it, on the line of an
integer reply up to the CR behind it.  `read_integer` and
`read_integer_as_bool` take the same line and differ in what they make of the
number.
-/

namespace Redispp

open Decimal CLibrary

/-- What `read_integer_as_bool` makes of a number. -/
def boolOfLong (l : ℤ) : Response :=
  if l = 1 then .ofBool true else if l = 0 then .ofBool false else .new .err

theorem readInteger_reads {text : Buffer} (htext : LF ∉ text) :
    Reads readInteger (replyLine ':' text)
      (.ofLong (atol (replyLine ':' text).tail)) := by
  apply reads_line (by decide) htext
  rw [head_replyLine, if_pos rfl]
  rfl

theorem readIntegerAsBool_reads {text : Buffer} (htext : LF ∉ text) :
    Reads readIntegerAsBool (replyLine ':' text)
      (boolOfLong (atol (replyLine ':' text).tail)) := by
  apply reads_line (by decide) htext
  rw [head_replyLine, if_pos rfl]
  dsimp only
  generalize atol (replyLine ':' text).tail = l
  unfold boolOfLong
  by_cases hone : l = 1
  · subst hone
    rfl
  · by_cases hzero : l = 0
    · subst hzero
      rfl
    · rw [if_neg (by simp [hone, hzero]), if_neg hone, if_neg hzero]

/-- The text written for a number, sent back on the line of an integer reply,
is read as that number. -/
theorem long_round_trip {l : ℤ} (hlow : LONG_MIN ≤ l) (hhigh : l ≤ LONG_MAX)
    (c : Command) :
    ∃ text, (c.pushLong l).mElements = c.mElements ++ [text] ∧
      Reads readInteger (replyLine ':' text) (.ofLong l) ∧
      Reads readIntegerAsBool (replyLine ':' text)
        (if l = 1 then .ofBool true
        else if l = 0 then .ofBool false
        else .new .err) := by
  have hatol : atol (replyLine ':' (intText l)).tail = l := by
    rw [← replyHeader_eq_line]
    exact atol_replyHeader hlow hhigh
  have hinteger := readInteger_reads (LF_not_mem_intText l)
  have hbool := readIntegerAsBool_reads (LF_not_mem_intText l)
  rw [hatol] at hinteger hbool
  exact ⟨intText l, rfl, hinteger, hbool⟩

/-- The least `long` has no negation to write. -/
theorem long_round_trip_least :
    ∃ text, ((Command.ofKeyword (bytes "INCRBY")).pushLong
          LONG_MIN).mElements = [bytes "INCRBY", text] ∧
      Reads readInteger (replyLine ':' text) (.ofLong LONG_MIN) ∧
      Reads readIntegerAsBool (replyLine ':' text)
        (if LONG_MIN = 1 then .ofBool true
        else if LONG_MIN = 0 then .ofBool false
        else .new .err) :=
  long_round_trip (by decide) (by decide) _

end Redispp
