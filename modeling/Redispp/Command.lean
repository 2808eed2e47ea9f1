import Redispp.CLibrary

/-!
# Buffers and commands

A command is a list of binary-safe elements, the keyword first, and is sent as
one multi-bulk request: the number of elements, then each element behind its
length.
-/

namespace Redispp

open Decimal CLibrary

abbrev Byte := UInt8
abbrev Buffer := List Byte

abbrev CR : Byte := ascii '\r'
abbrev LF : Byte := ascii '\n'

def bytes (s : String) : Buffer :=
  s.toList.map Char.toUInt8

/-- Up to the first NUL. -/
def strlen (s : List Byte) : ℕ :=
  (s.takeWhile (· ≠ 0)).length

/-- `Buffer(const char *)`: the length goes through an `int`, and the range
`s, s + l` is none if that is negative. -/
def Buffer.ofCString (s : List Byte) : Option Buffer :=
  let l := toInt (strlen s)
  if l < 0 then none else some (s.take l.toNat)

/-- `Buffer(const char *, size_t)`. -/
def Buffer.ofPointer (s : List Byte) (sz : ℕ) : Buffer :=
  s.take sz

/-- `m_elements` holds the keyword from the constructor on. -/
structure Command where
  mElements : List Buffer
  hasKeyword : mElements ≠ []
  deriving DecidableEq

namespace Command

def ofKeyword (keyword : Buffer) : Command where
  mElements := [keyword]
  hasKeyword := by simp

/-- `operator<<(const Buffer)`. -/
def push (c : Command) (s : Buffer) : Command where
  mElements := c.mElements ++ [s]
  hasKeyword := by simp

/-- `operator<<(long)`. -/
def pushLong (c : Command) (l : ℤ) : Command :=
  c.push (intText l)

/-- `operator<<(double)`. -/
def pushDouble (c : Command) (d : Double) : Command :=
  c.push (doubleText d)

def keyword (c : Command) : Buffer :=
  c.mElements.head c.hasKeyword

def header (mark : Char) (n : ℕ) : Buffer :=
  ascii mark :: (text n ++ [CR, LF])

def encodeElement (s : Buffer) : Buffer :=
  header '$' s.length ++ (s ++ [CR, LF])

def get (c : Command) : Buffer :=
  header '*' c.mElements.length ++ (c.mElements.map encodeElement).flatten

@[simp] theorem mElements_ofKeyword (keyword : Buffer) :
    (ofKeyword keyword).mElements = [keyword] := rfl

@[simp] theorem mElements_push (c : Command) (s : Buffer) :
    (c.push s).mElements = c.mElements ++ [s] := rfl

theorem ext_mElements {c d : Command} (h : c.mElements = d.mElements) :
    c = d := by
  cases c
  cases d
  simp only at h
  subst h
  rfl

def withArguments (keyword : Buffer) (arguments : List Buffer) : Command :=
  arguments.foldl push (ofKeyword keyword)

theorem mElements_foldl_push (c : Command) (arguments : List Buffer) :
    (arguments.foldl push c).mElements = c.mElements ++ arguments := by
  induction arguments generalizing c with
  | nil => simp
  | cons s rest ih => simp [ih]

@[simp] theorem mElements_withArguments (keyword : Buffer)
    (arguments : List Buffer) :
    (withArguments keyword arguments).mElements = keyword :: arguments := by
  simp [withArguments, mElements_foldl_push]

example : (withArguments (bytes "GET") [bytes "x"]).get =
    bytes "*2\r\n$3\r\nGET\r\n$1\r\nx\r\n" := by decide

end Command

/-! ## C strings -/

theorem decide_ne_of_not_mem {s : List Byte} {c : Byte} (h : c ∉ s) :
    ∀ b ∈ s, decide (b ≠ c) = true := by
  intro b hb
  rw [decide_eq_true_iff]
  rintro rfl
  exact h hb

theorem strlen_le (s : List Byte) : strlen s ≤ s.length :=
  (List.takeWhile_prefix _).length_le

theorem strlen_eq_length_iff {s : List Byte} :
    strlen s = s.length ↔ 0 ∉ s := by
  unfold strlen
  constructor
  · intro h hmem
    have hall : s.takeWhile (· ≠ 0) = s :=
      (List.takeWhile_prefix _).eq_of_length h
    have hzero := List.takeWhile_eq_self_iff.mp hall 0 hmem
    simp at hzero
  · intro h
    rw [List.takeWhile_eq_self_iff.mpr (decide_ne_of_not_mem h)]

/-- A C string is copied whole exactly when it has no NUL and its length is an
`int`. -/
theorem Buffer.ofCString_eq_self_iff {s : List Byte} :
    Buffer.ofCString s = some s ↔ 0 ∉ s ∧ (s.length : ℤ) ≤ INT_MAX := by
  have hlength := strlen_le s
  rw [← strlen_eq_length_iff]
  unfold Buffer.ofCString
  constructor
  · intro h
    dsimp only at h
    split at h
    · simp at h
    · have htake := List.take_eq_self_iff _ |>.mp (Option.some.inj h)
      have hle := toInt_natCast_le (strlen s)
      have hmax := toInt_le (strlen s)
      omega
  · rintro ⟨hwhole, hmax⟩
    have hint : toInt (strlen s) = s.length := by
      rw [hwhole]
      exact toInt_of_mem (by unfold INT_MIN; omega) hmax
    dsimp only
    rw [hint, if_neg (by omega), Int.toNat_natCast, List.take_length]

end Redispp
