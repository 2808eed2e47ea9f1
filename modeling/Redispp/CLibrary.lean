import Redispp.Decimal
import Mathlib.Data.List.DropRight

/-!
# The C library functions behind the client

`atol` and `atof` on the bytes of a C string, and the conversions between
`long`, `int` and `size_t`, on a machine with 64-bit `long` and 32-bit `int`.
A string is the bytes before its terminator; a byte that stops a number stops
it whether or not it is the terminator.
-/

namespace CLibrary

open Decimal

/-! ## Integer types -/

def LONG_MAX : ℤ := 9223372036854775807
def LONG_MIN : ℤ := -9223372036854775808
def INT_MAX : ℤ := 2147483647
def INT_MIN : ℤ := -2147483648

/-- Conversion of a `long` to `int`: the low 32 bits. -/
def toInt (l : ℤ) : ℤ := Int.bmod l 4294967296

def toLong (size : ℕ) : ℤ := Int.bmod size 18446744073709551616

theorem toInt_of_mem {l : ℤ} (hlow : INT_MIN ≤ l) (hhigh : l ≤ INT_MAX) :
    toInt l = l := by
  unfold INT_MIN at hlow
  unfold INT_MAX at hhigh
  exact Int.bmod_eq_of_le (by omega) (by omega)

theorem toInt_le (l : ℤ) : toInt l ≤ INT_MAX := by
  unfold toInt INT_MAX
  have hlt := Int.bmod_lt (x := l) (m := 4294967296) (by decide)
  omega

theorem INT_MIN_le_toInt (l : ℤ) : INT_MIN ≤ toInt l := by
  unfold toInt INT_MIN
  have hle := Int.le_bmod (x := l) (m := 4294967296) (by decide)
  omega

theorem toInt_natCast_le (n : ℕ) : toInt n ≤ n := by
  unfold toInt
  rw [Int.bmod_def]
  split <;> omega

theorem toInt_eq_self_iff {l : ℤ} :
    toInt l = l ↔ INT_MIN ≤ l ∧ l ≤ INT_MAX := by
  constructor
  · intro h
    rw [← h]
    exact ⟨INT_MIN_le_toInt l, toInt_le l⟩
  · rintro ⟨hlow, hhigh⟩
    exact toInt_of_mem hlow hhigh

theorem toInt_natCast_eq_iff {n : ℕ} :
    toInt n = n ↔ (n : ℤ) ≤ INT_MAX := by
  have hlow : INT_MIN ≤ n := by
    unfold INT_MIN
    omega
  rw [toInt_eq_self_iff, and_iff_right hlow]

theorem toLong_of_le {size : ℕ} (h : (size : ℤ) ≤ LONG_MAX) :
    toLong size = size := by
  unfold LONG_MAX at h
  exact Int.bmod_eq_of_le (by omega) (by omega)

theorem toLong_eq_self_iff {size : ℕ} :
    toLong size = size ↔ (size : ℤ) ≤ LONG_MAX := by
  constructor
  · intro h
    have hlt := Int.bmod_lt (x := size) (m := 18446744073709551616) (by decide)
    unfold toLong at h
    unfold LONG_MAX
    omega
  · exact toLong_of_le

/-! ## `atol` -/

def isspace (b : UInt8) : Bool :=
  b = 32 || (9 ≤ b.toNat && b.toNat ≤ 13)

/-- Values beyond the range of `long` become its nearest bound. -/
def saturate (z : ℤ) : ℤ := max LONG_MIN (min LONG_MAX z)

theorem saturate_of_mem {z : ℤ} (hlow : LONG_MIN ≤ z) (hhigh : z ≤ LONG_MAX) :
    saturate z = z := by
  simp [saturate, hlow, hhigh]

theorem saturate_natCast_eq_iff {m n : ℕ} (hn : (n : ℤ) < LONG_MAX) :
    saturate m = n ↔ m = n := by
  unfold saturate LONG_MIN LONG_MAX at *
  omega

def scanSign (s : List UInt8) : Bool × List UInt8 :=
  if s.head? = some (ascii '-') then (true, s.tail)
  else if s.head? = some (ascii '+') then (false, s.tail)
  else (false, s)

def atol (s : List UInt8) : ℤ :=
  let (negative, digits) := scanSign (s.dropWhile isspace)
  let magnitude : ℤ := value (digits.takeWhile isDigit)
  saturate (if negative then -magnitude else magnitude)

theorem not_isspace_of_isDigit {b : UInt8} (h : isDigit b = true) :
    isspace b = false := by
  simp only [isDigit, Bool.and_eq_true, decide_eq_true_eq] at h
  have hne : b ≠ 32 := by
    rintro rfl
    exact absurd h (by decide)
  simp only [isspace, hne, decide_false, Bool.false_or, Bool.and_eq_false_iff,
    decide_eq_false_iff_not]
  omega

theorem scanSign_of_isDigit {b : UInt8} {rest : List UInt8}
    (h : isDigit b = true) : scanSign (b :: rest) = (false, b :: rest) := by
  have hminus : b ≠ ascii '-' := by
    rintro rfl
    exact absurd h (by decide)
  have hplus : b ≠ ascii '+' := by
    rintro rfl
    exact absurd h (by decide)
  simp [scanSign, hminus, hplus]

theorem atol_digits {digits rest : List UInt8} (hne : digits ≠ [])
    (hdigits : ∀ b ∈ digits, isDigit b = true)
    (hstop : ∀ b ∈ rest.head?, isDigit b = false) :
    atol (digits ++ rest) = saturate (value digits) := by
  cases digits with
  | nil => exact absurd rfl hne
  | cons b digits =>
      have hb := hdigits b List.mem_cons_self
      have hspace : ((b :: digits) ++ rest).dropWhile isspace =
          (b :: digits) ++ rest := by
        simp [not_isspace_of_isDigit hb]
      have hsign : scanSign ((b :: digits) ++ rest) =
          (false, (b :: digits) ++ rest) := scanSign_of_isDigit hb
      unfold atol
      rw [hspace, hsign]
      simp only [takeWhile_digits hdigits hstop, Bool.false_eq_true, if_false]

theorem atol_minus_digits {digits rest : List UInt8}
    (hdigits : ∀ b ∈ digits, isDigit b = true)
    (hstop : ∀ b ∈ rest.head?, isDigit b = false) :
    atol (ascii '-' :: (digits ++ rest)) = saturate (-(value digits : ℤ)) := by
  have hspace : (ascii '-' :: (digits ++ rest)).dropWhile isspace =
      ascii '-' :: (digits ++ rest) := by
    simp [show isspace (ascii '-') = false by decide]
  have hsign : scanSign (ascii '-' :: (digits ++ rest)) =
      (true, digits ++ rest) := by
    simp [scanSign]
  unfold atol
  rw [hspace, hsign]
  simp only [takeWhile_digits hdigits hstop, if_true]

theorem atol_text {n : ℕ} {rest : List UInt8}
    (hstop : ∀ b ∈ rest.head?, isDigit b = false) :
    atol (text n ++ rest) = saturate n := by
  rw [atol_digits (text_ne_nil n) (fun _ hb => isDigit_of_mem_text hb) hstop,
    value_text]

theorem atol_intText {z : ℤ} {rest : List UInt8} (hlow : LONG_MIN ≤ z)
    (hhigh : z ≤ LONG_MAX) (hstop : ∀ b ∈ rest.head?, isDigit b = false) :
    atol (intText z ++ rest) = z := by
  unfold intText
  split
  · have hvalue : (-(z.natAbs : ℤ)) = z := by omega
    rw [List.cons_append, atol_minus_digits
      (fun _ hb => isDigit_of_mem_text hb) hstop, value_text, hvalue]
    exact saturate_of_mem hlow hhigh
  · have hvalue : (z.natAbs : ℤ) = z := by omega
    rw [atol_text hstop, hvalue]
    exact saturate_of_mem hlow hhigh

/-! ## Doubles -/

/-- Every finite number of the format in one form: normal ones have all of
their bits, and the rest have the least exponent. -/
def Double.InFormat (significand : ℕ) (exponent : ℤ) : Prop :=
  significand < 2 ^ 53 ∧ -1074 ≤ exponent ∧ exponent ≤ 971 ∧
    (exponent = -1074 ∨ 2 ^ 52 ≤ significand)

instance (significand : ℕ) (exponent : ℤ) :
    Decidable (Double.InFormat significand exponent) :=
  inferInstanceAs (Decidable (_ ∧ _))

/-- A double: `significand * 2 ^ exponent` with its sign, or no number. -/
inductive Double
  | finite (negative : Bool) (significand : ℕ) (exponent : ℤ)
      (inFormat : Double.InFormat significand exponent)
  | infinity (negative : Bool)
  | nan (negative : Bool)
  deriving DecidableEq, Repr

def Double.zero (negative : Bool) : Double :=
  .finite negative 0 (-1074) (by decide)

/-- The integer nearest to `num / den`, ties to the even one. -/
def roundRatio (num den : ℕ) : ℕ :=
  let floor := num / den
  let twice := 2 * (num % den)
  if den < twice || (twice = den && floor % 2 = 1) then floor + 1 else floor

/-- The exponent `top` with `2 ^ top ≤ num / den < 2 ^ (top + 1)`. -/
def binaryExponent (num den : ℕ) : ℤ :=
  let guess : ℤ := (Nat.log2 num : ℤ) - Nat.log2 den
  if den * 2 ^ guess.toNat ≤ num * 2 ^ (-guess).toNat then guess
  else guess - 1

/-- The exponent of the last bit that a double keeps. -/
def lastExponent (num den : ℕ) : ℤ :=
  max (binaryExponent num den - 52) (-1074)

/-- The bits that are kept, with a carry out of the first of them. -/
def keptBits (num den : ℕ) : ℕ × ℤ :=
  let ulp := lastExponent num den
  let rounded := roundRatio (num * 2 ^ (-ulp).toNat) (den * 2 ^ ulp.toNat)
  if rounded = 2 ^ 53 then (2 ^ 52, ulp + 1) else (rounded, ulp)

/-- The double nearest to `num / den`, ties to the even significand. -/
def Double.ofRatio (negative : Bool) (num den : ℕ) : Double :=
  if num = 0 then .zero negative
  else if h : InFormat (keptBits num den).1 (keptBits num den).2 then
    .finite negative (keptBits num den).1 (keptBits num den).2 h
  else .infinity negative

/-! ## `atof` -/

def lower (b : UInt8) : UInt8 :=
  if 65 ≤ b.toNat && b.toNat ≤ 90 then b + 32 else b

def isHexDigit (b : UInt8) : Bool :=
  isDigit b || (97 ≤ (lower b).toNat && (lower b).toNat ≤ 102)

def hexValue (digits : List UInt8) : ℕ :=
  digits.foldl (fun total b => 16 * total +
    (if isDigit b then b.toNat - 48 else (lower b).toNat - 87)) 0

/-- The exponent part behind `mark`, zero if it has no digits. -/
def scanExponent (mark : UInt8) (s : List UInt8) : ℤ :=
  if (s.head?.map lower) = some mark then
    let (negative, digits) := scanSign s.tail
    let magnitude : ℤ := value (digits.takeWhile isDigit)
    if negative then -magnitude else magnitude
  else 0

/-- Digits around an optional point: those before it, those after it, and what
follows. -/
def scanPoint (digit : UInt8 → Bool) (s : List UInt8) :
    List UInt8 × List UInt8 × List UInt8 :=
  let whole := s.takeWhile digit
  let rest := s.dropWhile digit
  if rest.head? = some (ascii '.') then
    (whole, rest.tail.takeWhile digit, rest.tail.dropWhile digit)
  else (whole, [], rest)

def startsWith (word s : List UInt8) : Bool :=
  (s.take word.length).map lower = word

def atof (s : List UInt8) : Double :=
  let (negative, s) := scanSign (s.dropWhile isspace)
  let hex := scanPoint isHexDigit (s.drop 2)
  if startsWith [ascii 'i', ascii 'n', ascii 'f'] s then .infinity negative
  else if startsWith [ascii 'n', ascii 'a', ascii 'n'] s then .nan negative
  else if startsWith [ascii '0', ascii 'x'] s &&
      (hex.1 ++ hex.2.1) ≠ [] then
    let exponent := scanExponent (ascii 'p') hex.2.2 - 4 * hex.2.1.length
    Double.ofRatio negative
      (hexValue (hex.1 ++ hex.2.1) * 2 ^ exponent.toNat)
      (2 ^ (-exponent).toNat)
  else
    let decimal := scanPoint isDigit s
    let exponent := scanExponent (ascii 'e') decimal.2.2 - decimal.2.1.length
    -- a sign that no number follows is not read either
    if decimal.1 ++ decimal.2.1 = [] then .zero false
    else
      Double.ofRatio negative
        (value (decimal.1 ++ decimal.2.1) * 10 ^ exponent.toNat)
        (10 ^ (-exponent).toNat)

example : atof [ascii '-', ascii '0', ascii '.', ascii '5'] =
    .finite true 4503599627370496 (-53) (by decide) := by decide

example : atof [ascii '-', ascii 'a'] = .zero false := by decide

/-! ## A double on an output stream -/

/-- The exponent `top` with `10 ^ top ≤ num / den < 10 ^ (top + 1)`. -/
def decimalExponent (num den : ℕ) : ℤ :=
  if den ≤ num then (text (num / den)).length - 1
  else -(text ((den - 1) / num)).length

/-- Six significant digits and the power of ten at the first of them. -/
def sixDigits (num den : ℕ) : ℕ × ℤ :=
  let top := decimalExponent num den
  let digits :=
    roundRatio (num * 10 ^ (5 - top).toNat) (den * 10 ^ (top - 5).toNat)
  if digits = 10 ^ 6 then (10 ^ 5, top + 1) else (digits, top)

def signText (negative : Bool) : List UInt8 :=
  if negative then [ascii '-'] else []

/-- Zeros at the end of the fraction are dropped, and the point with the last
of its digits. -/
def pointText (whole fraction : List UInt8) : List UInt8 :=
  let kept := fraction.rdropWhile (· = ascii '0')
  if kept = [] then whole else whole ++ ascii '.' :: kept

/-- A sign and two digits at least. -/
def exponentText (top : ℤ) : List UInt8 :=
  let digits := text top.natAbs
  (if top < 0 then ascii '-' else ascii '+') ::
    (if digits.length < 2 then ascii '0' :: digits else digits)

def ratioText (num den : ℕ) : List UInt8 :=
  if num = 0 then [ascii '0']
  else
    let (number, top) := sixDigits num den
    let digits := text number
    if top < -4 ∨ 6 ≤ top then
      pointText (digits.take 1) (digits.drop 1) ++
        ascii 'e' :: exponentText top
    else if 0 ≤ top then
      pointText (digits.take (top.toNat + 1)) (digits.drop (top.toNat + 1))
    else
      pointText [ascii '0']
        (List.replicate (-top - 1).toNat (ascii '0') ++ digits)

/-- `ss << d` with the default format and its precision of six. -/
def doubleText : Double → List UInt8
  | .finite negative significand exponent _ =>
      signText negative ++ ratioText (significand * 2 ^ exponent.toNat)
        (2 ^ (-exponent).toNat)
  | .infinity negative =>
      signText negative ++ [ascii 'i', ascii 'n', ascii 'f']
  | .nan negative => signText negative ++ [ascii 'n', ascii 'a', ascii 'n']

example : doubleText (.finite true (1234567 * 2 ^ 32) (-33) (by decide)) =
    [ascii '-', ascii '6', ascii '1', ascii '7', ascii '2', ascii '8',
      ascii '4'] := by decide +kernel

end CLibrary
