import Mathlib.Tactic

/-!
# Decimal numerals as bytes

Numbers are printed as ASCII digits and read back by accumulating digits.  The
digits themselves are those of `Nat.toDigits`; what is added here is the
passage to bytes and the behaviour in front of a byte that is no digit.
-/

abbrev ascii (c : Char) : UInt8 := c.toUInt8

namespace Decimal

def isDigit (b : UInt8) : Bool :=
  48 ≤ b.toNat && b.toNat ≤ 57

def value (digits : List UInt8) : ℕ :=
  digits.foldl (fun total b => 10 * total + (b.toNat - 48)) 0

/-- The decimal text of a natural number, without leading zeros. -/
def text (n : ℕ) : List UInt8 :=
  (Nat.toDigits 10 n).map Char.toUInt8

def intText (z : ℤ) : List UInt8 :=
  if z < 0 then ascii '-' :: text z.natAbs else text z.natAbs

private theorem toNat_toUInt8_of_isDigit {c : Char} (h : c.isDigit = true) :
    c.toUInt8.toNat = c.toNat ∧ 48 ≤ c.toNat ∧ c.toNat ≤ 57 := by
  simp only [Char.isDigit, Bool.and_eq_true, decide_eq_true_eq, ge_iff_le,
    UInt32.le_iff_toNat_le] at h
  have hbounds : 48 ≤ c.toNat ∧ c.toNat ≤ 57 := h
  refine ⟨?_, hbounds⟩
  change c.toNat % 256 = c.toNat
  omega

theorem isDigit_of_mem_text {n : ℕ} {b : UInt8} (h : b ∈ text n) :
    isDigit b = true := by
  obtain ⟨c, hc, rfl⟩ := List.mem_map.mp h
  have hdigit :=
    Nat.isDigit_of_mem_toDigits (by decide) (by decide) hc
  obtain ⟨hval, hlow, hhigh⟩ := toNat_toUInt8_of_isDigit hdigit
  simp [isDigit, hval, hlow, hhigh]

@[simp] theorem text_ne_nil (n : ℕ) : text n ≠ [] := by
  simp [text]

theorem value_text (n : ℕ) : value (text n) = n := by
  have hfold : ∀ (cs : List Char) (total : ℕ),
      (∀ c ∈ cs, c.isDigit = true) →
      (cs.map Char.toUInt8).foldl
          (fun total b => 10 * total + (b.toNat - 48)) total =
        Nat.ofDigitChars 10 cs total := by
    intro cs
    induction cs with
    | nil => intro total _; simp
    | cons c cs ih =>
        intro total hcs
        have hval := (toNat_toUInt8_of_isDigit (hcs c (by simp))).1
        rw [Nat.ofDigitChars_cons, List.map_cons, List.foldl_cons, hval]
        exact ih _ (fun d hd => hcs d (List.mem_cons_of_mem c hd))
  have hdigits : ∀ c ∈ Nat.toDigits 10 n, c.isDigit = true :=
    fun c hc => Nat.isDigit_of_mem_toDigits (by decide) (by decide) hc
  unfold value text
  rw [hfold _ 0 hdigits]
  exact Nat.ofDigitChars_ten_toDigits

theorem takeWhile_digits {digits rest : List UInt8}
    (hdigits : ∀ b ∈ digits, isDigit b = true)
    (hstop : ∀ b ∈ rest.head?, isDigit b = false) :
    (digits ++ rest).takeWhile isDigit = digits := by
  rw [List.takeWhile_append_of_pos hdigits]
  cases rest with
  | nil => simp
  | cons b rest => simp [hstop b (by simp)]

theorem takeWhile_text {n : ℕ} {rest : List UInt8}
    (hstop : ∀ b ∈ rest.head?, isDigit b = false) :
    (text n ++ rest).takeWhile isDigit = text n :=
  takeWhile_digits (fun _ hb => isDigit_of_mem_text hb) hstop

theorem dropWhile_digits {digits rest : List UInt8}
    (hdigits : ∀ b ∈ digits, isDigit b = true)
    (hstop : ∀ b ∈ rest.head?, isDigit b = false) :
    (digits ++ rest).dropWhile isDigit = rest := by
  rw [List.dropWhile_append_of_pos hdigits]
  cases rest with
  | nil => simp
  | cons b rest => simp [hstop b (by simp)]

theorem dropWhile_text {n : ℕ} {rest : List UInt8}
    (hstop : ∀ b ∈ rest.head?, isDigit b = false) :
    (text n ++ rest).dropWhile isDigit = rest :=
  dropWhile_digits (fun _ hb => isDigit_of_mem_text hb) hstop

theorem not_mem_text_of_not_digit {n : ℕ} {b : UInt8}
    (h : isDigit b = false) : b ∉ text n := by
  intro hmem
  rw [isDigit_of_mem_text hmem] at h
  contradiction

theorem length_text_le_iff {n k : ℕ} (hk : 0 < k) :
    (text n).length ≤ k ↔ n < 10 ^ k := by
  rw [text, List.length_map]
  exact Nat.length_toDigits_le_iff (by decide) hk

theorem value_append (front back : List UInt8) :
    value (front ++ back) = value front * 10 ^ back.length + value back := by
  have hfold : ∀ (digits : List UInt8) (total : ℕ),
      digits.foldl (fun total b => 10 * total + (b.toNat - 48)) total =
        total * 10 ^ digits.length + value digits := by
    intro digits
    induction digits with
    | nil => intro total; simp [value]
    | cons b digits ih =>
        intro total
        rw [value, List.foldl_cons, List.foldl_cons, ih, ih,
          List.length_cons, pow_succ]
        ring
  rw [value, List.foldl_append, hfold]
  rfl

theorem value_replicate_zero (k : ℕ) :
    value (List.replicate k (ascii '0')) = 0 := by
  induction k with
  | zero => rfl
  | succ k ih =>
      have hzero : value [ascii '0'] = 0 := by decide
      rw [List.replicate_succ', value_append, ih, hzero]
      simp

theorem text_mul_pow {n : ℕ} (hn : 0 < n) (k : ℕ) :
    text (n * 10 ^ k) = text n ++ List.replicate k (ascii '0') := by
  induction k with
  | zero => simp
  | succ k ih =>
      have hpos : 0 < n * 10 ^ k := Nat.mul_pos hn (Nat.pow_pos (by decide))
      have hdigits : Nat.toDigits 10 (n * 10 ^ (k + 1)) =
          Nat.toDigits 10 (n * 10 ^ k) ++ ['0'] := by
        have htimes : n * 10 ^ (k + 1) = 10 * (n * 10 ^ k) + 0 := by ring
        rw [htimes, ← Nat.toDigits_append_toDigits (by decide) hpos
          (by decide)]
        rfl
      rw [List.replicate_succ', ← List.append_assoc, ← ih, text, hdigits,
        List.map_append]
      rfl

/-- The integer that the bytes denote if they are a decimal numeral. -/
def intValue? (s : List UInt8) : Option ℤ :=
  let digits := if s.head? = some (ascii '-') then s.tail else s
  if digits ≠ [] ∧ digits.all isDigit then
    if s.head? = some (ascii '-') then some (-value digits)
    else some (value digits)
  else none

theorem text_all_isDigit (n : ℕ) : (text n).all isDigit = true :=
  List.all_eq_true.mpr fun _ hb => isDigit_of_mem_text hb

theorem head_text_ne_minus (n : ℕ) : (text n).head? ≠ some (ascii '-') := by
  intro h
  have hdigit := isDigit_of_mem_text (List.mem_of_mem_head? h)
  exact absurd hdigit (by decide)

theorem intValue?_intText (z : ℤ) : intValue? (intText z) = some z := by
  unfold intText
  split
  · next hneg => simp [intValue?, text_all_isDigit, value_text, abs_of_neg hneg]
  · next hpos =>
      simp [intValue?, head_text_ne_minus, text_all_isDigit, value_text,
        abs_of_nonneg (not_lt.mp hpos)]

theorem intText_natCast (n : ℕ) : intText (n : ℤ) = text n := by
  simp [intText]

theorem not_mem_intText {z : ℤ} {b : UInt8} (h : isDigit b = false)
    (hminus : b ≠ ascii '-') : b ∉ intText z := by
  unfold intText
  split
  · simp [hminus, not_mem_text_of_not_digit h]
  · exact not_mem_text_of_not_digit h

end Decimal
