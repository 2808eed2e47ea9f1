import Redispp.DoubleText

/-!
# Printing a double and reading it back

The default format of a stream keeps six significant digits.  Where doubles
are closer to one another than numbers of six digits, the double nearest to
such a number is printed as that number again.  Among the smallest doubles
this fails.
-/

namespace CLibrary

open Decimal

/-! ## Rounding to the nearest -/

theorem roundRatio_near (num : ℕ) {den : ℕ} (hden : 0 < den) :
    |(roundRatio num den : ℚ) - num / den| ≤ 1 / 2 := by
  have hsplit : den * (num / den) + num % den = num := Nat.div_add_mod num den
  have hmod : num % den < den := Nat.mod_lt num hden
  have hbounds : 2 * (roundRatio num den * den) ≤ 2 * num + den ∧
      2 * num ≤ 2 * (roundRatio num den * den) + den := by
    unfold roundRatio
    dsimp only
    split
    · next hup =>
        simp only [Bool.or_eq_true, decide_eq_true_eq, Bool.and_eq_true] at hup
        rw [add_mul, one_mul, mul_comm (num / den)]
        omega
    · next hdown =>
        simp only [Bool.or_eq_true, decide_eq_true_eq, Bool.and_eq_true,
          not_or] at hdown
        rw [mul_comm (num / den)]
        omega
  have hpos : (0 : ℚ) < den := Nat.cast_pos.mpr hden
  have hhigh : (2 * (roundRatio num den * den) : ℚ) ≤ 2 * num + den := by
    exact_mod_cast hbounds.1
  have hlow : (2 * num : ℚ) ≤ 2 * (roundRatio num den * den) + den := by
    exact_mod_cast hbounds.2
  have hcancel : (num / den : ℚ) * den = num := div_mul_cancel₀ _ hpos.ne'
  rw [abs_le]
  constructor
  · apply le_of_mul_le_mul_right _ hpos
    rw [sub_mul, hcancel]
    linarith
  · apply le_of_mul_le_mul_right _ hpos
    rw [sub_mul, hcancel]
    linarith

theorem roundRatio_unique {num den n : ℕ} (hden : 0 < den)
    (h : |(n : ℚ) - num / den| < 1 / 2) : roundRatio num den = n := by
  have hnear := roundRatio_near num hden
  rw [abs_le] at hnear
  rw [abs_lt] at h
  have hlow : (roundRatio num den : ℚ) < n + 1 := by linarith
  have hhigh : (n : ℚ) < roundRatio num den + 1 := by linarith
  have hle : roundRatio num den < n + 1 := by exact_mod_cast hlow
  have hge : n < roundRatio num den + 1 := by exact_mod_cast hhigh
  omega

/-- A ratio moved by a power of its base. -/
theorem scaled_ratio (base : ℕ) (hbase : 0 < base) (num den : ℕ) (k : ℤ) :
    ((num * base ^ k.toNat : ℕ) : ℚ) / (den * base ^ (-k).toNat : ℕ) =
      num / den * (base : ℚ) ^ k := by
  have hpos : (0 : ℚ) < base := Nat.cast_pos.mpr hbase
  have hsplit : k = k.toNat - (-k).toNat := (Int.toNat_sub_toNat_neg k).symm
  have hpow : (base : ℚ) ^ k = base ^ k.toNat / base ^ (-k).toNat := by
    conv_lhs => rw [hsplit]
    rw [zpow_sub₀ hpos.ne', zpow_natCast, zpow_natCast]
  rw [hpow]
  push_cast
  rw [div_mul_div_comm]

/-! ## Six digits -/

section Digits

variable {num den : ℕ}

theorem decimalExponent_bounds (hnum : 0 < num) (hden : 0 < den) :
    (10 : ℚ) ^ decimalExponent num den ≤ num / den ∧
      (num / den : ℚ) < 10 ^ (decimalExponent num den + 1) := by
  have hpos : (0 : ℚ) < den := Nat.cast_pos.mpr hden
  unfold decimalExponent
  split
  · next hle =>
      obtain ⟨hlow, hhigh⟩ := text_bounds (Nat.div_pos hle hden)
      have hlength := List.length_pos_of_ne_nil (text_ne_nil (num / den))
      generalize (text (num / den)).length = k at hlow hhigh hlength
      obtain ⟨k, rfl⟩ : ∃ j, k = j + 1 := ⟨k - 1, by omega⟩
      rw [Nat.add_sub_cancel, Nat.le_div_iff_mul_le hden] at hlow
      rw [Nat.div_lt_iff_lt_mul hden] at hhigh
      rw [le_div_iff₀ hpos, div_lt_iff₀ hpos]
      have hexponent : ((k + 1 : ℕ) : ℤ) - 1 = k := by omega
      rw [hexponent, zpow_natCast, ← Nat.cast_succ, zpow_natCast]
      exact ⟨by exact_mod_cast hlow, by exact_mod_cast hhigh⟩
  · next hlt =>
      have hquotient : 0 < (den - 1) / num :=
        Nat.div_pos (by omega) hnum
      obtain ⟨hlow, hhigh⟩ := text_bounds hquotient
      have hlength := List.length_pos_of_ne_nil (text_ne_nil ((den - 1) / num))
      generalize (text ((den - 1) / num)).length = k at hlow hhigh hlength
      obtain ⟨k, rfl⟩ : ∃ j, k = j + 1 := ⟨k - 1, by omega⟩
      rw [Nat.add_sub_cancel, Nat.le_div_iff_mul_le hnum] at hlow
      rw [Nat.div_lt_iff_lt_mul hnum] at hhigh
      have hup : den ≤ 10 ^ (k + 1) * num := by omega
      have hdown : 10 ^ k * num < den := by omega
      have hexponent : -((k + 1 : ℕ) : ℤ) + 1 = -(k : ℤ) := by omega
      rw [hexponent, zpow_neg, zpow_neg, zpow_natCast, zpow_natCast,
        le_div_iff₀ hpos, div_lt_iff₀ hpos, inv_mul_le_iff₀ (by positivity),
        lt_inv_mul_iff₀ (by positivity)]
      exact ⟨by exact_mod_cast hup, by exact_mod_cast hdown⟩

theorem decimalExponent_unique (hnum : 0 < num) (hden : 0 < den) {t : ℤ}
    (hlow : (10 : ℚ) ^ t ≤ num / den)
    (hhigh : (num / den : ℚ) < 10 ^ (t + 1)) : decimalExponent num den = t := by
  obtain ⟨hle, hlt⟩ := decimalExponent_bounds hnum hden
  have hbase : (1 : ℚ) < 10 := by norm_num
  have hfirst := (zpow_lt_zpow_iff_right₀ hbase).mp (hle.trans_lt hhigh)
  have hsecond := (zpow_lt_zpow_iff_right₀ hbase).mp (hlow.trans_lt hlt)
  omega

/-- The number that six digits and the power of the first stand for. -/
def sixNumber (digits : ℕ × ℤ) : ℚ := digits.1 * 10 ^ (digits.2 - 5)

/-- There are six digits, and they are off by half a unit of the last at
most. -/
structure SixDigits (x : ℚ) (digits : ℕ × ℤ) : Prop where
  low : 10 ^ 5 ≤ digits.1
  high : digits.1 < 10 ^ 6
  near : ∃ top : ℤ, (10 : ℚ) ^ top ≤ x ∧ x < 10 ^ (top + 1) ∧
    |sixNumber digits - x| ≤ 10 ^ (top - 5) / 2

theorem sixDigits_spec (hnum : 0 < num) (hden : 0 < den) :
    SixDigits (num / den) (sixDigits num den) := by
  obtain ⟨hle, hlt⟩ := decimalExponent_bounds hnum hden
  unfold sixDigits
  dsimp only
  generalize decimalExponent num den = top at hle hlt
  have hunit : (0 : ℚ) < 10 ^ (top - 5) := by positivity
  have hscaled : 0 < den * 10 ^ (top - 5).toNat := by positivity
  have hnear := roundRatio_near (num * 10 ^ (5 - top).toNat) hscaled
  have hmoved := scaled_ratio 10 (by decide) num den (5 - top)
  rw [neg_sub] at hmoved
  rw [hmoved] at hnear
  generalize roundRatio (num * 10 ^ (5 - top).toNat)
    (den * 10 ^ (top - 5).toNat) = n at hnear
  push_cast at hnear
  have hback : (num / den : ℚ) =
      num / den * 10 ^ (5 - top) * 10 ^ (top - 5) := by
    rw [mul_assoc, ← zpow_add₀ (by norm_num)]
    norm_num
  generalize (num / den : ℚ) * 10 ^ (5 - top) = y at hnear hback
  rw [hback] at hle hlt ⊢
  rw [abs_le] at hnear
  have hlow : (10 : ℚ) ^ 5 ≤ y := by
    apply le_of_mul_le_mul_right _ hunit
    rw [← zpow_natCast, ← zpow_add₀ (by norm_num)]
    simpa using hle
  have hhigh : y < 10 ^ 6 := by
    apply lt_of_mul_lt_mul_right _ hunit.le
    rw [← zpow_natCast, ← zpow_add₀ (by norm_num)]
    have hexponent : ((6 : ℕ) : ℤ) + (top - 5) = top + 1 := by
      push_cast
      ring
    rwa [hexponent]
  have hmore : 10 ^ 5 < n + 1 := by
    have hcast : (10 : ℚ) ^ 5 < n + 1 := by linarith
    exact_mod_cast hcast
  have hless : n < 10 ^ 6 + 1 := by
    have hcast : (n : ℚ) < 10 ^ 6 + 1 := by linarith
    exact_mod_cast hcast
  have hclose : |(n : ℚ) * 10 ^ (top - 5) - y * 10 ^ (top - 5)| ≤
      10 ^ (top - 5) / 2 := by
    rw [← sub_mul, abs_mul, abs_of_pos hunit, div_eq_inv_mul]
    apply mul_le_mul_of_nonneg_right _ hunit.le
    rw [abs_le]
    constructor <;> linarith
  split
  · next hcarry =>
      have hsame : sixNumber (10 ^ 5, top + 1) = n * 10 ^ (top - 5) := by
        have hexponent : top + 1 - 5 = 1 + (top - 5) := by ring
        rw [sixNumber, hcarry, hexponent, zpow_add₀ (by norm_num)]
        push_cast
        ring
      refine ⟨le_rfl, by norm_num, top, hle, hlt, ?_⟩
      rw [hsame]
      exact hclose
  · next hne => exact ⟨by omega, by omega, top, hle, hlt, hclose⟩

theorem sixDigits_eq (hnum : 0 < num) (hden : 0 < den) (top : ℤ) (n : ℕ)
    (hle : (10 : ℚ) ^ top ≤ num / den) (hlt : (num / den : ℚ) < 10 ^ (top + 1))
    (hnear : |(n : ℚ) - num / den * 10 ^ (5 - top)| < 1 / 2) :
    sixDigits num den = if n = 10 ^ 6 then (10 ^ 5, top + 1) else (n, top) := by
  have hscaled : 0 < den * 10 ^ (top - 5).toNat := by positivity
  have hmoved := scaled_ratio 10 (by decide) num den (5 - top)
  rw [neg_sub] at hmoved
  push_cast at hmoved
  have hround : roundRatio (num * 10 ^ (5 - top).toNat)
      (den * 10 ^ (top - 5).toNat) = n := by
    apply roundRatio_unique hscaled
    push_cast
    rw [hmoved]
    exact hnear
  unfold sixDigits
  dsimp only
  rw [decimalExponent_unique hnum hden hle hlt, hround]

/-- A number close to one of six digits is printed as that one. -/
theorem sixDigits_of_near (hnum : 0 < num) (hden : 0 < den) {n : ℕ} {t : ℤ}
    (hlow : 10 ^ 5 ≤ n) (hhigh : n < 10 ^ 6)
    (h : |(num / den : ℚ) - sixNumber (n, t)| ≤ sixNumber (n, t) / 2 ^ 21) :
    sixDigits num den = (n, t) := by
  have hunit : (0 : ℚ) < 10 ^ (t - 5) := by positivity
  have hback : (num / den : ℚ) =
      num / den * 10 ^ (5 - t) * 10 ^ (t - 5) := by
    rw [mul_assoc, ← zpow_add₀ (by norm_num)]
    norm_num
  have hnext : (num / den : ℚ) * 10 ^ (5 - (t - 1)) =
      num / den * 10 ^ (5 - t) * 10 := by
    have hexponent : 5 - (t - 1) = 5 - t + 1 := by ring
    rw [hexponent, zpow_add_one₀ (by norm_num), mul_assoc]
  have hpower : (10 : ℚ) ^ t = 10 ^ 5 * 10 ^ (t - 5) := by
    rw [← zpow_natCast, ← zpow_add₀ (by norm_num)]
    congr 1
    omega
  -- in units of the last digit
  have hsix := sixDigits_eq hnum hden t n
  have hcarry := sixDigits_eq hnum hden (t - 1) (10 ^ 6)
  rw [hnext] at hcarry
  generalize hy : (num / den : ℚ) * 10 ^ (5 - t) = y at hback hsix hcarry
  have hclose : |y - n| ≤ n / 2 ^ 21 := by
    rw [hback, sixNumber, ← sub_mul, abs_mul, abs_of_pos hunit,
      mul_div_right_comm] at h
    exact le_of_mul_le_mul_right h hunit
  rw [abs_le] at hclose
  have hn : (n : ℚ) ≤ 10 ^ 6 - 1 := by
    have hcast : n + 1 ≤ 10 ^ 6 := hhigh
    have hle : (n : ℚ) + 1 ≤ 10 ^ 6 := by exact_mod_cast hcast
    linarith
  by_cases htop : (10 : ℚ) ^ 5 ≤ y
  · have hresult := hsix ?_ ?_ ?_
    · rw [hresult, if_neg (by omega)]
    · rw [hback, hpower]
      exact mul_le_mul_of_nonneg_right htop hunit.le
    · rw [hback, zpow_add_one₀ (by norm_num), hpower, mul_right_comm]
      apply mul_lt_mul_of_pos_right _ hunit
      linarith
    · rw [abs_lt]
      constructor <;> linarith
  · -- below the power of ten that the number is
    have hten : n = 10 ^ 5 := by
      have hlt : (n : ℚ) < 10 ^ 5 + 1 := by linarith
      have hcast : n < 10 ^ 5 + 1 := by exact_mod_cast hlt
      omega
    subst hten
    push_cast at hclose hcarry
    have hresult := hcarry ?_ ?_ ?_
    · rw [hresult, sub_add_cancel]
      norm_num
    · have hless : (10 : ℚ) ^ 5 * 10 ^ (t - 5) = 10 ^ (t - 1) * 10 := by
        rw [← hpower, ← zpow_add_one₀ (by norm_num), sub_add_cancel]
      rw [hback]
      have hscale := mul_le_mul_of_nonneg_right
        (show (10 : ℚ) ^ 5 / 10 ≤ y by linarith) hunit.le
      rw [div_mul_eq_mul_div, hless, mul_div_cancel_right₀ _ (by norm_num)]
        at hscale
      exact hscale
    · rw [sub_add_cancel, hback, hpower]
      exact mul_lt_mul_of_pos_right (not_le.mp htop) hunit
    · rw [abs_lt]
      constructor <;> linarith

end Digits

/-! ## The nearest double -/

theorem log2_ratio {num den : ℕ} (hnum : 0 < num) (hden : 0 < den) :
    (2 : ℚ) ^ ((Nat.log2 num : ℤ) - Nat.log2 den - 1) ≤ num / den ∧
      (num / den : ℚ) < 2 ^ ((Nat.log2 num : ℤ) - Nat.log2 den + 1) := by
  have hlow : (2 ^ Nat.log2 num : ℚ) ≤ num := by
    exact_mod_cast Nat.log2_self_le hnum.ne'
  have hhigh : (num : ℚ) < 2 ^ (Nat.log2 num + 1) := by
    exact_mod_cast Nat.lt_log2_self
  have hdenLow : (2 ^ Nat.log2 den : ℚ) ≤ den := by
    exact_mod_cast Nat.log2_self_le hden.ne'
  have hdenHigh : (den : ℚ) < 2 ^ (Nat.log2 den + 1) := by
    exact_mod_cast Nat.lt_log2_self
  have hpos : (0 : ℚ) < den := Nat.cast_pos.mpr hden
  have hdown : ((Nat.log2 num : ℤ) - Nat.log2 den - 1 : ℤ) =
      (Nat.log2 num : ℕ) - ((Nat.log2 den + 1 : ℕ) : ℤ) := by
    push_cast
    ring
  have hup : ((Nat.log2 num : ℤ) - Nat.log2 den + 1 : ℤ) =
      ((Nat.log2 num + 1 : ℕ) : ℤ) - (Nat.log2 den : ℕ) := by
    push_cast
    ring
  rw [hdown, hup, zpow_sub₀ (by norm_num), zpow_sub₀ (by norm_num),
    zpow_natCast, zpow_natCast, zpow_natCast, zpow_natCast]
  constructor
  · exact div_le_div₀ (by positivity) hlow hpos hdenHigh.le
  · exact div_lt_div₀ hhigh hdenLow (by positivity) (by positivity)

theorem binaryExponent_bounds {num den : ℕ} (hnum : 0 < num)
    (hden : 0 < den) :
    (2 : ℚ) ^ binaryExponent num den ≤ num / den ∧
      (num / den : ℚ) < 2 ^ (binaryExponent num den + 1) := by
  obtain ⟨hdown, hup⟩ := log2_ratio hnum hden
  unfold binaryExponent
  dsimp only
  generalize (Nat.log2 num : ℤ) - Nat.log2 den = guess at hdown hup
  have hpos : (0 : ℚ) < den := Nat.cast_pos.mpr hden
  have hmoved := scaled_ratio 2 (by decide) num den (-guess)
  rw [neg_neg, zpow_neg, ← div_eq_mul_inv] at hmoved
  have hunit : (0 : ℚ) < (den * 2 ^ guess.toNat : ℕ) := by
    exact_mod_cast Nat.mul_pos hden (Nat.two_pow_pos _)
  have hguess : den * 2 ^ guess.toNat ≤ num * 2 ^ (-guess).toNat ↔
      (2 : ℚ) ^ guess ≤ num / den := by
    rw [← Nat.cast_le (α := ℚ), ← one_le_div hunit, hmoved,
      one_le_div (by positivity)]
    rfl
  split
  · next hle => exact ⟨hguess.mp hle, hup⟩
  · next hlt =>
      rw [sub_add_cancel]
      exact ⟨hdown, not_le.mp (mt hguess.mpr hlt)⟩

theorem lastExponent_le {num den : ℕ} (hnum : 0 < num) (hden : 0 < den)
    (hlow : (2 : ℚ) ^ (-1054 : ℤ) ≤ num / den) :
    (2 : ℚ) ^ lastExponent num den / 2 ≤ num / den / 2 ^ 21 := by
  obtain ⟨hle, _⟩ := binaryExponent_bounds hnum hden
  have hbase : (1 : ℚ) ≤ 2 := by norm_num
  have hbound : (2 : ℚ) ^ lastExponent num den ≤
      2 ^ (-20 : ℤ) * (num / den) := by
    unfold lastExponent
    rcases max_choice (binaryExponent num den - 52) (-1074) with hmax | hmax
    · rw [hmax, sub_eq_add_neg, add_comm, zpow_add₀ (by norm_num)]
      apply mul_le_mul _ hle (by positivity) (by positivity)
      exact zpow_le_zpow_right₀ hbase (by norm_num)
    · rw [hmax]
      have hsplit : (-1074 : ℤ) = -20 + -1054 := by norm_num
      rw [hsplit, zpow_add₀ (by norm_num)]
      exact mul_le_mul_of_nonneg_left hlow (by positivity)
  have htwenty : (2 : ℚ) ^ (-20 : ℤ) = 1 / 2 ^ 20 := by norm_num
  rw [htwenty] at hbound
  linarith

theorem keptBits_near (num : ℕ) {den : ℕ} (hden : 0 < den) :
    |((keptBits num den).1 : ℚ) * 2 ^ (keptBits num den).2 - num / den| ≤
        2 ^ lastExponent num den / 2 ∧
      ((keptBits num den).2 = lastExponent num den ∨
        (keptBits num den).2 = lastExponent num den + 1 ∧
          (2 ^ 53 - 1 / 2 : ℚ) * 2 ^ lastExponent num den ≤ num / den) := by
  unfold keptBits
  dsimp only
  generalize lastExponent num den = ulp
  have hunit : (0 : ℚ) < 2 ^ ulp := by positivity
  have hscaled : 0 < den * 2 ^ ulp.toNat :=
    Nat.mul_pos hden (Nat.two_pow_pos _)
  have hnear := roundRatio_near (num * 2 ^ (-ulp).toNat) hscaled
  have hmoved := scaled_ratio 2 (by decide) num den (-ulp)
  rw [neg_neg] at hmoved
  rw [hmoved] at hnear
  generalize roundRatio (num * 2 ^ (-ulp).toNat) (den * 2 ^ ulp.toNat) = n
    at hnear
  have hback : (num / den : ℚ) = num / den * 2 ^ (-ulp) * 2 ^ ulp := by
    rw [mul_assoc, ← zpow_add₀ (by norm_num), neg_add_cancel, zpow_zero,
      mul_one]
  push_cast at hnear
  generalize (num / den : ℚ) * 2 ^ (-ulp) = y at hnear hback
  have hclose : |(n : ℚ) * 2 ^ ulp - num / den| ≤ 2 ^ ulp / 2 := by
    rw [hback, ← sub_mul, abs_mul, abs_of_pos hunit, div_eq_inv_mul]
    exact mul_le_mul_of_nonneg_right (by linarith) hunit.le
  rw [abs_le] at hnear
  split
  · next hcarry =>
      refine ⟨?_, Or.inr ⟨rfl, ?_⟩⟩
      · have hsame : ((2 ^ 52 : ℕ) : ℚ) * 2 ^ (ulp + 1) = n * 2 ^ ulp := by
          rw [hcarry, zpow_add_one₀ (by norm_num)]
          push_cast
          ring
        rw [hsame]
        exact hclose
      · rw [hback]
        apply mul_le_mul_of_nonneg_right _ hunit.le
        rw [hcarry] at hnear
        push_cast at hnear
        linarith
  · exact ⟨hclose, Or.inl rfl⟩

/-- In units of the last bit that is kept a ratio has 53 bits, or fewer above
the least exponent. -/
theorem ratio_in_units {num den : ℕ} (hnum : 0 < num) (hden : 0 < den) :
    let y : ℚ := num / den * 2 ^ (-lastExponent num den)
    y < 2 ^ 53 ∧ (lastExponent num den = -1074 ∨ 2 ^ 52 ≤ y) := by
  intro y
  obtain ⟨hle, hlt⟩ := binaryExponent_bounds hnum hden
  have hunit : (0 : ℚ) < 2 ^ (-lastExponent num den) := by positivity
  constructor
  · calc y < 2 ^ (binaryExponent num den + 1) * 2 ^ (-lastExponent num den) :=
          mul_lt_mul_of_pos_right hlt hunit
      _ = 2 ^ (binaryExponent num den + 1 + -lastExponent num den) :=
          (zpow_add₀ (by norm_num) _ _).symm
      _ ≤ 2 ^ (53 : ℤ) := by
          apply zpow_le_zpow_right₀ (by norm_num)
          unfold lastExponent
          omega
      _ = 2 ^ 53 := zpow_natCast 2 53
  · rcases max_choice (binaryExponent num den - 52) (-1074) with hmax | hmax
    · right
      have hlast : binaryExponent num den + -lastExponent num den = 52 := by
        unfold lastExponent
        omega
      calc (2 : ℚ) ^ 52 = 2 ^ (52 : ℤ) := (zpow_natCast 2 52).symm
        _ = 2 ^ binaryExponent num den * 2 ^ (-lastExponent num den) := by
            rw [← zpow_add₀ (by norm_num), hlast]
        _ ≤ y := mul_le_mul_of_nonneg_right hle hunit.le
    · exact Or.inl hmax

theorem rounded_bounds {num den : ℕ} (hnum : 0 < num) (hden : 0 < den) :
    let ulp := lastExponent num den
    let rounded := roundRatio (num * 2 ^ (-ulp).toNat) (den * 2 ^ ulp.toNat)
    rounded ≤ 2 ^ 53 ∧ (ulp = -1074 ∨ 2 ^ 52 ≤ rounded) := by
  intro ulp rounded
  obtain ⟨hhigh, hlow⟩ := ratio_in_units hnum hden
  have hscaled : 0 < den * 2 ^ ulp.toNat :=
    Nat.mul_pos hden (Nat.two_pow_pos _)
  have hpos : (0 : ℚ) < (den * 2 ^ ulp.toNat : ℕ) := Nat.cast_pos.mpr hscaled
  have hmoved := scaled_ratio 2 (by decide) num den (-ulp)
  rw [neg_neg, Nat.cast_two] at hmoved
  rw [← hmoved] at hhigh hlow
  rw [div_lt_iff₀ hpos] at hhigh
  rw [le_div_iff₀ hpos] at hlow
  refine ⟨roundRatio_le (by exact_mod_cast hhigh),
    hlow.imp_right fun hbits => ?_⟩
  exact le_roundRatio hscaled (by exact_mod_cast hbits)

/-- The kept bits are a double unless they are too large for one. -/
theorem keptBits_inFormat {num den : ℕ} (hnum : 0 < num) (hden : 0 < den)
    (hmost : (keptBits num den).2 ≤ 971) :
    Double.InFormat (keptBits num den).1 (keptBits num den).2 := by
  obtain ⟨hhigh, hlow⟩ := rounded_bounds hnum hden
  have hleast : -1074 ≤ lastExponent num den := le_max_right _ _
  unfold keptBits at hmost ⊢
  dsimp only at hmost ⊢
  split at hmost
  · next hcarry =>
      rw [if_pos hcarry]
      exact ⟨by norm_num, by omega, hmost, Or.inr le_rfl⟩
  · next hne =>
      rw [if_neg hne]
      exact ⟨by omega, hleast, hmost, hlow⟩

theorem ofRatio_eq {num den : ℕ} (hnum : 0 < num) (hden : 0 < den)
    (negative : Bool) :
    Double.ofRatio negative num den =
      if hmost : (keptBits num den).2 ≤ 971 then
        .finite negative (keptBits num den).1 (keptBits num den).2
          (keptBits_inFormat hnum hden hmost)
      else .infinity negative := by
  unfold Double.ofRatio
  rw [if_neg hnum.ne']
  split
  · next hformat => rw [dif_pos hformat.2.2.1]
  · next hformat =>
      rw [dif_neg (mt (keptBits_inFormat hnum hden) hformat)]

/-- In the range of `double`, the double nearest to a ratio is off by a part
in 2 ^ 21 at most, also for all but the smallest doubles. -/
theorem ofRatio_near {num den : ℕ} (hnum : 0 < num) (hden : 0 < den)
    (hlow : (2 : ℚ) ^ (-1054 : ℤ) ≤ num / den)
    (hhigh : (num / den : ℚ) < 2 ^ 1024 - 2 ^ 970) (negative : Bool) :
    ∃ significand exponent inFormat,
      Double.ofRatio negative num den =
        .finite negative significand exponent inFormat ∧
      |(significand : ℚ) * 2 ^ exponent - num / den| ≤ num / den / 2 ^ 21 := by
  obtain ⟨hnear, hexponent⟩ := keptBits_near num hden
  obtain ⟨hle, _⟩ := binaryExponent_bounds hnum hden
  have hbase : (1 : ℚ) < 2 := by norm_num
  have htop : binaryExponent num den < 1024 := by
    apply (zpow_lt_zpow_iff_right₀ hbase).mp
    have hpower : (2 : ℚ) ^ (1024 : ℤ) = 2 ^ 1024 := zpow_natCast 2 1024
    rw [hpower]
    exact (hle.trans_lt hhigh).trans (sub_lt_self _ (by positivity))
  have hlast : lastExponent num den ≤ 971 := by
    unfold lastExponent
    omega
  have hmost : (keptBits num den).2 ≤ 971 := by
    rcases hexponent with hkept | ⟨hkept, hcarry⟩
    · omega
    · -- a carry out of the largest exponent is ruled out
      have hne : lastExponent num den ≠ 971 := by
        intro hmax
        have hpower : (2 : ℚ) ^ (971 : ℤ) = 2 * 2 ^ 970 :=
          (zpow_natCast 2 971).trans (pow_succ' 2 970)
        have hrange : (2 : ℚ) ^ 1024 = 2 ^ 54 * 2 ^ 970 := by
          rw [← pow_add]
        rw [hmax, hpower] at hcarry
        rw [hrange] at hhigh
        generalize (2 : ℚ) ^ 970 = unit at hcarry hhigh
        linarith
      omega
  refine ⟨_, _, keptBits_inFormat hnum hden hmost, ?_,
    hnear.trans (lastExponent_le hnum hden hlow)⟩
  rw [ofRatio_eq hnum hden, dif_pos hmost]

/-! ## The text -/

theorem stopsNumber_exponent (top : ℤ) :
    StopsNumber (ascii 'e' :: exponentText top) := by
  intro b hb
  rw [List.head?_cons, Option.mem_some_iff] at hb
  rw [← hb]
  decide

theorem stopsNumber_nil : StopsNumber [] := by simp [StopsNumber]

/-- What is printed of a ratio denotes its six digits. -/
theorem numberValue?_digits {num den : ℕ} (hnum : 0 < num) (hden : 0 < den)
    (negative : Bool) :
    numberValue? (signText negative ++ ratioText num den) =
      some (signed negative (sixNumber (sixDigits num den))) := by
  have hspec := sixDigits_spec hnum hden
  unfold ratioText
  rw [if_neg hnum.ne']
  generalize sixDigits num den = digits at hspec
  obtain ⟨n, top⟩ := digits
  have hlength : (text n).length = 6 := length_text_eq hspec.low hspec.high
  dsimp only
  split
  · rw [numberValue?_text negative n 0 (stopsNumber_exponent top)
      (exponentValue?_exponentText top), hlength]
    rfl
  · split
    · next hrange hpoint =>
        have hvalue := numberValue?_text negative n top.toNat stopsNumber_nil
          (show exponentValue? [] = some 0 from rfl)
        rw [List.append_nil, hlength] at hvalue
        rw [hvalue, sixNumber]
        congr 4
        omega
    · next hrange hpoint =>
        generalize hzeros : (-top - 1).toNat = zeros
        have hzero : isDigit (ascii '0') = true := by decide
        have hwhole : ∀ b ∈ [ascii '0'], isDigit b = true := by
          intro b hb
          rw [List.mem_singleton.mp hb, hzero]
        have hfraction : ∀ b ∈ List.replicate zeros (ascii '0') ++ text n,
            isDigit b = true := by
          intro b hb
          rcases List.mem_append.mp hb with hpad | hdigit
          · rw [List.eq_of_mem_replicate hpad, hzero]
          · exact isDigit_of_mem_text hdigit
        have hvalue := numberValue?_pointText negative
          (List.cons_ne_nil (ascii '0') []) hwhole hfraction
          stopsNumber_nil (show exponentValue? [] = some 0 from rfl)
        have hnumber : value ([ascii '0'] ++
            (List.replicate zeros (ascii '0') ++ text n)) = n := by
          rw [← List.append_assoc, List.singleton_append,
            ← List.replicate_succ, value_append, value_replicate_zero,
            zero_mul, zero_add, value_text]
        rw [List.append_nil, hnumber, List.length_append,
          List.length_replicate, hlength] at hvalue
        rw [hvalue, sixNumber]
        congr 4
        omega

theorem doubleText_zero (negative : Bool) {exponent : ℤ}
    (h : Double.InFormat 0 exponent) :
    doubleText (.finite negative 0 exponent h) =
      signText negative ++ [ascii '0'] := by
  rw [doubleText, zero_mul]
  rfl

theorem abs_signed (negative : Bool) (q : ℚ) : |signed negative q| = |q| := by
  cases negative
  · rfl
  · exact abs_neg q

theorem signed_sub (negative : Bool) (q r : ℚ) :
    signed negative q - signed negative r = signed negative (q - r) := by
  cases negative
  · rfl
  · exact (neg_sub' q r).symm

/-- A number off by half a unit of the sixth significant digit at most. -/
def ToSixDigits (q v : ℚ) : Prop :=
  v = 0 ∧ q = 0 ∨ ∃ top : ℤ, (10 : ℚ) ^ top ≤ |v| ∧ |v| < 10 ^ (top + 1) ∧
    |q - v| ≤ 10 ^ (top - 5) / 2

/-- What is printed of a double is off by half a unit of the sixth digit at
most. -/
theorem numberValue?_doubleText_near {d : Double} {v : ℚ}
    (hd : d.value = some v) :
    ∃ q, numberValue? (doubleText d) = some q ∧ ToSixDigits q v := by
  cases d with
  | infinity negative => simp [Double.value] at hd
  | nan negative => simp [Double.value] at hd
  | finite negative significand exponent h =>
      obtain rfl := Option.some.inj hd
      rcases Nat.eq_zero_or_pos significand with rfl | hpos
      · refine ⟨0, ?_, Or.inl ⟨by simp [signed], rfl⟩⟩
        rw [doubleText_zero]
        cases negative <;> decide +kernel
      · have hnum : 0 < significand * 2 ^ exponent.toNat :=
          Nat.mul_pos hpos (Nat.two_pow_pos _)
        have hmagnitude := scaled_ratio 2 (by decide) significand 1 exponent
        rw [one_mul, Nat.cast_one, div_one, Nat.cast_two] at hmagnitude
        have hspec := sixDigits_spec hnum (Nat.two_pow_pos (-exponent).toNat)
        rw [hmagnitude] at hspec
        obtain ⟨top, hlow, hhigh, hnear⟩ := hspec.near
        refine ⟨_, numberValue?_digits hnum (Nat.two_pow_pos _) negative,
          Or.inr ⟨top, ?_⟩⟩
        have hvalue : (0 : ℚ) ≤ significand * 2 ^ exponent := by positivity
        rw [signed_sub, abs_signed, abs_signed, abs_of_nonneg hvalue]
        exact ⟨hlow, hhigh, hnear⟩

/-! ## Reading it back -/

/-- A digit or a point begins the number behind its sign. -/
def BeginsNumber (s : List UInt8) : Prop :=
  ∃ b rest, s = b :: rest ∧ (isDigit b = true ∨ b = ascii '.')

theorem beginsNumber_of_scanPoint {s : List UInt8}
    (h : (scanPoint isDigit s).1 ++ (scanPoint isDigit s).2.1 ≠ []) :
    BeginsNumber s := by
  cases s with
  | nil => exact absurd rfl h
  | cons b rest =>
      refine ⟨b, rest, rfl, ?_⟩
      by_contra hnot
      obtain ⟨hdigit, hpoint⟩ := not_or.mp hnot
      apply h
      simp [scanPoint, hdigit, hpoint]

theorem lower_of_begins {b : UInt8} (h : isDigit b = true ∨ b = ascii '.') :
    lower b = b ∧ isspace b = false ∧ b ≠ ascii 'i' ∧ b ≠ ascii 'n' := by
  rcases h with hdigit | rfl
  · have hspace := not_isspace_of_isDigit hdigit
    simp only [isDigit, Bool.and_eq_true, decide_eq_true_eq] at hdigit
    have hcode : ascii 'i' = 105 ∧ ascii 'n' = 110 := by decide
    refine ⟨?_, hspace, ?_, ?_⟩
    · unfold lower
      rw [if_neg]
      simp only [Bool.and_eq_true, decide_eq_true_eq]
      omega
    · rintro rfl
      rw [hcode.1] at hdigit
      exact absurd hdigit (by decide)
    · rintro rfl
      rw [hcode.2] at hdigit
      exact absurd hdigit (by decide)
  · decide

theorem not_startsWith_of_begins {s : List UInt8} (h : BeginsNumber s)
    {first : UInt8} {word : List UInt8}
    (hfirst : first = ascii 'i' ∨ first = ascii 'n') :
    startsWith (first :: word) s = false := by
  obtain ⟨b, rest, rfl, hb⟩ := h
  obtain ⟨hlower, _, hi, hn⟩ := lower_of_begins hb
  have hne : b ≠ first := by
    rcases hfirst with rfl | rfl
    · exact hi
    · exact hn
  simp [startsWith, hlower, hne]

theorem scanExponent_of_exponentValue {s : List UInt8} {e : ℤ}
    (h : exponentValue? s = some e) : scanExponent (ascii 'e') s = e := by
  unfold exponentValue? at h
  dsimp only at h
  split at h
  · next hnil =>
      subst hnil
      simpa [scanExponent] using h
  · split at h
    · next hdigits =>
        obtain ⟨hmark, _, hall⟩ := hdigits
        have htaken : (scanSign s.tail).2.takeWhile isDigit =
            (scanSign s.tail).2 := by
          simpa [List.takeWhile_eq_self_iff] using hall
        rw [scanExponent, if_pos hmark]
        generalize scanSign s.tail = scanned at h htaken
        obtain ⟨negative, digits⟩ := scanned
        simp only at h htaken ⊢
        rw [htaken]
        exact Option.some.inj h
    · contradiction

/-- What `atof` reads as hexadecimal is no decimal number. -/
theorem not_hex_of_exponentValue {s : List UInt8} {e : ℤ}
    (hbegins : BeginsNumber s)
    (h : exponentValue? (scanPoint isDigit s).2.2 = some e) :
    startsWith [ascii '0', ascii 'x'] s = false := by
  obtain ⟨b, rest, rfl, hb⟩ := hbegins
  cases rest with
  | nil => simp [startsWith]
  | cons c rest =>
      by_contra hhex
      have hprefix : lower b = ascii '0' ∧ lower c = ascii 'x' := by
        simpa [startsWith] using hhex
      obtain rfl : b = ascii '0' :=
        (lower_of_begins hb).1.symm.trans hprefix.1
      have hc : ¬ (isDigit c = true ∨ c = ascii '.') := by
        intro hbegins
        have hx : c = ascii 'x' :=
          (lower_of_begins hbegins).1.symm.trans hprefix.2
        subst hx
        revert hbegins
        decide
      obtain ⟨hdigit, hpoint⟩ := not_or.mp hc
      have hzero : isDigit (ascii '0') = true := by decide
      have hrest : (scanPoint isDigit (ascii '0' :: c :: rest)).2.2 =
          c :: rest := by
        simp [scanPoint, hzero, hdigit, hpoint]
      have hmark : ascii 'x' ≠ ascii 'e' := by decide
      rw [hrest] at h
      simp [exponentValue?, hprefix.2, hmark] at h

theorem beginsNumber_of_numberValue {s : List UInt8} {q : ℚ}
    (h : numberValue? s = some q) : BeginsNumber (scanSign s).2 := by
  unfold numberValue? at h
  generalize scanSign s = scanned at h
  dsimp only at h
  split at h
  · contradiction
  · next hdigits => exact beginsNumber_of_scanPoint hdigits

theorem dropWhile_isspace_of_numberValue {s : List UInt8} {q : ℚ}
    (h : numberValue? s = some q) : s.dropWhile isspace = s := by
  have hbegins := beginsNumber_of_numberValue h
  cases s with
  | nil => rfl
  | cons b rest =>
      have hspace : isspace b = false := by
        by_contra hspace
        rw [Bool.not_eq_false] at hspace
        have hminus : b ≠ ascii '-' := by
          rintro rfl
          exact absurd hspace (by decide)
        have hplus : b ≠ ascii '+' := by
          rintro rfl
          exact absurd hspace (by decide)
        have hunsigned : (scanSign (b :: rest)).2 = b :: rest := by
          simp [scanSign, hminus, hplus]
        rw [hunsigned] at hbegins
        obtain ⟨first, others, hsame, hfirst⟩ := hbegins
        obtain ⟨rfl, _⟩ := List.cons.inj hsame
        rw [(lower_of_begins hfirst).2.1] at hspace
        contradiction
      simp [hspace]

/-- `atof` takes a decimal number for the nearest double. -/
theorem atof_of_numberValue {s : List UInt8} {q : ℚ}
    (h : numberValue? s = some q) :
    ∃ num den, 0 < den ∧
      atof s = Double.ofRatio (scanSign s).1 num den ∧
      q = signed (scanSign s).1 (num / den) := by
  have hbegins := beginsNumber_of_numberValue h
  unfold atof
  rw [dropWhile_isspace_of_numberValue h]
  unfold numberValue? at h
  generalize scanSign s = scanned at h hbegins
  obtain ⟨negative, s⟩ := scanned
  dsimp only at h hbegins ⊢
  split at h
  · contradiction
  · next hdigits =>
      obtain ⟨e, hexponent, rfl⟩ := Option.map_eq_some_iff.mp h
      rw [not_startsWith_of_begins hbegins (Or.inl rfl),
        not_startsWith_of_begins hbegins (Or.inr rfl),
        not_hex_of_exponentValue hbegins hexponent,
        if_neg Bool.false_ne_true, if_neg Bool.false_ne_true,
        if_neg (by simp), if_neg hdigits,
        scanExponent_of_exponentValue hexponent]
      refine ⟨_, _, Nat.pow_pos (by decide), rfl, ?_⟩
      have hratio := scaled_ratio 10 (by decide)
        (value ((scanPoint isDigit s).1 ++ (scanPoint isDigit s).2.1)) 1
        (e - (scanPoint isDigit s).2.1.length)
      rw [one_mul, Nat.cast_one, div_one] at hratio
      rw [hratio]
      rfl

/-! ## There and back -/

/-- Zero, no number, or large enough for doubles to be closer to one another
than numbers of six digits. -/
def Double.Fine : Double → Prop
  | .finite _ significand exponent _ =>
      significand = 0 ∨ (2 : ℚ) ^ (-1053 : ℤ) ≤ significand * 2 ^ exponent
  | .infinity _ => True
  | .nan _ => True

theorem Double.fine_of_normal {significand : ℕ} {exponent : ℤ}
    (inFormat : InFormat significand exponent) (hnormal : 2 ^ 52 ≤ significand)
    (negative : Bool) :
    (Double.finite negative significand exponent inFormat).Fine := by
  have hbase : (1 : ℚ) ≤ 2 := by norm_num
  have hleast := inFormat.2.1
  have hbits : (2 : ℚ) ^ (52 : ℤ) ≤ significand := by exact_mod_cast hnormal
  right
  calc (2 : ℚ) ^ (-1053 : ℤ) ≤ 2 ^ (52 + exponent) :=
        zpow_le_zpow_right₀ hbase (by omega)
    _ = 2 ^ (52 : ℤ) * 2 ^ exponent := zpow_add₀ (by norm_num) 52 exponent
    _ ≤ significand * 2 ^ exponent :=
        mul_le_mul_of_nonneg_right hbits (by positivity)

theorem Double.InFormat.lt {significand : ℕ} {exponent : ℤ}
    (h : InFormat significand exponent) :
    (significand : ℚ) * 2 ^ exponent < 2 ^ 1024 := by
  obtain ⟨hbits, _, hmost, _⟩ := h
  have hbase : (1 : ℚ) ≤ 2 := by norm_num
  have hcarry : (significand : ℚ) < 2 ^ (53 : ℤ) := by exact_mod_cast hbits
  calc (significand : ℚ) * 2 ^ exponent < 2 ^ (53 : ℤ) * 2 ^ exponent :=
        mul_lt_mul_of_pos_right hcarry (by positivity)
    _ = 2 ^ (53 + exponent) := (zpow_add₀ (by norm_num) 53 exponent).symm
    _ ≤ 2 ^ (1024 : ℤ) := zpow_le_zpow_right₀ hbase (by omega)
    _ = 2 ^ 1024 := zpow_natCast 2 1024

theorem signed_eq_iff {negative other : Bool} {q r : ℚ} (hq : 0 < q)
    (hr : 0 < r) : signed negative q = signed other r ↔
      negative = other ∧ q = r := by
  unfold signed
  constructor
  · intro h
    cases negative <;> cases other <;> simp at h
    · exact ⟨rfl, h⟩
    · linarith
    · linarith
    · exact ⟨rfl, h⟩
  · rintro ⟨rfl, rfl⟩
    rfl

theorem sixNumber_le {n : ℕ} {t : ℤ} {unit : ℚ} (hlow : 10 ^ 5 ≤ n)
    (hhigh : n < 10 ^ 6) (hunit : (10 : ℚ) ^ (303 : ℤ) = unit)
    (h : sixNumber (n, t) < 179770 * unit) :
    sixNumber (n, t) ≤ 179769 * unit := by
  have hbase : (1 : ℚ) ≤ 10 := by norm_num
  have hpos : 0 < unit := hunit ▸ zpow_pos (by norm_num) 303
  have hless : (n : ℚ) ≤ 10 ^ 6 := by exact_mod_cast hhigh.le
  have hmore : (10 : ℚ) ^ 5 ≤ n := by exact_mod_cast hlow
  unfold sixNumber at h ⊢
  dsimp only at h ⊢
  rcases lt_trichotomy t 308 with hsmall | rfl | hlarge
  · have hstep : (10 : ℚ) ^ (302 : ℤ) * 10 = unit := by
      rw [← hunit, ← zpow_add_one₀ (by norm_num)]
      rfl
    have hpower : (10 : ℚ) ^ (t - 5) ≤ 10 ^ (302 : ℤ) :=
      zpow_le_zpow_right₀ hbase (by omega)
    have hproduct : (n : ℚ) * 10 ^ (t - 5) ≤ 10 ^ 6 * 10 ^ (302 : ℤ) :=
      mul_le_mul hless hpower (by positivity) (by positivity)
    generalize (10 : ℚ) ^ (302 : ℤ) = step at hstep hproduct
    linarith only [hproduct, hstep, hpos]
  · have hplace : (308 : ℤ) - 5 = 303 := by norm_num
    rw [hplace, hunit] at h ⊢
    have hcast : (n : ℚ) < 179770 := lt_of_mul_lt_mul_right h hpos.le
    have hnat : n < 179770 := by exact_mod_cast hcast
    have hle : (n : ℚ) ≤ 179769 := by
      exact_mod_cast (show n ≤ 179769 by omega)
    exact mul_le_mul_of_nonneg_right hle hpos.le
  · have hpower : unit * 10 ≤ 10 ^ (t - 5) := by
      rw [← hunit, ← zpow_add_one₀ (by norm_num)]
      exact zpow_le_zpow_right₀ hbase (by omega)
    have hproduct : 10 ^ 5 * (unit * 10) ≤ (n : ℚ) * 10 ^ (t - 5) :=
      mul_le_mul hmore hpower (by positivity) (by positivity)
    linarith only [hproduct, h, hpos]

/-- The largest doubles are not rounded up to six digits. -/
theorem sixNumber_lt {n : ℕ} {t : ℤ} (hlow : 10 ^ 5 ≤ n) (hhigh : n < 10 ^ 6)
    (h : sixNumber (n, t) < 2 ^ 1024 + 10 ^ 303 / 2) :
    sixNumber (n, t) < 2 ^ 1024 - 2 ^ 970 := by
  have hnext : (2 ^ 1024 + 10 ^ 303 / 2 : ℚ) < 179770 * 10 ^ 303 := by
    have hnat : 2 * 2 ^ 1024 + 10 ^ 303 < 2 * (179770 * 10 ^ 303) := by
      decide +kernel
    have hcast : (2 * 2 ^ 1024 + 10 ^ 303 : ℚ) < 2 * (179770 * 10 ^ 303) := by
      exact_mod_cast hnat
    generalize (10 : ℚ) ^ 303 = unit at hcast ⊢
    generalize (2 : ℚ) ^ 1024 = bound at hcast ⊢
    linarith
  have hlast : (179769 * 10 ^ 303 : ℚ) < 2 ^ 1024 - 2 ^ 970 := by
    have hnat : 179769 * 10 ^ 303 + 2 ^ 970 < 2 ^ 1024 := by decide +kernel
    have hcast : (179769 * 10 ^ 303 + 2 ^ 970 : ℚ) < 2 ^ 1024 := by
      exact_mod_cast hnat
    exact lt_sub_iff_add_lt.mpr hcast
  exact (sixNumber_le hlow hhigh (zpow_natCast 10 303)
    (h.trans hnext)).trans_lt hlast

/-- Six digits of a number that a double can have are in the range where the
nearest double is close. -/
theorem sixNumber_range {x : ℚ} {digits : ℕ × ℤ} (h : SixDigits x digits)
    (hlow : (2 : ℚ) ^ (-1053 : ℤ) ≤ x) (hhigh : x < 2 ^ 1024) :
    (2 : ℚ) ^ (-1054 : ℤ) ≤ sixNumber digits ∧
      sixNumber digits < 2 ^ 1024 - 2 ^ 970 := by
  obtain ⟨n, t⟩ := digits
  obtain ⟨top, hle, hlt, hnear⟩ := h.near
  have hbase : (1 : ℚ) < 10 := by norm_num
  rw [abs_le] at hnear
  constructor
  · have hunit : (10 : ℚ) ^ (top - 5) ≤ x :=
      (zpow_le_zpow_right₀ hbase.le (by omega)).trans hle
    have hhalf : (2 : ℚ) ^ (-1054 : ℤ) = 2 ^ (-1053 : ℤ) / 2 := by
      have hexponent : (-1054 : ℤ) = -1053 - 1 := by norm_num
      rw [hexponent, zpow_sub_one₀ (by norm_num), div_eq_mul_inv]
    linarith
  · have hrange : (2 ^ 1024 : ℚ) < 10 ^ 309 := by
      have hnat : 2 ^ 1024 < 10 ^ 309 := by decide +kernel
      exact_mod_cast hnat
    have htop : top < 309 := by
      have hpower : (10 : ℚ) ^ (309 : ℤ) = 10 ^ 309 := zpow_natCast 10 309
      apply (zpow_lt_zpow_iff_right₀ hbase).mp
      rw [hpower]
      exact hle.trans_lt (hhigh.trans hrange)
    have hunit : (10 : ℚ) ^ (top - 5) ≤ 10 ^ 303 := by
      have hpower : (10 : ℚ) ^ (303 : ℤ) = 10 ^ 303 := zpow_natCast 10 303
      rw [← hpower]
      exact zpow_le_zpow_right₀ hbase.le (by omega)
    apply sixNumber_lt h.low h.high
    generalize (10 : ℚ) ^ 303 = unit at hunit ⊢
    generalize (2 : ℚ) ^ 1024 = bound at hhigh ⊢
    linarith

theorem ratioText_congr {num den num' den' : ℕ} (hnum : 0 < num)
    (hnum' : 0 < num') (h : sixDigits num den = sixDigits num' den') :
    ratioText num den = ratioText num' den' := by
  unfold ratioText
  rw [if_neg hnum.ne', if_neg hnum'.ne', h]

theorem SixDigits.pos {x : ℚ} {digits : ℕ × ℤ} (h : SixDigits x digits) :
    0 < sixNumber digits := by
  have hlow : (0 : ℚ) < digits.1 :=
    Nat.cast_pos.mpr ((by norm_num : 0 < 10 ^ 5).trans_le h.low)
  exact mul_pos hlow (by positivity)

/-- The double nearest to six digits is printed as them. -/
theorem ratioText_stable {num den : ℕ} (hnum : 0 < num) (hden : 0 < den)
    (hlow : (2 : ℚ) ^ (-1053 : ℤ) ≤ num / den)
    (hhigh : (num / den : ℚ) < 2 ^ 1024) (negative : Bool) :
    doubleText (atof (signText negative ++ ratioText num den)) =
      signText negative ++ ratioText num den := by
  have hspec := sixDigits_spec hnum hden
  have hvalue := numberValue?_digits hnum hden negative
  obtain ⟨a, b, hb, hatof, hratio⟩ := atof_of_numberValue hvalue
  have ha : 0 < a := by
    by_contra hzero
    obtain rfl : a = 0 := by omega
    have hpos := hspec.pos
    rw [Nat.cast_zero, zero_div] at hratio
    generalize (scanSign _).1 = sign at hratio
    cases negative <;> cases sign <;> simp [signed, hpos.ne'] at hratio
  have hpositive : (0 : ℚ) < a / b :=
    div_pos (Nat.cast_pos.mpr ha) (Nat.cast_pos.mpr hb)
  obtain ⟨hsign, hsame⟩ := (signed_eq_iff hspec.pos hpositive).mp hratio
  obtain ⟨hrangeLow, hrangeHigh⟩ := sixNumber_range hspec hlow hhigh
  rw [hsame] at hrangeLow hrangeHigh
  obtain ⟨significand, exponent, _, hdouble, hnear⟩ :=
    ofRatio_near ha hb hrangeLow hrangeHigh negative
  have hmagnitude := scaled_ratio 2 (by decide) significand 1 exponent
  rw [one_mul, Nat.cast_one, div_one, Nat.cast_two] at hmagnitude
  rw [← hmagnitude, ← hsame] at hnear
  have hprinted : 0 < significand * 2 ^ exponent.toNat := by
    by_contra hzero
    have hnone : significand * 2 ^ exponent.toNat = 0 := by omega
    have hpos := hspec.pos
    rw [hnone, Nat.cast_zero, zero_div, zero_sub, abs_neg,
      abs_of_pos hpos] at hnear
    linarith
  have hdigits := sixDigits_of_near hprinted (Nat.two_pow_pos _)
    hspec.low hspec.high hnear
  rw [hatof, ← hsign, hdouble, doubleText]
  rw [ratioText_congr hprinted hnum hdigits]

/-- A double that is printed and read back is printed as the same text. -/
theorem doubleText_stable {d : Double} (hd : d.Fine) :
    doubleText (atof (doubleText d)) = doubleText d := by
  cases d with
  | infinity negative => cases negative <;> decide +kernel
  | nan negative => cases negative <;> decide +kernel
  | finite negative significand exponent inFormat =>
      rcases hd with rfl | hlow
      · rw [doubleText_zero]
        cases negative <;> decide +kernel
      · have hhigh := inFormat.lt
        have hmagnitude := scaled_ratio 2 (by decide) significand 1 exponent
        rw [one_mul, Nat.cast_one, div_one, Nat.cast_two] at hmagnitude
        rw [← hmagnitude] at hlow hhigh
        have hnum : 0 < significand * 2 ^ exponent.toNat := by
          by_contra hzero
          have hnone : significand * 2 ^ exponent.toNat = 0 := by omega
          have hpos : (0 : ℚ) < 2 ^ (-1053 : ℤ) := by positivity
          rw [hnone, Nat.cast_zero, zero_div] at hlow
          exact absurd hlow (not_le.mpr hpos)
        exact ratioText_stable hnum (Nat.two_pow_pos _) hlow hhigh negative

/-- Among the smallest doubles the text goes on changing. -/
example :
    let d := Double.finite false 202403 (-1074) (by decide)
    doubleText (atof (doubleText d)) ≠ doubleText d := by
  decide +kernel

end CLibrary
