import Redispp.CLibrary

/-!
# What the text of a double denotes

A decimal number is read strictly: a sign, digits around an optional point, an
optional exponent, and nothing else.  The default format of a stream keeps six
significant digits, so that it denotes the number itself exactly for those
whole numbers that have no more.
-/

namespace CLibrary

open Decimal

def signed (negative : Bool) (q : ℚ) : ℚ := if negative then -q else q

def Double.value : Double → Option ℚ
  | .finite negative significand exponent _ =>
      some (signed negative (significand * 2 ^ exponent))
  | .infinity _ => none
  | .nan _ => none

theorem signed_natAbs (n : ℤ) : signed (decide (n < 0)) n.natAbs = n := by
  rw [signed, Nat.cast_natAbs, Int.cast_abs]
  split
  · next hneg =>
      have hlt : (n : ℚ) < 0 := by exact_mod_cast of_decide_eq_true hneg
      rw [abs_of_neg hlt, neg_neg]
  · next hpos =>
      have hle : (0 : ℚ) ≤ n := by
        exact_mod_cast not_lt.mp (mt decide_eq_true hpos)
      rw [abs_of_nonneg hle]

/-- The whole numbers of 53 bits and fewer are doubles. -/
theorem Double.exists_value {n : ℤ} (hn : n.natAbs < 2 ^ 53) :
    ∃ d : Double, d.value = some (n : ℚ) := by
  by_cases hzero : n = 0
  · subst hzero
    exact ⟨.zero false, by simp [zero, value, signed]⟩
  have hpos : n.natAbs ≠ 0 := Int.natAbs_ne_zero.mpr hzero
  have hlow := Nat.log2_self_le hpos
  have hhigh := Nat.lt_log2_self (n := n.natAbs)
  have hlog : Nat.log2 n.natAbs ≤ 52 :=
    Nat.le_of_lt_succ ((Nat.log2_lt hpos).mpr hn)
  generalize Nat.log2 n.natAbs = k at hlow hhigh hlog
  obtain ⟨shift, hshift⟩ : ∃ shift, k + shift = 52 := ⟨52 - k, by omega⟩
  have hformat : InFormat (n.natAbs * 2 ^ shift) (-shift) := by
    refine ⟨?_, by omega, by omega, Or.inr ?_⟩
    · rw [show 53 = k + 1 + shift by omega, pow_add 2 (k + 1)]
      exact Nat.mul_lt_mul_of_pos_right hhigh (Nat.two_pow_pos shift)
    · rw [← hshift, pow_add]
      exact Nat.mul_le_mul_right _ hlow
  refine ⟨.finite (n < 0) _ _ hformat, ?_⟩
  rw [value, Nat.cast_mul, Nat.cast_pow, Nat.cast_two, zpow_neg, zpow_natCast,
    mul_inv_cancel_right₀ (by positivity), signed_natAbs]

def exponentValue? (s : List UInt8) : Option ℤ :=
  let (negative, digits) := scanSign s.tail
  if s = [] then some 0
  else if s.head?.map lower = some (ascii 'e') ∧ digits ≠ [] ∧
      digits.all isDigit then
    some (if negative then -value digits else value digits)
  else none

/-- The number that the bytes denote if they are a decimal number. -/
def numberValue? (s : List UInt8) : Option ℚ :=
  let (negative, s) := scanSign s
  let (whole, fraction, rest) := scanPoint isDigit s
  if whole ++ fraction = [] then none
  else (exponentValue? rest).map fun exponent : ℤ =>
    signed negative
      (value (whole ++ fraction) * 10 ^ (exponent - fraction.length))

/-! ## Rounding -/

theorem roundRatio_one (num : ℕ) : roundRatio num 1 = num := by
  simp [roundRatio, Nat.mod_one]

theorem roundRatio_mul_right {k : ℕ} (hk : 0 < k) (num den : ℕ) :
    roundRatio (num * k) (den * k) = roundRatio num den := by
  have hdiv : num * k / (den * k) = num / den :=
    Nat.mul_div_mul_right num den hk
  have hmod : 2 * (num * k % (den * k)) = 2 * (num % den) * k := by
    rw [Nat.mul_mod_mul_right, mul_assoc]
  unfold roundRatio
  simp only [hdiv, hmod, Nat.mul_lt_mul_right hk, Nat.mul_left_inj hk.ne']

theorem roundRatio_bounds (num den : ℕ) :
    num / den ≤ roundRatio num den ∧ roundRatio num den ≤ num / den + 1 := by
  unfold roundRatio
  dsimp only
  split <;> omega

theorem le_roundRatio {a num den : ℕ} (hden : 0 < den)
    (h : a * den ≤ num) : a ≤ roundRatio num den :=
  ((Nat.le_div_iff_mul_le hden).mpr h).trans (roundRatio_bounds num den).1

theorem roundRatio_le {b num den : ℕ} (h : num < b * den) :
    roundRatio num den ≤ b := by
  have hfloor : num / den < b := Nat.div_lt_of_lt_mul (by rwa [mul_comm])
  exact (roundRatio_bounds num den).2.trans hfloor

theorem roundRatio_mul_eq_iff {num den : ℕ} (hden : 0 < den) :
    roundRatio num den * den = num ↔ den ∣ num := by
  constructor
  · intro h
    exact ⟨roundRatio num den, by rw [mul_comm, h]⟩
  · rintro ⟨a, rfl⟩
    have hround := roundRatio_mul_right hden a 1
    rw [one_mul, roundRatio_one, mul_comm a den] at hround
    rw [hround, mul_comm]

/-! ## Reading what the format writes -/

theorem scanSign_signText (negative : Bool) {s : List UInt8}
    (hs : ∃ b rest, s = b :: rest ∧ isDigit b = true) :
    scanSign (signText negative ++ s) = (negative, s) := by
  obtain ⟨b, rest, rfl, hb⟩ := hs
  cases negative with
  | true => simp [scanSign, signText]
  | false => exact scanSign_of_isDigit hb

theorem exponentValue?_exponentText (top : ℤ) :
    exponentValue? (ascii 'e' :: exponentText top) = some top := by
  have hsign : scanSign (exponentText top) =
      (decide (top < 0), (exponentText top).tail) := by
    unfold exponentText
    by_cases htop : top < 0
    · simp [scanSign, htop]
    · simp [scanSign, htop, show ascii '+' ≠ ascii '-' by decide]
  have hdigits : (exponentText top).tail ≠ [] ∧
      (exponentText top).tail.all isDigit = true ∧
      value (exponentText top).tail = top.natAbs := by
    unfold exponentText
    rw [List.tail_cons]
    split
    · have hpad : value (ascii '0' :: text top.natAbs) =
          value (text top.natAbs) := rfl
      refine ⟨by simp, ?_, by rw [hpad, value_text]⟩
      rw [List.all_cons, text_all_isDigit]
      decide
    · exact ⟨text_ne_nil _, text_all_isDigit _, value_text _⟩
  have hlower : lower (ascii 'e') = ascii 'e' := by decide
  unfold exponentValue?
  rw [List.tail_cons, hsign]
  simp only [hdigits, List.head?_cons, Option.map_some, hlower, ne_eq,
    not_false_eq_true, and_self, if_true, reduceCtorEq, if_false,
    Option.some.injEq, decide_eq_true_eq]
  split <;> omega

/-- A tail that continues neither a row of digits nor a point. -/
def StopsNumber (tail : List UInt8) : Prop :=
  ∀ b ∈ tail.head?, isDigit b = false ∧ b ≠ ascii '.'

theorem scanPoint_pointText {whole fraction tail : List UInt8}
    (hwhole : ∀ b ∈ whole, isDigit b = true)
    (hfraction : ∀ b ∈ fraction, isDigit b = true)
    (htail : StopsNumber tail) :
    scanPoint isDigit (pointText whole fraction ++ tail) =
      (whole, fraction.rdropWhile (· = ascii '0'), tail) := by
  have hstop : ∀ b ∈ tail.head?, isDigit b = false :=
    fun b hb => (htail b hb).1
  have hpoint : tail.head? ≠ some (ascii '.') :=
    fun h => (htail _ h).2 rfl
  have hkept : ∀ b ∈ fraction.rdropWhile (· = ascii '0'),
      isDigit b = true :=
    fun b hb => hfraction b ((List.rdropWhile_prefix _ _).subset hb)
  have hdot : ∀ (rest : List UInt8), ∀ b ∈ (ascii '.' :: rest).head?,
      isDigit b = false := by
    intro rest b hb
    rw [List.head?_cons, Option.mem_some_iff] at hb
    rw [← hb]
    decide
  unfold pointText
  dsimp only
  split
  · next hnil =>
      rw [hnil]
      simp only [scanPoint, takeWhile_digits hwhole hstop,
        dropWhile_digits hwhole hstop, if_neg hpoint]
  · rw [List.append_assoc, List.cons_append]
    simp only [scanPoint, takeWhile_digits hwhole (hdot _),
      dropWhile_digits hwhole (hdot _), List.head?_cons, if_true,
      List.tail_cons, takeWhile_digits hkept hstop,
      dropWhile_digits hkept hstop]

/-- The zeros that are dropped count for nothing. -/
theorem value_kept (whole fraction : List UInt8) (exponent : ℤ) :
    let kept := fraction.rdropWhile (· = ascii '0')
    (value (whole ++ kept) : ℚ) * 10 ^ (exponent - kept.length) =
      value (whole ++ fraction) * 10 ^ (exponent - fraction.length) := by
  intro kept
  have hzeros : fraction.rtakeWhile (· = ascii '0') =
      List.replicate (fraction.rtakeWhile (· = ascii '0')).length
        (ascii '0') := by
    apply List.eq_replicate_of_mem
    intro b hb
    simpa using List.mem_rtakeWhile_imp hb
  have hsplit : fraction = kept ++
      List.replicate (fraction.rtakeWhile (· = ascii '0')).length
        (ascii '0') := by
    rw [← hzeros]
    exact List.rdropWhile_append_rtakeWhile.symm
  generalize (fraction.rtakeWhile (· = ascii '0')).length = k at hsplit
  have hlength : (fraction.length : ℤ) = kept.length + k := by
    rw [hsplit]
    simp
  have hexponent : exponent - kept.length =
      exponent - fraction.length + k := by
    rw [hlength]
    ring
  have hvalue : value (whole ++ fraction) = value (whole ++ kept) * 10 ^ k := by
    rw [hsplit, ← List.append_assoc, value_append, value_replicate_zero,
      List.length_replicate, add_zero]
  rw [hexponent, zpow_add₀ (by norm_num), hvalue]
  push_cast
  rw [zpow_natCast]
  ring

theorem numberValue?_pointText (negative : Bool)
    {whole fraction tail : List UInt8} {exponent : ℤ} (hne : whole ≠ [])
    (hwhole : ∀ b ∈ whole, isDigit b = true)
    (hfraction : ∀ b ∈ fraction, isDigit b = true)
    (htail : StopsNumber tail)
    (hexponent : exponentValue? tail = some exponent) :
    numberValue? (signText negative ++ (pointText whole fraction ++ tail)) =
      some (signed negative
        (value (whole ++ fraction) * 10 ^ (exponent - fraction.length))) := by
  have hhead : ∃ b rest, pointText whole fraction ++ tail = b :: rest ∧
      isDigit b = true := by
    obtain ⟨b, digits, rfl⟩ := List.exists_cons_of_ne_nil hne
    have hb := hwhole b List.mem_cons_self
    unfold pointText
    dsimp only
    split
    · exact ⟨b, _, rfl, hb⟩
    · exact ⟨b, _, rfl, hb⟩
  unfold numberValue?
  rw [scanSign_signText negative hhead]
  dsimp only
  rw [scanPoint_pointText hwhole hfraction htail]
  dsimp only
  rw [if_neg (by simp [hne]), hexponent, Option.map_some, value_kept]

/-! ## Whole numbers -/

theorem isDigit_of_mem_take {n k : ℕ} {b : UInt8} (h : b ∈ (text n).take k) :
    isDigit b = true :=
  isDigit_of_mem_text (List.mem_of_mem_take h)

theorem isDigit_of_mem_drop {n k : ℕ} {b : UInt8} (h : b ∈ (text n).drop k) :
    isDigit b = true :=
  isDigit_of_mem_text (List.mem_of_mem_drop h)

/-- The text of a number split after its first `k + 1` digits. -/
theorem numberValue?_text (negative : Bool) (n k : ℕ) {tail : List UInt8}
    {exponent : ℤ} (htail : StopsNumber tail)
    (hexponent : exponentValue? tail = some exponent) :
    numberValue? (signText negative ++ (pointText ((text n).take (k + 1))
        ((text n).drop (k + 1)) ++ tail)) =
      some (signed negative
        (n * 10 ^ (exponent - ((text n).length - (k + 1) : ℕ)))) := by
  have hne : (text n).take (k + 1) ≠ [] := by simp
  rw [numberValue?_pointText negative hne (fun _ => isDigit_of_mem_take)
    (fun _ => isDigit_of_mem_drop) htail hexponent, List.take_append_drop,
    value_text, List.length_drop]

theorem text_bounds {m : ℕ} (hm : 0 < m) :
    10 ^ ((text m).length - 1) ≤ m ∧ m < 10 ^ (text m).length := by
  have hpos : 0 < (text m).length :=
    List.length_pos_of_ne_nil (text_ne_nil m)
  refine ⟨?_, (length_text_le_iff hpos).mp le_rfl⟩
  by_cases hone : (text m).length - 1 = 0
  · rw [hone]
    exact hm
  · have hnot := mt (length_text_le_iff (n := m) (by omega)).mpr
      (show ¬ (text m).length ≤ (text m).length - 1 by omega)
    exact not_lt.mp hnot

theorem length_text_eq {m k : ℕ} (hlow : 10 ^ k ≤ m) (hhigh : m < 10 ^ (k + 1)) :
    (text m).length = k + 1 := by
  have hle := (length_text_le_iff (Nat.succ_pos k)).mpr hhigh
  by_contra hne
  have hpos : 0 < (text m).length :=
    List.length_pos_of_ne_nil (text_ne_nil m)
  have hshort : (text m).length ≤ k := by omega
  have hlt := (length_text_le_iff (by omega)).mp hshort
  omega

/-- The last digit that the format keeps of `m` is worth this much. -/
def keptUnit (m : ℕ) : ℕ := 10 ^ ((text m).length - 6)

theorem keptUnit_pos (m : ℕ) : 0 < keptUnit m := Nat.pow_pos (by decide)

theorem decimalExponent_one {m : ℕ} (hm : 0 < m) :
    decimalExponent m 1 = (text m).length - 1 := by
  rw [decimalExponent, if_pos (Nat.succ_le_of_lt hm), Nat.div_one]

theorem ratioText_short {m : ℕ} (hm : 0 < m) (hshort : (text m).length ≤ 6) :
    ratioText m 1 =
      pointText ((text (m * 10 ^ (6 - (text m).length))).take (text m).length)
        ((text (m * 10 ^ (6 - (text m).length))).drop (text m).length) := by
  have hpos : 0 < (text m).length :=
    List.length_pos_of_ne_nil (text_ne_nil m)
  have hscale : (5 - ((text m).length - 1 : ℤ)).toNat =
      6 - (text m).length := by
    omega
  have hunit : ((text m).length - 1 - 5 : ℤ).toNat = 0 := by omega
  have hsmall : m * 10 ^ (6 - (text m).length) < 10 ^ 6 := by
    have hlt := Nat.mul_lt_mul_of_pos_right (text_bounds hm).2
      (Nat.pow_pos (n := 6 - (text m).length) (show 0 < 10 by decide))
    rwa [← pow_add, Nat.add_sub_cancel' hshort] at hlt
  have hsix : sixDigits m 1 =
      (m * 10 ^ (6 - (text m).length), ((text m).length - 1 : ℤ)) := by
    unfold sixDigits
    dsimp only
    rw [decimalExponent_one hm, hscale, hunit, pow_zero, mul_one,
      roundRatio_one, if_neg hsmall.ne]
  have htake : ((text m).length - 1 : ℤ).toNat + 1 = (text m).length := by
    omega
  unfold ratioText
  rw [if_neg hm.ne', hsix]
  dsimp only
  rw [if_neg (by omega), if_pos (by omega), htake]

/-- Rounded to six digits, a long number has one more digit before its unit
if the rounding carries. -/
theorem sixDigits_long {m : ℕ} (hlong : 6 < (text m).length) :
    ∃ number : ℕ, ∃ top : ℤ, sixDigits m 1 = (number, top) ∧ 6 ≤ top ∧
      (text number).length = 6 ∧
      (number : ℚ) * 10 ^ (top - 5) =
        (roundRatio m (keptUnit m) * keptUnit m : ℕ) := by
  have hm : 0 < m := by
    rcases Nat.eq_zero_or_pos m with rfl | hm
    · exact absurd hlong (by decide)
    · exact hm
  obtain ⟨hlow, hhigh⟩ := text_bounds hm
  have hscale : (5 - ((text m).length - 1 : ℤ)).toNat = 0 := by omega
  have hunit : ((text m).length - 1 - 5 : ℤ).toNat =
      (text m).length - 6 := by
    omega
  have hsix : sixDigits m 1 =
      if roundRatio m (keptUnit m) = 10 ^ 6 then
        (10 ^ 5, ((text m).length - 1 : ℤ) + 1)
      else (roundRatio m (keptUnit m), ((text m).length - 1 : ℤ)) := by
    unfold sixDigits keptUnit
    dsimp only
    rw [decimalExponent_one hm, hscale, hunit, pow_zero, mul_one, one_mul]
  have hkept : ((keptUnit m : ℕ) : ℚ) = 10 ^ ((text m).length - 1 - 5 : ℤ) := by
    rw [keptUnit, Nat.cast_pow, ← zpow_natCast]
    congr 1
    omega
  have hfive : 10 ^ 5 ≤ roundRatio m (keptUnit m) := by
    apply le_roundRatio (keptUnit_pos m)
    rw [keptUnit, ← pow_add]
    exact (Nat.pow_le_pow_right (by decide) (by omega)).trans hlow
  have hsixth : roundRatio m (keptUnit m) ≤ 10 ^ 6 := by
    apply roundRatio_le
    rw [keptUnit, ← pow_add]
    exact hhigh.trans_le (Nat.pow_le_pow_right (by decide) (by omega))
  rw [hsix]
  split
  · next hcarry =>
      refine ⟨10 ^ 5, _, rfl, by omega, by decide +kernel, ?_⟩
      have htop : ((text m).length - 1 : ℤ) + 1 - 5 =
          1 + ((text m).length - 1 - 5) := by
        ring
      rw [hcarry, Nat.cast_mul, hkept, htop, zpow_add₀ (by norm_num)]
      push_cast
      ring
  · next hne =>
      refine ⟨_, _, rfl, by omega, length_text_eq hfive (by omega), ?_⟩
      rw [Nat.cast_mul, hkept]

/-- What is printed of a whole number denotes its nearest multiple of the
unit kept. -/
theorem numberValue?_ratioText (negative : Bool) (m : ℕ) :
    numberValue? (signText negative ++ ratioText m 1) =
      some (signed negative (roundRatio m (keptUnit m) * keptUnit m : ℕ)) := by
  rcases Nat.eq_zero_or_pos m with rfl | hm
  · cases negative <;> decide +kernel
  by_cases hshort : (text m).length ≤ 6
  · have hstop : StopsNumber [] := by simp [StopsNumber]
    have hpos : 0 < (text m).length :=
      List.length_pos_of_ne_nil (text_ne_nil m)
    have hkept : keptUnit m = 1 := by
      rw [keptUnit, Nat.sub_eq_zero_of_le hshort, pow_zero]
    have hlength : (text (m * 10 ^ (6 - (text m).length))).length = 6 := by
      rw [text_mul_pow hm, List.length_append, List.length_replicate]
      omega
    obtain ⟨k, hk⟩ : ∃ k, (text m).length = k + 1 :=
      ⟨(text m).length - 1, by omega⟩
    have hvalue := numberValue?_text negative
      (m * 10 ^ (6 - (text m).length)) k hstop
      (show exponentValue? [] = some 0 from rfl)
    rw [List.append_nil] at hvalue
    rw [hk] at hlength hvalue
    rw [ratioText_short hm hshort, hk, hvalue, hlength, hkept, roundRatio_one]
    congr 2
    push_cast
    rw [zero_sub, zpow_neg, zpow_natCast]
    field_simp
  · have hlong : 6 < (text m).length := by omega
    obtain ⟨number, top, hsix, htop, hlength, hvalue⟩ := sixDigits_long hlong
    have hstop : StopsNumber (ascii 'e' :: exponentText top) := by
      intro b hb
      rw [List.head?_cons, Option.mem_some_iff] at hb
      rw [← hb]
      decide
    have htext : ratioText m 1 =
        pointText ((text number).take (0 + 1)) ((text number).drop (0 + 1)) ++
          ascii 'e' :: exponentText top := by
      unfold ratioText
      rw [if_neg hm.ne', hsix]
      dsimp only
      rw [if_pos (Or.inr htop)]
    rw [htext, numberValue?_text negative number 0 hstop
      (exponentValue?_exponentText top), hlength, ← hvalue]
    rfl

theorem ratioText_mul_right {k : ℕ} (hk : 0 < k) (m : ℕ) :
    ratioText (m * k) k = ratioText m 1 := by
  rcases Nat.eq_zero_or_pos m with rfl | hm
  · rw [zero_mul]
    rfl
  have htop : decimalExponent (m * k) k = decimalExponent m 1 := by
    rw [decimalExponent_one hm, decimalExponent,
      if_pos (Nat.le_mul_of_pos_left k hm), Nat.mul_div_cancel m hk]
  have hround : ∀ a b, roundRatio (m * k * a) (k * b) =
      roundRatio (m * a) (1 * b) := by
    intro a b
    rw [← roundRatio_mul_right hk (m * a) (1 * b)]
    congr 1 <;> ring
  have hsix : sixDigits (m * k) k = sixDigits m 1 := by
    unfold sixDigits
    rw [htop]
    simp only [hround]
  unfold ratioText
  rw [hsix, if_neg (Nat.mul_pos hm hk).ne', if_neg hm.ne']

/-- A double with a whole value is printed as that number. -/
theorem doubleText_of_value {d : Double} {n : ℤ} (hd : d.value = some (n : ℚ)) :
    ∃ negative, doubleText d = signText negative ++ ratioText n.natAbs 1 ∧
      signed negative (n.natAbs : ℚ) = n := by
  cases d with
  | infinity negative => simp [Double.value] at hd
  | nan negative => simp [Double.value] at hd
  | finite negative significand exponent _ =>
      rw [Double.value, Option.some.injEq] at hd
      have hmagnitude : (significand : ℚ) * 2 ^ exponent = n.natAbs := by
        have hpos : (0 : ℚ) ≤ significand * 2 ^ exponent := by positivity
        rw [Nat.cast_natAbs, Int.cast_abs, ← hd, signed]
        split
        · rw [abs_neg, abs_of_nonneg hpos]
        · rw [abs_of_nonneg hpos]
      have hratio : significand * 2 ^ exponent.toNat =
          n.natAbs * 2 ^ (-exponent).toNat := by
        have hsplit : exponent = exponent.toNat - (-exponent).toNat :=
          (Int.toNat_sub_toNat_neg exponent).symm
        rw [hsplit, zpow_sub₀ (by norm_num), zpow_natCast, zpow_natCast,
          mul_div_assoc', div_eq_iff (by positivity)] at hmagnitude
        exact_mod_cast hmagnitude
      refine ⟨negative, ?_, by rw [← hmagnitude, hd]⟩
      rw [doubleText, hratio, ratioText_mul_right (Nat.two_pow_pos _)]

theorem signed_injective (negative : Bool) :
    Function.Injective (signed negative) := by
  intro q r h
  cases negative <;> simpa [signed] using h

/-- The text denotes the number exactly when the number has no more than six
significant digits. -/
theorem numberValue?_doubleText_iff {d : Double} {n : ℤ}
    (hd : d.value = some (n : ℚ)) :
    numberValue? (doubleText d) = some (n : ℚ) ↔
      keptUnit n.natAbs ∣ n.natAbs := by
  obtain ⟨negative, htext, hsigned⟩ := doubleText_of_value hd
  rw [htext, numberValue?_ratioText, ← hsigned, Option.some.injEq,
    (signed_injective negative).eq_iff, Nat.cast_inj,
    roundRatio_mul_eq_iff (keptUnit_pos _)]

end CLibrary
