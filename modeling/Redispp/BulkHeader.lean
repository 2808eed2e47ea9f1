import Redispp.BulkReplies

/-!
# Announced lengths

The length in a bulk header goes from text to `long` and from there to `int`,
and is compared only with -1 and 0 before a buffer of two bytes more is
allocated.  This file separates what `read_string` decides from the header
from what it then reads, and says for which lengths the header is taken at
face value or refused.
-/

namespace Redispp

open StateExcept Decimal CLibrary

/-- `sz` of `read_string`. -/
def announced (header : List Byte) : ℤ :=
  toInt (atol header.tail)

/-- The size given to `new char[sz + 2]`, if the header gets that far. -/
def allocation (header : List Byte) : Option ℤ :=
  if header.head? = some (ascii '$') ∧ announced header ≠ -1 ∧
      announced header ≠ 0 then
    some (announced header + 2)
  else none

theorem readString_eq :
    readString = (do
      let header ← getline
      match allocation header with
      | none => return .new .err
      | some size => do
          let s ← readBody (size - 2)
          return .ofString s) := by
  unfold readString
  congr 1
  funext header
  unfold allocation
  by_cases hdollar : header.head? = some (ascii '$')
  · by_cases hnil : announced header = -1
    · have hcheck : toInt (atol header.tail) = -1 := hnil
      simp [hdollar, hnil, hcheck]
    · by_cases hzero : announced header = 0
      · have hcheck : toInt (atol header.tail) = 0 := hzero
        simp [hdollar, hzero, hcheck]
      · have hcheck : announced header = toInt (atol header.tail) := rfl
        rw [hcheck] at hnil hzero
        simp [hdollar, hnil, hzero, hcheck]
  · simp [hdollar]

theorem readString_of_refused {header : List Byte} {stream after : Stream}
    (hline : getline.run stream = .ok (header, after))
    (h : allocation header = none) :
    readString.run stream = .ok (.new .err, after) := by
  rw [readString_eq, run_bind_of_ok hline, h]
  rfl

theorem readString_of_allocation {header : List Byte} {stream after : Stream}
    {size : ℤ} (hline : getline.run stream = .ok (header, after))
    (h : allocation header = some size) :
    readString.run stream = (do
      let s ← readBody (size - 2)
      return Response.ofString s : Recv Response).run after := by
  rw [readString_eq, run_bind_of_ok hline, h]

theorem readString_reads_announced {line payload terminator : List Byte}
    (hline : LF ∉ line)
    (hsize : allocation (line ++ [LF]) = some ((payload.length : ℤ) + 2))
    (hmax : (payload.length : ℤ) + 2 ≤ INT_MAX)
    (hterminator : terminator.length = 2) :
    Reads readString (line ++ [LF] ++ (payload ++ terminator))
      (.ofString payload) := by
  rw [readString_eq]
  apply (getline_reads hline).bind
  rw [hsize]
  have hbody : Reads (readBody ((payload.length : ℤ) + 2 - 2))
      (payload ++ terminator) payload :=
    readBody_reads (by omega) (by omega) hterminator
  exact hbody.bind_pure rfl

/-- The bytes behind the header are taken by their announced number, the first
of them as payload. -/
theorem readString_run_announced {line rest : List Byte} {n : ℕ}
    {arrivals : List Arrival} (stream : Stream) (hline : LF ∉ line)
    (hsize : allocation (line ++ [LF]) = some ((n : ℤ) + 2))
    (hmax : (n : ℤ) + 2 ≤ INT_MAX)
    (harrivals : Delivers arrivals (line ++ [LF] ++ rest))
    (henough : n + 2 ≤ rest.length) :
    ∃ front back, arrivals = front ++ back ∧
      front.length = (line ++ [LF]).length + (n + 2) ∧
      readString.run (stream.push arrivals) =
        .ok (.ofString (rest.take n), stream.push back) := by
  have hpayload : (rest.take n).length = n := by
    rw [List.length_take]
    omega
  have hterminator : ((rest.drop n).take 2).length = 2 := by
    rw [List.length_take, List.length_drop]
    omega
  have hrest : rest = (rest.take n ++ (rest.drop n).take 2) ++
      (rest.drop n).drop 2 := by
    rw [List.append_assoc, List.take_append_drop, List.take_append_drop]
  rw [hrest, ← List.append_assoc] at harrivals
  obtain ⟨front, back, rfl, hfront, _⟩ :=
    Feed.carries_append_iff.mp harrivals
  have hread := readString_reads_announced hline (by rw [hpayload]; exact hsize)
    (by rw [hpayload]; exact hmax) hterminator
  refine ⟨front, back, rfl, ?_, ?_⟩
  · have hbody : (rest.take n ++ (rest.drop n).take 2).length = n + 2 := by
      rw [List.length_append, hpayload, hterminator]
    rw [hfront.length_eq, List.length_append, hbody]
  · rw [Feed.push_append]
    exact hread front (stream.push back) hfront

/-! ## Headers of digits -/

def signedValue (negative : Bool) (digits : List Byte) : ℤ :=
  if negative then -(value digits : ℤ) else value digits

def digitsHeader (negative : Bool) (digits : List Byte) : List Byte :=
  ascii '$' :: (signText negative ++ digits ++ [CR, LF])

theorem digitsHeader_split (negative : Bool) {digits : List Byte}
    (hdigits : ∀ b ∈ digits, isDigit b = true) :
    ∃ line, LF ∉ line ∧ digitsHeader negative digits = line ++ [LF] := by
  refine ⟨ascii '$' :: (signText negative ++ digits ++ [CR]), ?_,
    by simp [digitsHeader]⟩
  have hmem : LF ∉ digits := by
    intro hLF
    exact absurd (hdigits LF hLF) (by decide)
  have hsign : LF ∉ signText negative := by
    cases negative <;> decide
  have hdollar : LF ≠ ascii '$' := by decide
  have hcr : LF ≠ CR := by decide
  simp [hmem, hsign, hdollar, hcr]

theorem atol_digitsHeader {negative : Bool} {digits : List Byte}
    (hdigits : ∀ b ∈ digits, isDigit b = true) :
    atol (digitsHeader negative digits).tail =
      saturate (signedValue negative digits) := by
  cases negative with
  | true => exact atol_minus_digits hdigits CR_not_isDigit
  | false =>
      by_cases hne : digits = []
      · subst hne
        decide
      · exact atol_digits hne hdigits CR_not_isDigit

theorem announced_refused_iff {v : ℤ} :
    toInt (saturate v) = -1 ∨ toInt (saturate v) = 0 ↔
      v ≤ LONG_MIN ∨ LONG_MAX ≤ v ∨ v % 4294967296 = 0 ∨
        v % 4294967296 = 4294967295 := by
  unfold toInt saturate LONG_MIN LONG_MAX
  rw [Int.bmod_def]
  split <;> omega

theorem announced_digitsHeader {negative : Bool} {digits : List Byte}
    (hdigits : ∀ b ∈ digits, isDigit b = true) :
    announced (digitsHeader negative digits) =
      toInt (saturate (signedValue negative digits)) := by
  unfold announced
  rw [atol_digitsHeader hdigits]

theorem allocation_digitsHeader {negative : Bool} {digits : List Byte}
    (h : ¬ (announced (digitsHeader negative digits) = -1 ∨
      announced (digitsHeader negative digits) = 0)) :
    allocation (digitsHeader negative digits) =
      some (announced (digitsHeader negative digits) + 2) := by
  rw [not_or] at h
  unfold allocation
  rw [if_pos ⟨rfl, h⟩]

theorem getline_digitsHeader {negative : Bool} {digits rest : List Byte}
    {arrivals : List Arrival} (stream : Stream)
    (hdigits : ∀ b ∈ digits, isDigit b = true)
    (harrivals : Delivers arrivals (digitsHeader negative digits ++ rest)) :
    ∃ second, getline.run (stream.push arrivals) =
      .ok (digitsHeader negative digits, stream.push second) := by
  obtain ⟨first, second, rfl, hfirst, _⟩ := Feed.carries_append_iff.mp harrivals
  obtain ⟨line, hLF, hsplit⟩ := digitsHeader_split negative hdigits
  have hread := getline_reads hLF
  rw [← hsplit] at hread
  refine ⟨second, ?_⟩
  rw [Feed.push_append]
  exact hread first _ hfirst

theorem announced_of_fits {negative : Bool} {digits : List Byte}
    (hdigits : ∀ b ∈ digits, isDigit b = true)
    (hlow : 1 ≤ signedValue negative digits)
    (hhigh : signedValue negative digits ≤ INT_MAX - 2) :
    announced (digitsHeader negative digits) = signedValue negative digits := by
  rw [announced_digitsHeader hdigits,
    saturate_of_mem (by unfold LONG_MIN; omega)
      (by unfold LONG_MAX; unfold INT_MAX at hhigh; omega)]
  exact toInt_of_mem (by unfold INT_MIN; omega) (by omega)

/-- A length that fits is taken at face value. -/
theorem readString_takes_length {negative : Bool} {digits rest : List Byte}
    {arrivals : List Arrival} (stream : Stream)
    (hdigits : ∀ b ∈ digits, isDigit b = true)
    (harrivals : Delivers arrivals (digitsHeader negative digits ++ rest))
    (henough : signedValue negative digits + 2 ≤ rest.length)
    (hlow : 1 ≤ signedValue negative digits)
    (hhigh : signedValue negative digits ≤ INT_MAX - 2) :
    ∃ s front back, arrivals = front ++ back ∧
      readString.run (stream.push arrivals) =
        .ok (.ofString s, stream.push back) ∧
      (s.length : ℤ) = signedValue negative digits ∧
      (front.length : ℤ) = (digitsHeader negative digits).length +
        signedValue negative digits + 2 := by
  have hint := announced_of_fits hdigits hlow hhigh
  have hn : ((signedValue negative digits).toNat : ℤ) =
      signedValue negative digits := Int.toNat_of_nonneg (by omega)
  have hkept : ¬ (announced (digitsHeader negative digits) = -1 ∨
      announced (digitsHeader negative digits) = 0) := by omega
  have hsize := allocation_digitsHeader hkept
  obtain ⟨line, hLF, hsplit⟩ := digitsHeader_split negative hdigits
  rw [hint, ← hn, hsplit] at hsize
  rw [hsplit] at harrivals
  obtain ⟨front, back, happend, hlength, hread⟩ :=
    readString_run_announced stream hLF hsize (by omega) harrivals (by omega)
  refine ⟨_, front, back, happend, hread, ?_, ?_⟩
  · rw [List.length_take]
    omega
  · rw [hlength, hsplit]
    push_cast
    omega

/-- A string as long as the header says, and a length that is not refused,
make a length that fits. -/
theorem fits_of_readString_length {negative : Bool} {digits : List Byte}
    {stream after next : Stream} {s : Buffer}
    (hdigits : ∀ b ∈ digits, isDigit b = true)
    (hline : getline.run stream = .ok (digitsHeader negative digits, after))
    (hrefused : ¬ (announced (digitsHeader negative digits) = -1 ∨
      announced (digitsHeader negative digits) = 0))
    (hread : readString.run stream = .ok (.ofString s, next))
    (hlength : (s.length : ℤ) = signedValue negative digits) :
    1 ≤ signedValue negative digits ∧
      signedValue negative digits ≤ INT_MAX - 2 := by
  rw [readString_of_allocation hline (allocation_digitsHeader hrefused)] at hread
  obtain ⟨s', last, hbody, hpure⟩ := run_bind_eq_ok hread
  obtain ⟨hresp, _⟩ := run_pure_eq_ok hpure
  obtain rfl : s = s' := congrArg Response.mStr hresp
  obtain ⟨hmax, hle⟩ := readBody_eq_ok hbody
  have hnonzero : signedValue negative digits ≠ 0 := by
    intro hzero
    apply hrefused
    right
    rw [announced_digitsHeader hdigits, hzero]
    rfl
  exact ⟨by omega, by omega⟩

/-- With any length in a header of digits and enough bytes behind it,
`read_string` takes the length at face value or refuses it exactly when it
fits, or when its `int` is -1 or 0. -/
theorem readString_length_iff {negative : Bool} {digits rest : List Byte}
    {arrivals : List Arrival} {stream : Stream}
    (hdigits : ∀ b ∈ digits, isDigit b = true)
    (harrivals : Delivers arrivals (digitsHeader negative digits ++ rest))
    (henough : signedValue negative digits + 2 ≤ rest.length) :
    let v := signedValue negative digits
    let header := digitsHeader negative digits
    ((∃ next, readString.run (stream.push arrivals) =
          .ok (.new .err, next) ∧ allocation header = none) ∨
        ∃ s front back, arrivals = front ++ back ∧
          readString.run (stream.push arrivals) =
            .ok (.ofString s, stream.push back) ∧
          (s.length : ℤ) = v ∧
          (front.length : ℤ) = header.length + v + 2) ↔
      (v ≤ LONG_MIN ∨ LONG_MAX ≤ v ∨ v % 4294967296 = 0 ∨
          v % 4294967296 = 4294967295) ∨
        1 ≤ v ∧ v ≤ INT_MAX - 2 := by
  intro v header
  obtain ⟨second, hline⟩ := getline_digitsHeader stream hdigits harrivals
  have hvalue : announced header = toInt (saturate v) :=
    announced_digitsHeader hdigits
  rw [← announced_refused_iff, ← hvalue]
  by_cases hrefused : announced header = -1 ∨ announced header = 0
  · have hnone : allocation header = none := by
      unfold allocation
      rw [if_neg]
      rintro ⟨_, hnil, hzero⟩
      rcases hrefused with h | h
      · exact hnil h
      · exact hzero h
    refine iff_of_true (Or.inl ⟨stream.push second, ?_, hnone⟩)
      (Or.inl hrefused)
    exact readString_of_refused hline hnone
  · have hsize := allocation_digitsHeader hrefused
    constructor
    · rintro (⟨next, _, hnone⟩ | ⟨s, front, back, _, hread, hlength, _⟩)
      · exact absurd (hsize.symm.trans hnone) (by simp)
      · exact Or.inr
          (fits_of_readString_length hdigits hline hrefused hread hlength)
    · rintro (h | ⟨hlow, hhigh⟩)
      · exact absurd h hrefused
      · exact Or.inr (readString_takes_length stream hdigits harrivals henough
          hlow hhigh)

theorem readString_length_iff_two :
    let digits := bytes "2"
    let rest := bytes "ab\r\n+OK\r\n"
    let arrivals := arrivalsOf (digitsHeader false digits ++ rest)
    let v := signedValue false digits
    let header := digitsHeader false digits
    ((∃ next, readString.run ((streamOf []).push arrivals) =
          .ok (.new .err, next) ∧ allocation header = none) ∨
        ∃ s front back, arrivals = front ++ back ∧
          readString.run ((streamOf []).push arrivals) =
            .ok (.ofString s, (streamOf []).push back) ∧
          (s.length : ℤ) = v ∧
          (front.length : ℤ) = header.length + v + 2) ↔
      (v ≤ LONG_MIN ∨ LONG_MAX ≤ v ∨ v % 4294967296 = 0 ∨
          v % 4294967296 = 4294967295) ∨
        1 ≤ v ∧ v ≤ INT_MAX - 2 :=
  readString_length_iff (List.all_eq_true.mp (by decide))
    (delivers_arrivalsOf _) (by decide)

/-- Length -2 gets past both comparisons: nothing is allocated for it but two
bytes in front of the buffer are to be copied. -/
theorem readString_length_inverted :
    let header := digitsHeader true (bytes "2")
    let stream := streamOf header
    signedValue true (bytes "2") = -2 ∧
      ¬ ((∃ next, readString.run stream = .ok (.new .err, next) ∧
            allocation header = none) ∨
          ∃ s next, readString.run stream = .ok (.ofString s, next) ∧
            (s.length : ℤ) = -2) := by
  intro header stream
  have hrun : readString.run stream = .error .invertedRange := by
    decide +kernel
  refine ⟨by decide, ?_⟩
  rw [hrun]
  simp

/-! ## Bulks of any length -/

theorem announced_bulk (n : ℕ) :
    announced (replyHeader '$' n) = toInt (saturate n) := by
  unfold announced
  rw [atol_replyHeader_natCast]

theorem announced_bulk_fits_iff (n : ℕ) :
    (1 ≤ toInt (saturate n) ∧ toInt (saturate n) ≤ INT_MAX - 2) ↔
      (n : ℤ) < LONG_MAX ∧ 1 ≤ n % 4294967296 ∧
        ((n % 4294967296 : ℕ) : ℤ) ≤ INT_MAX - 2 := by
  unfold toInt saturate LONG_MIN LONG_MAX INT_MAX
  rw [Int.bmod_def]
  split <;> omega

theorem announced_bulk_le {n : ℕ} (h : 1 ≤ toInt (saturate n)) :
    toInt (saturate n) ≤ n := by
  revert h
  unfold toInt saturate LONG_MIN LONG_MAX
  rw [Int.bmod_def]
  split <;> omega

/-- Of a payload of any length the announced number of bytes is returned, if
that number fits. -/
theorem readString_of_bulk {payload : Buffer} {arrivals : List Arrival}
    (stream : Stream)
    (harrivals : Delivers arrivals (encodeBulk (some payload)))
    (hlow : 1 ≤ toInt (saturate payload.length))
    (hhigh : toInt (saturate payload.length) ≤ INT_MAX - 2) :
    ∃ next, readString.run (stream.push arrivals) =
      .ok (.ofString
        (payload.take (toInt (saturate payload.length)).toNat), next) := by
  have hvalue := announced_bulk payload.length
  have hn : ((toInt (saturate payload.length)).toNat : ℤ) =
      toInt (saturate payload.length) := Int.toNat_of_nonneg (by omega)
  have hle := announced_bulk_le hlow
  have hmark : ascii '$' ≠ LF := by decide
  obtain ⟨line, hline, hsplit⟩ :=
    replyLine_split hmark (LF_not_mem_intText payload.length)
  rw [← replyHeader_eq_line] at hsplit
  have hsize : allocation (line ++ [LF]) =
      some (((toInt (saturate payload.length)).toNat : ℤ) + 2) := by
    rw [← hsplit]
    unfold allocation
    rw [if_pos ⟨rfl, by omega, by omega⟩, hvalue, hn]
  have hsent : encodeBulk (some payload) =
      line ++ [LF] ++ (payload ++ [CR, LF]) := by
    rw [← hsplit]
    rfl
  rw [hsent] at harrivals
  obtain ⟨front, back, _, _, hread⟩ :=
    readString_run_announced stream hline hsize (by omega) harrivals
      (by rw [List.length_append, List.length_cons, List.length_singleton]
          omega)
  rw [List.take_append_of_le_length (by omega)] at hread
  exact ⟨_, hread⟩

/-- Where a payload of any length leads to a string, its announced number
fits. -/
theorem fits_of_readString_bulk {payload s : Buffer} {arrivals : List Arrival}
    {stream next : Stream}
    (harrivals : Delivers arrivals (encodeBulk (some payload)))
    (h : readString.run (stream.push arrivals) = .ok (.ofString s, next)) :
    1 ≤ toInt (saturate payload.length) ∧
      toInt (saturate payload.length) ≤ INT_MAX - 2 := by
  obtain ⟨hzero, hmax, hlength⟩ := announced_of_readString_bulk harrivals h
  omega

end Redispp
