import Redispp.BulkReplies

/-!
# Field and value replies

`read_key_value_list` takes the elements of a multi-bulk reply two at a time
and inserts them into a map.  The elements are seen as a list of pairs; what
the map holds and how many fields there are is read off the positions.
-/

namespace Redispp

open StateExcept Decimal CLibrary

/-- Elements by twos; a last one without a partner is left out. -/
def pairs : List Buffer → List (Buffer × Buffer)
  | [] => []
  | [_] => []
  | key :: val :: rest => (key, val) :: pairs rest

def distinctFields (l : List Buffer) : ℕ :=
  ((pairs l).map Prod.fst).toFinset.card

/-! ## Pairs and positions -/

theorem getElem?_pairs (l : List Buffer) (i : ℕ) :
    (pairs l)[i]? = (l[2 * i]?).bind fun key =>
      (l[2 * i + 1]?).map fun val => (key, val) := by
  induction l using pairs.induct generalizing i with
  | case1 => simp [pairs]
  | case2 key =>
      have hnone : [key][2 * i + 1]? = none := List.getElem?_eq_none (by simp)
      rw [hnone]
      simp [pairs]
  | case3 key val rest ih =>
      cases i with
      | zero => simp [pairs]
      | succ i =>
          have heven : 2 * (i + 1) = 2 * i + 1 + 1 := by omega
          simp only [pairs, heven, List.getElem?_cons_succ]
          exact ih i

/-- The first pair with a key is the one at its first even position. -/
theorem lookup_eq_some_iff {pairs : List (Buffer × Buffer)}
    {key val : Buffer} :
    pairs.lookup key = some val ↔
      ∃ i : ℕ, pairs[i]? = some (key, val) ∧
        ∀ j < i, ∀ other, pairs[j]? ≠ some (key, other) := by
  induction pairs with
  | nil => simp
  | cons pair rest ih =>
      obtain ⟨first, stored⟩ := pair
      rw [List.lookup_cons]
      by_cases hsame : key = first
      · subst hsame
        simp only [beq_self_eq_true, Option.some.injEq]
        constructor
        · rintro rfl
          exact ⟨0, by simp, by simp⟩
        · rintro ⟨i, hi, hbefore⟩
          cases i with
          | zero => simpa using hi
          | succ i => exact absurd rfl (hbefore 0 (by omega) stored)
      · have hother : (key == first) = false := by
          rw [beq_eq_false_iff_ne]
          exact hsame
        simp only [hother]
        rw [ih]
        constructor
        · rintro ⟨i, hi, hbefore⟩
          refine ⟨i + 1, by simpa using hi, ?_⟩
          intro j hj other
          cases j with
          | zero => simp [Ne.symm hsame]
          | succ j => simpa using hbefore j (by omega) other
        · rintro ⟨i, hi, hbefore⟩
          cases i with
          | zero => simp [Ne.symm hsame] at hi
          | succ i =>
              refine ⟨i, by simpa using hi, ?_⟩
              intro j hj other
              simpa using hbefore (j + 1) (by omega) other

/-! ## The loop -/

theorem run_keyValueLoop {l : List Buffer} (heven : l.length % 2 = 0)
    (map : RedisMap) (feed : Stream) :
    (keyValueLoop l (.ofHash map)).run feed =
      .ok (.ofHash (map.insertAll (pairs l)), feed) := by
  induction l using pairs.induct generalizing map with
  | case1 => rfl
  | case2 key => simp at heven
  | case3 key val rest ih =>
      have hrest : rest.length % 2 = 0 := by
        simp only [List.length_cons] at heven
        omega
      exact ih hrest _

theorem tmod_toInt_natCast (n : ℕ) :
    (toInt n).tmod 2 = 0 ↔ n % 2 = 0 := by
  rw [← Int.dvd_iff_tmod_eq_zero]
  unfold toInt
  rw [Int.bmod_def]
  split <;> omega

theorem readKeyValueList_run {stream next : Stream} {bulk : Response}
    (hbulk : readMultiBulk.run stream = .ok (bulk, next))
    (hlist : bulk.type = .list) :
    readKeyValueList.run stream =
      if bulk.mArray.length % 2 = 0 then
        .ok (.ofHash (RedisMap.insertAll ∅ (pairs bulk.mArray)), next)
      else .ok (.new .err, next) := by
  have hsize : bulk.size = toInt bulk.mArray.length := by
    unfold Response.size
    exact if_pos hlist
  unfold readKeyValueList
  rw [run_bind_of_ok hbulk, hsize]
  by_cases heven : bulk.mArray.length % 2 = 0
  · rw [if_pos heven, if_neg (by simp [hlist, tmod_toInt_natCast, heven])]
    exact run_keyValueLoop heven ∅ next
  · rw [if_neg heven, if_pos (by simp [tmod_toInt_natCast, heven])]
    rfl

theorem getKey_pairs {l : List Buffer} (heven : l.length % 2 = 0)
    (key val : Buffer) :
    (Response.ofHash (RedisMap.insertAll ∅ (pairs l))).getKey key = some val ↔
      ∃ i, l[2 * i]? = some key ∧ l[2 * i + 1]? = some val ∧
        ∀ j < i, l[2 * j]? ≠ some key := by
  have hlookup : (RedisMap.insertAll ∅ (pairs l)).lookup key =
      (pairs l).lookup key := by
    rw [RedisMap.lookup_insertAll, Finmap.lookup_empty, Option.none_or]
  have hpair : ∀ (i : ℕ) (other : Buffer), (pairs l)[i]? = some (key, other) ↔
      l[2 * i]? = some key ∧ l[2 * i + 1]? = some other := by
    intro i other
    rw [getElem?_pairs]
    cases l[2 * i]? <;> cases l[2 * i + 1]? <;> simp
  rw [Response.getKey, Response.ofHash, hlookup, lookup_eq_some_iff]
  apply exists_congr
  intro i
  rw [hpair, and_assoc]
  refine and_congr_right fun _ => and_congr_right fun _ => ?_
  apply forall₂_congr
  intro j _
  constructor
  · intro hbefore hkey
    obtain ⟨other, hother⟩ : ∃ other, l[2 * j + 1]? = some other := by
      have hlt := (List.getElem?_eq_some_iff.mp hkey).1
      exact ⟨_, List.getElem?_eq_getElem (by omega)⟩
    exact hbefore other ((hpair j other).mpr ⟨hkey, hother⟩)
  · intro hbefore other hother
    exact hbefore ((hpair j other).mp hother).1

theorem size_ofHash (map : RedisMap) :
    (Response.ofHash map).size = toInt map.keys.card := by
  simp [Response.size, Response.ofHash, Response.new]

theorem size_pairs (l : List Buffer) :
    (Response.ofHash (RedisMap.insertAll ∅ (pairs l))).size =
      toInt (distinctFields l) := by
  rw [size_ofHash, RedisMap.keys_insertAll, Finmap.keys_empty,
    Finset.empty_union, distinctFields]

/-- A list of fields and values becomes the map of its first bindings, an odd
one an error, and the end of the list is never passed; `size` is the number of
distinct fields exactly when that is an `int`. -/
theorem keyValueList_iff {stream next : Stream} {bulk : Response}
    (hbulk : readMultiBulk.run stream = .ok (bulk, next))
    (hlist : bulk.type = .list) :
    ((bulk.mArray.length % 2 = 1 →
          readKeyValueList.run stream = .ok (.new .err, next)) ∧
        (bulk.mArray.length % 2 = 0 →
          ∃ resp, readKeyValueList.run stream = .ok (resp, next) ∧
            resp.type = .hash ∧
            (∀ key val, resp.getKey key = some val ↔
              ∃ i, bulk.mArray[2 * i]? = some key ∧
                bulk.mArray[2 * i + 1]? = some val ∧
                ∀ j < i, bulk.mArray[2 * j]? ≠ some key) ∧
            resp.size = distinctFields bulk.mArray)) ↔
      (bulk.mArray.length % 2 = 0 →
        (distinctFields bulk.mArray : ℤ) ≤ INT_MAX) := by
  have hrun := readKeyValueList_run hbulk hlist
  constructor
  · rintro ⟨-, hhash⟩ heven
    obtain ⟨resp, hresp, -, -, hsize⟩ := hhash heven
    rw [hrun, if_pos heven] at hresp
    obtain ⟨rfl, -⟩ := Prod.mk.inj (Except.ok.inj hresp)
    rwa [size_pairs, toInt_natCast_eq_iff] at hsize
  · intro hmax
    refine ⟨fun hodd => by rw [hrun, if_neg (by omega)], fun heven => ?_⟩
    refine ⟨_, by rw [hrun, if_pos heven], rfl, getKey_pairs heven, ?_⟩
    rw [size_pairs]
    exact toInt_natCast_eq_iff.mpr (hmax heven)

theorem keyValueList_iff_repeated :
    let l := [bytes "f", bytes "1", bytes "f", bytes "2"]
    let stream := streamOf (encodeMultiBulk (l.map some))
    (l.length % 2 = 1 →
        readKeyValueList.run stream = .ok (.new .err, streamOf [])) ∧
      (l.length % 2 = 0 →
        ∃ resp, readKeyValueList.run stream = .ok (resp, streamOf []) ∧
          resp.type = .hash ∧
          (∀ key val, resp.getKey key = some val ↔
            ∃ i, l[2 * i]? = some key ∧ l[2 * i + 1]? = some val ∧
              ∀ j < i, l[2 * j]? ≠ some key) ∧
          resp.size = distinctFields l) := by
  intro l stream
  have hread : readMultiBulk.run stream = .ok (.ofList l, streamOf []) := by
    decide +kernel
  exact (keyValueList_iff hread rfl).mpr fun _ => by decide

/-! ## A hash with more fields than an `int` counts -/

/-- The fields `0`, `1`, … with one value. -/
def numberedFields (n : ℕ) : List Buffer :=
  (List.range n).flatMap fun i => [text i, bytes "v"]

theorem length_numberedFields (n : ℕ) :
    (numberedFields n).length = 2 * n := by
  simp [numberedFields, List.length_flatMap, mul_comm]

theorem pairs_flatMap {α : Type} (key val : α → Buffer) (l : List α) :
    pairs (l.flatMap fun a => [key a, val a]) =
      l.map fun a => (key a, val a) := by
  induction l with
  | nil => rfl
  | cons a rest ih => simp [pairs, ih]

theorem text_injective : Function.Injective text :=
  Function.LeftInverse.injective value_text

theorem distinctFields_numberedFields (n : ℕ) :
    distinctFields (numberedFields n) = n := by
  have hfields : (pairs (numberedFields n)).map Prod.fst =
      (List.range n).map text := by
    rw [numberedFields, pairs_flatMap, List.map_map]
    rfl
  rw [distinctFields, hfields, List.toFinset_card_of_nodup]
  · simp
  · exact List.nodup_range.map text_injective

theorem numberedFields_short {n : ℕ} (hn : n ≤ 10 ^ 10) {s : Buffer}
    (hs : s ∈ numberedFields n) : s ≠ [] ∧ s.length ≤ 10 := by
  obtain ⟨i, hi, hmem⟩ := List.mem_flatMap.mp hs
  rcases List.mem_cons.mp hmem with rfl | hval
  · have hlt := List.mem_range.mp hi
    exact ⟨text_ne_nil i, (length_text_le_iff (by decide)).mpr (by omega)⟩
  · rw [List.mem_singleton.mp hval]
    decide

theorem readMultiBulk_numberedFields {n : ℕ} (hn : n ≤ 10 ^ 10) :
    readMultiBulk.run
        (streamOf (encodeMultiBulk ((numberedFields n).map some))) =
      .ok (.ofList (numberedFields n), streamOf []) := by
  have hfits : Fits ((numberedFields n).map some) := by
    constructor
    · rw [List.length_map, length_numberedFields]
      unfold LONG_MAX
      omega
    · intro payload hmem
      have hshort := numberedFields_short hn (by simpa using hmem)
      unfold INT_MAX
      omega
  have hempty : [] ∉ numberedFields n :=
    fun hmem => (numberedFields_short hn hmem).1 rfl
  have hreads := readMultiBulk_reads_payloads hfits hempty _ (streamOf [])
    (delivers_arrivalsOf _)
  rwa [← streamOf_append, List.append_nil] at hreads

theorem readKeyValueList_numberedFields {n : ℕ} (hn : n ≤ 10 ^ 10) :
    readKeyValueList.run
        (streamOf (encodeMultiBulk ((numberedFields n).map some))) =
      .ok (.ofHash (RedisMap.insertAll ∅ (pairs (numberedFields n))),
        streamOf []) := by
  have hrun := readKeyValueList_run (readMultiBulk_numberedFields hn) rfl
  rw [hrun]
  apply if_pos
  have hlength := length_numberedFields n
  exact Nat.mod_eq_zero_of_dvd ⟨n, hlength⟩

theorem keyValueList_size_wraps :
    let l := numberedFields 2147483648
    let stream := streamOf (encodeMultiBulk (l.map some))
    readMultiBulk.run stream = .ok (.ofList l, streamOf []) ∧
      l.length = 2 * 2147483648 ∧ distinctFields l = 2147483648 ∧
      ∃ resp, readKeyValueList.run stream = .ok (resp, streamOf []) ∧
        resp.size = -2147483648 := by
  have hle : 2147483648 ≤ 10 ^ 10 := by norm_num
  refine ⟨readMultiBulk_numberedFields hle, length_numberedFields _,
    distinctFields_numberedFields _, _,
    readKeyValueList_numberedFields hle, ?_⟩
  rw [size_pairs, distinctFields_numberedFields]
  decide

end Redispp
