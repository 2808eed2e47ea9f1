import Redispp.Response

/-!
# Responses as containers

A response is filled by calls that say whether they did anything.  Over a
sequence of such calls each collection holds what the calls that fit its tag
brought, so that `size` can be compared with it.
-/

namespace Redispp

open CLibrary

inductive Mutation
  | setBuffer (s : Buffer)
  | setLong (l : ℤ)
  | setBool (b : Bool)
  | setDouble (d : Double)
  | addString (s : Buffer)
  | addPair (key val : Buffer)
  | addStdStrings (key val : List Byte)
  | addZString (s : Buffer) (score : Double)
  deriving DecidableEq

namespace Mutation

def apply : Mutation → Response → Bool × Response
  | .setBuffer s, r => r.setBuffer s
  | .setLong l, r => r.setLong l
  | .setBool b, r => r.setBool b
  | .setDouble d, r => r.setDouble d
  | .addString s, r => r.addString s
  | .addPair key val, r => r.addPair key val
  | .addStdStrings key val, r => r.addStdStrings key val
  | .addZString s score, r => r.addZString s score

/-- The tags that the kind of value goes with. -/
def kinds : Mutation → List RedisResponseType
  | .setBuffer _ => [.string]
  | .setLong _ => [.long]
  | .setBool _ => [.bool]
  | .setDouble _ => [.double]
  | .addString _ => [.list]
  | .addPair _ _ | .addStdStrings _ _ => [.infoMap, .hash]
  | .addZString _ _ => [.zset]

def after (r : Response) (calls : List Mutation) : Response :=
  calls.foldl (fun r call => (call.apply r).2) r

/-! ## What the calls bring -/

def item? : Mutation → Option Buffer
  | .addString s => some s
  | _ => none

def scored? : Mutation → Option (Double × Buffer)
  | .addZString s score => some (score, s)
  | _ => none

def pair? : Mutation → Option (Buffer × Buffer)
  | .addPair key val => some (key, val)
  | .addStdStrings key val => some (storedField (key, val))
  | _ => none

/-- The items pushed, or the distinct keys. -/
def brought (t : RedisResponseType) (calls : List Mutation) : ℕ :=
  match t with
  | .list => (calls.filterMap item?).length
  | .zset => (calls.filterMap scored?).length
  | .hash | .infoMap =>
      ((calls.filterMap pair?).map Prod.fst).toFinset.card
  | _ => 0

end Mutation

def collections : List RedisResponseType := [.list, .zset, .hash, .infoMap]

/-- The entries held in the field that goes with the tag. -/
def Response.entries (r : Response) : ℕ :=
  match r.mType with
  | .list => r.mArray.length
  | .zset => r.mZarray.length
  | .hash | .infoMap => r.mMap.keys.card
  | _ => 0

namespace Mutation

/-! ## One call -/

theorem apply_eq_guarded (call : Mutation) (r : Response) :
    ∃ update, call.apply r = Response.guarded call.kinds r update ∧
      update.mType = r.mType := by
  cases call with
  | addStdStrings key val => exact ⟨_, r.addStdStrings_eq key val, rfl⟩
  | _ => exact ⟨_, rfl, rfl⟩

/-- A call does something exactly when its kind goes with the tag. -/
theorem apply_returns (call : Mutation) (r : Response) :
    ((call.apply r).1 = true ↔ r.mType ∈ call.kinds) ∧
      ((call.apply r).1 = false → (call.apply r).2 = r) := by
  obtain ⟨update, hguarded, _⟩ := call.apply_eq_guarded r
  rw [hguarded]
  unfold Response.guarded
  split
  · next hmem => simp [hmem]
  · next hmem => simp [hmem]

theorem apply_of_not_mem {call : Mutation} {r : Response}
    (h : r.mType ∉ call.kinds) : (call.apply r).2 = r := by
  obtain ⟨hreturns, hfalse⟩ := call.apply_returns r
  apply hfalse
  rw [← Bool.not_eq_true, hreturns]
  exact h

theorem apply_list {r : Response} (h : r.mType = .list) (call : Mutation) :
    (call.apply r).2 =
      { r with mArray := r.mArray ++ call.item?.toList } := by
  cases call with
  | addString s => simp [apply, item?, Response.addString, Response.guarded, h]
  | _ =>
      rw [apply_of_not_mem (by simp [kinds, h])]
      simp [item?]

theorem apply_zset {r : Response} (h : r.mType = .zset) (call : Mutation) :
    (call.apply r).2 =
      { r with mZarray := r.mZarray ++ call.scored?.toList } := by
  cases call with
  | addZString s score =>
      simp [apply, scored?, Response.addZString, Response.guarded, h]
  | _ =>
      rw [apply_of_not_mem (by simp [kinds, h])]
      simp [scored?]

theorem apply_map {r : Response} (h : r.mType = .hash ∨ r.mType = .infoMap)
    (call : Mutation) :
    (call.apply r).2 =
      { r with mMap := r.mMap.insertAll call.pair?.toList } := by
  have hmem : r.mType ∈ [RedisResponseType.infoMap, .hash] := by
    rcases h with h | h <;> simp [h]
  have hadd : ∀ key val, (r.addPair key val).2 =
      { r with mMap := r.mMap.insertAll [(key, val)] } := by
    intro key val
    rw [Response.addPair, Response.guarded, if_pos hmem]
    rfl
  cases call with
  | addPair key val => exact hadd key val
  | addStdStrings key val =>
      rw [apply, r.addStdStrings_eq]
      exact hadd _ _
  | _ =>
      rw [apply_of_not_mem (by rcases h with h | h <;> simp [kinds, h])]
      rfl

/-! ## A sequence of calls -/

theorem after_cons (r : Response) (call : Mutation) (calls : List Mutation) :
    after r (call :: calls) = after (call.apply r).2 calls := rfl

/-- What each call adds to what is held, a sequence adds in order. -/
theorem after_of_apply {α : Type} {brings : Mutation → Option α}
    (holds : Response → List α → Response) {fits : Response → Prop}
    (hnil : ∀ r, holds r [] = r)
    (happend : ∀ r front back, holds (holds r front) back =
      holds r (front ++ back))
    (hfits : ∀ r brought, fits r → fits (holds r brought))
    (happly : ∀ r call, fits r →
      (call.apply r).2 = holds r (brings call).toList)
    {r : Response} (h : fits r) (calls : List Mutation) :
    after r calls = holds r (calls.filterMap brings) := by
  induction calls generalizing r with
  | nil => exact (hnil r).symm
  | cons call calls ih =>
      rw [after_cons, happly r call h, ih (hfits r _ h), happend]
      cases hbrings : brings call <;> simp [hbrings]

theorem after_list {r : Response} (h : r.mType = .list)
    (calls : List Mutation) :
    after r calls =
      { r with mArray := r.mArray ++ calls.filterMap item? } :=
  after_of_apply (fun r items => { r with mArray := r.mArray ++ items })
    (by simp) (by simp)
    (fun _ _ h => h) (fun _ call h => apply_list h call) h calls

theorem after_zset {r : Response} (h : r.mType = .zset)
    (calls : List Mutation) :
    after r calls =
      { r with mZarray := r.mZarray ++ calls.filterMap scored? } :=
  after_of_apply (fun r items => { r with mZarray := r.mZarray ++ items })
    (by simp) (by simp)
    (fun _ _ h => h) (fun _ call h => apply_zset h call) h calls

theorem after_map {r : Response} (h : r.mType = .hash ∨ r.mType = .infoMap)
    (calls : List Mutation) :
    after r calls =
      { r with mMap := r.mMap.insertAll (calls.filterMap pair?) } :=
  after_of_apply (fun r pairs => { r with mMap := r.mMap.insertAll pairs })
    (fun _ => rfl) (by simp [RedisMap.insertAll])
    (fun _ _ h => h) (fun _ call h => apply_map h call) h calls

/-! ## `size` -/

/-- A collection holds what the calls brought. -/
theorem entries_after {t : RedisResponseType} (ht : t ∈ collections)
    (calls : List Mutation) :
    (after (.new t) calls).mType = t ∧
      (after (.new t) calls).entries = brought t calls := by
  simp only [collections, List.mem_cons, List.not_mem_nil, or_false] at ht
  rcases ht with rfl | rfl | rfl | rfl
  · rw [after_list rfl]
    simp [Response.entries, Response.new, brought]
  · rw [after_zset rfl]
    simp [Response.entries, Response.new, brought]
  · rw [after_map (Or.inl rfl)]
    simp [Response.entries, Response.new, brought, RedisMap.keys_insertAll]
  · rw [after_map (Or.inr rfl)]
    simp [Response.entries, Response.new, brought, RedisMap.keys_insertAll]

theorem size_eq_entries_iff {r : Response} (ht : r.mType ∈ collections) :
    r.size = r.entries ↔
      r.mType ≠ .infoMap ∧ (r.entries : ℤ) ≤ INT_MAX := by
  simp only [collections, List.mem_cons, List.not_mem_nil, or_false] at ht
  rcases ht with h | h | h | h
  · simp [Response.size, Response.entries, h, toInt_natCast_eq_iff]
  · simp [Response.size, Response.entries, h, toInt_natCast_eq_iff]
  · simp [Response.size, Response.entries, h, toInt_natCast_eq_iff]
  · simp only [Response.size, Response.entries, h]
    simp

theorem type_apply (call : Mutation) (r : Response) :
    (call.apply r).2.mType = r.mType := by
  obtain ⟨update, hguarded, htype⟩ := call.apply_eq_guarded r
  rw [hguarded]
  unfold Response.guarded
  split
  · exact htype
  · rfl

theorem type_after (r : Response) (calls : List Mutation) :
    (after r calls).mType = r.mType := by
  induction calls generalizing r with
  | nil => rfl
  | cons call calls ih =>
      rw [after_cons, ih, type_apply]

/-- Over every sequence of calls a response says truly what each of them did;
`size` is the number of entries of each collection exactly when the tag is not
`REDIS_INFO_MAP` and the number is an `int`. -/
theorem container_iff (t : RedisResponseType) (calls : List Mutation) :
    ((∀ front call back, calls = front ++ call :: back →
          ((call.apply (after (.new t) front)).1 = true ↔ t ∈ call.kinds) ∧
          ((call.apply (after (.new t) front)).1 = false →
            (call.apply (after (.new t) front)).2 = after (.new t) front)) ∧
        (t ∈ collections →
          (after (.new t) calls).size = (after (.new t) calls).entries ∧
            (after (.new t) calls).entries = brought t calls)) ↔
      t ≠ .infoMap ∧
        (t ∈ collections → (brought t calls : ℤ) ≤ INT_MAX) := by
  have htype : ∀ front, (after (.new t) front).mType = t :=
    fun front => type_after _ front
  have hcalls : ∀ front (call : Mutation),
      ((call.apply (after (.new t) front)).1 = true ↔ t ∈ call.kinds) ∧
        ((call.apply (after (.new t) front)).1 = false →
          (call.apply (after (.new t) front)).2 = after (.new t) front) := by
    intro front call
    have hreturns := call.apply_returns (after (.new t) front)
    rwa [htype front] at hreturns
  have hsize : t ∈ collections →
      ((after (.new t) calls).size = (after (.new t) calls).entries ↔
        t ≠ .infoMap ∧ (brought t calls : ℤ) ≤ INT_MAX) := by
    intro ht
    rw [size_eq_entries_iff (by rwa [htype]), htype,
      (entries_after ht calls).2]
  constructor
  · rintro ⟨-, hcollection⟩
    refine ⟨?_, fun ht => ((hsize ht).mp (hcollection ht).1).2⟩
    rintro rfl
    have ht : RedisResponseType.infoMap ∈ collections := by decide
    exact ((hsize ht).mp (hcollection ht).1).1 rfl
  · rintro ⟨hmap, hcount⟩
    refine ⟨fun front call _ _ => hcalls front call, fun ht => ?_⟩
    exact ⟨(hsize ht).mpr ⟨hmap, hcount ht⟩, (entries_after ht calls).2⟩

/-- The map of an INFO reply has no size. -/
theorem container_infoMap :
    let calls := [Mutation.addPair (bytes "role") (bytes "master")]
    RedisResponseType.infoMap ∈ collections ∧
      brought .infoMap calls = 1 ∧
      (after (.new .infoMap) calls).entries = 1 ∧
      (after (.new .infoMap) calls).size = -1 := by
  decide

end Mutation

end Redispp
