import Redispp.Command
import Mathlib.Data.Finmap

/-!
# Responses

A response is a tag together with one field per kind of value.  A mutator
writes its field only when the tag admits it and says whether it did.
-/

namespace Redispp

open CLibrary

inductive RedisResponseType
  | err
  | long
  | string
  | bool
  | infoMap
  | hash
  | double
  | list
  | zset
  | queued
  deriving DecidableEq, Repr

abbrev RedisMap := Finmap fun _ : Buffer => Buffer

/-- `std::map::insert`, which keeps the value of a key that is present. -/
def RedisMap.insertNew (map : RedisMap) (key val : Buffer) : RedisMap :=
  if key ∈ map then map else map.insert key val

namespace RedisMap

theorem lookup_insertNew (map : RedisMap) (key val other : Buffer) :
    (map.insertNew key val).lookup other =
      (map.lookup other).or (if key = other then some val else none) := by
  unfold insertNew
  by_cases hmem : key ∈ map
  · rw [if_pos hmem]
    by_cases hsame : key = other
    · subst hsame
      obtain ⟨found, hfound⟩ := Finmap.mem_iff.mp hmem
      simp [hfound]
    · simp [hsame]
  · rw [if_neg hmem]
    by_cases hsame : key = other
    · subst hsame
      simp [Finmap.lookup_insert, Finmap.lookup_eq_none.mpr hmem]
    · rw [Finmap.lookup_insert_of_ne map (Ne.symm hsame)]
      simp [hsame]

theorem keys_insertNew (map : RedisMap) (key val : Buffer) :
    (map.insertNew key val).keys = insert key map.keys := by
  ext other
  rw [Finset.mem_insert, Finmap.mem_keys, Finmap.mem_keys]
  rw [← Finmap.lookup_isSome, ← Finmap.lookup_isSome, lookup_insertNew]
  by_cases hsame : key = other
  · simp [hsame]
  · simp [hsame, Ne.symm hsame]

def insertAll (map : RedisMap) (pairs : List (Buffer × Buffer)) : RedisMap :=
  pairs.foldl (fun map pair => map.insertNew pair.1 pair.2) map

theorem insertAll_cons (map : RedisMap) (pair : Buffer × Buffer)
    (rest : List (Buffer × Buffer)) :
    map.insertAll (pair :: rest) =
      (map.insertNew pair.1 pair.2).insertAll rest := rfl

theorem lookup_insertAll (map : RedisMap) (pairs : List (Buffer × Buffer))
    (key : Buffer) :
    (map.insertAll pairs).lookup key =
      (map.lookup key).or (pairs.lookup key) := by
  induction pairs generalizing map with
  | nil => simp [insertAll]
  | cons pair rest ih =>
      obtain ⟨first, val⟩ := pair
      rw [insertAll_cons, ih, lookup_insertNew, Option.or_assoc, List.lookup_cons]
      by_cases hsame : first = key
      · simp [hsame]
      · have hother : (key == first) = false := by
          rw [beq_eq_false_iff_ne]
          exact Ne.symm hsame
        simp [hsame, hother]

theorem keys_insertAll (map : RedisMap) (pairs : List (Buffer × Buffer)) :
    (map.insertAll pairs).keys =
      map.keys ∪ (pairs.map Prod.fst).toFinset := by
  induction pairs generalizing map with
  | nil => simp [insertAll]
  | cons pair rest ih =>
      rw [insertAll_cons, ih, keys_insertNew]
      simp [Finset.insert_union]

end RedisMap

/-- What a pair of `std::string`s is stored as. -/
def storedField (field : Buffer × Buffer) : Buffer × Buffer :=
  (field.1 ++ [0], field.2 ++ [0])

theorem ofPointer_terminated (text : List Byte) :
    Buffer.ofPointer (text ++ [0]) (1 + text.length) = text ++ [0] := by
  unfold Buffer.ofPointer
  rw [List.take_of_length_le]
  rw [List.length_append, List.length_singleton]
  omega

/-- `m_double` has no value until it is set. -/
structure Response where
  mType : RedisResponseType
  mLong : ℤ
  mBool : Bool
  mDouble : Option Double
  mStr : Buffer
  mArray : List Buffer
  mZarray : List (Double × Buffer)
  mMap : RedisMap
  deriving DecidableEq

namespace Response

def new (t : RedisResponseType) : Response where
  mType := t
  mLong := 0
  mBool := false
  mDouble := none
  mStr := []
  mArray := []
  mZarray := []
  mMap := ∅

def type (r : Response) : RedisResponseType := r.mType

def setType (r : Response) (t : RedisResponseType) : Response :=
  { r with mType := t }

def guarded (kinds : List RedisResponseType) (r : Response)
    (update : Response) : Bool × Response :=
  if r.mType ∈ kinds then (true, update) else (false, r)

def setBuffer (r : Response) (s : Buffer) : Bool × Response :=
  guarded [.string] r { r with mStr := s }

def setLong (r : Response) (l : ℤ) : Bool × Response :=
  guarded [.long] r { r with mLong := l }

def setBool (r : Response) (b : Bool) : Bool × Response :=
  guarded [.bool] r { r with mBool := b }

def setDouble (r : Response) (d : Double) : Bool × Response :=
  guarded [.double] r { r with mDouble := some d }

/-- `addString(Buffer)`. -/
def addString (r : Response) (s : Buffer) : Bool × Response :=
  guarded [.list] r { r with mArray := r.mArray ++ [s] }

/-- `addString(Buffer, Buffer)`. -/
def addPair (r : Response) (key val : Buffer) : Bool × Response :=
  guarded [.infoMap, .hash] r { r with mMap := r.mMap.insertNew key val }

/-- `addString(std::string, std::string)`: the buffers are taken from
`c_str()` with a length one above the string's, which takes in its NUL. -/
def addStdStrings (r : Response) (key val : List Byte) : Bool × Response :=
  if r.mType ∈ [RedisResponseType.infoMap, .hash] then
    r.addPair (Buffer.ofPointer (key ++ [0]) (1 + key.length))
      (Buffer.ofPointer (val ++ [0]) (1 + val.length))
  else (false, r)

def addZString (r : Response) (s : Buffer) (score : Double) :
    Bool × Response :=
  guarded [.zset] r { r with mZarray := r.mZarray ++ [(score, s)] }

def size (r : Response) : ℤ :=
  if r.mType = .list then toInt r.mArray.length
  else if r.mType = .zset then toInt r.mZarray.length
  else if r.mType = .hash then toInt r.mMap.keys.card
  else -1

/-- `get(Buffer key)`; `map::at` throws on a key that is absent. -/
def getKey (r : Response) (key : Buffer) : Option Buffer :=
  r.mMap.lookup key

theorem addStdStrings_eq (r : Response) (key val : List Byte) :
    r.addStdStrings key val = r.addPair (key ++ [0]) (val ++ [0]) := by
  unfold addStdStrings
  rw [ofPointer_terminated, ofPointer_terminated]
  unfold addPair guarded
  split <;> simp_all

/-! ## Responses of each kind -/

def ofString (s : Buffer) : Response := { new .string with mStr := s }

def ofBool (b : Bool) : Response := { new .bool with mBool := b }

def ofLong (l : ℤ) : Response := { new .long with mLong := l }

def ofList (l : List Buffer) : Response := { new .list with mArray := l }

def ofHash (map : RedisMap) : Response := { new .hash with mMap := map }

@[simp] theorem setBuffer_string (s : Buffer) :
    (((new .err).setType .string).setBuffer s).2 = ofString s := rfl

@[simp] theorem setBool_bool (b : Bool) :
    ((new .bool).setBool b).2 = ofBool b := rfl

@[simp] theorem addString_ofList (l : List Buffer) (s : Buffer) :
    ((ofList l).addString s).2 = ofList (l ++ [s]) := rfl

theorem new_hash : new .hash = ofHash ∅ := rfl

theorem new_bool : new .bool = ofBool false := rfl

@[simp] theorem type_ofString (s : Buffer) : (ofString s).type = .string := rfl

@[simp] theorem mStr_ofString (s : Buffer) : (ofString s).mStr = s := rfl

@[simp] theorem type_new (t : RedisResponseType) : (new t).type = t := rfl

end Response

end Redispp
