import Redispp.BodyLoop
import Redispp.Contracts
import Redispp.HashReplies
import Redispp.InfoLoop

/-!
# What the readers give

The responses that each reader can return, whatever the server sends and
however the connection ends.  The contract of a reader is proved over any
invariant of the stream that `getline` and the body of a bulk reply keep, so
that what may go wrong can be settled separately.
-/

namespace Redispp

open StateExcept CLibrary

/-- A string that `read_string` returns. -/
def Payload (s : Buffer) : Prop :=
  1 ≤ (s.length : ℤ) ∧ (s.length : ℤ) + 2 ≤ INT_MAX

/-- A response as it was made, or one of the given kind. -/
def ErrOr (kind : Response → Prop) (resp : Response) : Prop :=
  resp = .new .err ∨ kind resp

def HashOf (field : Buffer → Prop) (resp : Response) : Prop :=
  ∃ map : RedisMap, resp = .ofHash map ∧
    ∀ key val, map.lookup key = some val → field key ∧ Payload val

/-- `read_double` leaves the text in place. -/
def Response.ofDouble (s : Buffer) : Response :=
  { ofString s with mType := .double, mDouble := some (atof s) }

/-- `read_info_reply` leaves the whole payload in place. -/
def Response.ofInfo (s : Buffer) : Response :=
  (pieces s).foldl storeText ((ofString s).setType .infoMap)

def KeyType.text : KeyType → Buffer
  | .string => bytes "string"
  | .list => bytes "list"
  | .set => bytes "set"
  | .zset => bytes "zset"
  | .hash => bytes "hash"
  | .none => bytes "none"

/-- `read_type_reply` leaves the name in place. -/
def Response.ofKeyType (t : KeyType) : Response :=
  { ofString t.text with mType := .long, mLong := t.code }

def StreamReader.Gives : StreamReader → Response → Prop
  | .readString => ErrOr fun resp => ∃ s, Payload s ∧ resp = .ofString s
  | .readInteger => ErrOr fun resp =>
      ∃ l, LONG_MIN ≤ l ∧ l ≤ LONG_MAX ∧ resp = .ofLong l
  | .readDouble => ErrOr fun resp => ∃ s, Payload s ∧ resp = .ofDouble s
  | .readIntegerAsBool => ErrOr fun resp => ∃ b, resp = .ofBool b
  | .readStatusCode => fun resp => ∃ b, resp = .ofBool b
  | .readSingleLine => ErrOr fun resp =>
      ∃ s, 0 ∉ s ∧ CR ∉ s ∧ (s.length : ℤ) ≤ INT_MAX ∧ resp = .ofString s
  | .readMultiBulk => ErrOr fun resp =>
      ∃ l, (∀ s ∈ l, Payload s) ∧ resp = .ofList l
  | .readQueued => ErrOr fun resp => resp = .new .queued
  | .readInfoReply => ErrOr fun resp => ∃ s, Payload s ∧ resp = .ofInfo s
  | .readTypeReply => ErrOr fun resp => ∃ t, resp = .ofKeyType t
  | .readKeyValueList => ErrOr (HashOf Payload)

theorem ofKeyType_eq {s : Buffer} {t : KeyType} (h : s = t.text) :
    (((Response.ofString s).setType .long).setLong t.code).2 =
      .ofKeyType t := by
  rw [h]
  rfl

/-! ## Parts of the readers -/

theorem saturate_bounds (z : ℤ) :
    LONG_MIN ≤ saturate z ∧ saturate z ≤ LONG_MAX := by
  unfold saturate
  exact ⟨le_max_left _ _, max_le (by decide) (min_le_left _ _)⟩

theorem atol_bounds (s : List Byte) :
    LONG_MIN ≤ atol s ∧ atol s ≤ LONG_MAX := by
  simp only [atol]
  exact saturate_bounds _

theorem ofCString_eq_some {text s : Buffer}
    (h : Buffer.ofCString text = some s) :
    0 ∉ s ∧ s <+: text ∧ (s.length : ℤ) ≤ INT_MAX := by
  unfold Buffer.ofCString at h
  dsimp only at h
  split at h
  · exact absurd h (by simp)
  · next hsign =>
      obtain rfl := Option.some.inj h
      have hle := toInt_natCast_le (strlen text)
      have htaken : text.take (toInt (strlen text)).toNat <+:
          text.takeWhile (· ≠ 0) := by
        apply List.prefix_of_prefix_length_le (List.take_prefix _ _)
          (List.takeWhile_prefix _)
        rw [List.length_take]
        unfold strlen at hle hsign ⊢
        omega
      refine ⟨fun hzero => ?_, List.take_prefix _ _, ?_⟩
      · have hmem := List.mem_takeWhile_imp (htaken.mem hzero)
        simp at hmem
      · have hmax := toInt_le (strlen text)
        rw [List.length_take]
        omega

/-- The loop has written all of the buffer when it is done. -/
theorem bodyLoop_length {sz remain : ℤ} {buf s : List Byte}
    {stream next : Stream} {calls : ℕ} (hremain : 0 ≤ remain)
    (hbuf : sz + 2 - remain ≤ buf.length)
    (h : (bodyLoop sz calls remain buf).run stream = .ok (s, next)) :
    sz + 2 ≤ s.length := by
  induction calls generalizing remain buf stream with
  | zero =>
      rw [bodyLoop, run_throw] at h
      contradiction
  | succ calls ih =>
      rw [bodyLoop] at h
      split at h
      · next hdone =>
          obtain ⟨rfl, _⟩ := run_pure_eq_ok h
          omega
      · next hdone =>
          split at h
          · rw [run_throw] at h
            contradiction
          · next hposition =>
              obtain ⟨result, mid, hread, hrest⟩ := run_bind_eq_ok h
              have hcount := count_le_of_read (by omega) hread
              cases result with
              | failure => exact ih (by omega) (by omega) hrest
              | got bs =>
                  simp only [ReadResult.count] at hcount
                  refine ih (by omega) ?_ hrest
                  rw [List.length_append, List.length_take]
                  omega

theorem readBody_length {sz : ℤ} {s : Buffer} {stream next : Stream}
    (h : (readBody sz).run stream = .ok (s, next)) :
    (s.length : ℤ) = sz ∧ sz + 2 ≤ INT_MAX := by
  unfold readBody at h
  split at h
  · contradiction
  · split at h
    · contradiction
    · next hsz =>
        obtain ⟨buf, mid, hbody, hrest⟩ := run_bind_eq_ok h
        split at hrest
        · contradiction
        · next hsign =>
            obtain ⟨rfl, _⟩ := run_pure_eq_ok hrest
            have hlength := bodyLoop_length (by omega) (by simp) hbody
            rw [List.length_take]
            omega

theorem infoLoop_eq_pure (s : Buffer) (ret : Response) :
    infoLoop s (s.length + 1) 0 0 ret =
      pure ((pieces s).foldl storeText ret) := by
  obtain ⟨cuts, last, hrun, hend⟩ :=
    exists_run_to_end s (s.length + 1) ⟨0, 0⟩ (by simp)
  have hcount := (infoInvariant_of_run hrun).count
  have hbound := (infoInvariant_of_run hrun).bound
  exact infoLoop_of_complete ret hrun hend (by omega)

theorem HashOf.addPair {field : Buffer → Prop} {resp : Response}
    {key val : Buffer} (h : HashOf field resp) (hkey : field key)
    (hval : Payload val) : HashOf field (resp.addPair key val).2 := by
  obtain ⟨map, rfl, hmap⟩ := h
  refine ⟨map.insertNew key val, rfl, fun other found hlookup => ?_⟩
  rw [RedisMap.lookup_insertNew, Option.or_eq_some_iff] at hlookup
  rcases hlookup with hold | ⟨_, hnew⟩
  · exact hmap other found hold
  · split at hnew
    · next hsame =>
        obtain rfl := Option.some.inj hnew
        exact ⟨hsame ▸ hkey, hval⟩
    · contradiction

theorem HashOf.new (field : Buffer → Prop) :
    HashOf field (.new .hash) :=
  ⟨∅, Response.new_hash, fun _ _ h => by simp at h⟩

/-! ## The contracts -/

section Contracts

variable {inv : Stream → Prop} {may : Fault → Prop}

/-- What a reader relies on: the two loops keep the invariant, and the faults
of the announced length and of the copy of a line are allowed. -/
structure Receives (inv : Stream → Prop) (may : Fault → Prop) : Prop where
  line : Meets inv may getline fun _ => True
  body : ∀ sz, Meets inv may (readBody sz) fun s =>
    (s.length : ℤ) = sz ∧ sz + 2 ≤ INT_MAX
  inverted : may .invertedRange

variable (hinv : Receives inv may)

include hinv

theorem readString_meets :
    Meets inv may readString StreamReader.readString.Gives := by
  apply hinv.line.bind
  intro str _
  refine .ite (fun _ => .ite (fun _ => .pure (Or.inl rfl)) fun _ => ?_)
    fun _ => .pure (Or.inl rfl)
  refine .ite (fun hzero => ?_) fun _ => .pure (Or.inl rfl)
  apply (hinv.body _).bind
  rintro s ⟨hlength, hmax⟩
  refine .pure (Or.inr ⟨s, ⟨?_, by omega⟩, rfl⟩)
  omega

theorem readDouble_meets :
    Meets inv may readDouble StreamReader.readDouble.Gives := by
  apply (readString_meets hinv).bind
  rintro ret (rfl | ⟨s, hs, rfl⟩)
  · exact .pure (Or.inl rfl)
  · exact .pure (Or.inr ⟨s, hs, rfl⟩)

theorem readSingleLine_meets :
    Meets inv may readSingleLine StreamReader.readSingleLine.Gives := by
  apply hinv.line.bind
  intro str _
  refine .ite (fun _ => ?_) fun _ => .pure (Or.inl rfl)
  dsimp only
  split
  · exact .throw hinv.inverted
  · next s hs =>
      obtain ⟨hzero, htaken, hmax⟩ := ofCString_eq_some hs
      refine .pure (Or.inr ⟨s, hzero, fun hCR => ?_, hmax, rfl⟩)
      have hmem := List.mem_takeWhile_imp
        (List.mem_of_mem_tail (htaken.mem hCR))
      simp at hmem

theorem multiBulkLoop_meets (left : ℕ) {l : List Buffer}
    (hl : ∀ s ∈ l, Payload s) :
    Meets inv may (multiBulkLoop left (.ofList l))
      StreamReader.readMultiBulk.Gives := by
  induction left generalizing l with
  | zero => exact .pure (Or.inr ⟨l, hl, rfl⟩)
  | succ left ih =>
      apply (readString_meets hinv).bind
      rintro s (rfl | ⟨s, hs, rfl⟩)
      · exact .pure (Or.inl rfl)
      · apply ih
        intro t ht
        rcases List.mem_append.mp ht with hold | hnew
        · exact hl t hold
        · exact List.mem_singleton.mp hnew ▸ hs

theorem readMultiBulk_meets :
    Meets inv may readMultiBulk StreamReader.readMultiBulk.Gives := by
  apply hinv.line.bind
  intro str _
  refine .ite (fun _ => .pure (Or.inl rfl)) fun _ => ?_
  refine .ite (fun _ => .pure (Or.inr ⟨[], by simp, rfl⟩)) fun _ => ?_
  exact multiBulkLoop_meets hinv _ (by simp)

omit hinv in
theorem keyValueLoop_meets {l : List Buffer} {ret : Response}
    (heven : l.length % 2 = 0) (hl : ∀ s ∈ l, Payload s)
    (hret : HashOf Payload ret) :
    Meets inv may (keyValueLoop l ret)
      StreamReader.readKeyValueList.Gives := by
  fun_induction keyValueLoop l ret with
  | case1 ret => exact .pure (Or.inr hret)
  | case2 ret => simp at heven
  | case3 key val rest ret ih =>
      apply ih
      · simp only [List.length_cons] at heven
        omega
      · exact fun s hs => hl s (by simp [hs])
      · exact hret.addPair (hl key (by simp)) (hl val (by simp))

theorem readKeyValueList_meets :
    Meets inv may readKeyValueList StreamReader.readKeyValueList.Gives := by
  apply (readMultiBulk_meets hinv).bind
  rintro bulk (rfl | ⟨l, hl, rfl⟩)
  · exact .pure (Or.inl rfl)
  · refine .ite (fun _ => .pure (Or.inl rfl)) fun heven => ?_
    simp only [not_or, not_not] at heven
    have hsize : (Response.ofList l).size = toInt l.length := if_pos rfl
    rw [hsize, tmod_toInt_natCast] at heven
    exact keyValueLoop_meets heven.2 hl (.new Payload)

theorem readInfoReply_meets :
    Meets inv may readInfoReply StreamReader.readInfoReply.Gives := by
  apply (readString_meets hinv).bind
  rintro ret (rfl | ⟨s, hs, rfl⟩)
  · exact .pure (Or.inl rfl)
  · rw [if_neg (by simp)]
    dsimp only
    rw [Response.mStr_ofString, infoLoop_eq_pure]
    exact .pure (Or.inr ⟨s, hs, rfl⟩)

theorem readTypeReply_meets :
    Meets inv may readTypeReply StreamReader.readTypeReply.Gives := by
  apply (readSingleLine_meets hinv).bind
  rintro ret (rfl | ⟨s, _, _, _, rfl⟩)
  · exact .pure (Or.inl rfl)
  · rw [if_neg (by simp)]
    dsimp only
    refine .ite (fun h => .pure (Or.inr ⟨.string, ofKeyType_eq h⟩)) fun _ => ?_
    refine .ite (fun h => .pure (Or.inr ⟨.list, ofKeyType_eq h⟩)) fun _ => ?_
    refine .ite (fun h => .pure (Or.inr ⟨.set, ofKeyType_eq h⟩)) fun _ => ?_
    refine .ite (fun h => .pure (Or.inr ⟨.zset, ofKeyType_eq h⟩)) fun _ => ?_
    refine .ite (fun h => .pure (Or.inr ⟨.hash, ofKeyType_eq h⟩)) fun _ => ?_
    refine .ite (fun h => .pure (Or.inr ⟨.none, ofKeyType_eq h⟩)) fun _ => ?_
    exact .pure (Or.inl rfl)

theorem StreamReader.recv_meets (reader : StreamReader) :
    Meets inv may reader.recv reader.Gives := by
  cases reader with
  | readString => exact readString_meets hinv
  | readDouble => exact readDouble_meets hinv
  | readSingleLine => exact readSingleLine_meets hinv
  | readMultiBulk => exact readMultiBulk_meets hinv
  | readInfoReply => exact readInfoReply_meets hinv
  | readTypeReply => exact readTypeReply_meets hinv
  | readKeyValueList => exact readKeyValueList_meets hinv
  | readStatusCode =>
      apply hinv.line.bind
      intro str _
      exact .ite (fun _ => .pure ⟨true, rfl⟩) fun _ => .pure ⟨false, rfl⟩
  | readInteger =>
      apply hinv.line.bind
      intro str _
      refine .ite (fun _ => .pure (Or.inr ⟨_, ?_, ?_, rfl⟩))
        fun _ => .pure (Or.inl rfl)
      · exact (atol_bounds str.tail).1
      · exact (atol_bounds str.tail).2
  | readIntegerAsBool =>
      apply hinv.line.bind
      intro str _
      exact .ite (fun _ => .ite (fun _ => .pure (Or.inr ⟨_, rfl⟩))
        fun _ => .pure (Or.inl rfl)) fun _ => .pure (Or.inl rfl)
  | readQueued =>
      apply hinv.line.bind
      intro str _
      exact .ite (fun _ => .pure (Or.inr rfl)) fun _ => .pure (Or.inl rfl)

theorem multiStringLoop_meets {field : Buffer → Prop} {keys : List Buffer}
    {ret : Response} (hkeys : ∀ key ∈ keys, field key)
    (hret : HashOf field ret) :
    Meets inv may (multiStringLoop keys ret) (HashOf field) := by
  induction keys generalizing ret with
  | nil => exact .pure hret
  | cons key keys ih =>
      have hrest : ∀ key ∈ keys, field key :=
        fun other hother => hkeys other (List.mem_cons_of_mem _ hother)
      apply (readString_meets hinv).bind
      rintro v (rfl | ⟨s, hs, rfl⟩)
      · exact ih hrest hret
      · exact ih hrest (hret.addPair (hkeys key List.mem_cons_self) hs)

theorem readMultiString_meets (mgetKeys : List (List Buffer)) :
    Meets inv may (readMultiString mgetKeys) fun result =>
      ErrOr (HashOf fun key => ∃ keys ∈ mgetKeys.getLast?, key ∈ keys)
        result.1 ∧
      (result.2 = mgetKeys ∨ result.2 = mgetKeys.dropLast) := by
  apply hinv.line.bind
  intro str _
  refine .ite (fun _ => .pure ⟨Or.inl rfl, Or.inl rfl⟩) fun _ => ?_
  split
  · exact .pure ⟨Or.inl rfl, Or.inl rfl⟩
  · next keys hkeys =>
      refine .ite (fun _ => .pure ⟨Or.inl rfl, Or.inr rfl⟩) fun _ => ?_
      apply (multiStringLoop_meets hinv ?_ (.new _)).bind
      · intro ret hret
        exact .pure ⟨Or.inr hret, Or.inr rfl⟩
      · exact fun key hkey => ⟨keys, hkeys, hkey⟩

end Contracts

end Redispp
