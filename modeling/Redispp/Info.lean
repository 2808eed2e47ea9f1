import Redispp.BulkHeader
import Redispp.InfoLoop
import Redispp.MgetPairing

/-!
# INFO

The pairs around the first colons of the pieces are stored from
`std::string`s, which keeps the NUL behind each of them as a byte of the key
and of the value.
-/

namespace Redispp

open StateExcept Decimal CLibrary

/-! ## What is stored -/

theorem addStdStrings_infoMap {ret : Response} (h : ret.mType = .infoMap)
    (key val : List Byte) :
    (ret.addStdStrings key val).2 =
      { ret with mMap := ret.mMap.insertNew (key ++ [0]) (val ++ [0]) } := by
  rw [ret.addStdStrings_eq]
  simp [Response.addPair, Response.guarded, h]

theorem storeText_infoMap {ret : Response} (h : ret.mType = .infoMap)
    (text : List Byte) :
    storeText ret text = { ret with
      mMap :=
        ret.mMap.insertAll ((cutAtColon text).toList.map storedField) } := by
  unfold storeText
  cases cutAtColon text with
  | none => rfl
  | some field => exact addStdStrings_infoMap h field.1 field.2

theorem foldl_storeText {ret : Response} (h : ret.mType = .infoMap)
    (texts : List (List Byte)) :
    texts.foldl storeText ret = { ret with
      mMap := ret.mMap.insertAll
        ((texts.filterMap cutAtColon).map storedField) } := by
  induction texts generalizing ret with
  | nil => rfl
  | cons text texts ih =>
      rw [List.foldl_cons, storeText_infoMap h, ih (by exact h)]
      cases hcut : cutAtColon text <;> simp [hcut, RedisMap.insertAll]

/-! ## Payloads of lines -/

inductive InfoLine
  | field (key val : List Byte)
  | plain (text : List Byte)
  deriving DecidableEq

def InfoLine.text : InfoLine → List Byte
  | .field key val => key ++ COLON :: val
  | .plain text => text

def InfoLine.Proper : InfoLine → Prop
  | .field key val =>
      (COLON ∉ key ∧ CR ∉ key ∧ LF ∉ key) ∧ CR ∉ val ∧ LF ∉ val
  | .plain text => COLON ∉ text ∧ CR ∉ text ∧ LF ∉ text

instance : DecidablePred InfoLine.Proper
  | .field key val => inferInstanceAs (Decidable
      ((COLON ∉ key ∧ CR ∉ key ∧ LF ∉ key) ∧ CR ∉ val ∧ LF ∉ val))
  | .plain text =>
      inferInstanceAs (Decidable (COLON ∉ text ∧ CR ∉ text ∧ LF ∉ text))

def infoPayload (lines : List InfoLine) : Buffer :=
  (lines.map fun line => line.text ++ [CR, LF]).flatten

def InfoLine.pair? : InfoLine → Option (Buffer × Buffer)
  | .field key val => some (key, val)
  | .plain _ => none

def infoFields (lines : List InfoLine) : List (Buffer × Buffer) :=
  lines.filterMap InfoLine.pair?

theorem InfoLine.CR_not_mem_text {line : InfoLine} (h : line.Proper) :
    CR ∉ line.text := by
  have hcolon : CR ≠ COLON := by decide
  cases line with
  | field key val =>
      obtain ⟨⟨_, hkey, _⟩, hval, _⟩ := h
      simp [InfoLine.text, hkey, hval, hcolon]
  | plain text => exact h.2.1

theorem InfoLine.cutAtColon_text {line : InfoLine} (h : line.Proper) :
    cutAtColon line.text = line.pair? := by
  cases line with
  | field key val => exact cutAtColon_append h.1.1
  | plain text => exact if_neg h.1

theorem filterMap_cutAtColon_text {lines : List InfoLine}
    (h : ∀ line ∈ lines, line.Proper) :
    (lines.map InfoLine.text).filterMap cutAtColon = infoFields lines := by
  rw [List.filterMap_map]
  exact List.filterMap_congr fun line hmem =>
    InfoLine.cutAtColon_text (h line hmem)

/-- The pieces of a payload cut off anywhere are the texts of the lines whose
CR is still there. -/
theorem pieces_take_infoPayload {lines : List InfoLine}
    (h : ∀ line ∈ lines, line.Proper) (m : ℕ) :
    ∃ kept, kept <+: lines ∧
      pieces ((infoPayload lines).take m) = kept.map InfoLine.text := by
  induction lines generalizing m with
  | nil => exact ⟨[], List.prefix_rfl, by simp [infoPayload, pieces, piecesFrom]⟩
  | cons line lines ih =>
      have hline := InfoLine.CR_not_mem_text (h line List.mem_cons_self)
      have hsplit : infoPayload (line :: lines) =
          line.text ++ CR :: LF :: infoPayload lines := by
        simp [infoPayload]
      rw [hsplit]
      by_cases hcut : m ≤ line.text.length
      · refine ⟨[], List.nil_prefix, ?_⟩
        rw [List.take_append_of_le_length hcut]
        exact pieces_of_not_mem fun hmem => hline (List.mem_of_mem_take hmem)
      · obtain ⟨n, rfl⟩ : ∃ n, m = line.text.length + (n + 1) :=
          ⟨m - line.text.length - 1, by omega⟩
        obtain ⟨kept, hkept, hpieces⟩ :=
          ih (fun other hmem => h other (List.mem_cons_of_mem _ hmem)) (n - 1)
        refine ⟨line :: kept, (List.prefix_cons_inj _).mpr hkept, ?_⟩
        have hrest : (((LF :: infoPayload lines).take n).drop 1) =
            (infoPayload lines).take (n - 1) := by
          cases n <;> simp
        rw [List.take_append, List.take_of_length_le (by omega),
          Nat.add_sub_cancel_left, List.take_succ_cons, List.map_cons, ← hpieces,
          ← hrest]
        exact pieces_line _ hline

/-! ## The reply of INFO -/

theorem readInfoReply_eq_ok {stream next : Stream} {resp : Response}
    (h : readInfoReply.run stream = .ok (resp, next))
    (htype : resp.type = .infoMap) :
    ∃ s after, readString.run stream = .ok (.ofString s, after) := by
  unfold readInfoReply at h
  obtain ⟨ret, after, hstring, hrest⟩ := run_bind_eq_ok h
  rcases readString_eq_ok hstring with rfl | ⟨s, rfl⟩
  · rw [if_pos (by decide)] at hrest
    obtain ⟨rfl, _⟩ := run_pure_eq_ok hrest
    contradiction
  · exact ⟨s, after, hstring⟩

theorem type_of_pieces (s : Buffer) :
    ((pieces s).foldl storeText
        ((Response.ofString s).setType .infoMap)).type = .infoMap := by
  rw [foldl_storeText rfl]
  rfl

theorem getKey_of_pieces (s : Buffer) (key : Buffer) :
    ((pieces s).foldl storeText
        ((Response.ofString s).setType .infoMap)).getKey key =
      ((((pieces s).filterMap cutAtColon).map storedField).lookup key) := by
  rw [foldl_storeText rfl]
  unfold Response.getKey
  dsimp only
  rw [RedisMap.lookup_insertAll]
  exact Option.none_or

/-- The pairs of the lines that arrive are stored, each with its NULs. -/
theorem readInfoReply_stores {lines : List InfoLine} {arrivals : List Arrival}
    (stream : Stream) (hproper : ∀ line ∈ lines, line.Proper)
    (harrivals : Delivers arrivals (encodeBulk (some (infoPayload lines))))
    (hlow : 1 ≤ toInt (saturate (infoPayload lines).length))
    (hhigh : toInt (saturate (infoPayload lines).length) ≤ INT_MAX - 2) :
    ∃ resp next kept, readInfoReply.run (stream.push arrivals) =
        .ok (resp, next) ∧ resp.type = .infoMap ∧ kept <+: lines ∧
        ∀ key, resp.getKey key =
          ((infoFields kept).map storedField).lookup key := by
  obtain ⟨next, hread⟩ := readString_of_bulk stream harrivals hlow hhigh
  obtain ⟨kept, hkept, hpieces⟩ := pieces_take_infoPayload hproper
    (toInt (saturate (infoPayload lines).length)).toNat
  refine ⟨_, next, kept, readInfoReply_of_string hread, type_of_pieces _,
    hkept, ?_⟩
  intro key
  rw [getKey_of_pieces, hpieces, filterMap_cutAtColon_text
    fun line hmem => hproper line (hkept.subset hmem)]

/-- If every pair is found under its own key, there is none: the shortest key
is not stored. -/
theorem infoFields_eq_nil {resp : Response} {lines kept : List InfoLine}
    (hkept : kept <+: lines)
    (hstored : ∀ key, resp.getKey key =
      ((infoFields kept).map storedField).lookup key)
    (h : ∀ key val, resp.getKey key = some val ↔
      (key, val) ∈ infoFields lines) :
    infoFields lines = [] := by
  have hshorter : ∀ n, ∀ field ∈ infoFields lines, field.1.length ≠ n := by
    intro n
    induction n using Nat.strong_induction_on with
    | _ n ih =>
        intro field hfield hlength
        have hget := (h field.1 field.2).mpr hfield
        rw [hstored] at hget
        obtain ⟨front, back, hsplit, _⟩ := List.lookup_eq_some_iff.mp hget
        have hmem : (field.1, field.2) ∈ (infoFields kept).map storedField := by
          rw [hsplit]
          simp
        obtain ⟨other, hother, hsame⟩ := List.mem_map.mp hmem
        have hkey : other.1 ++ [0] = field.1 := congrArg Prod.fst hsame
        have hshort : other.1.length < n := by
          rw [← hlength, ← hkey, List.length_append, List.length_singleton]
          omega
        exact ih _ hshort other ((hkept.filterMap _).subset hother) rfl
  exact List.eq_nil_iff_forall_not_mem.mpr fun field hfield =>
    hshorter field.1.length field hfield rfl

/-- The pairs of an INFO payload are found byte for byte exactly when it has
none and its length is taken for a positive one that fits. -/
theorem info_fields_iff {lines : List InfoLine} {arrivals : List Arrival}
    {stream : Stream} (hproper : ∀ line ∈ lines, line.Proper)
    (harrivals : Delivers arrivals
      (encodeBulk (some (infoPayload lines)))) :
    (∃ resp next, readInfoReply.run (stream.push arrivals) =
        .ok (resp, next) ∧ resp.type = .infoMap ∧
        ∀ key val, resp.getKey key = some val ↔
          (key, val) ∈ infoFields lines) ↔
      infoFields lines = [] ∧
        ((infoPayload lines).length : ℤ) < LONG_MAX ∧
        1 ≤ (infoPayload lines).length % 4294967296 ∧
        (((infoPayload lines).length % 4294967296 : ℕ) : ℤ) ≤
          INT_MAX - 2 := by
  rw [← announced_bulk_fits_iff]
  constructor
  · rintro ⟨resp, next, hrun, htype, hget⟩
    obtain ⟨s, after, hstring⟩ := readInfoReply_eq_ok hrun htype
    have hfits := fits_of_readString_bulk harrivals hstring
    obtain ⟨resp', next', kept, hrun', _, hkept, hstored⟩ :=
      readInfoReply_stores stream hproper harrivals hfits.1 hfits.2
    obtain ⟨rfl, _⟩ := run_unique hrun hrun'
    exact ⟨infoFields_eq_nil hkept hstored hget, hfits⟩
  · rintro ⟨hnone, hlow, hhigh⟩
    obtain ⟨resp, next, kept, hrun, htype, hkept, hstored⟩ :=
      readInfoReply_stores stream hproper harrivals hlow hhigh
    have hprefix : infoFields kept <+: infoFields lines := hkept.filterMap _
    rw [hnone, List.prefix_nil] at hprefix
    refine ⟨resp, next, hrun, htype, ?_⟩
    intro key val
    rw [hstored, hprefix, hnone]
    simp

theorem info_fields_iff_comment :
    let lines := [InfoLine.plain (bytes "# Server"), .plain []]
    let stream := (streamOf []).push
      (arrivalsOf (encodeBulk (some (infoPayload lines))))
    (∃ resp next, readInfoReply.run stream = .ok (resp, next) ∧
        resp.type = .infoMap ∧
        ∀ key val, resp.getKey key = some val ↔
          (key, val) ∈ infoFields lines) ↔
      infoFields lines = [] ∧
        ((infoPayload lines).length : ℤ) < LONG_MAX ∧
        1 ≤ (infoPayload lines).length % 4294967296 ∧
        (((infoPayload lines).length % 4294967296 : ℕ) : ℤ) ≤
          INT_MAX - 2 :=
  info_fields_iff (by decide) (delivers_arrivalsOf _)

/-- The one field of the payload is not found under its key. -/
theorem info_key_not_found :
    let lines := [InfoLine.field (bytes "a") (bytes "1")]
    let stream := streamOf (encodeBulk (some (infoPayload lines)))
    (∀ line ∈ lines, line.Proper) ∧
      ¬ ∃ resp next, readInfoReply.run stream = .ok (resp, next) ∧
        resp.type = .infoMap ∧
        ∀ key val, resp.getKey key = some val ↔
          (key, val) ∈ infoFields lines := by
  intro lines stream
  have hlookup : (readInfoReply.run stream).map
      (fun result => result.1.getKey (bytes "a")) = .ok none := by
    decide +kernel
  refine ⟨by decide, ?_⟩
  rintro ⟨resp, next, hrun, _, hget⟩
  rw [hrun] at hlookup
  have hnone : resp.getKey (bytes "a") = none := Except.ok.inj hlookup
  have hsome := (hget (bytes "a") (bytes "1")).mpr (by decide)
  rw [hnone] at hsome
  contradiction

end Redispp
