import Redispp.IntegerReplies
import Redispp.LineReplies
import Redispp.MgetPairing
import Redispp.Ranges

/-!
# Readers and replies of every type

The server may answer any command with a reply of any type, and the client
picks the reader by the command.  Here each reader is given each type of
reply.  It always returns without waiting for more, and what it makes of the
reply and whether it leaves a part of it unread is a table over the two; a
part that is left is where the reader of the next reply begins.
-/

namespace Redispp

open StateExcept Decimal CLibrary

inductive Reply
  | status (text : Buffer)
  | error (text : Buffer)
  | integer (z : ℤ)
  | bulk (payload : Option Buffer)
  | nilMultiBulk
  | multiBulk (elements : List (Option Buffer))
  deriving DecidableEq

namespace Reply

def encode : Reply → List Byte
  | .status text => replyLine '+' text
  | .error text => replyLine '-' text
  | .integer z => replyHeader ':' z
  | .bulk payload => encodeBulk payload
  | .nilMultiBulk => replyHeader '*' (-1)
  | .multiBulk elements => encodeMultiBulk elements

/-- The texts and sizes that a server sends. -/
def Sendable : Reply → Prop
  | .status text | .error text =>
      CR ∉ text ∧ LF ∉ text ∧ (text.length : ℤ) ≤ INT_MAX
  | .integer z => LONG_MIN ≤ z ∧ z ≤ LONG_MAX
  | .bulk payload => ∀ s, payload = some s → (s.length : ℤ) + 2 ≤ INT_MAX
  | .nilMultiBulk => True
  | .multiBulk elements => Fits elements

def mark : Reply → Char
  | .status _ => '+'
  | .error _ => '-'
  | .integer _ => ':'
  | .bulk _ => '$'
  | .nilMultiBulk | .multiBulk _ => '*'

/-- The first line behind its mark. -/
def text : Reply → Buffer
  | .status text | .error text => text
  | .integer z => intText z
  | .bulk none | .nilMultiBulk => intText (-1)
  | .bulk (some s) => intText s.length
  | .multiBulk elements => intText elements.length

/-- What comes behind the first line. -/
def rest : Reply → List Byte
  | .bulk (some s) => s ++ [CR, LF]
  | .multiBulk elements => (elements.map encodeBulk).flatten
  | _ => []

/-- No element ends `read_string` or `read_multi_bulk` early. -/
def Full : Reply → Prop
  | .bulk payload => payload ≠ some []
  | .multiBulk elements => some [] ∉ elements ∧ none ∉ elements.dropLast
  | _ => True

instance (reply : Reply) : Decidable reply.Full :=
  match reply with
  | .bulk payload => inferInstanceAs (Decidable (payload ≠ some []))
  | .multiBulk elements =>
      inferInstanceAs
        (Decidable (some [] ∉ elements ∧ none ∉ elements.dropLast))
  | .status _ | .error _ | .integer _ | .nilMultiBulk =>
      inferInstanceAs (Decidable True)

theorem encode_eq (reply : Reply) :
    reply.encode = replyLine reply.mark reply.text ++ reply.rest := by
  cases reply with
  | bulk payload => cases payload <;> simp [encode, mark, text, rest,
      encodeBulk, replyHeader_eq_line]
  | multiBulk elements => rfl
  | _ => simp [encode, mark, text, rest, replyHeader_eq_line]

theorem LF_not_mem_text {reply : Reply} (h : reply.Sendable) :
    LF ∉ reply.text := by
  cases reply with
  | status text => exact h.2.1
  | error text => exact h.2.1
  | bulk payload => cases payload <;> exact LF_not_mem_intText _
  | integer z => exact LF_not_mem_intText z
  | nilMultiBulk => exact LF_not_mem_intText _
  | multiBulk elements => exact LF_not_mem_intText _

theorem mark_ne_LF (reply : Reply) : ascii reply.mark ≠ LF := by
  cases reply <;> simp only [mark] <;> decide

end Reply

/-! ## The table -/

/-- The line that a reader looks for. -/
def StreamReader.mark : StreamReader → Char
  | .readString | .readDouble | .readInfoReply => '$'
  | .readInteger | .readIntegerAsBool => ':'
  | .readStatusCode | .readSingleLine | .readTypeReply | .readQueued => '+'
  | .readMultiBulk | .readKeyValueList => '*'

/-- The reader leaves nothing of the reply unread. -/
def StreamReader.Takes (reader : StreamReader) (reply : Reply) : Prop :=
  reply.rest = [] ∨ reader.mark = reply.mark ∧ reply.Full

instance (reader : StreamReader) (reply : Reply) :
    Decidable (reader.Takes reply) :=
  inferInstanceAs (Decidable (_ ∨ _ ∧ _))

def KeyType.ofText (t : Buffer) : Option KeyType :=
  if t = bytes "string" then some .string
  else if t = bytes "list" then some .list
  else if t = bytes "set" then some .set
  else if t = bytes "zset" then some .zset
  else if t = bytes "hash" then some .hash
  else if t = bytes "none" then some .none
  else Option.none

def typeResponse (t : Buffer) : Response :=
  match KeyType.ofText t with
  | some kind => .ofKeyType kind
  | none => .new .err

def bulkAnswer (make : Buffer → Response) (s : Buffer) : Response :=
  if s = [] then .new .err else make s

def hashResponse (l : List Buffer) : Response :=
  if l.length % 2 = 0 then .ofHash (RedisMap.insertAll ∅ (pairs l))
  else .new .err

def StreamReader.respond : StreamReader → Reply → Response
  | .readString, .bulk (some s) => bulkAnswer .ofString s
  | .readDouble, .bulk (some s) => bulkAnswer .ofDouble s
  | .readInfoReply, .bulk (some s) => bulkAnswer .ofInfo s
  | .readInteger, .integer z => .ofLong z
  | .readIntegerAsBool, .integer z => boolOfLong z
  | .readStatusCode, .status _ => .ofBool true
  | .readSingleLine, .status text => .ofString (text.takeWhile (· ≠ 0))
  | .readTypeReply, .status text => typeResponse (text.takeWhile (· ≠ 0))
  | .readMultiBulk, .nilMultiBulk => .ofList []
  | .readMultiBulk, .multiBulk elements => listAnswer .ofList elements
  | .readKeyValueList, .nilMultiBulk => hashResponse []
  | .readKeyValueList, .multiBulk elements => listAnswer hashResponse elements
  | reader, _ => reader.errorResponse

/-- Of these bytes the receiver reads a piece off the front, and nothing is
left exactly if `whole`. -/
def Yields {α : Type} (m : Recv α) (bs : List Byte) (a : α) (whole : Prop) :
    Prop :=
  ∃ front back, bs = front ++ back ∧ Reads m front a ∧ (back = [] ↔ whole)

theorem Yields.of_reads {α : Type} {m : Recv α} {front back : List Byte}
    {a : α} {whole : Prop} (h : Reads m front a) (hwhole : back = [] ↔ whole) :
    Yields m (front ++ back) a whole :=
  ⟨front, back, rfl, h, hwhole⟩

theorem Yields.bind_pure {α β : Type} {m : Recv α} {k : α → Recv β}
    {bs : List Byte} {a : α} {b : β} {whole : Prop}
    (h : Yields m bs a whole) (hk : k a = pure b) :
    Yields (m >>= k) bs b whole := by
  obtain ⟨front, back, hbs, hreads, hwhole⟩ := h
  exact ⟨front, back, hbs, hreads.bind_pure hk, hwhole⟩

theorem Yields.after {α β : Type} {m : Recv α} {k : α → Recv β}
    {front bs : List Byte} {a : α} {b : β} {whole : Prop}
    (hm : Reads m front a) (hk : Yields (k a) bs b whole) :
    Yields (m >>= k) (front ++ bs) b whole := by
  obtain ⟨first, back, rfl, hreads, hwhole⟩ := hk
  exact ⟨front ++ first, back, (List.append_assoc _ _ _).symm,
    hm.bind hreads, hwhole⟩

theorem Yields.reads {α : Type} {m : Recv α} {bs : List Byte} {a : α}
    {whole : Prop} (h : Yields m bs a whole) (hwhole : whole) :
    Reads m bs a := by
  obtain ⟨front, back, rfl, hreads, hback⟩ := h
  rw [hback.mpr hwhole, List.append_nil]
  exact hreads

/-! ## Lines a reader does not look for -/

theorem readQueued_reads_line {mark : Char} {text : Buffer}
    (hmark : ascii mark ≠ LF) (htext : LF ∉ text) :
    Reads readQueued (replyLine mark text) (.new .err) := by
  obtain ⟨line, hline, hsplit⟩ := replyLine_split hmark htext
  rw [hsplit]
  exact Client.readQueued_reads hline

theorem StreamReader.reads_other (reader : StreamReader) {mark : Char}
    {text : Buffer} (hmark : ascii mark ≠ LF)
    (hother : ascii mark ≠ ascii reader.mark) (htext : LF ∉ text) :
    Reads reader.recv (replyLine mark text) reader.errorResponse := by
  have hstring (h : ascii mark ≠ ascii '$') :
      Reads Redispp.readString (replyLine mark text) (.new .err) :=
    readString_reads_line hmark h htext
  have hsingle (h : ascii mark ≠ ascii '+') :
      Reads Redispp.readSingleLine (replyLine mark text) (.new .err) := by
    apply reads_line hmark htext
    rw [head_replyLine, if_neg (by simpa using h)]
  have hmulti (h : ascii mark ≠ ascii '*') :
      Reads Redispp.readMultiBulk (replyLine mark text) (.new .err) := by
    apply reads_line hmark htext
    rw [head_replyLine, if_pos (by simpa using h)]
  cases reader with
  | readString => exact hstring hother
  | readDouble => exact (hstring hother).bind_pure rfl
  | readInfoReply => exact (hstring hother).bind_pure rfl
  | readSingleLine => exact hsingle hother
  | readTypeReply => exact (hsingle hother).bind_pure rfl
  | readMultiBulk => exact hmulti hother
  | readKeyValueList => exact (hmulti hother).bind_pure rfl
  | readInteger =>
      have hcolon : ascii mark ≠ ascii ':' := hother
      apply reads_line hmark htext
      rw [head_replyLine, if_neg (by simpa using hcolon)]
      rfl
  | readIntegerAsBool =>
      have hcolon : ascii mark ≠ ascii ':' := hother
      apply reads_line hmark htext
      rw [head_replyLine, if_neg (by simpa using hcolon)]
      rfl
  | readStatusCode =>
      have hplus : ascii mark ≠ ascii '+' := hother
      have hreads := readStatusCode_reads hmark htext
      rwa [decide_eq_false hplus] at hreads
  | readQueued => exact readQueued_reads_line hmark htext

/-! ## Status lines -/

theorem ofCString_eq_takeWhile {s : List Byte}
    (hmax : (s.length : ℤ) ≤ INT_MAX) :
    Buffer.ofCString s = some (s.takeWhile (· ≠ 0)) := by
  have hle := strlen_le s
  have hint : toInt (strlen s) = strlen s :=
    toInt_of_mem (by unfold INT_MIN; omega) (by omega)
  have htake := List.prefix_iff_eq_take.mp
    (List.takeWhile_prefix (l := s) (· ≠ 0))
  unfold Buffer.ofCString
  dsimp only
  rw [hint, if_neg (by omega), Int.toNat_natCast, strlen, ← htake]

theorem readSingleLine_reads {text : Buffer} (hCR : CR ∉ text)
    (hLF : LF ∉ text) (hmax : (text.length : ℤ) ≤ INT_MAX) :
    Reads readSingleLine (replyLine '+' text)
      (.ofString (text.takeWhile (· ≠ 0))) := by
  intro arrivals rest harrivals
  rw [readSingleLine_run rest hCR hLF harrivals, ofCString_eq_takeWhile hmax]

theorem readTypeReply_reads {text : Buffer} (hCR : CR ∉ text)
    (hLF : LF ∉ text) (hmax : (text.length : ℤ) ≤ INT_MAX) :
    Reads readTypeReply (replyLine '+' text)
      (typeResponse (text.takeWhile (· ≠ 0))) := by
  apply (readSingleLine_reads hCR hLF hmax).bind_pure
  rw [if_neg (by simp)]
  dsimp only
  rw [Response.mStr_ofString]
  generalize text.takeWhile (· ≠ 0) = t
  unfold typeResponse KeyType.ofText
  split_ifs
  iterate 6
    · next h => rw [ofKeyType_eq h]
  · rfl

/-! ## Bulks and lists -/

theorem readString_yields {s : Buffer} (hmax : (s.length : ℤ) + 2 ≤ INT_MAX) :
    Yields readString (encodeBulk (some s)) (bulkAnswer .ofString s)
      (s ≠ []) := by
  unfold bulkAnswer
  by_cases hempty : s = []
  · subst hempty
    rw [if_pos rfl]
    exact Yields.of_reads readString_reads_empty_header (by simp)
  · rw [if_neg hempty]
    have hreads := readString_reads_bulk hempty hmax
    rw [← List.append_nil (encodeBulk (some s))]
    exact Yields.of_reads hreads (by simpa using hempty)

theorem readMultiBulk_yields {elements : List (Option Buffer)}
    (hfits : Fits elements) :
    Yields readMultiBulk (encodeMultiBulk elements)
      (listAnswer .ofList elements)
      (some [] ∉ elements ∧ none ∉ elements.dropLast) := by
  have hatol : atol (replyHeader '*' elements.length).tail =
      elements.length :=
    atol_replyHeader (by unfold LONG_MIN; omega) hfits.count
  have hloop {front back : List Byte} {resp : Response} {whole : Prop}
      (hreads : Reads (multiBulkLoop elements.length (.ofList [])) front resp)
      (hbytes : (elements.map encodeBulk).flatten = front ++ back)
      (hwhole : back = [] ↔ whole) :
      Yields readMultiBulk (encodeMultiBulk elements) resp whole := by
    unfold encodeMultiBulk
    rw [hbytes, ← List.append_assoc]
    refine Yields.of_reads ?_ hwhole
    unfold readMultiBulk
    apply reads_header (by decide)
    rw [head_replyHeader, if_neg (by simp)]
    dsimp only
    rw [hatol]
    split
    · next hcount =>
        have hnone : elements.length = 0 := by omega
        rw [hnone] at hreads
        exact hreads
    · rw [Int.toNat_natCast]
      exact hreads
  obtain ⟨payloads, hne, rfl | ⟨stop, tail, rfl, hstop⟩⟩ :=
    split_elements elements
  · have hpayloads := fits_payloads hfits List.prefix_rfl hne
    have hreads := multiBulkLoop_reads_payloads hpayloads
    have hempty : [] ∉ payloads := fun hmem => hne [] hmem rfl
    have hanswer : listAnswer .ofList (payloads.map some) =
        .ofList payloads := by
      simp [listAnswer, hempty, List.reduceOption]
    have hlast : none ∉ (payloads.map some).dropLast := by
      intro hmem
      have hnone := List.mem_of_mem_dropLast hmem
      simp at hnone
    rw [hanswer]
    rw [← List.length_map (f := some)] at hreads
    change Reads _ (payloads.map (encodeBulk ∘ some)).flatten _ at hreads
    rw [← List.map_map] at hreads
    refine hloop hreads (List.append_nil _).symm ?_
    simp [hempty, hlast]
  · have hpayloads := fits_payloads hfits (List.prefix_append _ _) hne
    have hlength : (payloads.map some ++ stop :: tail).length =
        payloads.length + (tail.length + 1) := by
      simp
    have hdrop : (payloads.map some ++ stop :: tail).dropLast =
        payloads.map some ++ (stop :: tail).dropLast := by
      rw [List.dropLast_append_of_ne_nil (by simp)]
    have hanswer : listAnswer .ofList (payloads.map some ++ stop :: tail) =
        .new .err := by
      unfold listAnswer
      rw [if_pos]
      rcases hstop with rfl | rfl <;> simp
    have hempty : [] ∉ payloads := fun hmem => hne [] hmem rfl
    have hreads {bs : List Byte}
        (h : Reads readString bs (.new .err)) :=
      multiBulkLoop_reads [] (tail.length + 1) hpayloads
        (multiBulkLoop_reads_stop tail.length _ h)
    rw [hanswer, hdrop]
    simp only [← hlength] at hreads
    rcases hstop with rfl | rfl
    · have hbytes : ((payloads.map some ++ none :: tail).map
          encodeBulk).flatten =
          (payloads.map fun s => encodeBulk (some s)).flatten ++
            encodeBulk none ++ (tail.map encodeBulk).flatten := by
        simp [Function.comp_def]
      refine hloop (hreads readString_reads_nil) hbytes ?_
      rw [encodeBulks_eq_nil_iff]
      cases tail <;> simp [hempty]
    · have hbytes : ((payloads.map some ++ some [] :: tail).map
          encodeBulk).flatten =
          (payloads.map fun s => encodeBulk (some s)).flatten ++
            replyHeader '$' 0 ++
              ([CR, LF] ++ (tail.map encodeBulk).flatten) := by
        simp [Function.comp_def, encodeBulk]
      exact hloop (hreads readString_reads_empty_header) hbytes (by simp)

/-! ## Every reader and every reply -/

theorem StreamReader.yields_other (reader : StreamReader) {reply : Reply}
    (hsend : reply.Sendable) (hother : reader.mark ≠ reply.mark) :
    Yields reader.recv reply.encode reader.errorResponse
      (reader.Takes reply) := by
  have hmark : ascii reply.mark ≠ ascii reader.mark := by
    cases reader <;> cases reply <;>
      simp only [StreamReader.mark, Reply.mark] at hother ⊢ <;>
      first | decide | exact absurd rfl hother
  rw [reply.encode_eq]
  refine Yields.of_reads (reader.reads_other reply.mark_ne_LF hmark
    (Reply.LF_not_mem_text hsend)) ?_
  simp [StreamReader.Takes, hother]

theorem StreamReader.respond_other {reader : StreamReader} {reply : Reply}
    (hother : reader.mark ≠ reply.mark) :
    reader.respond reply = reader.errorResponse := by
  cases reply with
  | bulk payload =>
      cases payload <;> cases reader <;>
        first | rfl | exact absurd rfl hother
  | _ => cases reader <;> first | rfl | exact absurd rfl hother

theorem keyValues_eq (l : List Buffer) :
    (if (Response.ofList l).type ≠ .list ∨
        (Response.ofList l).size.tmod 2 ≠ 0 then return .new .err
      else keyValueLoop (Response.ofList l).mArray (.new .hash) :
        Recv Response) = pure (hashResponse l) := by
  have hsize : (Response.ofList l).size = toInt l.length := if_pos rfl
  have heven := tmod_toInt_natCast l.length
  have htype : (Response.ofList l).type = .list := rfl
  rw [hsize, htype]
  unfold hashResponse
  by_cases h : l.length % 2 = 0
  · rw [if_neg (by simp [heven, h]), if_pos h]
    funext feed
    exact run_keyValueLoop h ∅ feed
  · rw [if_pos (by simp [heven, h]), if_neg h]

theorem StreamReader.yields_bulk {reader : StreamReader} {s : Buffer}
    (hmark : reader.mark = '$') (hmax : (s.length : ℤ) + 2 ≤ INT_MAX) :
    Yields reader.recv (encodeBulk (some s))
      (reader.respond (.bulk (some s))) (s ≠ []) := by
  have hstring := readString_yields hmax
  cases reader with
  | readString => exact hstring
  | readDouble =>
      show Yields Redispp.readDouble _ (bulkAnswer .ofDouble s) _
      apply hstring.bind_pure
      unfold bulkAnswer
      split <;> rfl
  | readInfoReply =>
      show Yields Redispp.readInfoReply _ (bulkAnswer .ofInfo s) _
      apply hstring.bind_pure
      unfold bulkAnswer
      split
      · rfl
      · rw [if_neg (by simp)]
        dsimp only
        rw [Response.mStr_ofString, infoLoop_eq_pure]
        rfl
  | _ => exact absurd hmark (by decide)

theorem StreamReader.yields_multiBulk {reader : StreamReader}
    {elements : List (Option Buffer)} (hmark : reader.mark = '*')
    (hfits : Fits elements) :
    Yields reader.recv (encodeMultiBulk elements)
      (reader.respond (.multiBulk elements))
      (some [] ∉ elements ∧ none ∉ elements.dropLast) := by
  have hlist := readMultiBulk_yields hfits
  cases reader with
  | readMultiBulk => exact hlist
  | readKeyValueList =>
      show Yields Redispp.readKeyValueList _
        (listAnswer hashResponse elements) _
      apply hlist.bind_pure
      unfold listAnswer
      split
      · rfl
      · exact keyValues_eq _
  | _ => exact absurd hmark (by decide)

/-- A line that the reader looks for, with nothing behind it. -/
theorem StreamReader.reads_line_reply {reader : StreamReader} {reply : Reply}
    (hsend : reply.Sendable) (hmark : reader.mark = reply.mark)
    (hbulk : ∀ s, reply ≠ .bulk (some s))
    (hlist : ∀ elements, reply ≠ .multiBulk elements) :
    Reads reader.recv reply.encode (reader.respond reply) := by
  cases reply with
  | error text =>
      cases reader <;> simp [StreamReader.mark, Reply.mark] at hmark
  | multiBulk elements => exact absurd rfl (hlist elements)
  | status text =>
      cases reader with
      | readStatusCode =>
          exact readStatusCode_reads (by decide) hsend.2.1
      | readSingleLine =>
          exact readSingleLine_reads hsend.1 hsend.2.1 hsend.2.2
      | readTypeReply =>
          exact readTypeReply_reads hsend.1 hsend.2.1 hsend.2.2
      | readQueued => exact readQueued_reads_line (by decide) hsend.2.1
      | _ => simp [StreamReader.mark, Reply.mark] at hmark
  | integer z =>
      have hatol : atol (replyHeader ':' z).tail = z :=
        atol_replyHeader hsend.1 hsend.2
      cases reader with
      | readInteger =>
          have hreads := readInteger_reads (LF_not_mem_intText z)
          rw [← replyHeader_eq_line, hatol] at hreads
          exact hreads
      | readIntegerAsBool =>
          have hreads := readIntegerAsBool_reads (LF_not_mem_intText z)
          rw [← replyHeader_eq_line, hatol] at hreads
          exact hreads
      | _ => simp [StreamReader.mark, Reply.mark] at hmark
  | bulk payload =>
      cases payload with
      | some s => exact absurd rfl (hbulk s)
      | none =>
          cases reader with
          | readString => exact readString_reads_nil
          | readDouble => exact readString_reads_nil.bind_pure rfl
          | readInfoReply => exact readString_reads_nil.bind_pure rfl
          | _ => simp [StreamReader.mark, Reply.mark] at hmark
  | nilMultiBulk =>
      have hatol : atol (replyHeader '*' (-1)).tail = -1 :=
        atol_replyHeader (by decide) (by decide)
      have hreads : Reads Redispp.readMultiBulk (replyHeader '*' (-1))
          (.ofList []) := by
        apply reads_line (by decide) (LF_not_mem_intText (-1))
        rw [← replyHeader_eq_line, head_replyHeader, if_neg (by simp), hatol]
        rfl
      cases reader with
      | readMultiBulk => exact hreads
      | readKeyValueList => exact hreads.bind_pure (keyValues_eq [])
      | _ => simp [StreamReader.mark, Reply.mark] at hmark

/-- Given any reply, a reader returns what the table says without waiting for
more, and leaves nothing of the reply exactly when the table says so. -/
theorem StreamReader.yields_reply (reader : StreamReader) {reply : Reply}
    (hsend : reply.Sendable) :
    Yields reader.recv reply.encode (reader.respond reply)
      (reader.Takes reply) := by
  by_cases hmark : reader.mark = reply.mark
  · by_cases hbulk : ∃ s, reply = .bulk (some s)
    · obtain ⟨s, rfl⟩ := hbulk
      have htakes : reader.Takes (.bulk (some s)) ↔ s ≠ [] := by
        simp [StreamReader.Takes, Reply.rest, Reply.Full, hmark]
      rw [htakes]
      exact reader.yields_bulk hmark (hsend s rfl)
    · by_cases hlist : ∃ elements, reply = .multiBulk elements
      · obtain ⟨elements, rfl⟩ := hlist
        have htakes : reader.Takes (.multiBulk elements) ↔
            some [] ∉ elements ∧ none ∉ elements.dropLast := by
          unfold StreamReader.Takes
          rw [Reply.rest, encodeBulks_eq_nil_iff, and_iff_right hmark]
          refine ⟨?_, Or.inr⟩
          rintro (rfl | hfull)
          · simp
          · exact hfull
        rw [htakes]
        exact reader.yields_multiBulk hmark hsend
      · have hreads := reader.reads_line_reply hsend hmark
          (not_exists.mp hbulk) (not_exists.mp hlist)
        have hrest : reply.rest = [] := by
          cases reply with
          | bulk payload => cases payload <;> simp_all [Reply.rest]
          | multiBulk elements => simp at hlist
          | _ => rfl
        rw [← List.append_nil reply.encode]
        exact Yields.of_reads hreads (by simp [StreamReader.Takes, hrest])
  · rw [StreamReader.respond_other hmark]
    exact reader.yields_other hsend hmark

theorem StreamReader.yields_reply_unread :
    let elements := [some (bytes "a"), none, some (bytes "b")]
    StreamReader.readKeyValueList.respond (.multiBulk elements) = .new .err ∧
      ¬ StreamReader.readKeyValueList.Takes (.multiBulk elements) ∧
      Yields StreamReader.readKeyValueList.recv
        (Reply.multiBulk elements).encode
        (StreamReader.readKeyValueList.respond (.multiBulk elements))
        (StreamReader.readKeyValueList.Takes (.multiBulk elements)) := by
  intro elements
  have hsend : (Reply.multiBulk elements).Sendable := by
    refine ⟨by decide, fun payload hmem => ?_⟩
    simp only [elements, List.mem_cons, Option.some.injEq, reduceCtorEq,
      List.not_mem_nil, false_or, or_false] at hmem
    rcases hmem with rfl | rfl <;> decide
  exact ⟨rfl, by decide, StreamReader.readKeyValueList.yields_reply hsend⟩

/-! ## Replies to MGET -/

/-- What `read_string` takes one after another, with what it finds there.  The
line end behind an empty payload is a line of its own to it. -/
def stringParts : List (Option Buffer) → List (List Byte × Option Buffer)
  | [] => []
  | some [] :: elements =>
      (replyHeader '$' 0, none) :: ([CR, LF], none) :: stringParts elements
  | element :: elements => (encodeBulk element, element) :: stringParts elements

def stringsFound (elements : List (Option Buffer)) : List (Option Buffer) :=
  (stringParts elements).map Prod.snd

theorem flatten_stringParts (elements : List (Option Buffer)) :
    ((stringParts elements).map Prod.fst).flatten =
      (elements.map encodeBulk).flatten := by
  fun_induction stringParts elements with
  | case1 => rfl
  | case2 elements ih => simp [ih, encodeBulk]
  | case3 element elements _ ih => simp [ih]

theorem length_le_stringsFound (elements : List (Option Buffer)) :
    elements.length ≤ (stringsFound elements).length := by
  unfold stringsFound
  fun_induction stringParts elements with
  | case1 => simp
  | case2 elements ih =>
      simp only [List.length_cons, List.map_cons] at ih ⊢
      omega
  | case3 element elements _ ih => simpa using ih

theorem stringsFound_eq_self_iff {elements : List (Option Buffer)} :
    elements.length = (stringsFound elements).length ↔ some [] ∉ elements := by
  unfold stringsFound
  fun_induction stringParts elements with
  | case1 => simp
  | case2 elements ih =>
      have hle := length_le_stringsFound elements
      simp only [stringsFound, List.length_map, List.length_cons,
        List.map_cons] at hle ⊢
      constructor
      · intro h
        omega
      · intro h
        simp at h
  | case3 element elements hne ih =>
      have hother : some [] ≠ element := fun h => hne h.symm
      simpa [hother] using ih

theorem readString_reads_terminator :
    Reads readString [CR, LF] (.new .err) :=
  (getline_reads (by decide : LF ∉ [CR])).bind_pure rfl

theorem stringParts_reads {elements : List (Option Buffer)}
    (hmax : ∀ s, some s ∈ elements → (s.length : ℤ) + 2 ≤ INT_MAX) :
    ∀ part ∈ stringParts elements, part.1 ≠ [] ∧
      Reads readString part.1 (bulkResponse part.2) := by
  fun_induction stringParts elements with
  | case1 => simp
  | case2 elements ih =>
      intro part hmem
      rcases List.mem_cons.mp hmem with rfl | htail
      · exact ⟨by simp [replyHeader], readString_reads_empty_header⟩
      · rcases List.mem_cons.mp htail with rfl | hrest
        · exact ⟨by simp, readString_reads_terminator⟩
        · exact ih (fun s hs => hmax s (List.mem_cons_of_mem _ hs)) part hrest
  | case3 element elements hne ih =>
      intro part hmem
      rcases List.mem_cons.mp hmem with rfl | hrest
      · refine ⟨encodeBulk_ne_nil element, readString_reads_of_ne ?_ ?_⟩
        · exact fun h => hne h
        · rintro s rfl
          exact hmax s List.mem_cons_self
      · exact ih (fun s hs => hmax s (List.mem_cons_of_mem _ hs)) part hrest

theorem multiStringLoop_yields {keys : List Buffer} {map : RedisMap}
    {parts : List (List Byte × Option Buffer)}
    (hparts : ∀ part ∈ parts, part.1 ≠ [] ∧
      Reads readString part.1 (bulkResponse part.2))
    (hlength : keys.length ≤ parts.length) :
    Yields (multiStringLoop keys (.ofHash map)) (parts.map Prod.fst).flatten
      (.ofHash (stored map keys (parts.map Prod.snd)))
      (keys.length = parts.length) := by
  induction keys generalizing map parts with
  | nil =>
      refine ⟨[], _, rfl, Feed.Reads.pure _, ?_⟩
      cases parts with
      | nil => simp
      | cons part parts => simp [(hparts part List.mem_cons_self).1]
  | cons key keys ih =>
      cases parts with
      | nil => simp at hlength
      | cons part parts =>
          obtain ⟨bs, found⟩ := part
          have hread := (hparts _ List.mem_cons_self).2
          have hrest (map : RedisMap) : Yields
              (multiStringLoop keys (.ofHash map)) _ _ _ :=
            ih (fun part hmem => hparts part (List.mem_cons_of_mem _ hmem))
              (by simpa using hlength)
          cases found with
          | none =>
              obtain ⟨front, back, hbytes, hreads, hback⟩ := hrest map
              refine ⟨bs ++ front, back, by simp [hbytes], ?_, by simpa⟩
              refine hread.bind ?_
              rw [if_neg (by simp [bulkResponse])]
              exact hreads
          | some s =>
              obtain ⟨front, back, hbytes, hreads, hback⟩ :=
                hrest (map.insertNew key s)
              have htype : (bulkResponse (some s)).type = .string := rfl
              refine ⟨bs ++ front, back, by simp [hbytes], ?_, by simpa⟩
              refine hread.bind ?_
              rw [if_pos htype]
              exact hreads

/-- What `read_multi_string` makes of a reply, and the key lists it leaves. -/
def mgetRespond (mgetKeys : List (List Buffer)) (reply : Reply) :
    Response × List (List Buffer) :=
  if reply.mark ≠ '*' then (.new .err, mgetKeys)
  else
    match mgetKeys.getLast?, reply with
    | some keys, .multiBulk elements =>
        if elements = [] ∨ elements.length ≠ keys.length then
          (.new .err, mgetKeys.dropLast)
        else (.ofHash (stored ∅ keys (stringsFound elements)),
          mgetKeys.dropLast)
    | _, _ => (.new .err, mgetKeys.dropLast)

def MgetTakes (mgetKeys : List (List Buffer)) : Reply → Prop
  | .multiBulk elements => elements = [] ∨
      (∃ keys, mgetKeys.getLast? = some keys ∧
        elements.length = keys.length) ∧ some [] ∉ elements
  | reply => reply.rest = []

/-- The first line alone. -/
theorem readMultiString_reads_other {mgetKeys : List (List Buffer)}
    {mark : Char} {text : Buffer} (hmark : ascii mark ≠ LF)
    (hother : ascii mark ≠ ascii '*') (htext : LF ∉ text) :
    Reads (readMultiString mgetKeys) (replyLine mark text)
      (.new .err, mgetKeys) := by
  apply reads_line hmark htext
  rw [head_replyLine, if_pos (by simpa using hother)]

theorem readMultiString_reads_refused {mgetKeys : List (List Buffer)} {z : ℤ}
    (hlow : LONG_MIN ≤ z) (hhigh : z ≤ LONG_MAX)
    (hrefused : ∀ keys, mgetKeys.getLast? = some keys →
      z ≤ 0 ∨ z ≠ toInt keys.length) :
    Reads (readMultiString mgetKeys) (replyHeader '*' z)
      (.new .err, mgetKeys.dropLast) := by
  apply reads_line (by decide) (LF_not_mem_intText z)
  rw [← replyHeader_eq_line, head_replyHeader, if_neg (by simp),
    atol_replyHeader hlow hhigh]
  cases hlast : mgetKeys.getLast? with
  | none =>
      rw [List.getLast?_eq_none_iff.mp hlast]
      rfl
  | some keys =>
      dsimp only
      rw [if_pos (hrefused keys hlast)]

theorem readMultiString_yields_list {mgetKeys : List (List Buffer)}
    {elements : List (Option Buffer)} (hfits : Fits elements)
    (hkeys : ∀ keys ∈ mgetKeys, (keys.length : ℤ) ≤ INT_MAX) :
    Yields (readMultiString mgetKeys) (encodeMultiBulk elements)
      (mgetRespond mgetKeys (.multiBulk elements))
      (MgetTakes mgetKeys (.multiBulk elements)) := by
  have hlow : LONG_MIN ≤ elements.length := by
    unfold LONG_MIN
    omega
  have hint : ∀ keys, mgetKeys.getLast? = some keys →
      toInt keys.length = keys.length := fun keys hlast =>
    toInt_natCast_eq_iff.mpr (hkeys keys (List.mem_of_getLast? hlast))
  unfold encodeMultiBulk
  by_cases hasked : elements ≠ [] ∧ ∃ keys, mgetKeys.getLast? = some keys ∧
      elements.length = keys.length
  · obtain ⟨hne, keys, hlast, hlength⟩ := hasked
    have hpos := List.length_pos_of_ne_nil hne
    have hle := length_le_stringsFound elements
    rw [stringsFound, List.length_map] at hle
    have hloop : Yields (multiStringLoop keys (.ofHash ∅)) _ _ _ :=
      multiStringLoop_yields (stringParts_reads hfits.payloads) (by omega)
    have hrespond : mgetRespond mgetKeys (.multiBulk elements) =
        (.ofHash (stored ∅ keys (stringsFound elements)),
          mgetKeys.dropLast) := by
      simp [mgetRespond, Reply.mark, hlast, hne, hlength]
    have htakes : MgetTakes mgetKeys (.multiBulk elements) ↔
        keys.length = (stringParts elements).length := by
      have hfound : elements.length = _ ↔ some [] ∉ elements :=
        stringsFound_eq_self_iff
      rw [stringsFound, List.length_map] at hfound
      simp [MgetTakes, hne, hlast, hlength, ← hfound]
    rw [hrespond, htakes, ← flatten_stringParts]
    apply Yields.after (getline_reads_header (by decide))
    rw [head_replyHeader, if_neg (by simp), hlast,
      atol_replyHeader hlow hfits.count]
    dsimp only
    rw [hint keys hlast, if_neg (by omega), Response.new_hash]
    exact hloop.bind_pure rfl
  · have hrespond : mgetRespond mgetKeys (.multiBulk elements) =
        (.new .err, mgetKeys.dropLast) := by
      simp only [mgetRespond, Reply.mark]
      cases hlast : mgetKeys.getLast? with
      | none => simp
      | some keys =>
          simp only [not_and, not_exists] at hasked
          by_cases hnil : elements = []
          · simp [hnil]
          · simp [hasked hnil keys hlast]
    have htakes : MgetTakes mgetKeys (.multiBulk elements) ↔
        elements = [] := by
      unfold MgetTakes
      refine ⟨?_, Or.inl⟩
      rintro (hnil | ⟨hcount, _⟩)
      · exact hnil
      · by_contra hne
        exact hasked ⟨hne, hcount⟩
    rw [hrespond, htakes, ← encodeBulks_eq_nil_iff]
    refine Yields.of_reads (readMultiString_reads_refused hlow hfits.count ?_)
      Iff.rfl
    intro keys hlast
    rw [hint keys hlast]
    by_cases hnil : elements = []
    · simp [hnil]
    · right
      intro hcount
      exact hasked ⟨hnil, keys, hlast, by omega⟩

/-- The same for the reader of MGET, for key lists whose length is an `int`. -/
theorem readMultiString_yields {mgetKeys : List (List Buffer)} {reply : Reply}
    (hsend : reply.Sendable)
    (hkeys : ∀ keys ∈ mgetKeys, (keys.length : ℤ) ≤ INT_MAX) :
    Yields (readMultiString mgetKeys) reply.encode (mgetRespond mgetKeys reply)
      (MgetTakes mgetKeys reply) := by
  have hline (hother : ascii reply.mark ≠ ascii '*') :
      Yields (readMultiString mgetKeys) reply.encode (.new .err, mgetKeys)
        (reply.rest = []) := by
    rw [reply.encode_eq]
    exact Yields.of_reads (readMultiString_reads_other reply.mark_ne_LF hother
      (Reply.LF_not_mem_text hsend)) Iff.rfl
  cases reply with
  | status text => exact hline (by simp only [Reply.mark]; decide)
  | error text => exact hline (by simp only [Reply.mark]; decide)
  | integer z => exact hline (by simp only [Reply.mark]; decide)
  | bulk payload => exact hline (by simp only [Reply.mark]; decide)
  | nilMultiBulk =>
      have hrespond : mgetRespond mgetKeys .nilMultiBulk =
          (.new .err, mgetKeys.dropLast) := by
        simp [mgetRespond, Reply.mark]
      have hreads : Reads (readMultiString mgetKeys) (replyHeader '*' (-1)) _ :=
        readMultiString_reads_refused (by decide) (by decide)
          fun keys _ => Or.inl (by decide)
      rw [hrespond, Reply.encode, ← List.append_nil (replyHeader '*' (-1))]
      exact Yields.of_reads hreads (by simp [MgetTakes, Reply.rest])
  | multiBulk elements => exact readMultiString_yields_list hsend hkeys

theorem readMultiString_yields_empty :
    let keys := [bytes "k", bytes "l"]
    let reply := Reply.multiBulk [some [], some (bytes "v")]
    (mgetRespond [keys] reply).1 = .ofHash
        (stored ∅ keys [none, none, some (bytes "v")]) ∧
      ¬ MgetTakes [keys] reply ∧
      Yields (readMultiString [keys]) reply.encode (mgetRespond [keys] reply)
        (MgetTakes [keys] reply) := by
  intro keys reply
  have hsend : reply.Sendable := by
    refine ⟨by decide, fun payload hmem => ?_⟩
    simp only [List.mem_cons, Option.some.injEq, List.not_mem_nil,
      or_false] at hmem
    rcases hmem with rfl | rfl <;> decide
  have hkeys : ∀ list ∈ [keys], (list.length : ℤ) ≤ INT_MAX := by
    intro list hmem
    rw [List.mem_singleton.mp hmem]
    decide
  exact ⟨rfl, by simp [reply, MgetTakes], readMultiString_yields hsend hkeys⟩

end Redispp
