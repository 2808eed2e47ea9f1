import Redispp.Readers

/-!
# Replies of the server

The replies of the protocol, how they are written on the wire, and what each
reader makes of them.  A reader that is given a reply it can read takes it
whole; the statements say so for every piecewise arrival and for every
continuation of the stream.
-/

namespace Redispp

open Decimal CLibrary

def replyHeader (mark : Char) (z : ℤ) : Buffer :=
  ascii mark :: (intText z ++ [CR, LF])

def replyLine (mark : Char) (text : Buffer) : Buffer :=
  ascii mark :: (text ++ [CR, LF])

def encodeBulk : Option Buffer → Buffer
  | none => replyHeader '$' (-1)
  | some payload => replyHeader '$' payload.length ++ (payload ++ [CR, LF])

def encodeMultiBulk (elements : List (Option Buffer)) : Buffer :=
  replyHeader '*' elements.length ++ (elements.map encodeBulk).flatten

/-! ## Lines -/

theorem LF_not_mem_intText (z : ℤ) : LF ∉ intText z :=
  not_mem_intText (by decide) (by decide)

theorem replyLine_split {mark : Char} {text : Buffer}
    (hmark : ascii mark ≠ LF) (htext : LF ∉ text) :
    ∃ line, LF ∉ line ∧ replyLine mark text = line ++ [LF] := by
  refine ⟨ascii mark :: (text ++ [CR]), ?_, by simp [replyLine]⟩
  have hcr : LF ≠ CR := by decide
  simp [hmark.symm, htext, hcr]

theorem reads_line {α : Type} {k : List Byte → Recv α} {mark : Char}
    {text : Buffer} {a : α} (hmark : ascii mark ≠ LF) (htext : LF ∉ text)
    (hk : k (replyLine mark text) = pure a) :
    Reads (getline >>= k) (replyLine mark text) a := by
  obtain ⟨line, hline, hsplit⟩ := replyLine_split hmark htext
  rw [hsplit] at hk ⊢
  exact (getline_reads hline).bind_pure hk

theorem replyHeader_eq_line (mark : Char) (z : ℤ) :
    replyHeader mark z = replyLine mark (intText z) := rfl

theorem getline_reads_header {mark : Char} {z : ℤ}
    (hmark : ascii mark ≠ LF) :
    Reads getline (replyHeader mark z) (replyHeader mark z) := by
  have hpure := reads_line (k := pure) (a := replyHeader mark z) hmark
    (LF_not_mem_intText z) rfl
  rwa [bind_pure] at hpure

theorem reads_header {α : Type} {k : List Byte → Recv α} {mark : Char}
    {z : ℤ} {back : List Byte} {a : α} (hmark : ascii mark ≠ LF)
    (hk : Reads (k (replyHeader mark z)) back a) :
    Reads (getline >>= k) (replyHeader mark z ++ back) a :=
  (getline_reads_header hmark).bind hk

theorem CR_not_isDigit {back : List Byte} :
    ∀ b ∈ (CR :: back).head?, isDigit b = false := by
  intro b hb
  simp only [List.head?_cons, Option.mem_def, Option.some.injEq] at hb
  subst hb
  decide

theorem atol_replyHeader {mark : Char} {z : ℤ} (hlow : LONG_MIN ≤ z)
    (hhigh : z ≤ LONG_MAX) : atol (replyHeader mark z).tail = z := by
  exact atol_intText hlow hhigh CR_not_isDigit

theorem atol_replyHeader_natCast (mark : Char) (n : ℕ) :
    atol (replyHeader mark n).tail = saturate n := by
  unfold replyHeader
  rw [List.tail_cons, intText_natCast, atol_text CR_not_isDigit]

@[simp] theorem head_replyHeader (mark : Char) (z : ℤ) :
    (replyHeader mark z).head? = some (ascii mark) := rfl

@[simp] theorem head_replyLine (mark : Char) (text : Buffer) :
    (replyLine mark text).head? = some (ascii mark) := rfl

/-! ## Bulk replies -/

/-- What `read_string` is to return for a bulk. -/
def bulkResponse : Option Buffer → Response
  | none => .new .err
  | some payload => .ofString payload

theorem readString_reads_nil :
    Reads readString (encodeBulk none) (.new .err) := by
  have hatol : atol (replyHeader '$' (-1)).tail = -1 :=
    atol_replyHeader (by decide) (by decide)
  have hint : toInt (-1) = -1 := by decide
  unfold readString encodeBulk
  rw [replyHeader_eq_line]
  apply reads_line (by decide) (LF_not_mem_intText _)
  rw [← replyHeader_eq_line, head_replyHeader, if_pos rfl, hatol, hint]
  rfl

theorem readString_reads_bulk {payload : Buffer} (hne : payload ≠ [])
    (hmax : (payload.length : ℤ) + 2 ≤ INT_MAX) :
    Reads readString (encodeBulk (some payload)) (.ofString payload) := by
  have hpos := List.length_pos_of_ne_nil hne
  unfold INT_MAX at hmax
  have hatol : atol (replyHeader '$' payload.length).tail = payload.length :=
    atol_replyHeader (by unfold LONG_MIN; omega) (by unfold LONG_MAX; omega)
  have hint : toInt payload.length = payload.length :=
    toInt_of_mem (by unfold INT_MIN; omega) (by unfold INT_MAX; omega)
  unfold readString encodeBulk
  apply reads_header (by decide)
  rw [head_replyHeader, if_pos rfl, hatol, hint, if_neg (by omega),
    if_pos (by omega)]
  exact (readBody_reads rfl (by unfold INT_MAX; omega) rfl).bind_pure rfl

/-- The branch for length zero returns before the end of the line behind the
empty payload is read. -/
theorem readString_reads_empty_header :
    Reads readString (replyHeader '$' 0) (.new .err) := by
  have hatol : atol (replyHeader '$' 0).tail = 0 :=
    atol_replyHeader (by decide) (by decide)
  have hint : toInt 0 = 0 := by decide
  unfold readString
  rw [replyHeader_eq_line]
  apply reads_line (by decide) (LF_not_mem_intText _)
  rw [← replyHeader_eq_line, head_replyHeader, if_pos rfl, hatol, hint]
  rfl

theorem readString_reads_line {mark : Char} {text : Buffer}
    (hmark : ascii mark ≠ LF) (hdollar : ascii mark ≠ ascii '$')
    (htext : LF ∉ text) :
    Reads readString (replyLine mark text) (.new .err) := by
  apply reads_line hmark htext
  rw [head_replyLine, if_neg (by simpa using hdollar)]

theorem readStatusCode_reads {mark : Char} {text : Buffer}
    (hmark : ascii mark ≠ LF) (htext : LF ∉ text) :
    Reads readStatusCode (replyLine mark text)
      (.ofBool (ascii mark = ascii '+')) := by
  apply reads_line hmark htext
  by_cases hplus : ascii mark = ascii '+'
  · rw [if_pos (by simp [hplus]), Response.setBool_bool,
      decide_eq_true hplus]
  · rw [if_neg (by simpa using hplus), Response.new_bool,
      decide_eq_false hplus]

/-! ## Error lines -/

def StreamReader.errorResponse : StreamReader → Response
  | .readStatusCode => .ofBool false
  | _ => .new .err

/-- Every reader takes an error line whole, and nothing after it. -/
theorem StreamReader.reads_error (reader : StreamReader) {text : Buffer}
    (htext : LF ∉ text) :
    Reads reader.recv (replyLine '-' text) reader.errorResponse := by
  have hmark : ascii '-' ≠ LF := by decide
  have hstring :
      Reads Redispp.readString (replyLine '-' text) (.new .err) :=
    readString_reads_line hmark (by decide) htext
  have hsingle :
      Reads Redispp.readSingleLine (replyLine '-' text) (.new .err) :=
    reads_line hmark htext rfl
  have hmulti :
      Reads Redispp.readMultiBulk (replyLine '-' text) (.new .err) :=
    reads_line hmark htext rfl
  cases reader with
  | readString => exact hstring
  | readDouble => exact hstring.bind_pure rfl
  | readInfoReply => exact hstring.bind_pure rfl
  | readSingleLine => exact hsingle
  | readTypeReply => exact hsingle.bind_pure rfl
  | readMultiBulk => exact hmulti
  | readKeyValueList => exact hmulti.bind_pure rfl
  | readInteger => exact reads_line hmark htext rfl
  | readIntegerAsBool => exact reads_line hmark htext rfl
  | readStatusCode => exact reads_line hmark htext rfl
  | readQueued => exact reads_line hmark htext rfl

end Redispp
