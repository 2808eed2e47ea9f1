import Redispp.BulkHeader

/-!
# The end of the stream

What `getline`, `read_string` and the readers of one line do when the bytes
run out and `read` returns 0, or -1, on every further call.  At the end of the
file `getline` appends its last character for ever; after a failure it returns
what there is, and a reader that decodes it takes a cut line for a reply.
-/

namespace Redispp

open StateExcept Decimal CLibrary

theorem getline_first {line rest : List Byte} {arrivals : List Arrival}
    (ending : Closing) (hline : LF ∉ line)
    (harrivals : Delivers arrivals (line ++ [LF] ++ rest)) :
    ∃ second, Delivers second rest ∧
      getline.run ⟨arrivals, ending⟩ =
        .ok (line ++ [LF], ⟨second, ending⟩) := by
  obtain ⟨first, second, rfl, hfirst, hsecond⟩ :=
    Feed.carries_append_iff.mp harrivals
  exact ⟨second, hsecond, getline_reads hline first ⟨second, ending⟩ hfirst⟩

theorem exists_line {bs : List Byte} (h : LF ∈ bs) :
    ∃ line rest, bs = line ++ [LF] ++ rest ∧ LF ∉ line := by
  obtain ⟨line, rest, rfl, hline⟩ := List.eq_append_cons_of_mem h
  exact ⟨line, rest, by simp, hline⟩

/-! ## End of file -/

theorem getlineLoop_cut_eof {bs : List Byte} {arrivals : List Arrival}
    (hbs : LF ∉ bs) (harrivals : Delivers arrivals bs) (calls : ℕ)
    (outcome : List Byte × Stream) :
    (getlineLoop calls none []).run ⟨arrivals, .eof⟩ ≠ .ok outcome := by
  intro hreturned
  have hmore := getlineLoop_more hreturned
    (Nat.le_add_left calls (arrivals.length + 1))
  rw [add_assoc, getlineLoop_drain .eof (1 + calls) hbs harrivals] at hmore
  cases hlast : bs.getLast? with
  | none =>
      rw [hlast, Nat.add_comm] at hmore
      contradiction
  | some b =>
      have hb : b ≠ LF := by
        rintro rfl
        exact hbs (List.mem_of_getLast? hlast)
      rw [hlast, Option.some_or, getlineLoop_endless hb] at hmore
      contradiction

theorem getline_returns_iff {bs : List Byte} {arrivals : List Arrival}
    (harrivals : Delivers arrivals bs) :
    (∃ calls outcome, (getlineLoop calls none []).run ⟨arrivals, .eof⟩ =
      .ok outcome) ↔ LF ∈ bs := by
  constructor
  · rintro ⟨calls, outcome, hreturned⟩
    by_contra hbs
    exact getlineLoop_cut_eof hbs harrivals calls outcome hreturned
  · intro hmem
    obtain ⟨line, rest, rfl, hline⟩ := exists_line hmem
    obtain ⟨second, _, hrun⟩ := getline_first .eof hline harrivals
    exact ⟨_, _, hrun⟩

theorem getline_eof_mem {bs : List Byte} {arrivals : List Arrival}
    {outcome : List Byte × Stream} (harrivals : Delivers arrivals bs)
    (h : getline.run ⟨arrivals, .eof⟩ = .ok outcome) : LF ∈ bs :=
  (getline_returns_iff harrivals).mp ⟨_, outcome, h⟩

/-- A body that is cut short is waited for without end. -/
theorem readBody_cut_eof {sz : ℤ} {bs : List Byte} {arrivals : List Arrival}
    (hcut : (bs.length : ℤ) < sz + 2) (harrivals : Delivers arrivals bs)
    (outcome : Buffer × Stream) :
    (readBody sz).run ⟨arrivals, .eof⟩ ≠ .ok outcome := by
  intro hreturned
  unfold readBody at hreturned
  split at hreturned
  · contradiction
  · rw [if_neg (by omega)] at hreturned
    obtain ⟨buf, after, hbody, _⟩ := run_bind_eq_ok hreturned
    have hlength := harrivals.length_eq
    have hposition : (([] : List Byte).length : ℤ) + (sz + 2) = sz + 2 :=
      zero_add _
    have hcalls : arrivals.length < 2 * arrivals.length + 3 := by omega
    obtain ⟨left, _, hdrain⟩ :=
      bodyLoop_drain .eof hcut hposition harrivals hcalls
    have hrun : (bodyBytes sz).run ⟨arrivals, .eof⟩ = .error .endless := by
      have hendless : (bodyLoop sz left (sz + 2 - bs.length) ([] ++ bs)).run
          ⟨[], .eof⟩ = .error .endless :=
        bodyLoop_endless (by omega) (by omega) left
      exact hdrain.trans hendless
    rw [hrun] at hbody
    contradiction

/-- The body that the header announces, if any, is there with its CRLF. -/
def BodyArrives (header rest : List Byte) : Prop :=
  ∀ size, allocation header = some size →
    2 < size ∧ size ≤ INT_MAX ∧ size ≤ rest.length

theorem bodyArrives_of_returned {header rest : List Byte}
    {arrivals : List Arrival} (harrivals : Delivers arrivals rest)
    (h : ∀ size, allocation header = some size → ∃ s next,
      (readBody (size - 2)).run ⟨arrivals, .eof⟩ = .ok (s, next)) :
    BodyArrives header rest := by
  intro size hsize
  obtain ⟨s, next, hbody⟩ := h size hsize
  obtain ⟨hmax, hlength⟩ := readBody_eq_ok hbody
  have hnonzero : size ≠ 2 := by
    rintro rfl
    unfold allocation at hsize
    split at hsize
    · next hkept =>
        have hzero := Option.some.inj hsize
        omega
    · contradiction
  refine ⟨by omega, by omega, ?_⟩
  by_contra hcut
  exact readBody_cut_eof (by omega) harrivals _ hbody

/-- On finitely many bytes in front of the end of the file `getline` returns
exactly when they contain a line feed, and `read_string` exactly when the body
announced in the first line is there too. -/
theorem loops_return_iff {bs : List Byte} {arrivals : List Arrival}
    (harrivals : Delivers arrivals bs) :
    ((∃ calls outcome, (getlineLoop calls none []).run ⟨arrivals, .eof⟩ =
        .ok outcome) ↔ LF ∈ bs) ∧
      ((∃ outcome, readString.run ⟨arrivals, .eof⟩ = .ok outcome) ↔
        ∃ line rest, bs = line ++ [LF] ++ rest ∧ LF ∉ line ∧
          BodyArrives (line ++ [LF]) rest) := by
  refine ⟨getline_returns_iff harrivals, ?_⟩
  constructor
  · rintro ⟨⟨resp, next⟩, hreturned⟩
    obtain ⟨str, after, hread, _⟩ := readString_cases hreturned
    obtain ⟨line, rest, rfl, hline⟩ :=
      exists_line (getline_eof_mem harrivals hread)
    obtain ⟨second, hsecond, hfirst⟩ := getline_first .eof hline harrivals
    refine ⟨line, rest, rfl, hline, ?_⟩
    apply bodyArrives_of_returned hsecond
    intro size hsize
    rw [readString_of_allocation hfirst hsize] at hreturned
    obtain ⟨s, last, hbody, _⟩ := run_bind_eq_ok hreturned
    exact ⟨s, last, hbody⟩
  · rintro ⟨line, rest, rfl, hline, harrives⟩
    obtain ⟨second, _, hfirst⟩ := getline_first .eof hline harrivals
    cases hsize : allocation (line ++ [LF]) with
    | none => exact ⟨_, readString_of_refused hfirst hsize⟩
    | some size =>
        obtain ⟨hlow, hmax, hrest⟩ := harrives size hsize
        have hn : ((size - 2).toNat : ℤ) + 2 = size := by omega
        rw [← hn] at hsize
        obtain ⟨front, back, rfl, _, hrun⟩ :=
          readString_run_announced ⟨[], .eof⟩ hline hsize (by omega)
            harrivals (by omega)
        simp only [Feed.push, List.append_nil] at hrun
        exact ⟨_, hrun⟩

theorem loops_return_iff_bulk :
    let bs := bytes "$1\r\na\r\n"
    ((∃ calls outcome,
        (getlineLoop calls none []).run ⟨arrivalsOf bs, .eof⟩ =
          .ok outcome) ↔ LF ∈ bs) ∧
      ((∃ outcome, readString.run ⟨arrivalsOf bs, .eof⟩ = .ok outcome) ↔
        ∃ line rest, bs = line ++ [LF] ++ rest ∧ LF ∉ line ∧
          BodyArrives (line ++ [LF]) rest) :=
  loops_return_iff (delivers_arrivalsOf _)

/-- A line cut short by the end of the file is read for ever. -/
theorem getline_cut_eof :
    ¬ ∃ calls outcome,
      (getlineLoop calls none []).run ⟨arrivalsOf (bytes "+O"), .eof⟩ =
        .ok outcome := by
  rintro ⟨calls, outcome, hreturned⟩
  exact getlineLoop_cut_eof (by decide) (delivers_arrivalsOf _) calls outcome
    hreturned

/-! ## Failures -/

theorem getline_cut_failure {bs : List Byte} {arrivals : List Arrival}
    (hbs : LF ∉ bs) (harrivals : Delivers arrivals bs) :
    getline.run ⟨arrivals, .failure⟩ = .ok (bs, ⟨[], .failure⟩) := by
  have hdrain : (getlineLoop (arrivals.length + 1) none []).run
        ⟨arrivals, .failure⟩ =
      (getlineLoop 1 (bs.getLast?.or none) ([] ++ bs)).run ⟨[], .failure⟩ :=
    getlineLoop_drain .failure 1 hbs harrivals
  rw [List.nil_append] at hdrain
  exact hdrain

/-- The readers of one line that make a value of it. -/
def oneLineReaders : List StreamReader :=
  [.readStatusCode, .readInteger, .readIntegerAsBool, .readSingleLine,
    .readTypeReply]

/-- The names of the types, as `read_type_reply` compares them. -/
def typeNames : List Buffer :=
  [bytes "string", bytes "list", bytes "set", bytes "zset", bytes "hash",
    bytes "none"]

namespace StreamReader

/-- Whether the bytes of a line, cut or not, look like a reply. -/
def decodes : StreamReader → List Byte → Bool
  | .readStatusCode, str => str.head? = some (ascii '+')
  | .readSingleLine, str =>
      str.head? = some (ascii '+') &&
        (Buffer.ofCString (str.takeWhile (· ≠ CR)).tail).isSome
  | .readInteger, str => str.head? = some (ascii ':')
  | .readIntegerAsBool, str =>
      str.head? = some (ascii ':') &&
        (atol str.tail = 0 || atol str.tail = 1)
  | .readTypeReply, str =>
      str.head? = some (ascii '+') &&
        (Buffer.ofCString (str.takeWhile (· ≠ CR)).tail).any (· ∈ typeNames)
  | _, _ => false

def Succeeds : StreamReader → Response → Prop
  | .readStatusCode, resp => resp.type = .bool ∧ resp.mBool = true
  | _, resp => resp.type = .long ∨ resp.type = .bool ∨ resp.type = .string

/-- The comparisons of `read_type_reply`. -/
theorem typeReply_response (t : Buffer) :
    ∃ resp, (if t = bytes "string" then
          return (((Response.ofString t).setType .long).setLong
            KeyType.string.code).2
        else if t = bytes "list" then
          return (((Response.ofString t).setType .long).setLong
            KeyType.list.code).2
        else if t = bytes "set" then
          return (((Response.ofString t).setType .long).setLong
            KeyType.set.code).2
        else if t = bytes "zset" then
          return (((Response.ofString t).setType .long).setLong
            KeyType.zset.code).2
        else if t = bytes "hash" then
          return (((Response.ofString t).setType .long).setLong
            KeyType.hash.code).2
        else if t = bytes "none" then
          return (((Response.ofString t).setType .long).setLong
            KeyType.none.code).2
        else return .new .err : Recv Response) = pure resp ∧
      (StreamReader.readTypeReply.Succeeds resp ↔ t ∈ typeNames) := by
  by_cases hname : t ∈ typeNames
  · have hlong : ∀ code : ℤ, StreamReader.readTypeReply.Succeeds
        (((Response.ofString t).setType .long).setLong code).2 :=
      fun code => Or.inl rfl
    simp only [hname, iff_true]
    split_ifs with h1 h2 h3 h4 h5 h6
    · exact ⟨_, rfl, hlong _⟩
    · exact ⟨_, rfl, hlong _⟩
    · exact ⟨_, rfl, hlong _⟩
    · exact ⟨_, rfl, hlong _⟩
    · exact ⟨_, rfl, hlong _⟩
    · exact ⟨_, rfl, hlong _⟩
    · simp [typeNames, h1, h2, h3, h4, h5, h6] at hname
  · have hnone := hname
    simp only [typeNames, List.mem_cons, List.not_mem_nil, or_false,
      not_or] at hnone
    obtain ⟨h1, h2, h3, h4, h5, h6⟩ := hnone
    refine ⟨.new .err, ?_, ?_⟩
    · rw [if_neg h1, if_neg h2, if_neg h3, if_neg h4, if_neg h5, if_neg h6]
    · simp [hname, Succeeds]

/-- A line that decodes makes a success, any other makes none. -/
def Makes (reader : StreamReader) (str : List Byte) (m : Recv Response) :
    Prop :=
  (∃ resp, m = pure resp ∧
      (reader.Succeeds resp ↔ reader.decodes str = true)) ∨
    m = throw .invertedRange ∧ reader.decodes str = false

theorem readSingleLine_makes (str : List Byte) :
    ∃ k, StreamReader.readSingleLine.recv = getline >>= k ∧
      Makes .readSingleLine str (k str) := by
  refine ⟨_, rfl, ?_⟩
  by_cases hplus : str.head? = some (ascii '+')
  · dsimp only
    rw [if_pos hplus]
    cases hcopy : Buffer.ofCString (str.takeWhile (· ≠ CR)).tail with
    | none => exact Or.inr ⟨rfl, by rw [decodes, hcopy]; simp⟩
    | some t =>
        refine Or.inl ⟨.ofString t, rfl, ?_⟩
        rw [decodes, hcopy]
        simp [Succeeds, hplus]
  · refine Or.inl ⟨.new .err, if_neg hplus, ?_⟩
    simp [Succeeds, decodes, hplus]

/-- What a reader of one line makes of a line. -/
theorem oneLine_makes {reader : StreamReader} (h : reader ∈ oneLineReaders)
    (str : List Byte) :
    ∃ k : List Byte → Recv Response, reader.recv = getline >>= k ∧
      reader.Makes str (k str) := by
  cases reader with
  | readStatusCode =>
      refine ⟨_, rfl, Or.inl ?_⟩
      by_cases hplus : str.head? = some (ascii '+')
      · refine ⟨.ofBool true, if_pos hplus, ?_⟩
        simp [Succeeds, decodes, hplus, Response.ofBool, Response.type,
          Response.new]
      · refine ⟨.ofBool false, if_neg hplus, ?_⟩
        simp [Succeeds, decodes, hplus, Response.ofBool]
  | readInteger =>
      refine ⟨_, rfl, Or.inl ?_⟩
      by_cases hcolon : str.head? = some (ascii ':')
      · refine ⟨.ofLong (atol str.tail), if_pos hcolon, ?_⟩
        simp [Succeeds, decodes, hcolon, Response.ofLong, Response.type,
          Response.new]
      · refine ⟨.new .err, if_neg hcolon, ?_⟩
        simp [Succeeds, decodes, hcolon]
  | readIntegerAsBool =>
      refine ⟨_, rfl, Or.inl ?_⟩
      by_cases hcolon : str.head? = some (ascii ':')
      · dsimp only
        rw [if_pos hcolon]
        by_cases hbool : atol str.tail = 0 ∨ atol str.tail = 1
        · refine ⟨.ofBool (atol str.tail = 1), if_pos hbool, ?_⟩
          simp [Succeeds, decodes, hcolon, hbool, Response.ofBool,
            Response.type, Response.new]
        · refine ⟨.new .err, if_neg hbool, ?_⟩
          simp [Succeeds, decodes, hcolon, hbool]
      · refine ⟨.new .err, if_neg hcolon, ?_⟩
        simp [Succeeds, decodes, hcolon]
  | readSingleLine => exact readSingleLine_makes str
  | readTypeReply =>
      refine ⟨_, bind_assoc _ _ _, ?_⟩
      by_cases hplus : str.head? = some (ascii '+')
      · dsimp only
        rw [if_pos hplus]
        cases hcopy : Buffer.ofCString (str.takeWhile (· ≠ CR)).tail with
        | none => exact Or.inr ⟨rfl, by rw [decodes, hcopy]; simp⟩
        | some t =>
            left
            dsimp only
            rw [pure_bind, if_neg (by simp), Response.setBuffer_string]
            obtain ⟨resp, hresp, hsucceeds⟩ := typeReply_response t
            refine ⟨resp, hresp, ?_⟩
            rw [decodes, hcopy, hsucceeds]
            simp [hplus]
      · left
        dsimp only
        rw [if_neg hplus, pure_bind, if_pos (by simp)]
        exact ⟨.new .err, rfl, by simp [Succeeds, decodes, hplus]⟩
  | _ => simp [oneLineReaders] at h

theorem recv_cut_failure {reader : StreamReader}
    (hreader : reader ∈ oneLineReaders) {bs : List Byte}
    {arrivals : List Arrival} (hbs : LF ∉ bs)
    (harrivals : Delivers arrivals bs) :
    (∃ resp, reader.recv.run ⟨arrivals, .failure⟩ =
          .ok (resp, ⟨[], .failure⟩) ∧
        (reader.Succeeds resp ↔ reader.decodes bs = true)) ∨
      reader.recv.run ⟨arrivals, .failure⟩ = .error .invertedRange ∧
        reader.decodes bs = false := by
  obtain ⟨k, hrecv, hmakes⟩ := oneLine_makes hreader bs
  rw [hrecv, run_bind_of_ok (getline_cut_failure hbs harrivals)]
  rcases hmakes with ⟨resp, hresp, hsucceeds⟩ | ⟨hfault, hdecodes⟩
  · rw [hresp]
    exact Or.inl ⟨resp, rfl, hsucceeds⟩
  · rw [hfault]
    exact Or.inr ⟨rfl, hdecodes⟩

/-- A reader of one line succeeds on whole lines only, exactly when what
came in before the failure holds a line feed or does not look like a reply. -/
theorem cut_line_iff {reader : StreamReader}
    (hreader : reader ∈ oneLineReaders) {bs : List Byte}
    {arrivals : List Arrival} (harrivals : Delivers arrivals bs) :
    (∀ resp next, reader.recv.run ⟨arrivals, .failure⟩ = .ok (resp, next) →
        reader.Succeeds resp → LF ∈ bs) ↔
      LF ∈ bs ∨ reader.decodes bs = false := by
  by_cases hbs : LF ∈ bs
  · simp [hbs]
  · rcases recv_cut_failure hreader hbs harrivals with
      ⟨resp, hrun, hsucceeds⟩ | ⟨hfault, hdecodes⟩
    · constructor
      · intro hwhole
        right
        rw [← Bool.not_eq_true, ← hsucceeds]
        intro hsuccess
        exact hbs (hwhole resp _ hrun hsuccess)
      · rintro (hmem | hdecodes) other next hother hsuccess
        · exact hmem
        · rw [← (run_unique hrun hother).1, hsucceeds, hdecodes] at hsuccess
          contradiction
    · refine iff_of_true ?_ (Or.inr hdecodes)
      intro resp next hrun
      rw [hfault] at hrun
      contradiction

theorem cut_line_iff_minus :
    let bs := bytes "-ER"
    (∀ resp next, readInteger.recv.run ⟨arrivalsOf bs, .failure⟩ =
        .ok (resp, next) → readInteger.Succeeds resp → LF ∈ bs) ↔
      LF ∈ bs ∨ readInteger.decodes bs = false :=
  cut_line_iff (by simp [oneLineReaders]) (delivers_arrivalsOf _)

/-- A number cut between its digits is another number. -/
theorem cut_line_integer :
    ∃ resp next, readInteger.recv.run ⟨arrivalsOf (bytes ":12"), .failure⟩ =
        .ok (resp, next) ∧
      readInteger.Succeeds resp ∧ resp = .ofLong 12 ∧ LF ∉ bytes ":12" := by
  refine ⟨.ofLong 12, ⟨[], .failure⟩, by decide +kernel, ?_, rfl, by decide⟩
  exact Or.inl rfl

end StreamReader

end Redispp
