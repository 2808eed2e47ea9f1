import Redispp.Readers
import Redispp.Runs

/-!
# The loop of INFO

The loop of `read_info_reply` cuts the payload at every CR, skips one byte
behind it and stores what stands around the first colon of a piece.  Its turns
are described as runs labelled with the call of `substr` that cuts a piece off.
The cursor does not look at the byte it skips, so it may end one past the
string; `find` reports nothing there, and no further call is made.
-/

namespace Redispp

open StateExcept Runs

abbrev COLON : Byte := ascii ':'

/-! ## Pieces -/

/-- What stands in front of each CR, with one byte skipped behind it. -/
def piecesFrom : List Byte → List Byte → List (List Byte)
  | _, [] => []
  | text, [b] => if b = CR then [text] else []
  | text, b :: c :: rest =>
      if b = CR then text :: piecesFrom [] rest
      else piecesFrom (text ++ [b]) (c :: rest)

def pieces (s : List Byte) : List (List Byte) :=
  piecesFrom [] s

/-- The two sides of the first colon. -/
def cutAtColon (text : List Byte) : Option (List Byte × List Byte) :=
  if COLON ∈ text then
    some (text.takeWhile (· ≠ COLON), (text.dropWhile (· ≠ COLON)).tail)
  else none

def storeText (ret : Response) (text : List Byte) : Response :=
  match cutAtColon text with
  | none => ret
  | some (key, val) => (ret.addStdStrings key val).2

theorem piecesFrom_of_not_mem {text s : List Byte} (h : CR ∉ s) :
    piecesFrom text s = [] := by
  fun_induction piecesFrom text s with
  | case1 => rfl
  | case2 text => simp at h
  | case3 => rfl
  | case4 text c rest ih => simp at h
  | case5 text b c rest hb ih => exact ih (List.not_mem_of_not_mem_cons h)

theorem piecesFrom_line (text : List Byte) {line : List Byte}
    (rest : List Byte) (h : CR ∉ line) :
    piecesFrom text (line ++ CR :: rest) =
      (text ++ line) :: piecesFrom [] (rest.drop 1) := by
  induction line generalizing text with
  | nil => cases rest <;> simp [piecesFrom]
  | cons b line ih =>
      simp only [List.mem_cons, not_or] at h
      have hb : b ≠ CR := fun hsame => h.1 hsame.symm
      have hstep : piecesFrom text (b :: line ++ CR :: rest) =
          piecesFrom (text ++ [b]) (line ++ CR :: rest) := by
        cases line <;> simp [piecesFrom, hb]
      rw [hstep, ih _ h.2, List.append_assoc, List.singleton_append]

theorem pieces_of_not_mem {s : List Byte} (h : CR ∉ s) : pieces s = [] :=
  piecesFrom_of_not_mem h

theorem pieces_line {line : List Byte} (rest : List Byte) (h : CR ∉ line) :
    pieces (line ++ CR :: rest) = line :: pieces (rest.drop 1) :=
  piecesFrom_line [] rest h

theorem cutAtColon_append {key val : List Byte} (h : COLON ∉ key) :
    cutAtColon (key ++ COLON :: val) = some (key, val) := by
  have hall := decide_ne_of_not_mem h
  unfold cutAtColon
  rw [if_pos (by simp), List.takeWhile_append_of_pos hall,
    List.dropWhile_append_of_pos hall]
  simp

/-! ## `find` and `substr` -/

theorem findIdx?_eq_none_iff_not_mem {s : List Byte} {c : Byte} :
    s.findIdx? (· = c) = none ↔ c ∉ s := by
  rw [List.findIdx?_eq_none_iff]
  simp only [decide_eq_false_iff_not]
  constructor
  · intro h hmem
    exact h c hmem rfl
  · rintro h other hmem rfl
    exact h hmem

theorem findFrom_eq_none_iff {s : List Byte} {c : Byte} {pos : ℕ} :
    findFrom s c pos = none ↔ c ∉ s.drop pos := by
  unfold findFrom
  rw [Option.map_eq_none_iff, findIdx?_eq_none_iff_not_mem]

theorem findFrom_append_cons {s front back : List Byte} {c : Byte} {pos : ℕ}
    (hs : s.drop pos = front ++ c :: back) (hfront : c ∉ front) :
    findFrom s c pos = some (pos + front.length) := by
  have hnone := findIdx?_eq_none_iff_not_mem.mpr hfront
  unfold findFrom
  simp [hs, List.findIdx?_append, hnone, List.findIdx?_cons]

theorem findFrom_eq_some {s : List Byte} {c : Byte} {pos found : ℕ}
    (h : findFrom s c pos = some found) :
    ∃ front back, s.drop pos = front ++ c :: back ∧ c ∉ front ∧
      found = pos + front.length := by
  have hmem : c ∈ s.drop pos := by
    by_contra hnone
    rw [findFrom_eq_none_iff.mpr hnone] at h
    contradiction
  obtain ⟨front, back, hs, hfront⟩ := List.eq_append_cons_of_mem hmem
  rw [findFrom_append_cons hs hfront] at h
  exact ⟨front, back, hs, hfront, (Option.some.inj h).symm⟩

/-- A call that asks for what stands between two positions. -/
structure SubstrCall where
  text : List Byte
  start : ℕ
  stop : ℕ
  deriving DecidableEq, Repr

namespace SubstrCall

def run (call : SubstrCall) : Recv (List Byte) :=
  substr call.text call.start (call.stop - call.start)

def taken (call : SubstrCall) : List Byte :=
  (call.text.drop call.start).take (call.stop - call.start)

def InRange (call : SubstrCall) : Prop :=
  call.start ≤ call.stop ∧ call.stop ≤ call.text.length

theorem run_eq {call : SubstrCall} (h : call.InRange) :
    call.run = pure call.taken := by
  unfold run substr
  rw [if_neg (not_lt.mpr (h.1.trans h.2))]
  rfl

theorem mapM_run {calls : List SubstrCall}
    (h : ∀ call ∈ calls, call.InRange) :
    calls.mapM run = pure (calls.map taken) := by
  induction calls with
  | nil => rfl
  | cons call calls ih =>
      rw [List.mapM_cons, run_eq (h call List.mem_cons_self), pure_bind,
        ih fun other hmem => h other (List.mem_cons_of_mem _ hmem), pure_bind]
      rfl

end SubstrCall

/-- The calls for the texts around the first colon. -/
def colonCalls (line : List Byte) : List SubstrCall :=
  match findFrom line COLON 0 with
  | none => []
  | some colonPos =>
      [⟨line, 0, colonPos⟩, ⟨line, colonPos + 1, line.length⟩]

theorem colonCalls_cases (line : List Byte) :
    (COLON ∉ line ∧ colonCalls line = []) ∨
      ∃ key val, COLON ∉ key ∧ line = key ++ COLON :: val ∧
        colonCalls line =
          [⟨line, 0, key.length⟩, ⟨line, key.length + 1, line.length⟩] := by
  unfold colonCalls
  cases hfind : findFrom line COLON 0 with
  | none => exact .inl ⟨findFrom_eq_none_iff.mp hfind, rfl⟩
  | some colonPos =>
      obtain ⟨key, val, hline, hkey, rfl⟩ := findFrom_eq_some hfind
      refine .inr ⟨key, val, hkey, hline, ?_⟩
      rw [Nat.zero_add]

theorem colonCalls_inRange (line : List Byte) :
    ∀ call ∈ colonCalls line, call.InRange := by
  intro call hcall
  rcases colonCalls_cases line with ⟨_, hnone⟩ | ⟨key, val, _, rfl, hcalls⟩
  · rw [hnone] at hcall
    contradiction
  · rw [hcalls] at hcall
    simp only [List.mem_cons, List.not_mem_nil, or_false] at hcall
    rcases hcall with rfl | rfl <;> simp [SubstrCall.InRange]

/-- Stores what the calls around the colon took. -/
def storeTaken (ret : Response) : List (List Byte) → Response
  | [key, val] => (ret.addStdStrings key val).2
  | _ => ret

theorem storeTaken_colonCalls (ret : Response) (line : List Byte) :
    storeTaken ret ((colonCalls line).map SubstrCall.taken) =
      storeText ret line := by
  unfold storeText
  rcases colonCalls_cases line with
    ⟨hcolon, hcalls⟩ | ⟨key, val, hkey, rfl, hcalls⟩
  · rw [hcalls, cutAtColon, if_neg hcolon]
    rfl
  · have hdrop : (key ++ COLON :: val).drop (key.length + 1) = val := by simp
    have hlength : val.length ≤
        (key ++ COLON :: val).length - (key.length + 1) := by
      rw [List.length_append, List.length_cons]
      omega
    have hval : SubstrCall.taken ⟨key ++ COLON :: val, key.length + 1,
        (key ++ COLON :: val).length⟩ = val := by
      rw [SubstrCall.taken, hdrop, List.take_of_length_le hlength]
    rw [hcalls, cutAtColon_append hkey, List.map_cons, List.map_singleton, hval]
    simp [SubstrCall.taken, storeTaken]

/-! ## Turns -/

/-- `pos` and `old_pos`. -/
structure InfoCursor where
  pos : ℕ
  oldPos : ℕ
  deriving DecidableEq, Repr

/-- The call that cuts the next piece off, and the cursor behind it. -/
def infoTurn (s : List Byte) (cursor : InfoCursor) :
    Option (SubstrCall × InfoCursor) :=
  (findFrom s CR cursor.pos).map fun pos =>
    (⟨s, cursor.oldPos, pos⟩, ⟨pos + 2, pos + 2⟩)

def InfoTurn (s : List Byte) (before : InfoCursor) (cut : SubstrCall)
    (after : InfoCursor) : Prop :=
  infoTurn s before = some (cut, after)

/-- All the calls of a turn, in order. -/
def SubstrCall.turn (cut : SubstrCall) : List SubstrCall :=
  cut :: colonCalls cut.taken

def SubstrCall.perform (cut : SubstrCall) (ret : Response) :
    Recv Response := do
  let line ← cut.run
  let texts ← (colonCalls line).mapM SubstrCall.run
  return storeTaken ret texts

theorem substr_behind (line : List Byte) (pos : ℕ) :
    substr line pos line.length = SubstrCall.run ⟨line, pos, line.length⟩ := by
  unfold SubstrCall.run substr
  split
  · rfl
  · rw [List.take_of_length_le (by simp), List.take_of_length_le (by simp)]

/-- The calls of the loop are those of its turns. -/
theorem infoLoop_succ (s : List Byte) (turns : ℕ) (cursor : InfoCursor)
    (ret : Response) :
    infoLoop s (turns + 1) cursor.pos cursor.oldPos ret =
      match infoTurn s cursor with
      | none => pure ret
      | some (cut, next) =>
          cut.perform ret >>= infoLoop s turns next.pos next.oldPos := by
  rw [infoLoop]
  unfold infoTurn
  cases findFrom s CR cursor.pos with
  | none => rfl
  | some pos =>
      simp only [Option.map_some, SubstrCall.perform, bind_assoc]
      apply bind_congr
      intro line
      unfold colonCalls
      cases findFrom line COLON 0 with
      | none => rfl
      | some colonPos =>
          simp only [List.mapM_cons, List.mapM_nil, bind_assoc, pure_bind,
            substr_behind]
          rfl

theorem SubstrCall.perform_eq {cut : SubstrCall} (ret : Response)
    (h : cut.InRange) : cut.perform ret = pure (storeText ret cut.taken) := by
  unfold perform
  rw [run_eq h, pure_bind, mapM_run (colonCalls_inRange _), pure_bind,
    storeTaken_colonCalls]

/-- What a turn finds ahead of a cursor whose two positions agree. -/
theorem InfoTurn.split {s : List Byte} {before after : InfoCursor}
    {cut : SubstrCall} (h : InfoTurn s before cut after)
    (hsync : before.oldPos = before.pos) :
    ∃ line rest, s.drop before.pos = line ++ CR :: rest ∧ CR ∉ line ∧
      cut = ⟨s, before.pos, before.pos + line.length⟩ ∧ cut.taken = line ∧
      after.pos = before.pos + line.length + 2 ∧ after.oldPos = after.pos := by
  unfold InfoTurn infoTurn at h
  obtain ⟨pos, hfind, hturn⟩ := Option.map_eq_some_iff.mp h
  obtain ⟨line, rest, hs, hline, rfl⟩ := findFrom_eq_some hfind
  obtain ⟨rfl, rfl⟩ := Prod.mk.inj hturn
  refine ⟨line, rest, hs, hline, by rw [hsync], ?_, rfl, rfl⟩
  rw [SubstrCall.taken, hsync, hs, Nat.add_sub_cancel_left, List.take_left]

/-- What holds between the turns. -/
structure InfoInvariant (s : List Byte) (cuts : List SubstrCall)
    (cursor : InfoCursor) : Prop where
  sync : cursor.oldPos = cursor.pos
  bound : cursor.pos ≤ s.length + 1
  count : 2 * cuts.length ≤ cursor.pos
  inRange : ∀ call ∈ cuts.flatMap SubstrCall.turn, call.InRange
  taken : cuts.map SubstrCall.taken ++ pieces (s.drop cursor.pos) = pieces s

theorem InfoInvariant.initial (s : List Byte) :
    InfoInvariant s [] ⟨0, 0⟩ := by
  constructor <;> simp

theorem InfoInvariant.afterTurn {s : List Byte} {cuts : List SubstrCall}
    {before after : InfoCursor} {cut : SubstrCall}
    (hgood : InfoInvariant s cuts before) (hturn : InfoTurn s before cut after) :
    InfoInvariant s (cuts ++ [cut]) after := by
  obtain ⟨line, rest, hs, hline, hcut, htaken, hpos, hsync⟩ :=
    hturn.split hgood.sync
  have hlength : before.pos + line.length + 1 ≤ s.length := by
    have hdrop := congrArg List.length hs
    simp only [List.length_drop, List.length_append,
      List.length_cons] at hdrop
    omega
  have hnext : s.drop after.pos = rest.drop 1 := by
    rw [hpos, Nat.add_assoc, ← List.drop_drop, hs, List.drop_append,
      List.drop_eq_nil_of_le (by omega)]
    simp
  constructor
  · exact hsync
  · rw [hpos]
    omega
  · have hcount := hgood.count
    rw [List.length_append, List.length_singleton, hpos]
    omega
  · intro call hcall
    rw [List.flatMap_append, List.flatMap_singleton] at hcall
    rcases List.mem_append.mp hcall with hpast | hlast
    · exact hgood.inRange call hpast
    · rcases List.mem_cons.mp hlast with rfl | hcolon
      · rw [hcut]
        exact ⟨Nat.le_add_right _ _, by simp only; omega⟩
      · exact colonCalls_inRange _ call hcolon
  · rw [hnext, ← hgood.taken, hs, pieces_line rest hline, List.map_append,
      List.append_assoc, List.map_singleton, htaken, List.singleton_append]

theorem infoInvariant_of_run {s : List Byte} {cuts : List SubstrCall}
    {last : InfoCursor} (h : Run (InfoTurn s) ⟨0, 0⟩ cuts last) :
    InfoInvariant s cuts last :=
  h.history_invariant (InfoInvariant s) (.initial s)
    fun _ _ _ _ hgood hturn => hgood.afterTurn hturn

theorem InfoInvariant.taken_of_end {s : List Byte} {cuts : List SubstrCall}
    {last : InfoCursor} (hgood : InfoInvariant s cuts last)
    (hend : infoTurn s last = none) :
    cuts.map SubstrCall.taken = pieces s := by
  have hnone : CR ∉ s.drop last.pos :=
    findFrom_eq_none_iff.mp (Option.map_eq_none_iff.mp hend)
  rw [← hgood.taken, pieces_of_not_mem hnone, List.append_nil]

/-- Each turn moves the cursor on, so the turns come to an end. -/
theorem exists_run_to_end (s : List Byte) (ahead : ℕ) (cursor : InfoCursor)
    (h : s.length < cursor.pos + ahead) :
    ∃ cuts last, Run (InfoTurn s) cursor cuts last ∧
      infoTurn s last = none := by
  induction ahead generalizing cursor with
  | zero =>
      have hnone : findFrom s CR cursor.pos = none := by
        rw [findFrom_eq_none_iff, List.drop_eq_nil_of_le (by omega)]
        simp
      refine ⟨[], cursor, .nil, ?_⟩
      rw [infoTurn, hnone, Option.map_none]
  | succ ahead ih =>
      cases hturn : infoTurn s cursor with
      | none => exact ⟨[], cursor, .nil, hturn⟩
      | some result =>
          obtain ⟨cut, next⟩ := result
          obtain ⟨pos, hfind, hresult⟩ := Option.map_eq_some_iff.mp hturn
          obtain ⟨front, back, _, _, rfl⟩ := findFrom_eq_some hfind
          obtain ⟨_, rfl⟩ := Prod.mk.inj hresult
          have hnext : s.length < cursor.pos + front.length + 2 + ahead := by
            omega
          obtain ⟨cuts, last, hrun, hend⟩ := ih ⟨_, _⟩ hnext
          exact ⟨cut :: cuts, last, .cons hturn hrun, hend⟩

/-- The loop is its turns as long as the calls stay in range. -/
theorem infoLoop_of_run {s : List Byte} {start last : InfoCursor}
    {cuts : List SubstrCall} (ret : Response) (turns : ℕ)
    (h : Run (InfoTurn s) start cuts last)
    (hrange : ∀ cut ∈ cuts, cut.InRange) :
    infoLoop s (turns + cuts.length) start.pos start.oldPos ret =
      infoLoop s turns last.pos last.oldPos
        ((cuts.map SubstrCall.taken).foldl storeText ret) := by
  induction h generalizing turns with
  | nil => rfl
  | @snoc mid last cuts cut hrun hturn ih =>
      have hpast : ∀ other ∈ cuts, other.InRange := by
        intro other hmem
        exact hrange other (List.mem_append_left _ hmem)
      have hlast : cut.InRange := hrange cut (by simp)
      have hturns : turns + (cuts ++ [cut]).length =
          turns + 1 + cuts.length := by
        rw [List.length_append, List.length_singleton]
        omega
      rw [hturns, ih _ hpast, infoLoop_succ, hturn, List.map_append,
        List.foldl_append]
      dsimp only
      rw [cut.perform_eq _ hlast, pure_bind]
      rfl

theorem infoLoop_of_end {s : List Byte} {last : InfoCursor} (turns : ℕ)
    (ret : Response) (hend : infoTurn s last = none) :
    infoLoop s (turns + 1) last.pos last.oldPos ret = pure ret := by
  rw [infoLoop_succ, hend]

/-- With more turns than the string needs, the loop stores every piece. -/
theorem infoLoop_of_complete {s : List Byte} {cuts : List SubstrCall}
    {last : InfoCursor} (ret : Response) {turns : ℕ}
    (h : Run (InfoTurn s) ⟨0, 0⟩ cuts last) (hend : infoTurn s last = none)
    (hturns : cuts.length < turns) :
    infoLoop s turns 0 0 ret = pure ((pieces s).foldl storeText ret) := by
  have hgood := infoInvariant_of_run h
  have hrange : ∀ cut ∈ cuts, cut.InRange := by
    intro cut hcut
    exact hgood.inRange cut
      (List.mem_flatMap.mpr ⟨cut, hcut, List.mem_cons_self⟩)
  obtain ⟨left, rfl⟩ := Nat.exists_eq_add_of_lt hturns
  have hrun := infoLoop_of_run ret (left + 1) h hrange
  rw [infoLoop_of_end _ _ hend, hgood.taken_of_end hend] at hrun
  rw [← hrun]
  congr 1
  omega

theorem readInfoReply_of_string {stream next : Stream} {s : Buffer}
    (h : readString.run stream = .ok (.ofString s, next)) :
    readInfoReply.run stream = .ok ((pieces s).foldl storeText
      ((Response.ofString s).setType .infoMap), next) := by
  obtain ⟨cuts, last, hrun, hend⟩ :=
    exists_run_to_end s (s.length + 1) ⟨0, 0⟩ (by simp)
  have hcount := (infoInvariant_of_run hrun).count
  have hbound := (infoInvariant_of_run hrun).bound
  unfold readInfoReply
  rw [run_bind_of_ok h, if_neg (by simp)]
  dsimp only
  have hmStr : (Response.ofString s).mStr = s := rfl
  rw [hmStr, infoLoop_of_complete _ hrun hend (by omega)]
  rfl

/-- On any payload the loop comes to its end, asks `substr` for ranges inside
the string only, and takes the pieces in order. -/
theorem infoLoop_safe (s : Buffer) :
    (∀ cuts last, Run (InfoTurn s) ⟨0, 0⟩ cuts last →
        2 * cuts.length ≤ s.length + 1 ∧
        (∀ call ∈ cuts.flatMap SubstrCall.turn, call.InRange) ∧
        (infoTurn s last = none → cuts.map SubstrCall.taken = pieces s)) ∧
      ∃ cuts last, Run (InfoTurn s) ⟨0, 0⟩ cuts last ∧
        infoTurn s last = none ∧
        (∀ ret turns, cuts.length < turns → infoLoop s turns 0 0 ret =
          pure ((cuts.map SubstrCall.taken).foldl storeText ret)) ∧
        ∀ stream next, readString.run stream = .ok (.ofString s, next) →
          readInfoReply.run stream = .ok
            ((cuts.map SubstrCall.taken).foldl storeText
              ((Response.ofString s).setType .infoMap), next) := by
  constructor
  · intro cuts last hrun
    have hgood := infoInvariant_of_run hrun
    refine ⟨hgood.count.trans hgood.bound, hgood.inRange, ?_⟩
    exact hgood.taken_of_end
  · obtain ⟨cuts, last, hrun, hend⟩ :=
      exists_run_to_end s (s.length + 1) ⟨0, 0⟩ (by simp)
    refine ⟨cuts, last, hrun, hend, ?_, ?_⟩
    · intro ret turns hturns
      rw [(infoInvariant_of_run hrun).taken_of_end hend]
      exact infoLoop_of_complete ret hrun hend hturns
    · intro stream next hread
      rw [(infoInvariant_of_run hrun).taken_of_end hend]
      exact readInfoReply_of_string hread

example : pieces (bytes "\r\ra:1\r") = [[], bytes "a:1"] := by decide

end Redispp
