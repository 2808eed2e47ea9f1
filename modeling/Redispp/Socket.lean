import Redispp.Feed
import Redispp.Response

/-!
# The receiving side of the socket

The server's bytes arrive in pieces.  One `read` call takes the next bytes up
to the number requested, up to the end of a piece, and before a failure or an
end of file.  The two loops of the client that call `read`, `getline` and the
body loop of `read_string`, are modelled call by call; the bound on the number
of calls given to them is shown to make no difference.
-/

namespace Redispp

open StateExcept CLibrary

inductive Fault
  | blocked
  | endless
  | indeterminate
  | outOfBounds
  | signedOverflow
  | badArrayLength
  | invertedRange
  | outOfRange
  deriving DecidableEq, Repr

/-- What is in store for the next `read` calls.  A byte marked `last` ends a
piece: the call that takes it returns. -/
inductive Arrival
  | byte (b : Byte) (last : Bool)
  | eof
  | failure
  deriving DecidableEq, Repr

/-- What `read` does once nothing is left: it waits, or it keeps returning 0
or -1. -/
inductive Closing
  | silent
  | eof
  | failure
  deriving DecidableEq, Repr

abbrev Stream := Feed Arrival Closing
abbrev Recv (α : Type) := Feed.Receiver Arrival Closing Fault α

def Arrival.carry : Arrival → Option Byte
  | .byte b _ => some b
  | .eof => none
  | .failure => none

abbrev Delivers (arrivals : List Arrival) (bs : List Byte) : Prop :=
  Feed.Carries Arrival.carry arrivals bs

abbrev Reads {α : Type} (m : Recv α) (bs : List Byte) (a : α) : Prop :=
  Feed.Reads Arrival.carry m bs a

def arrivalsOf (bs : List Byte) : List Arrival :=
  bs.map fun b => .byte b false

def streamOf (bs : List Byte) : Stream where
  pending := arrivalsOf bs
  ending := .silent

theorem delivers_arrivalsOf (bs : List Byte) : Delivers (arrivalsOf bs) bs := by
  unfold Delivers Feed.Carries arrivalsOf
  rw [List.map_map]
  rfl

theorem streamOf_append (front back : List Byte) :
    streamOf (front ++ back) = (streamOf back).push (arrivalsOf front) := by
  simp [streamOf, arrivalsOf, Feed.push]

theorem delivers_cons_iff {arrivals : List Arrival} {b : Byte}
    {bs : List Byte} :
    Delivers arrivals (b :: bs) ↔
      ∃ last rest, arrivals = .byte b last :: rest ∧ Delivers rest bs := by
  unfold Delivers
  rw [Feed.carries_cons_iff]
  constructor
  · rintro ⟨arrival, rest, rfl, hb, hrest⟩
    cases arrival with
    | byte c last =>
        simp only [Arrival.carry, Option.some.injEq] at hb
        subst hb
        exact ⟨last, rest, rfl, hrest⟩
    | eof => simp [Arrival.carry] at hb
    | failure => simp [Arrival.carry] at hb
  · rintro ⟨last, rest, rfl, hrest⟩
    exact ⟨.byte b last, rest, rfl, rfl, hrest⟩

/-! ## `read` -/

/-- `-1`, or the bytes stored in the caller's buffer (none for 0). -/
inductive ReadResult
  | failure
  | got (bs : List Byte)
  deriving DecidableEq, Repr

def chunk : ℕ → List Arrival → List Byte × List Arrival
  | 0, arrivals => ([], arrivals)
  | n + 1, .byte b last :: rest =>
      if last then ([b], rest)
      else
        let (bs, rest') := chunk n rest
        (b :: bs, rest')
  | _ + 1, arrivals => ([], arrivals)

def read (n : ℕ) : Recv ReadResult := fun stream =>
  match stream.pending with
  | [] =>
      match stream.ending with
      | .silent => .error .blocked
      | .eof => .ok (.got [], stream)
      | .failure => .ok (.failure, stream)
  | .eof :: rest => .ok (.got [], { stream with pending := rest })
  | .failure :: rest => .ok (.failure, { stream with pending := rest })
  | .byte b last :: rest =>
      let (bs, rest') := chunk n (.byte b last :: rest)
      .ok (.got bs, { stream with pending := rest' })

theorem run_read_byte (n : ℕ) (b : Byte) (last : Bool)
    (rest : List Arrival) (ending : Closing) :
    (read n).run ⟨.byte b last :: rest, ending⟩ =
      .ok (.got (chunk n (.byte b last :: rest)).1,
        ⟨(chunk n (.byte b last :: rest)).2, ending⟩) := rfl

theorem chunk_of_delivers {n : ℕ} {arrivals rest : List Arrival}
    {bs : List Byte} (h : Delivers arrivals bs) (hpos : 0 < n)
    (hbs : bs ≠ []) (hlen : n ≤ arrivals.length ∨ rest = []) :
    ∃ first second taken back, arrivals = first ++ second ∧
      bs = taken ++ back ∧ Delivers first taken ∧ Delivers second back ∧
      0 < taken.length ∧ taken.length ≤ n ∧
      chunk n (arrivals ++ rest) = (taken, second ++ rest) := by
  induction n generalizing arrivals bs with
  | zero => omega
  | succ n ih =>
      cases bs with
      | nil => exact absurd rfl hbs
      | cons b bs =>
          obtain ⟨last, tail, rfl, htail⟩ := delivers_cons_iff.mp h
          have hsingle : Delivers [Arrival.byte b last] [b] := by
            simp [Delivers, Feed.Carries, Arrival.carry]
          by_cases hstop : last = true ∨ n = 0 ∨ tail ++ rest = []
          · refine ⟨[.byte b last], tail, [b], bs, rfl, rfl, hsingle,
              htail, by simp, by simp, ?_⟩
            rcases hstop with hlast | hzero | hempty
            · simp [chunk, hlast]
            · subst hzero
              cases last <;> simp [chunk]
            · simp only [List.cons_append, hempty]
              cases last <;> cases n <;> simp [chunk]
          · simp only [not_or, Bool.not_eq_true] at hstop
            obtain ⟨rfl, hn, hmore⟩ := hstop
            have hbs' : bs ≠ [] := by
              rintro rfl
              rw [Feed.carries_nil_iff.mp htail] at hlen hmore
              simp only [List.length_cons, List.length_nil] at hlen
              rcases hlen with hle | hrest
              · omega
              · exact hmore hrest
            have hlen' : n ≤ tail.length ∨ rest = [] := by
              simpa using hlen
            obtain ⟨first, second, taken, back, rfl, rfl, hfirst, hsecond,
                _, hle, hchunk⟩ := ih htail (by omega) hbs' hlen'
            refine ⟨.byte b false :: first, second, b :: taken, back, rfl,
              rfl, hsingle.append hfirst, hsecond, by simp,
              by simp only [List.length_cons]; omega, ?_⟩
            simp only [List.cons_append, chunk, Bool.false_eq_true,
              if_false, hchunk]

theorem read_of_delivers {n : ℕ} {arrivals : List Arrival} (stream : Stream)
    {bs : List Byte} (h : Delivers arrivals bs) (hpos : 0 < n)
    (hbs : bs ≠ []) (hlen : n ≤ arrivals.length ∨ stream.pending = []) :
    ∃ first second taken back, arrivals = first ++ second ∧
      bs = taken ++ back ∧ Delivers first taken ∧ Delivers second back ∧
      0 < taken.length ∧ taken.length ≤ n ∧
      (read n).run (stream.push arrivals) =
        .ok (.got taken, stream.push second) := by
  obtain ⟨first, second, taken, back, rfl, rfl, hfirst, hsecond, htaken,
    hle, hchunk⟩ := chunk_of_delivers h hpos hbs hlen
  refine ⟨first, second, taken, back, rfl, rfl, hfirst, hsecond, htaken,
    hle, ?_⟩
  cases taken with
  | nil => simp at htaken
  | cons b taken =>
      obtain ⟨last, tail, rfl, _⟩ := delivers_cons_iff.mp hfirst
      have hrun := run_read_byte n b last
        (tail ++ second ++ stream.pending) stream.ending
      simp only [List.cons_append] at hchunk
      rw [hchunk] at hrun
      exact hrun

theorem chunk_length (n : ℕ) (arrivals : List Arrival) :
    (chunk n arrivals).1.length + (chunk n arrivals).2.length =
      arrivals.length := by
  fun_induction chunk n arrivals with
  | case1 => simp
  | case2 n b rest =>
      simp only [List.length_cons, List.length_nil]
      omega
  | case3 n b last rest hlast bs rest' hchunk ih =>
      simp only [hchunk, List.length_cons] at ih ⊢
      omega
  | case4 => simp

theorem chunk_le (n : ℕ) (arrivals : List Arrival) :
    (chunk n arrivals).1.length ≤ n := by
  fun_induction chunk n arrivals with
  | case1 => simp
  | case2 n b rest => simp
  | case3 n b last rest hlast bs rest' hchunk ih =>
      simp only [hchunk, List.length_cons] at ih ⊢
      omega
  | case4 => simp

theorem read_cases {n : ℕ} {stream next : Stream} {result : ReadResult}
    (hpos : 0 < n) (hrun : (read n).run stream = .ok (result, next)) :
    (∃ bs, result = .got bs ∧ bs ≠ [] ∧ bs.length ≤ n ∧
        next.pending.length + bs.length = stream.pending.length) ∨
      ((result = .got [] ∨ result = .failure) ∧
        next.pending.length < stream.pending.length) ∨
      (stream.pending = [] ∧ next = stream ∧
        (stream.ending = .eof ∧ result = .got [] ∨
          stream.ending = .failure ∧ result = .failure)) := by
  obtain ⟨arrivals, ending⟩ := stream
  cases arrivals with
  | nil =>
      right; right
      cases ending with
      | silent => exact absurd hrun (by simp [read, StateT.run])
      | eof =>
          simp only [StateT.run, read, Except.ok.injEq, Prod.mk.injEq] at hrun
          exact ⟨rfl, hrun.2.symm, Or.inl ⟨rfl, hrun.1.symm⟩⟩
      | failure =>
          simp only [StateT.run, read, Except.ok.injEq, Prod.mk.injEq] at hrun
          exact ⟨rfl, hrun.2.symm, Or.inr ⟨rfl, hrun.1.symm⟩⟩
  | cons arrival rest =>
      cases arrival with
      | eof =>
          simp only [StateT.run, read, Except.ok.injEq, Prod.mk.injEq] at hrun
          obtain ⟨rfl, rfl⟩ := hrun
          exact Or.inr (Or.inl ⟨Or.inl rfl, by simp⟩)
      | failure =>
          simp only [StateT.run, read, Except.ok.injEq, Prod.mk.injEq] at hrun
          obtain ⟨rfl, rfl⟩ := hrun
          exact Or.inr (Or.inl ⟨Or.inr rfl, by simp⟩)
      | byte b last =>
          rw [run_read_byte] at hrun
          simp only [Except.ok.injEq, Prod.mk.injEq] at hrun
          obtain ⟨rfl, rfl⟩ := hrun
          have hlength := chunk_length n (.byte b last :: rest)
          refine Or.inl ⟨_, rfl, ?_, chunk_le n _, by simp only; omega⟩
          obtain ⟨n, rfl⟩ := Nat.exists_eq_add_of_le' hpos
          cases last <;> simp [chunk]

theorem read_error {n : ℕ} {stream : Stream} {e : Fault}
    (h : (read n).run stream = .error e) : e = .blocked := by
  obtain ⟨arrivals, ending⟩ := stream
  cases arrivals with
  | nil =>
      cases ending with
      | silent => exact (Except.error.inj h).symm
      | eof => contradiction
      | failure => contradiction
  | cons arrival rest => cases arrival <;> contradiction

/-! ## `getline` -/

/-- The loop of `getline`: `c` is the character variable, without a value
until a call has stored one, and keeps its value when a call stores nothing. -/
def getlineLoop : ℕ → Option Byte → List Byte → Recv (List Byte)
  | 0, _, _ => throw .endless
  | calls + 1, c, ret => do
      match ← read 1 with
      | .failure => return ret
      | .got bs =>
          match bs.head?.or c with
          | none => throw .indeterminate
          | some c =>
              if c = LF then return ret ++ [c]
              else getlineLoop calls (some c) (ret ++ [c])

/-- Each call takes an arrival until none is left. -/
def getline : Recv (List Byte) := fun stream =>
  (getlineLoop (stream.pending.length + 1) none []).run stream

theorem run_read_one (b : Byte) (last : Bool) (rest : List Arrival)
    (stream : Stream) :
    (read 1).run (stream.push (.byte b last :: rest)) =
      .ok (.got [b], stream.push rest) := by
  cases last <;> rfl

theorem getlineLoop_reads {line : List Byte} (ret : List Byte)
    {c : Option Byte} {arrivals : List Arrival} (stream : Stream) {calls : ℕ}
    (hline : LF ∉ line) (harrivals : Delivers arrivals (line ++ [LF]))
    (hcalls : arrivals.length ≤ calls) :
    (getlineLoop calls c ret).run (stream.push arrivals) =
      .ok (ret ++ line ++ [LF], stream) := by
  induction line generalizing calls c ret arrivals with
  | nil =>
      obtain ⟨last, tail, rfl, htail⟩ := delivers_cons_iff.mp harrivals
      rw [Feed.carries_nil_iff.mp htail] at hcalls ⊢
      cases calls with
      | zero => simp at hcalls
      | succ calls =>
          rw [getlineLoop, run_bind_of_ok (run_read_one LF last [] stream)]
          simp
  | cons b line ih =>
      obtain ⟨last, tail, rfl, htail⟩ := delivers_cons_iff.mp harrivals
      simp only [List.mem_cons, not_or] at hline
      have hne : b ≠ LF := fun h => hline.1 h.symm
      cases calls with
      | zero => simp at hcalls
      | succ calls =>
          simp only [List.length_cons, Nat.add_le_add_iff_right] at hcalls
          rw [getlineLoop,
            run_bind_of_ok (run_read_one b last tail stream)]
          simp only [List.head?_cons, Option.some_or, if_neg hne]
          rw [ih (ret ++ [b]) hline.2 htail hcalls]
          simp

theorem getline_reads {line : List Byte} (hline : LF ∉ line) :
    Reads getline (line ++ [LF]) (line ++ [LF]) := by
  intro arrivals stream harrivals
  have hcalls : arrivals.length ≤ (stream.push arrivals).pending.length + 1 := by
    simp only [Feed.pending_push, List.length_append]
    omega
  have hrun := getlineLoop_reads [] (c := none) stream hline harrivals hcalls
  rw [List.nil_append] at hrun
  exact hrun

/-- Without a line feed in sight the loop takes all that is left. -/
theorem getlineLoop_drain {ret bs : List Byte} {c : Option Byte}
    {arrivals : List Arrival} (ending : Closing) (calls : ℕ) (hbs : LF ∉ bs)
    (harrivals : Delivers arrivals bs) :
    (getlineLoop (arrivals.length + calls) c ret).run ⟨arrivals, ending⟩ =
      (getlineLoop calls (bs.getLast?.or c) (ret ++ bs)).run ⟨[], ending⟩ := by
  induction bs generalizing c ret arrivals with
  | nil =>
      rw [Feed.carries_nil_iff.mp harrivals]
      simp
  | cons b bs ih =>
      obtain ⟨last, tail, rfl, htail⟩ := delivers_cons_iff.mp harrivals
      simp only [List.mem_cons, not_or] at hbs
      have hne : b ≠ LF := fun h => hbs.1 h.symm
      have hread := run_read_one b last tail ⟨[], ending⟩
      simp only [Feed.push, List.append_nil] at hread
      have hcalls : (Arrival.byte b last :: tail).length + calls =
          tail.length + calls + 1 := by
        simp only [List.length_cons]
        omega
      have hlast : (b :: bs).getLast?.or c = bs.getLast?.or (some b) := by
        cases bs <;> simp [List.getLast?_cons]
      rw [hcalls, getlineLoop, run_bind_of_ok hread, hlast]
      simp only [List.head?_cons, Option.some_or, if_neg hne]
      rw [ih hbs.2 htail]
      simp

theorem getlineLoop_blocked {ret bs : List Byte} {c : Option Byte}
    {arrivals : List Arrival} {calls : ℕ}
    (hbs : LF ∉ bs) (harrivals : Delivers arrivals bs)
    (hcalls : arrivals.length < calls) :
    (getlineLoop calls c ret).run ⟨arrivals, .silent⟩ = .error .blocked := by
  obtain ⟨left, rfl⟩ := Nat.exists_eq_add_of_lt hcalls
  rw [add_assoc, getlineLoop_drain .silent (left + 1) hbs harrivals]
  rfl

theorem getline_local :
    Feed.Local Arrival.carry (· = Closing.silent) getline := by
  apply Feed.Local.of_reads_or_error
  rintro ⟨arrivals, ending⟩ bs hsilent hbs
  simp only at hsilent hbs
  subst hsilent
  by_cases hmem : LF ∈ bs
  · left
    obtain ⟨line, rest, rfl, hline⟩ := List.eq_append_cons_of_mem hmem
    exact ⟨line ++ [LF], rest, line ++ [LF], by simp, getline_reads hline⟩
  · right
    exact ⟨.blocked, getlineLoop_blocked hmem hbs (by simp)⟩

/-- After the end of the file the loop appends its last character for ever. -/
theorem getlineLoop_endless {ret : List Byte} {b : Byte} (hb : b ≠ LF)
    (calls : ℕ) :
    (getlineLoop calls (some b) ret).run ⟨[], .eof⟩ = .error .endless := by
  induction calls generalizing ret with
  | zero => rfl
  | succ calls ih =>
      have hread : (read 1).run ⟨[], .eof⟩ = .ok (.got [], ⟨[], .eof⟩) := rfl
      rw [getlineLoop, run_bind_of_ok hread]
      simp only [List.head?_nil, Option.none_or, if_neg hb]
      exact ih

/-- Calls beyond those that can take an arrival make no difference. -/
theorem getlineLoop_calls {ret : List Byte} {c : Option Byte}
    {stream : Stream} {calls more : ℕ} (hcalls : stream.pending.length < calls)
    (hmore : calls ≤ more) :
    (getlineLoop more c ret).run stream =
      (getlineLoop calls c ret).run stream := by
  induction calls generalizing more c ret stream with
  | zero => omega
  | succ calls ih =>
      cases more with
      | zero => omega
      | succ more =>
          cases hread : (read 1).run stream with
          | error e =>
              rw [getlineLoop, getlineLoop, run_bind_of_error hread,
                run_bind_of_error hread]
          | ok outcome =>
              obtain ⟨result, next⟩ := outcome
              rw [getlineLoop, getlineLoop, run_bind_of_ok hread,
                run_bind_of_ok hread]
              cases result with
              | failure => rfl
              | got bs =>
                  cases hc : bs.head?.or c with
                  | none => simp only [hc]
                  | some b =>
                      simp only [hc]
                      split
                      · rfl
                      · next hb =>
                          rcases read_cases one_pos hread with
                            ⟨_, _, hne, _, hlen⟩ | ⟨_, hlen⟩ |
                              ⟨hnil, rfl, heof | hfail⟩
                          · have hpos := List.length_pos_of_ne_nil hne
                            have hshort : next.pending.length < calls := by
                              omega
                            exact ih hshort (by omega)
                          · exact ih (by omega) (by omega)
                          · obtain ⟨pending, ending⟩ := next
                            simp only at hnil heof
                            obtain ⟨rfl, _⟩ := heof
                            subst hnil
                            rw [getlineLoop_endless hb, getlineLoop_endless hb]
                          · simp at hfail

/-- A loop that has returned does so with any more calls allowed. -/
theorem getlineLoop_more {ret : List Byte} {c : Option Byte}
    {stream : Stream} {calls more : ℕ} {outcome : List Byte × Stream}
    (h : (getlineLoop calls c ret).run stream = .ok outcome)
    (hmore : calls ≤ more) :
    (getlineLoop more c ret).run stream = .ok outcome := by
  induction calls generalizing more c ret stream with
  | zero =>
      rw [getlineLoop, run_throw] at h
      contradiction
  | succ calls ih =>
      obtain ⟨more, rfl⟩ := Nat.exists_eq_add_of_le' hmore
      have hle : calls ≤ more + calls := Nat.le_add_left calls more
      rw [← add_assoc, getlineLoop]
      rw [getlineLoop] at h
      obtain ⟨result, next, hread, hrest⟩ := run_bind_eq_ok h
      rw [run_bind_of_ok hread]
      cases result with
      | failure => exact hrest
      | got bs =>
          cases hc : bs.head?.or c with
          | none =>
              simp only [hc, run_throw] at hrest
              contradiction
          | some b =>
              simp only [hc] at hrest ⊢
              split at hrest
              · next hb => rw [if_pos hb, hrest]
              · next hb => rw [if_neg hb, ih hrest hle]

/-! ## The body of a bulk reply -/

/-- The loop `while(remain)` of `read_string`: the part of the buffer in front
of the write position is `buf`.  A failed call adds one to `remain`. -/
def bodyLoop (sz : ℤ) : ℕ → ℤ → List Byte → Recv (List Byte)
  | 0, _, _ => throw .endless
  | calls + 1, remain, buf =>
      if remain = 0 then return buf
      else if sz + 2 - remain < 0 then throw .outOfBounds
      else do
        let position := (sz + 2 - remain).toNat
        match ← read remain.toNat with
        | .failure => bodyLoop sz calls (remain + 1) buf
        | .got bs =>
            bodyLoop sz calls (remain - bs.length) (buf.take position ++ bs)

/-- Each call takes an arrival or, once none is left, moves the write position
back. -/
def bodyBytes (sz : ℤ) : Recv (List Byte) := fun stream =>
  (bodyLoop sz (2 * stream.pending.length + 3) (sz + 2) []).run stream

/-- From `new char[sz + 2]` to the copy of `buf, buf + sz`. -/
def readBody (sz : ℤ) : Recv Buffer := do
  if INT_MAX < sz + 2 then throw .signedOverflow
  else if sz + 2 < 0 then throw .badArrayLength
  else
    let buf ← bodyBytes sz
    if sz < 0 then throw .invertedRange
    else return buf.take sz.toNat

theorem bodyLoop_reads {sz : ℤ} {body : List Byte} (buf : List Byte)
    {arrivals : List Arrival} (stream : Stream) {calls : ℕ}
    (hbody : (buf.length : ℤ) + body.length = sz + 2)
    (harrivals : Delivers arrivals body) (hcalls : arrivals.length < calls) :
    (bodyLoop sz calls body.length buf).run (stream.push arrivals) =
      .ok (buf ++ body, stream) := by
  induction calls generalizing arrivals body buf with
  | zero => omega
  | succ calls ih =>
      have hlength := harrivals.length_eq
      by_cases hempty : body = []
      · subst hempty
        rw [Feed.carries_nil_iff.mp harrivals]
        simp [bodyLoop]
      · have hpos : 0 < body.length := List.length_pos_of_ne_nil hempty
        obtain ⟨first, second, taken, back, rfl, rfl, hfirst, hsecond,
            htaken, _, hread⟩ :=
          read_of_delivers stream harrivals hpos hempty (Or.inl (by omega))
        have hne : ((taken ++ back).length : ℤ) ≠ 0 := by omega
        have hposition : (sz + 2 - ((taken ++ back).length : ℤ)) =
            buf.length := by omega
        have hremain : ((taken ++ back).length : ℤ) - taken.length =
            back.length := by
          simp
        have hbody' : ((buf ++ taken).length : ℤ) + back.length = sz + 2 := by
          simp only [List.length_append] at hbody ⊢
          push_cast at hbody ⊢
          omega
        have hcalls' : second.length < calls := by
          have := hfirst.length_eq
          simp only [List.length_append] at hcalls
          omega
        rw [bodyLoop, if_neg hne, hposition, if_neg (by omega)]
        simp only [Int.toNat_natCast]
        rw [run_bind_of_ok hread]
        simp only [hremain, List.take_length]
        rw [ih (buf ++ taken) hbody' hsecond hcalls']
        simp

theorem bodyBytes_reads {sz : ℤ} {body : List Byte}
    (hbody : (body.length : ℤ) = sz + 2) : Reads (bodyBytes sz) body body := by
  intro arrivals stream harrivals
  have hcalls :
      arrivals.length < 2 * (stream.push arrivals).pending.length + 3 := by
    simp only [Feed.pending_push, List.length_append]
    omega
  have hrun := bodyLoop_reads [] stream (by simpa using hbody) harrivals hcalls
  rw [hbody, List.nil_append] at hrun
  exact hrun

theorem readBody_reads {sz : ℤ} {payload terminator : List Byte}
    (hsz : sz = payload.length) (hmax : sz + 2 ≤ INT_MAX)
    (hterminator : terminator.length = 2) :
    Reads (readBody sz) (payload ++ terminator) payload := by
  have hbody : ((payload ++ terminator).length : ℤ) = sz + 2 := by
    simp [hsz, hterminator]
  unfold readBody
  rw [if_neg (by omega), if_neg (by omega)]
  apply (bodyBytes_reads hbody).bind_pure
  rw [if_neg (by omega)]
  simp [hsz]

/-- Too short a rest is taken whole. -/
theorem bodyLoop_drain_left {sz remain : ℤ} {bs buf : List Byte}
    {arrivals : List Arrival} {calls : ℕ} (ending : Closing)
    (hremain : (bs.length : ℤ) < remain)
    (hposition : (buf.length : ℤ) + remain = sz + 2)
    (harrivals : Delivers arrivals bs) (hcalls : arrivals.length < calls) :
    ∃ left, calls ≤ left + arrivals.length ∧
      (bodyLoop sz calls remain buf).run ⟨arrivals, ending⟩ =
        (bodyLoop sz left (remain - bs.length) (buf ++ bs)).run
          ⟨[], ending⟩ := by
  induction calls generalizing arrivals bs remain buf with
  | zero => omega
  | succ calls ih =>
      by_cases hempty : bs = []
      · subst hempty
        rw [Feed.carries_nil_iff.mp harrivals]
        exact ⟨calls + 1, by simp, by simp⟩
      · have hpos : 0 < remain.toNat := by omega
        obtain ⟨first, second, taken, back, rfl, rfl, hfirst, hsecond,
            htaken, hle, hread⟩ :=
          read_of_delivers ⟨[], ending⟩ harrivals hpos hempty (Or.inr rfl)
        simp only [Feed.push, List.append_nil] at hread
        have hlength := hfirst.length_eq
        simp only [List.length_append] at hremain hcalls
        have hcut : (back.length : ℤ) < remain - taken.length := by omega
        have hnext : ((buf ++ taken).length : ℤ) + (remain - taken.length) =
            sz + 2 := by
          rw [List.length_append]
          omega
        obtain ⟨left, hleft, hrest⟩ := ih hcut hnext hsecond (by omega)
        have hwrite : sz + 2 - remain = buf.length := by omega
        have hleft' : calls + 1 ≤ left + (first ++ second).length := by
          rw [List.length_append]
          omega
        refine ⟨left, hleft', ?_⟩
        rw [bodyLoop, if_neg (by omega), hwrite, if_neg (by omega)]
        simp only [Int.toNat_natCast]
        rw [run_bind_of_ok hread]
        simp only [List.take_length]
        rw [hrest, List.append_assoc, List.length_append, Nat.cast_add,
          sub_sub]

theorem bodyLoop_drain {sz remain : ℤ} {bs buf : List Byte}
    {arrivals : List Arrival} {calls : ℕ} (ending : Closing)
    (hremain : (bs.length : ℤ) < remain)
    (hposition : (buf.length : ℤ) + remain = sz + 2)
    (harrivals : Delivers arrivals bs) (hcalls : arrivals.length < calls) :
    ∃ left, 0 < left ∧
      (bodyLoop sz calls remain buf).run ⟨arrivals, ending⟩ =
        (bodyLoop sz left (remain - bs.length) (buf ++ bs)).run
          ⟨[], ending⟩ := by
  obtain ⟨left, hleft, hrun⟩ :=
    bodyLoop_drain_left ending hremain hposition harrivals hcalls
  exact ⟨left, by omega, hrun⟩

theorem bodyLoop_blocked {sz remain : ℤ} {bs buf : List Byte}
    {arrivals : List Arrival} {calls : ℕ}
    (hremain : (bs.length : ℤ) < remain)
    (hposition : (buf.length : ℤ) + remain = sz + 2)
    (harrivals : Delivers arrivals bs) (hcalls : arrivals.length < calls) :
    (bodyLoop sz calls remain buf).run ⟨arrivals, .silent⟩ =
      .error .blocked := by
  obtain ⟨left, hleft, hrun⟩ :=
    bodyLoop_drain .silent hremain hposition harrivals hcalls
  obtain ⟨left, rfl⟩ := Nat.exists_eq_add_of_le' hleft
  rw [hrun, bodyLoop, if_neg (by omega), if_neg (by omega)]
  rfl

theorem bodyBytes_local {sz : ℤ} (hsz : 0 ≤ sz + 2) :
    Feed.Local Arrival.carry (· = Closing.silent) (bodyBytes sz) := by
  apply Feed.Local.of_reads_or_error
  rintro ⟨arrivals, ending⟩ bs hsilent hbs
  simp only at hsilent hbs
  subst hsilent
  by_cases henough : sz + 2 ≤ bs.length
  · left
    refine ⟨bs.take (sz + 2).toNat, bs.drop (sz + 2).toNat, _,
      (List.take_append_drop _ _).symm, bodyBytes_reads ?_⟩
    rw [List.length_take]
    omega
  · right
    have hlength := hbs.length_eq
    exact ⟨.blocked, bodyLoop_blocked (by omega) (by simp) hbs
      (by simp only; omega)⟩

theorem readBody_local (sz : ℤ) :
    Feed.Local Arrival.carry (· = Closing.silent) (readBody sz) := by
  unfold readBody
  refine Feed.Local.ite (Feed.Local.fail _) ?_
  split
  · exact Feed.Local.fail _
  · next hsz =>
      apply (bodyBytes_local (by omega)).bind
      intro buf
      exact Feed.Local.ite (Feed.Local.fail _) (Feed.Local.pure _)

theorem bodyLoop_endless {sz remain : ℤ} {buf : List Byte}
    (hremain : remain ≠ 0) (hposition : 0 ≤ sz + 2 - remain) (calls : ℕ) :
    (bodyLoop sz calls remain buf).run ⟨[], .eof⟩ = .error .endless := by
  induction calls generalizing buf with
  | zero => rfl
  | succ calls ih =>
      have hread : (read remain.toNat).run ⟨[], .eof⟩ =
          .ok (.got [], ⟨[], .eof⟩) := rfl
      rw [bodyLoop, if_neg hremain, if_neg (by omega)]
      rw [run_bind_of_ok hread]
      simp only [List.length_nil, Nat.cast_zero, sub_zero]
      exact ih

/-- Calls beyond those that can take an arrival or move the write position
back to the start make no difference. -/
theorem bodyLoop_calls {sz remain : ℤ} {buf : List Byte} {stream : Stream}
    {calls more : ℕ} (hremain : 0 ≤ remain) (hposition : remain ≤ sz + 3)
    (hcalls : 2 * stream.pending.length + (sz + 3 - remain) < calls)
    (hmore : calls ≤ more) :
    (bodyLoop sz more remain buf).run stream =
      (bodyLoop sz calls remain buf).run stream := by
  induction calls generalizing more remain buf stream with
  | zero => omega
  | succ calls ih =>
      cases more with
      | zero => omega
      | succ more =>
          rw [bodyLoop, bodyLoop]
          by_cases hdone : remain = 0
          · rw [if_pos hdone, if_pos hdone]
          rw [if_neg hdone, if_neg hdone]
          by_cases hbefore : sz + 2 - remain < 0
          · rw [if_pos hbefore, if_pos hbefore]
          rw [if_neg hbefore, if_neg hbefore]
          cases hread : (read remain.toNat).run stream with
          | error e =>
              rw [run_bind_of_error hread, run_bind_of_error hread]
          | ok outcome =>
              obtain ⟨result, next⟩ := outcome
              rw [run_bind_of_ok hread, run_bind_of_ok hread]
              have hpos : 0 < remain.toNat := by omega
              rcases read_cases hpos hread with
                ⟨bs, rfl, hne, hle, hlen⟩ | ⟨hresult, hlen⟩ |
                  ⟨hnil, rfl, ⟨heof, rfl⟩ | ⟨_, rfl⟩⟩
              · have htaken := List.length_pos_of_ne_nil hne
                exact ih (by omega) (by omega) (by omega) (by omega)
              · rcases hresult with rfl | rfl
                · exact ih (by simpa using hremain) (by simpa using hposition)
                    (by simp only [List.length_nil]; omega) (by omega)
                · exact ih (by omega) (by omega) (by omega) (by omega)
              · obtain ⟨pending, ending⟩ := next
                simp only at hnil heof
                subst hnil heof
                simp only [List.length_nil, Nat.cast_zero, sub_zero]
                rw [bodyLoop_endless hdone (by omega),
                  bodyLoop_endless hdone (by omega)]
              · exact ih (by omega) (by omega) (by omega) (by omega)

end Redispp
