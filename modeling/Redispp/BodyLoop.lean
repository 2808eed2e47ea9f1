import Redispp.Socket
import Redispp.Runs

/-!
# The turns of the body loop

Each turn of `while(remain)` in `read_string` subtracts the result of `read`
from `remain`, a failed call's -1 like any other.  The turns are described as
runs labelled with the results of `read`; `remain` is what the results leave
of it, so the loop is inside its buffer as long as no more calls have failed
than bytes have come in.
-/

namespace Redispp

open StateExcept CLibrary Runs

/-- The value that `read` returns. -/
def ReadResult.count : ReadResult → ℤ
  | .failure => -1
  | .got bs => bs.length

/-- One turn, with `remain` and the stream before and after it. -/
def BodyTurn (before : ℤ × Stream) (result : ReadResult)
    (after : ℤ × Stream) : Prop :=
  before.1 ≠ 0 ∧
    (read before.1.toNat).run before.2 = .ok (result, after.2) ∧
    after.1 = before.1 - result.count

def failures (results : List ReadResult) : ℕ :=
  results.count .failure

def received (results : List ReadResult) : ℕ :=
  (results.map fun result =>
    match result with
    | .failure => 0
    | .got bs => bs.length).sum

theorem count_eq (result : ReadResult) :
    result.count = (received [result] : ℤ) - failures [result] := by
  cases result with
  | failure => rfl
  | got bs => simp [ReadResult.count, received, failures]

theorem received_append (front back : List ReadResult) :
    received (front ++ back) = received front + received back := by
  simp [received]

theorem failures_append (front back : List ReadResult) :
    failures (front ++ back) = failures front + failures back := by
  simp [failures, List.count_append]

/-- A call gives no more than it was asked for. -/
theorem count_le_of_read {n : ℕ} {stream next : Stream} {result : ReadResult}
    (hpos : 0 < n) (h : (read n).run stream = .ok (result, next)) :
    result.count ≤ n := by
  have hnone : (ReadResult.got []).count ≤ n := Int.natCast_nonneg n
  have hfailure : ReadResult.failure.count ≤ n := by
    simp only [ReadResult.count]
    omega
  rcases read_cases hpos h with
    ⟨bs, rfl, _, hle, _⟩ | ⟨rfl | rfl, _⟩ | ⟨_, _, ⟨_, rfl⟩ | ⟨_, rfl⟩⟩
  · exact Int.ofNat_le.mpr hle
  · exact hnone
  · exact hfailure
  · exact hnone
  · exact hfailure

theorem BodyTurn.nonneg {before after : ℤ × Stream} {result : ReadResult}
    (h : BodyTurn before result after) (hbefore : 0 ≤ before.1) :
    0 ≤ after.1 := by
  obtain ⟨hne, hread, hafter⟩ := h
  have hcount := count_le_of_read (by omega) hread
  omega

theorem run_turns_balance {start last : ℤ × Stream}
    {results : List ReadResult} (h : Run BodyTurn start results last) :
    last.1 = start.1 - received results + failures results := by
  apply h.history_invariant fun results last =>
    last.1 = start.1 - received results + failures results
  · simp [received, failures]
  · intro past before result after hbefore hturn
    rw [hturn.2.2, hbefore, count_eq, received_append, failures_append]
    push_cast
    omega

theorem run_turns_nonneg {start last : ℤ × Stream}
    {results : List ReadResult} (h : Run BodyTurn start results last)
    (hstart : 0 ≤ start.1) : 0 ≤ last.1 :=
  h.invariant (fun state => 0 ≤ state.1) hstart
    fun _ _ _ hbefore hturn => hturn.nonneg hbefore

/-- The bytes asked for lie in the buffer of `sz + 2` bytes. -/
def Inside (sz remain : ℤ) : Prop :=
  0 < remain ∧ remain ≤ sz + 2 ∧
    0 ≤ sz + 2 - remain ∧ (sz + 2 - remain) + remain ≤ sz + 2

theorem inside_iff {sz : ℤ} {stream : Stream} {results : List ReadResult}
    {last : ℤ × Stream} (hsz : 1 ≤ sz)
    (h : Run BodyTurn (sz + 2, stream) results last) (hlast : last.1 ≠ 0) :
    Inside sz last.1 ↔ failures results ≤ received results := by
  have hbalance := run_turns_balance h
  have hnonneg := run_turns_nonneg h (by simp only; omega)
  simp only at hbalance
  unfold Inside
  omega

/-! ## The loop as its turns -/

theorem bodyLoop_of_outside {sz remain : ℤ} {buf : List Byte}
    {stream : Stream} (hsz : 0 ≤ sz) (hremain : sz + 2 < remain)
    (calls : ℕ) :
    (bodyLoop sz (calls + 1) remain buf).run stream =
      .error .outOfBounds := by
  rw [bodyLoop, if_neg (by omega), if_pos (by omega)]
  rfl

/-- A turn inside the buffer is a turn of the loop. -/
theorem bodyLoop_of_turn (sz : ℤ) (buf : List Byte) {remain : ℤ}
    {stream : Stream} {result : ReadResult} {after : ℤ × Stream}
    (hturn : BodyTurn (remain, stream) result after)
    (hremain : remain ≤ sz + 2) :
    ∃ next, ∀ calls, (bodyLoop sz (calls + 1) remain buf).run stream =
      (bodyLoop sz calls after.1 next).run after.2 := by
  obtain ⟨hne, hread, hafter⟩ := hturn
  simp only at hne hread hafter
  cases result with
  | failure =>
      refine ⟨buf, fun calls => ?_⟩
      rw [bodyLoop, if_neg hne, if_neg (by omega)]
      rw [run_bind_of_ok hread, hafter, ReadResult.count, sub_neg_eq_add]
  | got bs =>
      refine ⟨buf.take (sz + 2 - remain).toNat ++ bs, fun calls => ?_⟩
      rw [bodyLoop, if_neg hne, if_neg (by omega)]
      rw [run_bind_of_ok hread, hafter, ReadResult.count]

theorem turns_of_outOfBounds {sz remain : ℤ} {buf : List Byte}
    {stream : Stream} {calls : ℕ}
    (h : (bodyLoop sz calls remain buf).run stream = .error .outOfBounds) :
    ∃ results last, Run BodyTurn (remain, stream) results last ∧
      sz + 2 < last.1 := by
  induction calls generalizing remain buf stream with
  | zero =>
      rw [bodyLoop, run_throw] at h
      contradiction
  | succ calls ih =>
      by_cases houtside : sz + 2 < remain
      · exact ⟨[], _, .nil, houtside⟩
      · by_cases hdone : remain = 0
        · rw [bodyLoop, if_pos hdone, run_pure] at h
          contradiction
        · cases hread : (read remain.toNat).run stream with
          | error e =>
              rw [bodyLoop, if_neg hdone, if_neg (by omega)] at h
              rw [run_bind_of_error hread, read_error hread] at h
              contradiction
          | ok outcome =>
              obtain ⟨result, next⟩ := outcome
              have hturn : BodyTurn (remain, stream) result
                  (remain - result.count, next) := ⟨hdone, hread, rfl⟩
              obtain ⟨buf', hloop⟩ :=
                bodyLoop_of_turn sz buf hturn (by omega)
              rw [hloop] at h
              obtain ⟨results, last, hrun, hlast⟩ := ih h
              exact ⟨_, last, .cons hturn hrun, hlast⟩

theorem outOfBounds_of_turns {sz remain : ℤ} {buf : List Byte}
    {stream : Stream} {results : List ReadResult} {last : ℤ × Stream}
    (hsz : 0 ≤ sz) (h : Run BodyTurn (remain, stream) results last)
    (hlast : sz + 2 < last.1) :
    ∃ calls, (bodyLoop sz calls remain buf).run stream =
      .error .outOfBounds := by
  induction results generalizing remain buf stream with
  | nil =>
      rw [h.of_nil] at hlast
      exact ⟨1, bodyLoop_of_outside hsz hlast 0⟩
  | cons result results ih =>
      by_cases houtside : sz + 2 < remain
      · exact ⟨1, bodyLoop_of_outside hsz houtside 0⟩
      · obtain ⟨mid, hturn, hrest⟩ := h.of_cons
        obtain ⟨buf', hloop⟩ := bodyLoop_of_turn sz buf hturn (by omega)
        obtain ⟨calls, hcalls⟩ : ∃ calls,
            (bodyLoop sz calls mid.1 buf').run mid.2 = .error .outOfBounds :=
          ih hrest
        exact ⟨calls + 1, by rw [hloop, hcalls]⟩

/-- On a stream the loop leaves its buffer exactly when, at some turn, more
calls have failed than bytes have come in. -/
theorem bodyLoop_outOfBounds_iff {sz : ℤ} (hsz : 1 ≤ sz) {stream : Stream} :
    (∃ calls, (bodyLoop sz calls (sz + 2) []).run stream =
        .error .outOfBounds) ↔
      ∃ results last, Run BodyTurn (sz + 2, stream) results last ∧
        received results < failures results := by
  constructor
  · rintro ⟨calls, hcalls⟩
    obtain ⟨results, last, hrun, hlast⟩ := turns_of_outOfBounds hcalls
    have hbalance := run_turns_balance hrun
    simp only at hbalance
    exact ⟨results, last, hrun, by omega⟩
  · rintro ⟨results, last, hrun, hfailures⟩
    have hbalance := run_turns_balance hrun
    simp only at hbalance
    exact outOfBounds_of_turns (by omega) hrun (by omega)

/-! ## Turns inside the buffer -/

theorem turns_inside {sz : ℤ} (hsz : 1 ≤ sz) {stream : Stream}
    {results : List ReadResult} {last : ℤ × Stream}
    (h : Run BodyTurn (sz + 2, stream) results last) :
    (∀ front back mid, results = front ++ back →
        Run BodyTurn (sz + 2, stream) front mid → mid.1 ≠ 0 →
        Inside sz mid.1) ↔
      ∀ front back, results = front ++ back →
        failures front ≤ received front := by
  constructor
  · rintro hinside front back rfl
    obtain ⟨mid, hfront, _⟩ := h.split
    by_cases hdone : mid.1 = 0
    · have hbalance := run_turns_balance hfront
      simp only at hbalance
      omega
    · exact (inside_iff hsz hfront hdone).mp
        (hinside front back mid rfl hfront hdone)
  · intro hfailures front back mid hsplit hfront hmore
    exact (inside_iff hsz hfront hmore).mpr (hfailures front back hsplit)

/-- Every turn is inside the buffer exactly when, at every turn, no more calls
have failed than bytes have come in, and the loop leaves its buffer exactly
when there are turns that fail this. -/
theorem turns_inside_iff {sz : ℤ} (hsz : 1 ≤ sz) {stream : Stream}
    {results : List ReadResult} {last : ℤ × Stream}
    (h : Run BodyTurn (sz + 2, stream) results last) :
    ((∀ front back mid, results = front ++ back →
          Run BodyTurn (sz + 2, stream) front mid → mid.1 ≠ 0 →
          Inside sz mid.1) ↔
        ∀ front back, results = front ++ back →
          failures front ≤ received front) ∧
      ((∃ calls, (bodyLoop sz calls (sz + 2) []).run stream =
          .error .outOfBounds) ↔
        ∃ results last, Run BodyTurn (sz + 2, stream) results last ∧
          received results < failures results) :=
  ⟨turns_inside hsz h, bodyLoop_outOfBounds_iff hsz⟩

theorem turns_inside_iff_one :
    let stream := (streamOf []).push (arrivalsOf (bytes "a\r\n"))
    let results := [ReadResult.got (bytes "a\r\n")]
    ((∀ front back mid, results = front ++ back →
          Run BodyTurn (1 + 2, stream) front mid → mid.1 ≠ 0 →
          Inside 1 mid.1) ↔
        ∀ front back, results = front ++ back →
          failures front ≤ received front) ∧
      ((∃ calls, (bodyLoop 1 calls (1 + 2) []).run stream =
          .error .outOfBounds) ↔
        ∃ results last, Run BodyTurn (1 + 2, stream) results last ∧
          received results < failures results) := by
  intro stream results
  have hturn : BodyTurn (1 + 2, stream) (.got (bytes "a\r\n"))
      (0, streamOf []) :=
    ⟨by decide, by decide, by decide⟩
  exact turns_inside_iff (by decide) (.snoc .nil hturn)

/-- A call that fails before the first byte moves the write position in front
of the buffer. -/
theorem turns_outside_failure :
    ∃ results last,
      Run BodyTurn (1 + 2, (streamOf []).push [.failure]) results last ∧
        last.1 ≠ 0 ∧ ¬ Inside 1 last.1 := by
  have hturn : BodyTurn (1 + 2, (streamOf []).push [.failure]) .failure
      (4, streamOf []) :=
    ⟨by decide, by decide, by decide⟩
  refine ⟨_, _, .snoc .nil hturn, by decide, ?_⟩
  rintro ⟨_, hle, _⟩
  exact absurd hle (by decide)

end Redispp
