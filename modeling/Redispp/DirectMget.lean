import Redispp.MgetPairing

/-!
# MGET in normal mode

`mget` pushes its key list and its reader pops it again at once, so lists left
behind by other calls do not matter.  The keys are then matched with the
values in step, and each key keeps the first value it gets.  The number of
keys is converted to `int` before it is compared with the announced one, which
no list of more than `INT_MAX` keys passes.
-/

namespace Redispp

open StateExcept CLibrary

/-- The payload of a response that is a string. -/
def Response.payload (r : Response) : Option Buffer :=
  if r.type = .string then some r.mStr else none

theorem multiStringLoop_run {keys : List Buffer} {map : RedisMap}
    {values : List Response} {feed last : Stream}
    (h : (Feed.inTurn (List.replicate keys.length readString)).run feed =
      .ok (values, last)) :
    (multiStringLoop keys (.ofHash map)).run feed =
      .ok (.ofHash (stored map keys (values.map Response.payload)), last) := by
  induction keys generalizing map values feed with
  | nil =>
      obtain ⟨rfl, rfl⟩ := run_pure_eq_ok h
      rfl
  | cons key keys ih =>
      rw [List.length_cons, List.replicate_succ, Feed.inTurn] at h
      obtain ⟨v, next, hread, hrest⟩ := run_bind_eq_ok h
      obtain ⟨others, after, hothers, hpure⟩ := run_bind_eq_ok hrest
      obtain ⟨rfl, rfl⟩ := run_pure_eq_ok hpure
      rw [multiStringLoop, run_bind_of_ok hread]
      by_cases hstring : v.type = .string
      · have hpayload : v.payload = some v.mStr := if_pos hstring
        rw [if_pos hstring, List.map_cons, hpayload, stored]
        exact ih hothers
      · have hpayload : v.payload = none := if_neg hstring
        rw [if_neg hstring, List.map_cons, hpayload, stored]
        exact ih hothers

/-- The value under a key: the first string at a position of that key. -/
def firstString (keys : List Buffer) (values : List Response) (key : Buffer) :
    Option Buffer :=
  (keys.zip values).findSome? fun pair =>
    if pair.1 = key ∧ pair.2.type = .string then some pair.2.mStr else none

theorem lookup_stored_payload (keys : List Buffer) (values : List Response)
    (key : Buffer) :
    (stored ∅ keys (values.map Response.payload)).lookup key =
      firstString keys values key := by
  rw [lookup_stored, Finmap.lookup_empty, Option.none_or, List.zip_map_right,
    List.findSome?_map]
  unfold firstString
  congr 1
  funext ⟨k, v⟩
  by_cases hkey : k = key <;> simp [Response.payload, hkey]

theorem count_accepted_iff {n : ℕ} (hn : 0 < n) :
    ¬ (saturate n ≤ 0 ∨ saturate n ≠ toInt n) ↔ (n : ℤ) ≤ INT_MAX := by
  constructor
  · intro h
    have hle := toInt_le n
    have hcases : saturate n ≠ LONG_MAX → saturate n = n := by
      unfold saturate LONG_MIN LONG_MAX
      omega
    unfold LONG_MAX at hcases
    unfold INT_MAX at hle ⊢
    omega
  · intro h
    have hint : toInt n = n :=
      toInt_of_mem (by unfold INT_MIN; omega) h
    have hsaturate : saturate n = n := by
      unfold INT_MAX at h
      exact saturate_of_mem (by unfold LONG_MIN; omega)
        (by unfold LONG_MAX; omega)
    rw [hint, hsaturate]
    omega

theorem readMultiString_run (front : List (List Buffer)) (after : Stream)
    {keys : List Buffer} (hkeys : keys ≠ []) {header : List Arrival}
    (hheader : Delivers header (replyHeader '*' keys.length)) :
    (readMultiString (front ++ [keys])).run (after.push header) =
      if (keys.length : ℤ) ≤ INT_MAX then
        (do
          let ret ← multiStringLoop keys (.ofHash ∅)
          return (ret, front) : Recv _).run after
      else .ok ((.new .err, front), after) := by
  have hread := getline_reads_header (by decide) header after hheader
  have hcount := count_accepted_iff (List.length_pos_of_ne_nil hkeys)
  unfold readMultiString
  rw [run_bind_of_ok hread, head_replyHeader, if_neg (by simp),
    List.getLast?_concat]
  dsimp only
  rw [atol_replyHeader_natCast, List.dropLast_concat]
  split
  · next hrefused =>
      rw [if_neg (fun hle => hcount.mpr hle hrefused)]
      rfl
  · next haccepted => rw [if_pos (hcount.mp haccepted), Response.new_hash]

namespace Client

theorem run_mget_normal {c : Client} (hmulti : c.mMulti = false)
    (hpipeline : c.mPipeline = false) (keys : List Buffer) :
    (mget keys).run c = (call .readMultiString).run { c with
      output := c.output ++ (Command.withArguments (bytes "MGET") keys).get
      mMgetKeys := c.mMgetKeys ++ [keys] } := by
  have hperform := (Query.mget keys).run_perform c
  rw [run_run_normal (by exact hpipeline) (by exact hmulti)] at hperform
  exact hperform

section DirectMget

variable {c : Client} {keys : List Buffer} {header : List Arrival}
  {after last : Stream} {values : List Response}

theorem run_mget_of_le (hmulti : c.mMulti = false)
    (hpipeline : c.mPipeline = false) (hkeys : keys ≠ [])
    (hheader : Delivers header (replyHeader '*' keys.length))
    (hinput : c.input = after.push header)
    (hvalues : (Feed.inTurn (List.replicate keys.length readString)).run after =
      .ok (values, last)) (hle : (keys.length : ℤ) ≤ INT_MAX) :
    (mget keys).run c =
      .ok (.ofHash (stored ∅ keys (values.map Response.payload)), { c with
        input := last
        output :=
          c.output ++ (Command.withArguments (bytes "MGET") keys).get }) := by
  have hread := readMultiString_run c.mMgetKeys after hkeys hheader
  rw [if_pos hle, run_bind_of_ok (multiStringLoop_run hvalues), run_pure,
    ← hinput] at hread
  rw [run_mget_normal hmulti hpipeline]
  exact run_call_of_ok (by exact hread)

theorem run_mget_of_gt (hmulti : c.mMulti = false)
    (hpipeline : c.mPipeline = false) (hkeys : keys ≠ [])
    (hheader : Delivers header (replyHeader '*' keys.length))
    (hinput : c.input = after.push header)
    (hgt : ¬ (keys.length : ℤ) ≤ INT_MAX) :
    (mget keys).run c = .ok (.new .err, { c with
      input := after
      output :=
        c.output ++ (Command.withArguments (bytes "MGET") keys).get }) := by
  have hread := readMultiString_run c.mMgetKeys after hkeys hheader
  rw [if_neg hgt, ← hinput] at hread
  rw [run_mget_normal hmulti hpipeline]
  exact run_call_of_ok (by exact hread)

/-- In normal mode `mget` binds every key to its first string, takes what that
many `read_string` take and leaves the waiting key lists as they were, exactly
when the number of keys is an `int`. -/
theorem mget_direct_iff (hmulti : c.mMulti = false)
    (hpipeline : c.mPipeline = false) (hkeys : keys ≠ [])
    (hheader : Delivers header (replyHeader '*' keys.length))
    (hinput : c.input = after.push header)
    (hvalues : (Feed.inTurn (List.replicate keys.length readString)).run after =
      .ok (values, last)) :
    (∃ resp d, (mget keys).run c = .ok (resp, d) ∧ resp.type = .hash ∧
        (∀ key, resp.getKey key = firstString keys values key) ∧
        d.input = last ∧ d.mMgetKeys = c.mMgetKeys) ↔
      (keys.length : ℤ) ≤ INT_MAX := by
  constructor
  · rintro ⟨resp, d, hrun, htype, _⟩
    by_contra hgt
    have hrefused := run_mget_of_gt hmulti hpipeline hkeys hheader hinput hgt
    rw [← (run_unique hrefused hrun).1] at htype
    exact absurd htype (by simp)
  · intro hle
    have hrun := run_mget_of_le hmulti hpipeline hkeys hheader hinput hvalues
      hle
    exact ⟨_, _, hrun, rfl, lookup_stored_payload keys values, rfl, rfl⟩

end DirectMget

/-- A key list is left over, one key is asked for twice and one is missing. -/
theorem mget_direct_iff_repeated :
    let keys := [bytes "x", bytes "y", bytes "x"]
    let replies := [none, some (bytes "b"), some (bytes "c")]
    let after := streamOf (replies.map encodeBulk).flatten
    let header := arrivalsOf (replyHeader '*' keys.length)
    let c := { connected (after.push header) with mMgetKeys := [[bytes "z"]] }
    let values := replies.map bulkResponse
    (∃ resp d, (mget keys).run c = .ok (resp, d) ∧ resp.type = .hash ∧
        (∀ key, resp.getKey key = firstString keys values key) ∧
        d.input = streamOf [] ∧ d.mMgetKeys = c.mMgetKeys) ↔
      (keys.length : ℤ) ≤ INT_MAX := by
  intro keys replies after header c values
  have hkeys : keys ≠ [] := by decide
  have hvalues : (Feed.inTurn (List.replicate keys.length readString)).run
      after = .ok (values, streamOf []) := by decide +kernel
  exact mget_direct_iff (c := c) rfl rfl hkeys (delivers_arrivalsOf _) rfl
    hvalues

theorem mget_refused {n : ℕ} (hn : INT_MAX < n) :
    let keys := List.replicate n (bytes "x")
    let body := (List.replicate n (encodeBulk (some (bytes "a")))).flatten
    let after := (streamOf []).push (arrivalsOf body)
    let c := connected (after.push (arrivalsOf (replyHeader '*' keys.length)))
    (Feed.inTurn (List.replicate keys.length readString)).run after =
        .ok (List.replicate n (.ofString (bytes "a")), streamOf []) ∧
      ¬ ∃ resp d, (mget keys).run c = .ok (resp, d) ∧
        resp.type = .hash := by
  intro keys body after c
  have hlength : keys.length = n := List.length_replicate
  have hkeys : keys ≠ [] := by
    rw [← List.length_pos_iff, hlength]
    unfold INT_MAX at hn
    omega
  have hread : Reads readString (encodeBulk (some (bytes "a")))
      (.ofString (bytes "a")) :=
    readString_reads_bulk (by decide) (by decide)
  have hvalues := (Feed.ReadsEach.replicate hread n).inTurn (arrivalsOf body)
    (streamOf []) (delivers_arrivalsOf body)
  have hgt : ¬ (keys.length : ℤ) ≤ INT_MAX := by
    rw [hlength]
    omega
  have hinput : c.input = after.push _ := rfl
  have hrefused := run_mget_of_gt rfl rfl hkeys (delivers_arrivalsOf _) hinput
    hgt
  refine ⟨by rw [hlength]; exact hvalues, ?_⟩
  rintro ⟨resp, d, hrun, htype⟩
  rw [← (run_unique hrefused hrun).1] at htype
  exact absurd htype (by simp)

/-- With one key more than `INT_MAX` the reply is refused, though each value
is there to be read. -/
theorem mget_refused_over_int :
    let keys := List.replicate 2147483648 (bytes "x")
    let body := (List.replicate 2147483648
      (encodeBulk (some (bytes "a")))).flatten
    let after := (streamOf []).push (arrivalsOf body)
    let c := connected (after.push (arrivalsOf (replyHeader '*' keys.length)))
    (Feed.inTurn (List.replicate keys.length readString)).run after =
        .ok (List.replicate 2147483648 (.ofString (bytes "a")),
          streamOf []) ∧
      ¬ ∃ resp d, (mget keys).run c = .ok (resp, d) ∧
        resp.type = .hash :=
  mget_refused (by simp [INT_MAX])

end Client

end Redispp
