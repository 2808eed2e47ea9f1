import Redispp.Requests
import Redispp.Consumption

/-!
# Writes that are cut short

`write` may send less than it is given, and nothing looks at its result.  The
encodings of commands are a prefix code: of the bytes that were sent the server
makes exactly the commands that went out whole, and waits for the rest of the
next one.  A pipeline whose write was cut ends in `exec` waiting for ever.
-/

namespace Feed

open StateExcept

variable {B K ε α : Type} {quiet : K → Prop}

/-- A receiver that reads these bytes and sees no more than it reads fails on
fewer of them. -/
theorem Local.cut {m : Receiver B K ε α} (hm : Local some quiet m)
    {bytes : List B} {a : α} (h : Reads some m bytes a) {n : ℕ}
    (hn : n < bytes.length) (ending : K) (hquiet : quiet ending) :
    ∃ e, m.run ⟨bytes.take n, ending⟩ = .error e := by
  cases hrun : m.run ⟨bytes.take n, ending⟩ with
  | error e => exact ⟨e, rfl⟩
  | ok result =>
      obtain ⟨b, next⟩ := result
      obtain ⟨items, taken, hfeed, htaken, hreads⟩ :=
        hm ⟨bytes.take n, ending⟩ next b (bytes.take n) hquiet rfl hrun
      have hpending : bytes.take n = items ++ next.pending :=
        congrArg Feed.pending hfeed
      have hbytes : bytes = items ++ (next.pending ++ bytes.drop n) := by
        rw [← List.append_assoc, ← hpending, List.take_append_drop]
      have hwhole := h bytes ⟨[], ending⟩ rfl
      have hpart := hreads items ⟨next.pending ++ bytes.drop n, ending⟩ htaken
      have hsame : (⟨next.pending ++ bytes.drop n, ending⟩ :
          Feed B K).push items = (⟨[], ending⟩ : Feed B K).push bytes := by
        simp [push, ← hbytes]
      rw [hsame] at hpart
      have hleft := congrArg Feed.pending (run_unique hwhole hpart).2
      have hnone := congrArg List.length hleft
      simp only [List.length_nil, List.length_append, List.length_drop] at hnone
      omega

theorem inTurn_local {E : Type} {carry : E → Option B}
    {ms : List (Receiver E K ε α)} (h : ∀ m ∈ ms, Local carry quiet m) :
    Local carry quiet (inTurn ms) := by
  induction ms with
  | nil => exact Local.pure []
  | cons m ms ih =>
      apply (h m List.mem_cons_self).bind
      intro a
      apply (ih fun other hmem => h other (List.mem_cons_of_mem m hmem)).bind
      intro others
      exact Local.pure _

end Feed

namespace Redispp

open StateExcept Decimal CLibrary

namespace Requests

/-- The decoder sees no more than it reads. -/
abbrev Exact {α : Type} (m : Decoder α) : Prop :=
  Feed.Local some (fun _ => True) m

theorem literal_exact (bs : List Byte) : Exact (literal bs) := by
  intro feed next a bytes _ _ hrun
  simp only [StateT.run, literal] at hrun
  split at hrun
  · next htake =>
      simp only [Except.ok.injEq, Prod.mk.injEq] at hrun
      have hsplit := List.take_append_drop bs.length feed.pending
      rw [htake] at hsplit
      rw [← hrun.2]
      exact ⟨bs, bs, Feed.eq_push hsplit.symm, rfl, literal_takes bs⟩
  · contradiction

theorem exactly_exact (n : ℕ) : Exact (exactly n) := by
  intro feed next a bytes _ _ hrun
  simp only [StateT.run, exactly] at hrun
  split at hrun
  · next henough =>
      simp only [Except.ok.injEq, Prod.mk.injEq] at hrun
      obtain ⟨rfl, rfl⟩ := hrun
      have htakes := exactly_takes (feed.pending.take n)
      rw [List.length_take_of_le henough] at htakes
      exact ⟨_, _, Feed.eq_push (List.take_append_drop _ _).symm, rfl, htakes⟩
  · contradiction

theorem numeral_takes {ds : List Byte} (hne : ds ≠ [])
    (hdigits : ∀ b ∈ ds, isDigit b = true) :
    Takes (do
      let ds ← digits
      literal [CR, LF]
      return value ds) (ds ++ [CR, LF]) (value ds) := by
  intro items feed hitems
  have hrun : digits.run ((feed.push [CR, LF]).push ds) =
      .ok (ds, feed.push [CR, LF]) := by
    simp [StateT.run, digits, Feed.push, hne,
      takeWhile_digits hdigits CR_not_isDigit,
      dropWhile_digits hdigits CR_not_isDigit]
  rw [carries_some_iff.mp hitems, Feed.push_append, run_bind_of_ok hrun]
  have hend : Takes (literal [CR, LF] >>= fun _ =>
      (pure (value ds) : Decoder ℕ)) [CR, LF] (value ds) :=
    (literal_takes [CR, LF]).bind_pure rfl
  exact hend [CR, LF] feed (carries_some_iff.mpr rfl)

/-- The digits end at the CR, so that a number is exact though `digits` alone
is not. -/
theorem numeral_exact : Exact (do
    let ds ← digits
    literal [CR, LF]
    return value ds) := by
  intro feed next n bytes _ _ hrun
  obtain ⟨ds, mid, hdigits, hrest⟩ := run_bind_eq_ok hrun
  obtain ⟨u, after, hliteral, hpure⟩ := run_bind_eq_ok hrest
  obtain ⟨rfl, rfl⟩ := run_pure_eq_ok hpure
  simp only [StateT.run, digits] at hdigits
  split at hdigits
  · contradiction
  · next hne =>
      simp only [Except.ok.injEq, Prod.mk.injEq] at hdigits
      obtain ⟨rfl, rfl⟩ := hdigits
      simp only [StateT.run, literal] at hliteral
      split at hliteral
      · next hend =>
          simp only [Except.ok.injEq, Prod.mk.injEq] at hliteral
          obtain ⟨-, rfl⟩ := hliteral
          have hsplit := List.take_append_drop [CR, LF].length
            (feed.pending.dropWhile isDigit)
          rw [hend] at hsplit
          refine ⟨feed.pending.takeWhile isDigit ++ [CR, LF], _,
            Feed.eq_push ?_, rfl, numeral_takes hne ?_⟩
          · rw [List.append_assoc, hsplit, List.takeWhile_append_dropWhile]
          · intro b hb
            exact List.mem_takeWhile_imp hb
      · contradiction

theorem number_exact (mark : Char) : Exact (number mark) :=
  (literal_exact _).bind fun _ => numeral_exact

theorem element_exact : Exact element := by
  apply (number_exact '$').bind
  intro size
  apply (exactly_exact size).bind
  intro s
  exact (literal_exact _).bind fun _ => .pure _

theorem request_exact : Exact request := by
  apply (number_exact '*').bind
  intro count
  apply Feed.inTurn_local
  intro m hmem
  rw [List.eq_of_mem_replicate hmem]
  exact element_exact

/-! ## Requests as they arrive -/

def arrivedLoop : ℕ → List Byte → List (List Buffer)
  | 0, _ => []
  | most + 1, bs =>
      match request.run ⟨bs, ()⟩ with
      | .ok (elements, after) => elements :: arrivedLoop most after.pending
      | .error _ => []

/-- The requests at the front of the bytes that have arrived so far; what is
behind them is not a request yet. -/
def arrived (bs : List Byte) : List (List Buffer) :=
  arrivedLoop bs.length bs

theorem arrivedLoop_waits {bs : List Byte} {e : Unit} (most : ℕ)
    (h : request.run ⟨bs, ()⟩ = .error e) : arrivedLoop most bs = [] := by
  cases most with
  | zero => rfl
  | succ most => rw [arrivedLoop, h]

theorem arrivedLoop_request {most : ℕ} (cmd : Command) (bs : List Byte)
    (hmost : 0 < most) :
    arrivedLoop most (cmd.get ++ bs) =
      cmd.mElements :: arrivedLoop (most - 1) bs := by
  obtain ⟨most, rfl⟩ := Nat.exists_eq_add_of_le' hmost
  have hrun : request.run (⟨cmd.get ++ bs, ()⟩ : Feed Byte Unit) =
      .ok (cmd.mElements, ⟨bs, ()⟩) :=
    request_takes cmd cmd.get ⟨bs, ()⟩ (carries_some_iff.mpr rfl)
  rw [arrivedLoop, hrun]
  rfl

/-- The first `k` of these commands are whole within `n` bytes, and no more. -/
structure Whole (cmds : List Command) (n k : ℕ) : Prop where
  bound : k ≤ cmds.length
  fits : ((cmds.take k).map Command.get).flatten.length ≤ n
  last : k < cmds.length →
    n < ((cmds.take (k + 1)).map Command.get).flatten.length

theorem arrivedLoop_cut {cmds : List Command} {n most : ℕ}
    (hmost : ((cmds.map Command.get).flatten.take n).length ≤ most) :
    ∃ k, Whole cmds n k ∧
      arrivedLoop most ((cmds.map Command.get).flatten.take n) =
        (cmds.take k).map Command.mElements := by
  induction cmds generalizing n most with
  | nil =>
      refine ⟨0, ⟨le_rfl, Nat.zero_le n, fun h => absurd h (lt_irrefl 0)⟩, ?_⟩
      have hwaits : request.run ⟨[], ()⟩ = .error () := rfl
      simpa using arrivedLoop_waits most hwaits
  | cons cmd rest ih =>
      rw [List.map_cons, List.flatten_cons] at hmost ⊢
      by_cases hfits : cmd.get.length ≤ n
      · have hpos := List.length_pos_of_ne_nil (get_ne_nil cmd)
        rw [List.take_append, List.take_of_length_le hfits] at hmost ⊢
        rw [List.length_append] at hmost
        have hless : ((rest.map Command.get).flatten.take
            (n - cmd.get.length)).length ≤ most - 1 := by
          omega
        obtain ⟨k, hwhole, harrived⟩ := ih hless
        refine ⟨k + 1, ⟨?_, ?_, ?_⟩, ?_⟩
        · simpa using hwhole.bound
        · have hrest := hwhole.fits
          simp only [List.take_succ_cons, List.map_cons, List.flatten_cons,
            List.length_append]
          omega
        · intro hmore
          have hrest := hwhole.last (by simpa using hmore)
          rw [List.take_succ_cons, List.map_cons, List.flatten_cons,
            List.length_append]
          omega
        · rw [arrivedLoop_request cmd _ (by omega), harrived]
          rfl
      · refine ⟨0, ⟨Nat.zero_le _, Nat.zero_le n, ?_⟩, ?_⟩
        · intro _
          simpa using hfits
        · rw [List.take_append_of_le_length (by omega)]
          have hreads : Takes request cmd.get cmd.mElements :=
            request_takes cmd
          obtain ⟨e, hcut⟩ := request_exact.cut hreads
            (not_le.mp hfits) () trivial
          exact arrivedLoop_waits most hcut

/-- Of the first bytes of a sequence of commands the server makes exactly the
commands that are whole within them. -/
theorem arrived_cut (cmds : List Command) (n : ℕ) :
    ∃ k, Whole cmds n k ∧
      arrived ((cmds.map Command.get).flatten.take n) =
        (cmds.take k).map Command.mElements :=
  arrivedLoop_cut le_rfl

theorem Whole.all_iff {cmds : List Command} {n k : ℕ} (h : Whole cmds n k) :
    k = cmds.length ↔ ((cmds.map Command.get).flatten).length ≤ n := by
  constructor
  · rintro rfl
    simpa using h.fits
  · intro hall
    by_contra hne
    have hmore := h.last (lt_of_le_of_ne h.bound hne)
    have hsplit := congrArg (fun l => (l.map Command.get).flatten.length)
      (List.take_append_drop (k + 1) cmds)
    simp only [List.map_append, List.flatten_append, List.length_append]
      at hsplit
    omega

end Requests

theorem ResponseReader.call_starved (reader : ResponseReader)
    (keys : List (List Buffer)) :
    (reader.call keys).run ⟨[], .silent⟩ = .error .blocked := by
  cases reader with
  | stream reader => cases reader <;> rfl
  | readMultiString => rfl

namespace Client

open Requests

theorem ReadsQueue.flatten_ne_nil {readers : List ResponseReader}
    {keys last : List (List Buffer)} {replies : List (List Byte)}
    {responses : List Response}
    (h : ReadsQueue readers keys replies responses last)
    (hreplies : replies ≠ []) : replies.flatten ≠ [] := by
  cases h with
  | nil => exact absurd rfl hreplies
  | @cons reader readers keys next last reply replies resp responses hreads =>
      intro hempty
      obtain ⟨rfl, _⟩ := List.append_eq_nil_iff.mp hempty
      have hnothing := hreads [] ⟨[], .silent⟩ (Feed.carries_nil_iff.mpr rfl)
      rw [Feed.push_nil, reader.call_starved] at hnothing
      contradiction

theorem ReadsQueue.drop {readers : List ResponseReader}
    {keys last : List (List Buffer)} {replies : List (List Byte)}
    {responses : List Response}
    (h : ReadsQueue readers keys replies responses last) (k : ℕ) :
    ∃ between, ReadsQueue (readers.drop k) between (replies.drop k)
      (responses.drop k) last := by
  induction h generalizing k with
  | nil keys => exact ⟨keys, by simpa using ReadsQueue.nil keys⟩
  | cons hreads hrest ih =>
      cases k with
      | zero => exact ⟨_, .cons hreads hrest⟩
      | succ k => exact ih k

theorem run_pipelined {c : Client} (hc : c.Normal) (batch : List Query) :
    (pipelined batch).run c = execPipeline.run (c.inPipeline batch) := by
  obtain ⟨entered, hopen, hissue⟩ := run_pipeline_issue hc batch
  rw [pipelined, run_bind_of_ok hopen, run_bind_of_ok hissue,
    run_exec_pipeline (by exact hc.notMulti) rfl]

/-- `write` may send only the first `n` bytes of a pipeline, and `exec` does
not look.  With a server that answers the requests it got, `exec` returns what
it should if everything was sent, and else waits without end. -/
theorem pipelined_cut {c : Client} (hc : c.Normal) {batch : List Query}
    {replies : List (List Byte)} {responses : List Response}
    {last : List (List Buffer)} {n : ℕ} {arrivals : List Arrival}
    (hqueue : ReadsQueue (batch.map Query.reader)
      (c.mMgetKeys ++ batch.flatMap Query.keys) replies responses last)
    (harrivals : Delivers arrivals
      (replies.take (arrived ((wire batch).take n)).length).flatten) :
    ((wire batch).length ≤ n → ∃ d,
        (pipelined batch).run { c with input := ⟨arrivals, .silent⟩ } =
          .ok (responses, d)) ∧
      (n < (wire batch).length →
        (pipelined batch).run { c with input := ⟨arrivals, .silent⟩ } =
          .error .blocked) := by
  have hwire : wire batch =
      ((batch.map Query.cmd).map Command.get).flatten := by
    simp [wire, Function.comp_def]
  obtain ⟨k, hwhole, harrived⟩ := arrived_cut (batch.map Query.cmd) n
  have hbound := hwhole.bound
  have hall := hwhole.all_iff
  rw [← hwire] at hall harrived
  rw [List.length_map] at hbound hall
  have hk : (arrived ((wire batch).take n)).length = k := by
    rw [harrived, List.length_map, List.length_take, List.length_map]
    omega
  have hreplies : replies.length = batch.length := by
    simpa using hqueue.lengths.1
  rw [hk] at harrivals
  rw [run_pipelined (hc.withInput _)]
  constructor
  · intro hsent
    rw [hall.mpr hsent, ← hreplies, List.take_length] at harrivals
    exact ⟨_, run_execPipeline_of_reads hqueue harrivals
      (Feed.eq_push (List.append_nil arrivals).symm)⟩
  · intro hcut
    have hmissing : replies.drop k ≠ [] := by
      intro hnone
      have hlength := List.drop_eq_nil_iff.mp hnone
      have hsent := hall.mp (by omega)
      omega
    obtain ⟨between, hbehind⟩ := hqueue.drop k
    have hrest := hbehind.flatten_ne_nil hmissing
    -- with the other replies behind these, `exec` would return
    have hmore := Feed.Carries.append harrivals
      (delivers_arrivalsOf (replies.drop k).flatten)
    have hfull := hmore
    rw [← List.flatten_append, List.take_append_drop] at hfull
    let full : Stream := ⟨arrivals ++ arrivalsOf (replies.drop k).flatten,
      .silent⟩
    have hinput : full = (⟨[], .silent⟩ : Stream).push full.pending :=
      Feed.eq_push (List.append_nil _).symm
    have hrun := run_execPipeline_of_reads
      (c := { c.inPipeline batch with input := full }) hqueue hfull hinput
    exact execPipeline_decided.starved hrun hinput hmore hrest harrivals

/-- 27 of these bytes are the first command. -/
theorem pipelined_cut_second :
    let set := Query.command
      (.withArguments (bytes "SET") [bytes "k", bytes "a"]) .readStatusCode
    let get := Query.command (.withArguments (bytes "GET") [bytes "k"])
      .readString
    arrived ((wire [set, get]).take 30) = [set.cmd.mElements] ∧
      (pipelined [set, get]).run
        (connected ⟨arrivalsOf (bytes "+OK\r\n"), .silent⟩) =
          .error .blocked := by
  intro set get
  have harrived : arrived ((wire [set, get]).take 30) =
      [set.cmd.mElements] := by decide +kernel
  have hset : Reads StreamReader.readStatusCode.recv
      (replyLine '+' (bytes "OK")) (.ofBool true) :=
    readStatusCode_reads (by decide) (by decide)
  have hget : Reads StreamReader.readString.recv
      (encodeBulk (some (bytes "a"))) (.ofString (bytes "a")) :=
    readString_reads_bulk (by decide) (by decide)
  have hqueue : ReadsQueue ([set, get].map Query.reader)
      ((connected (streamOf [])).mMgetKeys ++ [set, get].flatMap Query.keys)
      [replyLine '+' (bytes "OK"), encodeBulk (some (bytes "a"))]
      [.ofBool true, .ofString (bytes "a")] [] :=
    .cons (StreamReader.reads_call hset)
      (.cons (StreamReader.reads_call hget) (.nil _))
  have harrivals : Delivers (arrivalsOf (bytes "+OK\r\n"))
      ([replyLine '+' (bytes "OK"), encodeBulk (some (bytes "a"))].take
        (arrived ((wire [set, get]).take 30)).length).flatten := by
    rw [harrived]
    exact delivers_arrivalsOf _
  have hcut := pipelined_cut (connected_normal (streamOf [])) hqueue harrivals
  exact ⟨harrived, hcut.2 (by decide +kernel)⟩

end Client

end Redispp
