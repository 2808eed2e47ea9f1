import Redispp.BulkReplies
import Redispp.Transactions
import Redispp.Pipelining
import Mathlib.Data.List.ReduceOption

/-!
# Key lists of MGET in batches

`mget` pushes its key list at the back of `m_mget_keys` and
`read_multi_string` pops there, while the readers of a batch run from front to
back.  So the lists of a batch come back in the opposite order, and each
reader gets the list of its own call exactly when the sequence of lists is the
same in both directions.
-/

namespace Redispp

open StateExcept CLibrary

/-! ## One MGET reply -/

/-- The values that are present, each under its key; the first one stays. -/
def stored : RedisMap → List Buffer → List (Option Buffer) → RedisMap
  | map, [], _ => map
  | map, _ :: _, [] => map
  | map, key :: keys, some val :: elements =>
      stored (map.insertNew key val) keys elements
  | map, _ :: keys, none :: elements => stored map keys elements

theorem lookup_stored (map : RedisMap) (keys : List Buffer)
    (elements : List (Option Buffer)) (key : Buffer) :
    (stored map keys elements).lookup key =
      (map.lookup key).or ((keys.zip elements).findSome? fun pair =>
        if pair.1 = key then pair.2 else none) := by
  fun_induction stored map keys elements with
  | case1 map elements => simp
  | case2 map k keys => simp
  | case3 map k keys val elements ih =>
      rw [ih, RedisMap.lookup_insertNew, Option.or_assoc]
      by_cases hsame : k = key <;> simp [hsame]
  | case4 map k keys elements ih =>
      rw [ih]
      simp

theorem multiStringLoop_reads {keys : List Buffer} {map : RedisMap}
    {elements : List (Option Buffer)} (hlength : elements.length = keys.length)
    (hempty : some [] ∉ elements) (hmax : ∀ payload, some payload ∈ elements →
      (payload.length : ℤ) + 2 ≤ INT_MAX) :
    Reads (multiStringLoop keys (.ofHash map))
      (elements.map encodeBulk).flatten (.ofHash (stored map keys elements)) := by
  induction keys generalizing map elements with
  | nil =>
      rw [List.eq_nil_of_length_eq_zero hlength]
      exact Feed.Reads.pure _
  | cons key keys ih =>
      cases elements with
      | nil => simp at hlength
      | cons element elements =>
          have hne : element ≠ some [] := fun h => hempty (by simp [h])
          have hread := readString_reads_of_ne hne
            (fun payload h => hmax payload (by simp [h]))
          have hlength' : elements.length = keys.length := by
            simpa using hlength
          have hempty' : some [] ∉ elements :=
            fun h => hempty (List.mem_cons_of_mem element h)
          have hmax' : ∀ payload, some payload ∈ elements →
              (payload.length : ℤ) + 2 ≤ INT_MAX :=
            fun payload h => hmax payload (List.mem_cons_of_mem element h)
          rw [multiStringLoop]
          refine hread.bind ?_
          cases element with
          | none =>
              rw [if_neg (by simp [bulkResponse])]
              exact ih hlength' hempty' hmax'
          | some payload =>
              have htype : (bulkResponse (some payload)).type = .string := rfl
              rw [if_pos htype]
              exact ih hlength' hempty' hmax'

/-- With its own key list at the back, the reader takes the reply whole and
stores every value under its key. -/
theorem readMultiString_reads {front : List (List Buffer)}
    {keys : List Buffer} {elements : List (Option Buffer)} (hkeys : keys ≠ [])
    (hcount : (keys.length : ℤ) ≤ INT_MAX)
    (hlength : elements.length = keys.length) (hempty : some [] ∉ elements)
    (hmax : ∀ payload, some payload ∈ elements →
      (payload.length : ℤ) + 2 ≤ INT_MAX) :
    Reads (readMultiString (front ++ [keys])) (encodeMultiBulk elements)
      (.ofHash (stored ∅ keys elements), front) := by
  have hpos := List.length_pos_of_ne_nil hkeys
  unfold INT_MAX at hcount
  have hatol : atol (replyHeader '*' elements.length).tail =
      keys.length := by
    rw [hlength]
    exact atol_replyHeader (by unfold LONG_MIN; omega)
      (by unfold LONG_MAX; omega)
  have hint : toInt keys.length = keys.length :=
    toInt_of_mem (by unfold INT_MIN; omega) (by unfold INT_MAX; omega)
  unfold readMultiString encodeMultiBulk
  apply reads_header (by decide)
  rw [head_replyHeader, if_neg (by simp), List.getLast?_concat]
  dsimp only
  rw [hatol, hint, if_neg (by omega), Response.new_hash,
    List.dropLast_concat]
  exact (multiStringLoop_reads hlength hempty hmax).bind_pure rfl

theorem readMultiString_reads_none (front : List (List Buffer)) :
    Reads (readMultiString (front ++ [[]])) (encodeMultiBulk [])
      (.new .err, front) := by
  have hatol : atol (replyHeader '*' 0).tail = 0 :=
    atol_replyHeader (by decide) (by decide)
  unfold readMultiString encodeMultiBulk
  rw [List.map_nil, List.flatten_nil]
  apply reads_header (by decide)
  rw [head_replyHeader, if_neg (by simp), List.getLast?_concat]
  dsimp only
  rw [List.length_nil, Nat.cast_zero, hatol, if_pos (by simp),
    List.dropLast_concat]
  exact Feed.Reads.pure _

/-! ## The key lists that a batch pops -/

/-- What a reader took off the back of `m_mget_keys`. -/
def popped (before after : List (List Buffer)) : Option (List Buffer) :=
  if after.length < before.length then before.getLast? else none

@[simp] theorem popped_self (keys : List (List Buffer)) :
    popped keys keys = none := by
  simp [popped]

@[simp] theorem popped_concat (front : List (List Buffer))
    (keys : List Buffer) : popped (front ++ [keys]) front = some keys := by
  simp [popped]

/-- Past a `*` the last key list is taken, whatever follows. -/
theorem readMultiString_left {keys left : List (List Buffer)}
    {feed next : Stream} {resp : Response}
    (h : (readMultiString keys).run feed = .ok ((resp, left), next)) :
    ∃ str after, getline.run feed = .ok (str, after) ∧
      left = if str.head? = some (ascii '*') then keys.dropLast else keys := by
  unfold readMultiString at h
  obtain ⟨str, after, hline, hrest⟩ := run_bind_eq_ok h
  refine ⟨str, after, hline, ?_⟩
  split at hrest
  · next hstar =>
      obtain ⟨hresult, _⟩ := run_pure_eq_ok hrest
      rw [if_neg hstar]
      exact (Prod.mk.inj hresult).2
  · next hstar =>
      rw [if_pos (not_not.mp hstar)]
      cases hlast : keys.getLast? with
      | none =>
          rw [hlast] at hrest
          obtain ⟨hresult, _⟩ := run_pure_eq_ok hrest
          rw [List.getLast?_eq_none_iff.mp hlast] at hresult ⊢
          exact (Prod.mk.inj hresult).2
      | some own =>
          rw [hlast] at hrest
          dsimp only at hrest
          split at hrest
          · obtain ⟨hresult, _⟩ := run_pure_eq_ok hrest
            exact (Prod.mk.inj hresult).2
          · obtain ⟨ret, last, _, hpure⟩ := run_bind_eq_ok hrest
            obtain ⟨hresult, _⟩ := run_pure_eq_ok hpure
            exact (Prod.mk.inj hresult).2

theorem readMultiString_eq_ok {mgetKeys left : List (List Buffer)}
    {feed next : Stream} {resp : Response}
    (h : (readMultiString mgetKeys).run feed = .ok ((resp, left), next)) :
    left = mgetKeys ∨ ∃ keys, mgetKeys = left ++ [keys] := by
  obtain ⟨str, after, _, hleft⟩ := readMultiString_left h
  split at hleft
  · rcases List.eq_nil_or_concat mgetKeys with hnil | ⟨front, keys, hconcat⟩
    · left
      rw [hleft, hnil]
      rfl
    · right
      refine ⟨keys, ?_⟩
      rw [hleft, hconcat, List.concat_eq_append, List.dropLast_concat]
  · exact Or.inl hleft

namespace Client

def readBackPops : List ResponseReader →
    ClientM (List Response × List (Option (List Buffer)))
  | [] => return ([], [])
  | .stream reader :: rest => do
      let resp ← call (.stream reader)
      let (ret, pops) ← readBackPops rest
      return (resp :: ret, pops)
  | .readMultiString :: rest => do
      let before ← get
      let resp ← call .readMultiString
      let after ← get
      let (ret, pops) ← readBackPops rest
      return (resp :: ret, popped before.mMgetKeys after.mMgetKeys :: pops)

theorem readBack_eq_readBackPops (readers : List ResponseReader) :
    readBack readers = Prod.fst <$> readBackPops readers := by
  induction readers with
  | nil => simp [readBack, readBackPops]
  | cons reader rest ih =>
      cases reader with
      | stream reader => simp [readBack, readBackPops, ih]
      | readMultiString =>
          funext c
          simp [readBack, readBackPops, ih]

theorem call_stream_keys {reader : StreamReader} {c d : Client}
    {resp : Response} (h : (call (.stream reader)).run c = .ok (resp, d)) :
    d.mMgetKeys = c.mMgetKeys := by
  rw [run_call_stream] at h
  obtain ⟨input, _, rfl⟩ := run_receive_eq_ok h
  rfl

theorem call_multiString_keys {c d : Client} {resp : Response}
    (h : (call .readMultiString).run c = .ok (resp, d)) :
    d.mMgetKeys = c.mMgetKeys ∨
      ∃ keys, c.mMgetKeys = d.mMgetKeys ++ [keys] :=
  readMultiString_eq_ok (run_call_reader h).1

theorem readBackPops_keys {readers : List ResponseReader} {c d : Client}
    {responses : List Response} {pops : List (Option (List Buffer))}
    (h : (readBackPops readers).run c = .ok ((responses, pops), d)) :
    c.mMgetKeys = d.mMgetKeys ++ pops.reduceOption.reverse ∧
      pops.length = readers.count .readMultiString := by
  induction readers generalizing c d responses pops with
  | nil =>
      obtain ⟨hresult, rfl⟩ := run_pure_eq_ok h
      obtain ⟨_, rfl⟩ := Prod.mk.inj hresult
      simp
  | cons reader rest ih =>
      cases reader with
      | stream reader =>
          obtain ⟨resp, next, hcall, hrest⟩ := run_bind_eq_ok h
          obtain ⟨⟨ret, others⟩, last, hback, hpure⟩ := run_bind_eq_ok hrest
          obtain ⟨hresult, rfl⟩ := run_pure_eq_ok hpure
          obtain ⟨_, rfl⟩ := Prod.mk.inj hresult
          rw [← call_stream_keys hcall,
            List.count_cons_of_ne (by simp)]
          exact ih hback
      | readMultiString =>
          rw [readBackPops, run_get_bind] at h
          obtain ⟨resp, next, hcall, hrest⟩ := run_bind_eq_ok h
          rw [run_get_bind] at hrest
          obtain ⟨⟨ret, others⟩, last, hback, hpure⟩ := run_bind_eq_ok hrest
          obtain ⟨hresult, rfl⟩ := run_pure_eq_ok hpure
          obtain ⟨_, rfl⟩ := Prod.mk.inj hresult
          obtain ⟨hkeys, hlength⟩ := ih hback
          rw [List.count_cons_self, List.length_cons, hlength]
          refine ⟨?_, rfl⟩
          rcases call_multiString_keys hcall with hsame | ⟨own, hown⟩
          · rw [hsame] at hkeys ⊢
            simp [hkeys]
          · rw [hown, popped_concat, List.reduceOption_cons_of_some, hkeys]
            simp

/-! ## Batches with MGET -/

/-- The calls of a batch with whole replies of the expected types, and what
each call is to return for its own. -/
inductive OwnReplies :
    List Query → List (List Byte) → List Response → Prop
  | nil : OwnReplies [] [] []
  | command {cmd : Command} {reader : StreamReader} {reply : List Byte}
      {resp : Response} {batch : List Query} {replies : List (List Byte)}
      {responses : List Response} :
      Reads reader.recv reply resp → OwnReplies batch replies responses →
      OwnReplies (.command cmd reader :: batch) (reply :: replies)
        (resp :: responses)
  | mget {keys : List Buffer} {elements : List (Option Buffer)}
      {batch : List Query} {replies : List (List Byte)}
      {responses : List Response} :
      keys ≠ [] → (keys.length : ℤ) ≤ INT_MAX →
      elements.length = keys.length → some [] ∉ elements →
      (∀ payload, some payload ∈ elements →
        (payload.length : ℤ) + 2 ≤ INT_MAX) →
      OwnReplies batch replies responses →
      OwnReplies (.mget keys :: batch) (encodeMultiBulk elements :: replies)
        (.ofHash (stored ∅ keys elements) :: responses)
  | mgetNone {batch : List Query} {replies : List (List Byte)}
      {responses : List Response} :
      OwnReplies batch replies responses →
      OwnReplies (.mget [] :: batch) (encodeMultiBulk [] :: replies)
        (.new .err :: responses)

theorem OwnReplies.cases_cons {query : Query} {batch : List Query}
    {replies : List (List Byte)} {responses : List Response}
    (h : OwnReplies (query :: batch) replies responses) :
    ∃ reply others resp ret, replies = reply :: others ∧
      responses = resp :: ret ∧ OwnReplies batch others ret ∧
      ∀ front, Reads (query.reader.call (front ++ query.keys)) reply
        (resp, front) := by
  cases h with
  | command hread htail =>
      refine ⟨_, _, _, _, rfl, rfl, htail, ?_⟩
      intro front
      rw [Query.keys, List.append_nil]
      exact StreamReader.reads_call hread
  | mget hkeys hcount hlength hempty hmax htail =>
      exact ⟨_, _, _, _, rfl, rfl, htail, fun front =>
        readMultiString_reads hkeys hcount hlength hempty hmax⟩
  | mgetNone htail =>
      exact ⟨_, _, _, _, rfl, rfl, htail, readMultiString_reads_none⟩

theorem Query.reverse_keys (query : Query) :
    query.keys.reverse = query.keys := by
  cases query <;> rfl

theorem OwnReplies.readsQueue {batch : List Query}
    {replies : List (List Byte)} {responses : List Response}
    (h : OwnReplies batch replies responses) (front : List (List Buffer)) :
    ReadsQueue (batch.map Query.reader)
      (front ++ (batch.flatMap Query.keys).reverse) replies responses
      front := by
  induction batch generalizing replies responses with
  | nil =>
      cases h
      simpa using ReadsQueue.nil front
  | cons query batch ih =>
      obtain ⟨reply, others, resp, ret, rfl, rfl, htail, hread⟩ := h.cases_cons
      rw [List.flatMap_cons, List.reverse_append, Query.reverse_keys,
        ← List.append_assoc]
      exact .cons (hread _) (ih htail)

theorem Query.length_keys (batch : List Query) :
    (batch.map Query.reader).count .readMultiString =
      (batch.flatMap Query.keys).length := by
  induction batch with
  | nil => rfl
  | cons query batch ih =>
      cases query with
      | command cmd reader =>
          rw [List.map_cons, Query.reader, List.count_cons_of_ne (by simp), ih]
          rfl
      | mget keys =>
          rw [List.map_cons, Query.reader, List.count_cons_self, ih]
          rfl

theorem eq_map_some_of_reduceOption {pops : List (Option (List Buffer))}
    {keys : List (List Buffer)} (hpops : pops.reduceOption = keys)
    (hlength : pops.length = keys.length) : pops = keys.map some := by
  subst hpops
  have hsome : ∀ pop ∈ pops, pop.isSome :=
    List.reduceOption_length_eq_iff.mp hlength.symm
  induction pops with
  | nil => rfl
  | cons pop pops ih =>
      cases pop with
      | none => simpa using hsome none List.mem_cons_self
      | some keys =>
          rw [List.reduceOption_cons_of_some, List.map_cons]
          rw [List.reduceOption_cons_of_some] at hlength
          rw [← ih (by simpa using hlength)
            (fun pop hmem => hsome pop (List.mem_cons_of_mem _ hmem))]

theorem run_readBackPops_of_own {batch : List Query}
    {replies : List (List Byte)} {responses : List Response} {c : Client}
    {front : List (List Buffer)} {arrivals : List Arrival} {rest : Stream}
    (h : OwnReplies batch replies responses)
    (hkeys : c.mMgetKeys = front ++ (batch.flatMap Query.keys).reverse)
    (harrivals : Delivers arrivals replies.flatten)
    (hinput : c.input = rest.push arrivals) :
    (readBackPops (batch.map Query.reader)).run c =
      .ok ((responses, (batch.flatMap Query.keys).map some),
        { c with input := rest, mMgetKeys := front }) := by
  have hback := run_readBack_of_reads (h.readsQueue front) hkeys harrivals
    hinput
  rw [readBack_eq_readBackPops, StateT.run_map] at hback
  cases hrun : (readBackPops (batch.map Query.reader)).run c with
  | error e =>
      rw [hrun] at hback
      contradiction
  | ok result =>
      obtain ⟨⟨ret, pops⟩, d⟩ := result
      rw [hrun] at hback
      obtain ⟨rfl, rfl⟩ := Prod.mk.inj (Except.ok.inj hback)
      obtain ⟨hstack, hlength⟩ := readBackPops_keys hrun
      rw [Query.length_keys] at hlength
      rw [hkeys, List.append_cancel_left_eq, List.reverse_inj] at hstack
      rw [eq_map_some_of_reduceOption hstack.symm hlength]

inductive BatchKind
  | multi
  | pipeline
  deriving DecidableEq

def BatchKind.opening : BatchKind → ClientM Unit
  | .multi => do
      let _ ← Client.multi
  | .pipeline => do
      let _ ← Client.pipeline

/-- What the server sends in front of the replies of a batch of `n` calls: in
a transaction a line with a plus, one line for each command and the header
that announces the replies. -/
def BatchKind.Announces (kind : BatchKind) (n : ℕ) (front : List Byte) :
    Prop :=
  match kind with
  | .multi => ∃ text lines, LF ∉ text ∧ lines.length = n ∧
      (∀ line ∈ lines, LF ∉ line) ∧
      front = replyLine '+' text ++ linesOf lines ++ replyHeader '*' n
  | .pipeline => front = []

def beforeReplies : ClientM Unit := do
  let c ← get
  if c.mMulti then
    let _ ← execHeader
  else write c.mCmd

def pairing (kind : BatchKind) (batch : List Query) :
    ClientM (List Response × List (Option (List Buffer))) := do
  kind.opening
  let _ ← issue batch
  beforeReplies
  let c ← get
  readBackPops c.mReaders

def batched (kind : BatchKind) (batch : List Query) :
    ClientM (List Response) := do
  kind.opening
  let _ ← issue batch
  exec

theorem run_beforeReplies_multi {c d : Client} (hmulti : c.mMulti = true)
    (hfound : execHeader.run c = .ok (true, d)) :
    beforeReplies.run c = .ok ((), d) := by
  rw [beforeReplies, run_get_bind, if_pos hmulti, run_bind_of_ok hfound]
  rfl

theorem run_beforeReplies_pipeline {c : Client} (hmulti : c.mMulti = false) :
    beforeReplies.run c =
      .ok ((), { c with output := c.output ++ c.mCmd }) := by
  rw [beforeReplies, run_get_bind, if_neg (by simp [hmulti])]
  rfl

/-- From the calls `c` on, a batch whose calls have been made: `before` is the
client when the first reply is read, and `exec` returns what it reads. -/
structure Awaits (batch : List Query) (c ready before : Client) : Prop where
  readers : before.mReaders = batch.map Query.reader
  keys : before.mMgetKeys = c.mMgetKeys ++ batch.flatMap Query.keys
  replies : beforeReplies.run ready = .ok ((), before)
  exec : ∀ responses d,
    (readBack (batch.map Query.reader)).run before = .ok (responses, d) →
    ∃ last, Client.exec.run ready = .ok (responses, last) ∧ last.Normal ∧
      last.input = d.input ∧ last.mMgetKeys = d.mMgetKeys

theorem run_multi_until_replies {c : Client} (hc : c.Normal)
    (batch : List Query) (hsize : (batch.length : ℤ) < LONG_MAX)
    {announced : List Byte}
    (hannounced : BatchKind.multi.Announces batch.length announced)
    {front : List Arrival} {s : Stream} (hfront : Delivers front announced)
    (hinput : c.input = s.push front) :
    ∃ resps ready before,
      (BatchKind.multi.opening >>= fun _ => issue batch).run c =
        .ok (resps, ready) ∧
      before.input = s ∧ Awaits batch c ready before := by
  obtain ⟨text, lines, htext, hlength, hlines, rfl⟩ := hannounced
  obtain ⟨lineArrivals, header, rfl, hlineArrivals, hheader⟩ :=
    Feed.carries_append_iff.mp hfront
  rw [Feed.push_append] at hinput
  obtain ⟨resp, entered, hmulti, hissue⟩ :=
    run_multi_issue hc batch htext hlength hlines hlineArrivals hinput
  have hopening : BatchKind.multi.opening.run c = .ok ((), entered) :=
    run_bind_of_ok hmulti
  let ready := c.inTransaction batch (s.push header)
  let before : Client := { ready with
    input := s
    output := ready.output ++ (Command.ofKeyword (bytes "EXEC")).get }
  have hfound : execHeader.run ready = .ok (true, before) := by
    have hcount : ready.mReaders.length = batch.length :=
      length_readers_inTransaction c batch (s.push header)
    rw [← hcount] at hsize hheader
    have hrun := run_execHeader_count hsize hheader rfl
    rwa [decide_eq_true rfl] at hrun
  refine ⟨_, ready, before, (run_bind_of_ok hopening).trans hissue, rfl,
    rfl, rfl, run_beforeReplies_multi rfl hfound, ?_⟩
  intro responses d hback
  obtain ⟨input, keys, rfl⟩ := run_readBack_eq_ok hback
  rw [run_exec_multi rfl, run_execMulti_of_found hfound,
    run_bind_of_ok (by exact hback)]
  exact ⟨_, rfl, ⟨rfl, hc.notPipeline, rfl, rfl⟩, rfl, rfl⟩

theorem run_pipeline_until_replies {c : Client} (hc : c.Normal)
    (batch : List Query) :
    ∃ resps ready before,
      (BatchKind.pipeline.opening >>= fun _ => issue batch).run c =
        .ok (resps, ready) ∧
      before.input = c.input ∧ Awaits batch c ready before := by
  obtain ⟨entered, hpipeline, hissue⟩ := run_pipeline_issue hc batch
  have hopening : BatchKind.pipeline.opening.run c = .ok ((), entered) :=
    run_bind_of_ok hpipeline
  let ready := c.inPipeline batch
  let before : Client := { ready with output := ready.output ++ ready.mCmd }
  have hmulti : ready.mMulti = false := hc.notMulti
  refine ⟨_, ready, before, (run_bind_of_ok hopening).trans hissue, rfl,
    rfl, rfl, run_beforeReplies_pipeline hmulti, ?_⟩
  intro responses d hback
  obtain ⟨input, keys, rfl⟩ := run_readBack_eq_ok hback
  rw [run_exec_pipeline hmulti rfl, execPipeline, run_get_bind,
    run_bind_of_ok (run_write ready.mCmd), run_bind_of_ok (by exact hback)]
  exact ⟨_, rfl, ⟨hc.notMulti, rfl, rfl, rfl⟩, rfl, rfl⟩

theorem run_until_replies {c : Client} (hc : c.Normal) (kind : BatchKind)
    (batch : List Query) (hsize : (batch.length : ℤ) < LONG_MAX)
    {announced : List Byte} (hannounced : kind.Announces batch.length announced)
    {front : List Arrival} {s : Stream} (hfront : Delivers front announced)
    (hinput : c.input = s.push front) :
    ∃ resps ready before,
      (kind.opening >>= fun _ => issue batch).run c = .ok (resps, ready) ∧
      before.input = s ∧ Awaits batch c ready before := by
  cases kind with
  | multi => exact run_multi_until_replies hc batch hsize hannounced hfront hinput
  | pipeline =>
      have hnone : announced = [] := hannounced
      rw [hnone] at hfront
      rw [Feed.carries_nil_iff.mp hfront, Feed.push_nil] at hinput
      rw [← hinput]
      exact run_pipeline_until_replies hc batch

/-- Each `read_multi_string` of a batch pops the key list of its own call only
if the sequence of key lists is a palindrome.  If it is, and the replies are
whole, `exec` returns each call's own response. -/
theorem mget_pairing_iff {c : Client} (hc : c.Normal) (kind : BatchKind)
    (batch : List Query) (hsize : (batch.length : ℤ) < LONG_MAX)
    {announced : List Byte} (hannounced : kind.Announces batch.length announced)
    {front : List Arrival} {s : Stream} (hfront : Delivers front announced)
    (hinput : c.input = s.push front) :
    let keys := batch.flatMap Query.keys
    let paired := ∃ responses d,
      (pairing kind batch).run c = .ok ((responses, keys.map some), d)
    (paired → keys.reverse = keys) ∧
      ∀ replies responses arrivals rest, OwnReplies batch replies responses →
        Delivers arrivals replies.flatten → s = rest.push arrivals →
        (paired ↔ keys.reverse = keys) ∧
          (keys.reverse = keys → ∃ d,
            (batched kind batch).run c = .ok (responses, d) ∧ d.Normal ∧
            d.input = rest ∧ d.mMgetKeys = c.mMgetKeys) := by
  intro keys paired
  obtain ⟨resps, ready, before, hissued, hstream, hawaits⟩ :=
    run_until_replies hc kind batch hsize hannounced hfront hinput
  have hpairing : (pairing kind batch).run c =
      (readBackPops (batch.map Query.reader)).run before := by
    rw [pairing, ← bind_assoc, run_bind_of_ok hissued,
      run_bind_of_ok hawaits.replies, run_get_bind, hawaits.readers]
  have hnecessary : paired → keys.reverse = keys := by
    rintro ⟨responses, d, hrun⟩
    rw [hpairing] at hrun
    have hstack := (readBackPops_keys hrun).1
    have hpops : (keys.map some).reduceOption = keys := by
      simp [List.reduceOption]
    rw [hpops, hawaits.keys] at hstack
    exact (List.append_inj_right' hstack (by simp [keys])).symm
  refine ⟨hnecessary, ?_⟩
  intro replies responses arrivals rest hown harrivals hs
  have hsufficient : keys.reverse = keys →
      (readBackPops (batch.map Query.reader)).run before =
        .ok ((responses, keys.map some),
          { before with input := rest, mMgetKeys := c.mMgetKeys }) := by
    intro hpalindrome
    have hkeys : before.mMgetKeys = c.mMgetKeys ++ keys.reverse := by
      rw [hpalindrome]
      exact hawaits.keys
    exact run_readBackPops_of_own hown hkeys harrivals (hstream.trans hs)
  constructor
  · constructor
    · exact hnecessary
    · intro hpalindrome
      exact ⟨responses, _, hpairing.trans (hsufficient hpalindrome)⟩
  · intro hpalindrome
    have hback : (readBack (batch.map Query.reader)).run before =
        .ok (responses,
          { before with input := rest, mMgetKeys := c.mMgetKeys }) := by
      rw [readBack_eq_readBackPops, StateT.run_map, hsufficient hpalindrome]
      rfl
    obtain ⟨last, hexec, hlast⟩ := hawaits.exec _ _ hback
    refine ⟨last, ?_, hlast⟩
    rw [batched, ← bind_assoc, run_bind_of_ok hissued, hexec]

theorem mget_pairing_iff_same :
    let batch := [Query.mget [bytes "x"], .mget [bytes "x"]]
    let reply := encodeMultiBulk [some (bytes "a")]
    ∃ responses d, (pairing .pipeline batch).run
      (connected (streamOf [reply, reply].flatten)) =
        .ok ((responses, (batch.flatMap Query.keys).map some), d) := by
  intro batch reply
  have hmax : ∀ payload, some payload ∈ [some (bytes "a")] →
      (payload.length : ℤ) + 2 ≤ INT_MAX := by
    intro payload hmem
    simp only [List.mem_singleton, Option.some.injEq] at hmem
    subst hmem
    decide
  have hown : OwnReplies batch [reply, reply] _ :=
    .mget (by decide) (by decide) rfl (by decide) hmax
      (.mget (by decide) (by decide) rfl (by decide) hmax .nil)
  have hsplit : streamOf [reply, reply].flatten =
      (streamOf []).push (arrivalsOf [reply, reply].flatten) := by
    rw [← streamOf_append, List.append_nil]
  have hpairing := mget_pairing_iff
    (connected_normal (streamOf [reply, reply].flatten)) .pipeline batch
    (by decide) rfl (delivers_arrivalsOf []) (Feed.push_nil _).symm
  exact (hpairing.2 _ _ _ (streamOf []) hown (delivers_arrivalsOf _)
    hsplit).1.mpr rfl

theorem mget_pairing_swapped :
    let batch := [Query.mget [bytes "x"], .mget [bytes "y"]]
    let replies := [encodeMultiBulk [some (bytes "a")],
      encodeMultiBulk [some (bytes "b")]]
    let c := connected (streamOf replies.flatten)
    (batched .pipeline batch).run c =
        .ok ([.ofHash (stored ∅ [bytes "y"] [some (bytes "a")]),
          .ofHash (stored ∅ [bytes "x"] [some (bytes "b")])],
          { connected (streamOf []) with output := wire batch }) ∧
      ¬ ∃ responses d, (pairing .pipeline batch).run c =
        .ok ((responses, (batch.flatMap Query.keys).map some), d) := by
  intro batch replies c
  constructor
  · decide +kernel
  · have hswapped : ((pairing .pipeline batch).run c).map
        (fun result => result.1.2) =
        .ok [some [bytes "y"], some [bytes "x"]] := by decide +kernel
    rintro ⟨responses, d, hrun⟩
    rw [hrun] at hswapped
    have hpops : (batch.flatMap Query.keys).map some =
        [some [bytes "y"], some [bytes "x"]] := Except.ok.inj hswapped
    exact absurd hpops (by decide)

end Client

end Redispp
