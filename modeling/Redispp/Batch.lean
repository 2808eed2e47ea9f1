import Redispp.Replies
import Redispp.Client

/-!
# Batches

Commands are issued one after another, and the queued readers read the replies
back when the batch ends.  This file describes both phases in each mode.  The
readers that need nothing but the stream act as one receiver, whatever the
rest of the client is, so that issuing commands directly and reading back a
batch come down to the same receiver on the same stream.
-/

namespace Redispp

open StateExcept CLibrary

namespace Client

/-- No batch is open. -/
structure Normal (c : Client) : Prop where
  notMulti : c.mMulti = false
  notPipeline : c.mPipeline = false
  noReaders : c.mReaders = []
  noCmd : c.mCmd = []

theorem connected_normal (input : Stream) : (connected input).Normal :=
  ⟨rfl, rfl, rfl, rfl⟩

theorem Normal.withInput {c : Client} (hc : c.Normal) (input : Stream) :
    ({ c with input := input } : Client).Normal :=
  ⟨hc.notMulti, hc.notPipeline, hc.noReaders, hc.noCmd⟩

def issue : List Query → ClientM (List Response)
  | [] => return []
  | query :: rest => do
      let resp ← query.perform
      let others ← issue rest
      return resp :: others

def wire (batch : List Query) : Buffer :=
  (batch.map fun query => query.cmd.get).flatten

@[simp] theorem wire_nil : wire [] = [] := rfl

@[simp] theorem wire_cons (query : Query) (rest : List Query) :
    wire (query :: rest) = query.cmd.get ++ wire rest := rfl

/-! ## Readers that need nothing but the stream -/

theorem run_receive_bind {α β : Type} (m : Recv α) (k : α → Recv β)
    (c : Client) :
    (receive (m >>= k)).run c =
      (receive m >>= fun a => receive (k a)).run c := by
  cases h : m.run c.input with
  | error e =>
      rw [run_receive_of_error (run_bind_of_error h),
        run_bind_of_error (run_receive_of_error h)]
  | ok result =>
      obtain ⟨a, input⟩ := result
      rw [run_bind_of_ok (run_receive_of_ok h)]
      cases hk : (k a).run input with
      | error e =>
          have hbind : (m >>= k).run c.input = .error e := by
            rw [run_bind_of_ok h, hk]
          rw [run_receive_of_error hbind, run_receive_of_error hk]
      | ok result =>
          obtain ⟨b, last⟩ := result
          have hbind : (m >>= k).run c.input = .ok (b, last) := by
            rw [run_bind_of_ok h, hk]
          rw [run_receive_of_ok hbind, run_receive_of_ok hk]

def recvAll (readers : List StreamReader) : Recv (List Response) :=
  Feed.inTurn (readers.map StreamReader.recv)

theorem run_readBack_stream (readers : List StreamReader) (c : Client) :
    (readBack (readers.map .stream)).run c =
      (receive (recvAll readers)).run c := by
  induction readers generalizing c with
  | nil => rfl
  | cons reader rest ih =>
      have hsplit : recvAll (reader :: rest) =
          (reader.recv >>= fun resp => recvAll rest >>= fun ret =>
            pure (resp :: ret)) := rfl
      rw [hsplit, run_receive_bind, List.map_cons, readBack]
      cases h : reader.recv.run c.input with
      | error e =>
          have hcall : (call (.stream reader)).run c = .error e := by
            rw [run_call_stream, run_receive_of_error h]
          rw [run_bind_of_error hcall,
            run_bind_of_error (run_receive_of_error h)]
      | ok result =>
          obtain ⟨resp, input⟩ := result
          have hcall : (call (.stream reader)).run c =
              .ok (resp, { c with input := input }) := by
            rw [run_call_stream, run_receive_of_ok h]
          rw [run_bind_of_ok hcall, run_bind_of_ok (run_receive_of_ok h),
            run_receive_bind, StateT.run_bind, StateT.run_bind, ih]
          rfl

/-! ## Issuing a batch in each mode -/

abbrev StreamBatch := List (Command × StreamReader)

def StreamBatch.calls (batch : StreamBatch) : List Query :=
  batch.map fun call => .command call.1 call.2

def StreamBatch.readers (batch : StreamBatch) : List StreamReader :=
  batch.map Prod.snd

@[simp] theorem StreamBatch.calls_cons (call : Command × StreamReader)
    (rest : StreamBatch) :
    StreamBatch.calls (call :: rest) =
      .command call.1 call.2 :: StreamBatch.calls rest := rfl

@[simp] theorem StreamBatch.map_reader_calls (batch : StreamBatch) :
    batch.calls.map Query.reader = batch.readers.map .stream := by
  simp [StreamBatch.calls, StreamBatch.readers, Query.reader,
    Function.comp_def]

@[simp] theorem StreamBatch.keys_calls (batch : StreamBatch) :
    batch.calls.flatMap Query.keys = [] := by
  simp [StreamBatch.calls, List.flatMap_map, Query.keys]

@[simp] theorem StreamBatch.length_calls (batch : StreamBatch) :
    batch.calls.length = batch.length := by
  simp [StreamBatch.calls]

@[simp] theorem StreamBatch.length_readers (batch : StreamBatch) :
    batch.readers.length = batch.length := by
  simp [StreamBatch.readers]

theorem run_issue_pipeline (batch : List Query) {c : Client}
    (hpipeline : c.mPipeline = true) :
    (issue batch).run c =
      .ok (batch.map fun _ => .new .queued, { c with
        mReaders := c.mReaders ++ batch.map Query.reader
        mMgetKeys := c.mMgetKeys ++ batch.flatMap Query.keys
        mCmd := c.mCmd ++ wire batch }) := by
  induction batch generalizing c with
  | nil => simp [issue]
  | cons query rest ih =>
      have hrun := query.run_perform c
      rw [run_run_pipeline (by exact hpipeline)] at hrun
      rw [issue, run_bind_of_ok hrun, run_bind_of_ok (ih (by exact hpipeline))]
      simp

theorem run_issue_normal (batch : StreamBatch) {c : Client}
    (hpipeline : c.mPipeline = false) (hmulti : c.mMulti = false) :
    (issue batch.calls).run c =
      (receive (recvAll batch.readers)).run
        { c with output := c.output ++ wire batch.calls } := by
  induction batch generalizing c with
  | nil =>
      have hsame : ({ c with output := c.output ++ wire [] } : Client) = c := by
        simp
      rw [StreamBatch.calls, List.map_nil, hsame]
      rfl
  | cons call rest ih =>
      obtain ⟨cmd, reader⟩ := call
      have hrun : (Query.perform (.command cmd reader)).run c =
          (call (.stream reader)).run
            { c with output := c.output ++ cmd.get } :=
        run_run_normal hpipeline hmulti cmd (.stream reader)
      have hsplit : recvAll (StreamBatch.readers ((cmd, reader) :: rest)) =
          (reader.recv >>= fun resp =>
            recvAll (StreamBatch.readers rest) >>= fun ret =>
              pure (resp :: ret)) := rfl
      rw [run_call_stream] at hrun
      rw [hsplit, run_receive_bind, StreamBatch.calls_cons, issue]
      cases h : reader.recv.run c.input with
      | error e =>
          rw [run_receive_of_error (by exact h)] at hrun
          rw [run_bind_of_error hrun,
            run_bind_of_error (run_receive_of_error (by exact h))]
      | ok result =>
          obtain ⟨resp, input⟩ := result
          rw [run_receive_of_ok (by exact h)] at hrun
          rw [run_bind_of_ok hrun,
            run_bind_of_ok (run_receive_of_ok (by exact h)),
            run_receive_bind, StateT.run_bind, StateT.run_bind,
            ih (by exact hpipeline) (by exact hmulti)]
          simp only [wire_cons, List.append_assoc]
          rfl

theorem readQueued_reads {line : List Byte} (hline : LF ∉ line) :
    Reads readQueued (line ++ [LF]) (.new .err) := by
  refine (getline_reads hline).bind_pure ?_
  have hne : line ++ [LF] ≠ bytes "+QUEUED" := by
    intro heq
    have hmem : LF ∈ bytes "+QUEUED" := by
      rw [← heq]
      simp
    exact absurd hmem (by decide)
  rw [if_neg hne]

def linesOf (lines : List (List Byte)) : List Byte :=
  (lines.map (· ++ [LF])).flatten

/-- In MULTI mode every command is written and takes one line. -/
theorem run_issue_multi (batch : List Query)
    {c : Client} {lines : List (List Byte)} {arrivals : List Arrival}
    {rest : Stream} (hpipeline : c.mPipeline = false)
    (hmulti : c.mMulti = true) (hlength : lines.length = batch.length)
    (hlines : ∀ line ∈ lines, LF ∉ line)
    (harrivals : Delivers arrivals (linesOf lines))
    (hinput : c.input = rest.push arrivals) :
    (issue batch).run c =
      .ok (batch.map fun _ => .new .err, { c with
        input := rest
        output := c.output ++ wire batch
        mReaders := c.mReaders ++ batch.map Query.reader
        mMgetKeys := c.mMgetKeys ++ batch.flatMap Query.keys }) := by
  induction batch generalizing c lines arrivals with
  | nil =>
      have hnil : lines = [] := List.eq_nil_of_length_eq_zero hlength
      subst hnil
      rw [Feed.carries_nil_iff.mp harrivals, Feed.push_nil] at hinput
      simp [issue, ← hinput]
  | cons query batch ih =>
      cases lines with
      | nil => simp at hlength
      | cons line lines =>
          obtain ⟨first, second, rfl, hfirst, hsecond⟩ :=
            Feed.carries_append_iff.mp harrivals
          rw [Feed.push_append] at hinput
          have hread := readQueued_reads (hlines line List.mem_cons_self)
            first (rest.push second) hfirst
          rw [← hinput] at hread
          have hrun := query.run_perform c
          rw [run_run_multi (by exact hpipeline) (by exact hmulti),
            run_receive_of_ok (by exact hread)] at hrun
          have htail := ih (c := { c with
            input := rest.push second
            output := c.output ++ query.cmd.get
            mReaders := c.mReaders ++ [query.reader]
            mMgetKeys := c.mMgetKeys ++ query.keys })
            hpipeline hmulti (by simpa using hlength)
            (fun other hmem => hlines other (List.mem_cons_of_mem line hmem))
            hsecond rfl
          rw [issue, run_bind_of_ok hrun, run_bind_of_ok htail]
          simp

/-! ## Queues whose replies are read whole -/

/-- Each queued reader takes its own reply whole; the key lists waiting in
`m_mget_keys` pass from one to the next. -/
inductive ReadsQueue :
    List ResponseReader → List (List Buffer) → List (List Byte) →
      List Response → List (List Buffer) → Prop
  | nil (keys : List (List Buffer)) : ReadsQueue [] keys [] [] keys
  | cons {reader : ResponseReader} {readers : List ResponseReader}
      {keys next last : List (List Buffer)} {reply : List Byte}
      {replies : List (List Byte)} {resp : Response}
      {responses : List Response} :
      Reads (reader.call keys) reply (resp, next) →
      ReadsQueue readers next replies responses last →
      ReadsQueue (reader :: readers) keys (reply :: replies)
        (resp :: responses) last

theorem StreamReader.reads_call {reader : StreamReader}
    {keys : List (List Buffer)} {reply : List Byte} {resp : Response}
    (h : Reads reader.recv reply resp) :
    Reads ((ResponseReader.stream reader).call keys) reply (resp, keys) :=
  h.bind_pure rfl

theorem ReadsQueue.of_readsEach {readers : List StreamReader}
    {replies : List (List Byte)} {responses : List Response}
    (keys : List (List Buffer))
    (h : Feed.ReadsEach Arrival.carry (readers.map StreamReader.recv) replies
      responses) :
    ReadsQueue (readers.map .stream) keys replies responses keys := by
  induction readers generalizing replies responses with
  | nil =>
      cases h
      exact .nil keys
  | cons reader readers ih =>
      cases h with
      | cons hreads htail =>
          exact .cons (StreamReader.reads_call hreads) (ih htail)

theorem ReadsQueue.lengths {readers : List ResponseReader}
    {keys last : List (List Buffer)} {replies : List (List Byte)}
    {responses : List Response}
    (h : ReadsQueue readers keys replies responses last) :
    replies.length = readers.length ∧ responses.length = readers.length := by
  induction h with
  | nil => exact ⟨rfl, rfl⟩
  | cons _ _ ih =>
      simp only [List.length_cons]
      omega

theorem run_readBack_of_reads {readers : List ResponseReader}
    {keys last : List (List Buffer)} {replies : List (List Byte)}
    {responses : List Response} {c : Client} {arrivals : List Arrival}
    {rest : Stream} (h : ReadsQueue readers keys replies responses last)
    (hkeys : c.mMgetKeys = keys)
    (harrivals : Delivers arrivals replies.flatten)
    (hinput : c.input = rest.push arrivals) :
    (readBack readers).run c =
      .ok (responses, { c with input := rest, mMgetKeys := last }) := by
  induction h generalizing c arrivals with
  | nil =>
      rw [Feed.carries_nil_iff.mp harrivals, Feed.push_nil] at hinput
      subst hkeys hinput
      rfl
  | @cons reader readers keys next last reply replies resp responses hreads
      _ ih =>
      obtain ⟨first, second, rfl, hfirst, hsecond⟩ :=
        Feed.carries_append_iff.mp harrivals
      rw [Feed.push_append] at hinput
      have hread := hreads first (rest.push second) hfirst
      rw [← hinput, ← hkeys] at hread
      have hcall : (call reader).run c = .ok (resp, { c with
          input := rest.push second
          mMgetKeys := next }) := run_call_of_ok hread
      have htail := ih (c := { c with
        input := rest.push second
        mMgetKeys := next }) rfl hsecond rfl
      rw [readBack, run_bind_of_ok hcall, run_bind_of_ok htail]
      rfl

/-! ## The answer to EXEC -/

theorem run_execHeader {c : Client} {mark : Char} {text : Buffer}
    {arrivals : List Arrival} {rest : Stream} (hmark : ascii mark ≠ LF)
    (htext : LF ∉ text) (harrivals : Delivers arrivals (replyLine mark text))
    (hinput : c.input = rest.push arrivals) :
    execHeader.run c =
      .ok (ascii mark = ascii '*' &&
          atol (replyLine mark text).tail = toLong c.mReaders.length,
        { c with
          input := rest
          output := c.output ++ (Command.ofKeyword (bytes "EXEC")).get }) := by
  obtain ⟨line, hline, hsplit⟩ := replyLine_split hmark htext
  rw [hsplit] at harrivals
  have hread := getline_reads hline arrivals rest harrivals
  rw [← hinput, ← hsplit] at hread
  rw [execHeader, run_bind_of_ok (run_send _),
    run_bind_of_ok (run_receive_of_ok (by exact hread)), run_get_bind]
  simp only [head_replyLine, Option.some.injEq]
  rfl

theorem run_execHeader_error {c : Client} {text : Buffer}
    {arrivals : List Arrival} {rest : Stream} (htext : LF ∉ text)
    (harrivals : Delivers arrivals (replyLine '-' text))
    (hinput : c.input = rest.push arrivals) :
    execHeader.run c = .ok (false, { c with
      input := rest
      output := c.output ++ (Command.ofKeyword (bytes "EXEC")).get }) :=
  run_execHeader (by decide) htext harrivals hinput

/-- A header that does not announce one reply for each reader ends `exec`
before anything else is read or cleaned up. -/
theorem run_execMulti_of_not_found {c d : Client}
    (hheader : execHeader.run c = .ok (false, d)) :
    execMulti.run c = .ok ([], d) := by
  rw [execMulti, run_bind_of_ok hheader]
  rfl

theorem run_execMulti_of_found {c d : Client}
    (hheader : execHeader.run c = .ok (true, d)) :
    execMulti.run c = (do
      let ret ← readBack d.mReaders
      modify fun c => { c with mMulti := false, mCmd := [], mReaders := [] }
      return ret : ClientM (List Response)).run d := by
  rw [execMulti, run_bind_of_ok hheader]
  rfl

theorem run_execHeader_count {c : Client} {header : List Arrival}
    {rest : Stream} {count : ℕ} (hsize : (c.mReaders.length : ℤ) < LONG_MAX)
    (hheader : Delivers header (replyHeader '*' count))
    (hinput : c.input = rest.push header) :
    execHeader.run c =
      .ok (count = c.mReaders.length, { c with
        input := rest
        output := c.output ++ (Command.ofKeyword (bytes "EXEC")).get }) := by
  have hatol := atol_replyHeader_natCast '*' count
  have hlong := toLong_of_le hsize.le
  have hcount := saturate_natCast_eq_iff (m := count) hsize
  rw [replyHeader_eq_line] at hheader hatol
  rw [run_execHeader (by decide) (LF_not_mem_intText _) hheader hinput, hatol,
    hlong]
  simp [hcount]

theorem run_execMulti_of_reads {c : Client} {last : List (List Buffer)}
    {replies : List (List Byte)} {responses : List Response}
    {header arrivals : List Arrival} {rest : Stream}
    (hsize : (c.mReaders.length : ℤ) < LONG_MAX)
    (hheader : Delivers header (replyHeader '*' c.mReaders.length))
    (h : ReadsQueue c.mReaders c.mMgetKeys replies responses last)
    (harrivals : Delivers arrivals replies.flatten)
    (hinput : c.input = (rest.push arrivals).push header) :
    execMulti.run c = .ok (responses, { c with
      input := rest
      output := c.output ++ (Command.ofKeyword (bytes "EXEC")).get
      mMulti := false
      mReaders := []
      mMgetKeys := last
      mCmd := [] }) := by
  have hfound := run_execHeader_count hsize hheader hinput
  rw [decide_eq_true rfl] at hfound
  have hback := run_readBack_of_reads (c := { c with
    input := rest.push arrivals
    output := c.output ++ (Command.ofKeyword (bytes "EXEC")).get }) h rfl
    harrivals rfl
  rw [run_execMulti_of_found hfound, run_bind_of_ok hback]
  rfl

theorem run_execPipeline_of_reads {c : Client} {last : List (List Buffer)}
    {replies : List (List Byte)} {responses : List Response}
    {arrivals : List Arrival} {rest : Stream}
    (h : ReadsQueue c.mReaders c.mMgetKeys replies responses last)
    (harrivals : Delivers arrivals replies.flatten)
    (hinput : c.input = rest.push arrivals) :
    execPipeline.run c = .ok (responses, { c with
      input := rest
      output := c.output ++ c.mCmd
      mPipeline := false
      mReaders := []
      mMgetKeys := last
      mCmd := [] }) := by
  have hback := run_readBack_of_reads (c := { c with
    output := c.output ++ c.mCmd }) h rfl harrivals hinput
  rw [execPipeline, run_get_bind, run_bind_of_ok (run_write c.mCmd),
    run_bind_of_ok hback]
  rfl

end Client

end Redispp
