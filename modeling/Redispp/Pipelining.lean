import Redispp.Batch

/-!
# Pipelines

A pipelined batch is compared with the same commands issued one at a time.
The written bytes and the readers are kept in the same order, and a reader
depends only on the stream, so the two executions end in the same outcome.
The second part replaces one reply of a batch by an error line.
-/

namespace Redispp

open StateExcept CLibrary

namespace Client

def pipelined (batch : List Query) :
    ClientM (List Response) := do
  let _ ← pipeline
  let _ ← issue batch
  exec

def inPipeline (c : Client) (batch : List Query) : Client := { c with
  mReaders := batch.map Query.reader
  mMgetKeys := c.mMgetKeys ++ batch.flatMap Query.keys
  mPipeline := true
  mCmd := wire batch }

theorem run_pipeline_issue {c : Client} (hc : c.Normal)
    (batch : List Query) :
    ∃ entered, pipeline.run c = .ok (true, entered) ∧
      (issue batch).run entered =
        .ok (batch.map fun _ => .new .queued, c.inPipeline batch) := by
  have hopen := run_pipeline_normal hc.notMulti hc.notPipeline
  have hissue := run_issue_pipeline batch
    (c := { c with mPipeline := true }) rfl
  have hreaders : c.mReaders ++ batch.map Query.reader =
      batch.map Query.reader := by
    simp [hc.noReaders]
  have hcmd : c.mCmd ++ wire batch = wire batch := by
    simp [hc.noCmd]
  refine ⟨_, hopen, hissue.trans ?_⟩
  rw [hreaders, hcmd]
  rfl

theorem run_execPipeline_stream {c : Client} {readers : List StreamReader}
    (hreaders : c.mReaders = readers.map .stream) :
    execPipeline.run c =
      match (recvAll readers).run c.input with
      | .error e => .error e
      | .ok (responses, input) => .ok (responses, { c with
          input := input
          output := c.output ++ c.mCmd
          mPipeline := false
          mCmd := []
          mReaders := [] }) := by
  rw [execPipeline, run_get_bind, run_bind_of_ok (run_write c.mCmd), hreaders,
    StateT.run_bind, run_readBack_stream]
  cases h : (recvAll readers).run c.input with
  | error e =>
      rw [run_receive_of_error (by exact h)]
      rfl
  | ok result =>
      obtain ⟨responses, input⟩ := result
      rw [run_receive_of_ok (by exact h)]
      rfl

/-- A pipelined batch and the same commands issued directly end alike: the
same responses and the same client, or the same failure. -/
theorem pipelined_eq_issue {c : Client} (hc : c.Normal)
    (batch : StreamBatch) :
    (pipelined batch.calls).run c = (issue batch.calls).run c ∧
      ∀ responses d, (issue batch.calls).run c = .ok (responses, d) →
        d.Normal ∧ d.output = c.output ++ wire batch.calls := by
  have hdirect := run_issue_normal batch hc.notPipeline hc.notMulti
  constructor
  · obtain ⟨entered, hopen, hissue⟩ := run_pipeline_issue hc batch.calls
    rw [pipelined, run_bind_of_ok hopen, run_bind_of_ok hissue,
      run_exec_pipeline (by exact hc.notMulti) rfl,
      run_execPipeline_stream (by exact batch.map_reader_calls), hdirect]
    cases h : (recvAll batch.readers).run c.input with
    | error e =>
        rw [run_receive_of_error (by exact h), inPipeline, h]
    | ok result =>
        obtain ⟨responses, input⟩ := result
        rw [run_receive_of_ok (by exact h), inPipeline, h]
        simp [hc.noCmd, hc.noReaders, hc.notPipeline]
  · intro responses d hrun
    rw [hdirect] at hrun
    obtain ⟨input, _, rfl⟩ := run_receive_eq_ok hrun
    exact ⟨⟨hc.notMulti, hc.notPipeline, hc.noReaders, hc.noCmd⟩, rfl⟩

theorem pipelined_eq_issue_get :
    let batch : StreamBatch :=
      [(.withArguments (bytes "GET") [bytes "x"], .readString),
        (.withArguments (bytes "INCR") [bytes "y"], .readInteger)]
    let stream := streamOf (encodeBulk (some (bytes "a")) ++ replyHeader ':' 5)
    (pipelined batch.calls).run (connected stream) =
      .ok ([.ofString (bytes "a"), .ofLong 5], { connected (streamOf []) with
        output := wire batch.calls }) := by
  intro batch stream
  have hequal := pipelined_eq_issue (connected_normal stream) batch
  exact hequal.1.trans (by decide +kernel)

/-! ## One reply replaced by an error -/

/-- If each reader of a queue consumes exactly its reply, then with one reply
replaced by an error line only its own entry changes, in the read loop and in
both ways of ending a batch, and the same input is left.  That the readers
consume their replies is assumed of one live stream; what follows the replies
may then be any stream. -/
theorem server_errors_isolated {readers : List StreamReader}
    {replies : List (List Byte)} {responses : List Response}
    {items : List Arrival} {live : Stream} {trailing : List Byte}
    (hsilent : live.ending = .silent)
    (htrailing : Delivers live.pending trailing)
    (hreplies : Delivers items replies.flatten)
    (hconsume : Feed.ConsumesEach Arrival.carry
      (readers.map StreamReader.recv) replies responses (live.push items) live)
    {j : ℕ} {reader : StreamReader} (hj : readers[j]? = some reader)
    {text : Buffer} (htext : LF ∉ text) {items' : List Arrival}
    (hitems' : Delivers items' (replies.set j (replyLine '-' text)).flatten)
    (after : Stream) {c : Client} (hreaders : c.mReaders = readers.map .stream) :
    (readBack c.mReaders).run { c with input := after.push items } =
        .ok (responses, { c with input := after }) ∧
      (readBack c.mReaders).run { c with input := after.push items' } =
        .ok (responses.set j reader.errorResponse,
          { c with input := after }) ∧
      execPipeline.run { c with input := after.push items' } =
        .ok (responses.set j reader.errorResponse, { c with
          input := after
          output := c.output ++ c.mCmd
          mPipeline := false
          mReaders := []
          mCmd := [] }) ∧
      ∀ header, Delivers header (replyHeader '*' readers.length) →
        (readers.length : ℤ) < LONG_MAX →
        execMulti.run { c with input := (after.push items').push header } =
          .ok (responses.set j reader.errorResponse, { c with
            input := after
            output := c.output ++ (Command.ofKeyword (bytes "EXEC")).get
            mMulti := false
            mReaders := []
            mCmd := [] }) := by
  have hlocal : ∀ m ∈ readers.map StreamReader.recv, Local m := by
    intro m hm
    obtain ⟨other, _, rfl⟩ := List.mem_map.mp hm
    exact other.recv_local
  have heach := hconsume.readsEach hlocal hsilent (hreplies.append htrailing)
  have hreader : (readers.map StreamReader.recv)[j]? = some reader.recv := by
    simp [hj]
  have hset := heach.set hreader (reader.reads_error htext)
  have hqueue := ReadsQueue.of_readsEach c.mMgetKeys heach
  have hqueue' := ReadsQueue.of_readsEach c.mMgetKeys hset
  rw [← hreaders] at hqueue hqueue'
  refine ⟨?_, ?_, ?_, ?_⟩
  · exact run_readBack_of_reads hqueue rfl hreplies rfl
  · exact run_readBack_of_reads hqueue' rfl hitems' rfl
  · exact run_execPipeline_of_reads (by exact hqueue') hitems' rfl
  · intro header hheader hsize
    have hlength : c.mReaders.length = readers.length := by
      simp [hreaders]
    rw [← hlength] at hheader hsize
    exact run_execMulti_of_reads hsize hheader (by exact hqueue') hitems' rfl

theorem server_errors_isolated_get :
    let readers := [StreamReader.readString, .readInteger]
    let replies := [encodeBulk (some (bytes "a")), replyHeader ':' 5]
    let c := { connected (streamOf []) with
      mReaders := readers.map ResponseReader.stream }
    (readBack c.mReaders).run { c with
        input := (streamOf []).push (arrivalsOf
          (replies.set 0 (replyLine '-' (bytes "ERR"))).flatten) } =
      .ok ([.new .err, .ofLong 5], c) := by
  intro readers replies c
  let bulk := arrivalsOf (encodeBulk (some (bytes "a")))
  let number := (streamOf []).push (arrivalsOf (replyHeader ':' 5))
  have hstring : readString.run (number.push bulk) =
      .ok (.ofString (bytes "a"), number) := by decide +kernel
  have hinteger : readInteger.run number = .ok (.ofLong 5, streamOf []) := by
    decide +kernel
  have hsplit : (streamOf []).push (arrivalsOf replies.flatten) =
      number.push bulk := by decide +kernel
  have hconsume : Feed.ConsumesEach Arrival.carry
      (readers.map StreamReader.recv) replies
      [.ofString (bytes "a"), .ofLong 5]
      ((streamOf []).push (arrivalsOf replies.flatten)) (streamOf []) := by
    rw [hsplit]
    exact .cons (delivers_arrivalsOf _) hstring
      (.cons (delivers_arrivalsOf _) hinteger (.nil (streamOf [])))
  have htext : LF ∉ bytes "ERR" := by decide
  have hisolated := server_errors_isolated rfl (delivers_arrivalsOf [])
    (delivers_arrivalsOf _) hconsume (j := 0) rfl htext
    (delivers_arrivalsOf _) (streamOf []) (c := c) rfl
  exact hisolated.2.1

end Client

end Redispp
