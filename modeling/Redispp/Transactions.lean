import Redispp.Modes

/-!
# Transactions

`multi()`, a batch and `exec()`, over the acknowledgements and the answer to
EXEC that the server may give.  When all is acknowledged the batch ends like
direct execution.  `exec` compares the announced number of replies with the
number of readers kept, which counts the calls made and not the commands
acknowledged, and it returns before its cleanup when the two differ; the last
two sections say exactly when that is harmless.
-/

namespace Redispp

open StateExcept Decimal CLibrary

namespace Client

def transaction (batch : List Query) : ClientM (List Response) := do
  let _ ← multi
  let _ ← issue batch
  exec

/-- `multi` takes one line and enters the transaction whatever it says. -/
theorem run_multi_normal {c : Client} (hc : c.Normal) {mark : Char}
    {text : Buffer} {arrivals : List Arrival} {rest : Stream}
    (hmark : ascii mark ≠ LF) (htext : LF ∉ text)
    (harrivals : Delivers arrivals (replyLine mark text))
    (hinput : c.input = rest.push arrivals) :
    multi.run c = .ok (.ofBool (ascii mark = ascii '+'), { c with
      input := rest
      output := c.output ++ (Command.ofKeyword (bytes "MULTI")).get
      mMulti := true }) := by
  have hread := readStatusCode_reads hmark htext arrivals rest harrivals
  rw [← hinput] at hread
  have hrun := run_run_normal hc.notPipeline hc.notMulti
    (.ofKeyword (bytes "MULTI")) (.stream .readStatusCode)
  rw [run_call_stream, run_receive_of_ok (by exact hread)] at hrun
  rw [multi, run_get_bind, if_neg (by simp [hc.notMulti, hc.notPipeline]),
    run_bind_of_ok hrun]
  rfl

theorem run_discard {c : Client} {mark : Char} {text : Buffer}
    {arrivals : List Arrival} {rest : Stream} (hmark : ascii mark ≠ LF)
    (htext : LF ∉ text) (harrivals : Delivers arrivals (replyLine mark text))
    (hinput : c.input = rest.push arrivals) :
    discard.run c = .ok (.ofBool (ascii mark = ascii '+'), { c with
      input := rest
      output := c.output ++ (Command.ofKeyword (bytes "DISCARD")).get
      mMulti := false
      mReaders := []
      mPipeline := false
      mCmd := [] }) := by
  have hread := readStatusCode_reads hmark htext arrivals rest harrivals
  rw [← hinput] at hread
  rw [discard, run_modify_bind, run_run_normal rfl rfl, run_call_stream,
    run_receive_of_ok (by exact hread)]

def inTransaction (c : Client) (batch : List Query) (input : Stream) :
    Client := { c with
  input := input
  output := c.output ++ (Command.ofKeyword (bytes "MULTI")).get ++ wire batch
  mMulti := true
  mReaders := batch.map Query.reader
  mMgetKeys := c.mMgetKeys ++ batch.flatMap Query.keys }

@[simp] theorem length_readers_inTransaction (c : Client)
    (batch : List Query) (input : Stream) :
    (c.inTransaction batch input).mReaders.length = batch.length := by
  simp [inTransaction]

theorem run_multi_issue {c : Client} (hc : c.Normal) (batch : List Query)
    {text : Buffer} (htext : LF ∉ text) {lines : List (List Byte)}
    (hlength : lines.length = batch.length)
    (hlines : ∀ line ∈ lines, LF ∉ line) {front : List Arrival}
    {rest : Stream}
    (hfront : Delivers front (replyLine '+' text ++ linesOf lines))
    (hinput : c.input = rest.push front) :
    ∃ resp entered, multi.run c = .ok (resp, entered) ∧
      (issue batch).run entered =
        .ok (batch.map fun _ => .new .err, c.inTransaction batch rest) := by
  obtain ⟨greeting, acknowledgements, rfl, hgreeting, hacknowledgements⟩ :=
    Feed.carries_append_iff.mp hfront
  rw [Feed.push_append] at hinput
  have hmulti := run_multi_normal hc (by decide) htext hgreeting hinput
  have hissue := run_issue_multi batch (c := { c with
    input := rest.push acknowledgements
    output := c.output ++ (Command.ofKeyword (bytes "MULTI")).get
    mMulti := true }) hc.notPipeline rfl hlength hlines hacknowledgements rfl
  have hreaders : c.mReaders ++ batch.map Query.reader =
      batch.map Query.reader := by
    simp [hc.noReaders]
  refine ⟨_, _, hmulti, hissue.trans ?_⟩
  rw [hreaders]
  rfl

theorem run_transaction {c : Client} (hc : c.Normal) (batch : List Query)
    {text : Buffer} (htext : LF ∉ text) {lines : List (List Byte)}
    (hlength : lines.length = batch.length)
    (hlines : ∀ line ∈ lines, LF ∉ line) {front : List Arrival}
    {rest : Stream}
    (hfront : Delivers front (replyLine '+' text ++ linesOf lines))
    (hinput : c.input = rest.push front) :
    (transaction batch).run c =
      execMulti.run (c.inTransaction batch rest) := by
  obtain ⟨resp, entered, hmulti, hissue⟩ :=
    run_multi_issue hc batch htext hlength hlines hfront hinput
  rw [transaction, run_bind_of_ok hmulti, run_bind_of_ok hissue,
    run_exec_multi rfl]

/-! ## The answer to a queued command -/

/-- In a transaction every command call answers with an error, since the line
is compared with its end still on it. -/
theorem run_perform_multi (query : Query) {c : Client}
    (hmulti : c.mMulti = true) (hpipeline : c.mPipeline = false)
    {line : List Byte} (hline : LF ∉ line) {arrivals : List Arrival}
    {rest : Stream} (harrivals : Delivers arrivals (line ++ [LF]))
    (hinput : c.input = rest.push arrivals) :
    query.perform.run c = .ok (.new .err, { c with
      input := rest
      output := c.output ++ query.cmd.get
      mReaders := c.mReaders ++ [query.reader]
      mMgetKeys := c.mMgetKeys ++ query.keys }) := by
  have hread := readQueued_reads hline arrivals rest harrivals
  rw [← hinput] at hread
  rw [query.run_perform,
    run_run_multi (by exact hpipeline) (by exact hmulti),
    run_receive_of_ok (by exact hread)]

/-- A call in a transaction says what the line says, and takes just that line,
exactly when the line is not the acknowledgement. -/
theorem queued_answer_iff {query : Query} {c : Client}
    (hmulti : c.mMulti = true) (hpipeline : c.mPipeline = false)
    {line : List Byte} (hline : LF ∉ line) {arrivals : List Arrival}
    {rest : Stream} (harrivals : Delivers arrivals (line ++ [LF]))
    (hinput : c.input = rest.push arrivals) :
    (∃ resp d, query.perform.run c = .ok (resp, d) ∧
        (resp.type = .queued ↔ line ++ [LF] = bytes "+QUEUED\r\n") ∧
        (resp.type ≠ .queued → resp.type = .err) ∧ d.input = rest) ↔
      line ++ [LF] ≠ bytes "+QUEUED\r\n" := by
  have hrun := run_perform_multi query hmulti hpipeline hline harrivals
    hinput
  constructor
  · rintro ⟨resp, d, hother, hqueued, _, _⟩ hacknowledged
    have htype := hqueued.mpr hacknowledged
    rw [← (run_unique hrun hother).1] at htype
    exact absurd htype (by simp)
  · intro hother
    exact ⟨_, _, hrun, by simp [hother], fun _ => rfl, rfl⟩

theorem queued_answer_iff_refused :
    let query := Query.command (.withArguments (bytes "GET") []) .readString
    let line := bytes "-ERR\r"
    let c := { connected ((streamOf []).push (arrivalsOf (line ++ [LF]))) with
      mMulti := true }
    (∃ resp d, query.perform.run c = .ok (resp, d) ∧
        (resp.type = .queued ↔ line ++ [LF] = bytes "+QUEUED\r\n") ∧
        (resp.type ≠ .queued → resp.type = .err) ∧ d.input = streamOf []) ↔
      line ++ [LF] ≠ bytes "+QUEUED\r\n" := by
  intro query line c
  have hline : LF ∉ line := by decide
  exact queued_answer_iff (c := c) rfl rfl hline (delivers_arrivalsOf _) rfl

theorem queued_answer_acknowledged :
    let query := Query.command (.withArguments (bytes "GET") [bytes "x"])
      .readString
    let c := { connected (streamOf (bytes "+QUEUED\r\n")) with
      mMulti := true }
    ¬ ∃ resp d, query.perform.run c = .ok (resp, d) ∧
      resp.type = .queued := by
  intro query c
  have hrun : query.perform.run c = .ok (.new .err, { c with
      input := streamOf []
      output := query.cmd.get
      mReaders := [query.reader] }) := by decide +kernel
  rintro ⟨resp, d, hother, hqueued⟩
  rw [← (run_unique hrun hother).1] at hqueued
  exact absurd hqueued (by simp)

/-! ## A transaction acknowledged throughout -/

theorem run_execMulti_stream {c : Client} {readers : List StreamReader}
    {header : List Arrival} {rest : Stream}
    (hreaders : c.mReaders = readers.map .stream)
    (hsize : (readers.length : ℤ) < LONG_MAX)
    (hheader : Delivers header (replyHeader '*' readers.length))
    (hinput : c.input = rest.push header) :
    execMulti.run c =
      match (recvAll readers).run rest with
      | .error e => .error e
      | .ok (responses, input) => .ok (responses, { c with
          input := input
          output := c.output ++ (Command.ofKeyword (bytes "EXEC")).get
          mMulti := false
          mReaders := []
          mCmd := [] }) := by
  have hlength : c.mReaders.length = readers.length := by
    simp [hreaders]
  have hfound := run_execHeader_count (by rw [hlength]; exact hsize) hheader
    hinput
  rw [hlength, decide_eq_true rfl] at hfound
  rw [run_execMulti_of_found hfound, hreaders, StateT.run_bind,
    run_readBack_stream]
  cases h : (recvAll readers).run rest with
  | error e =>
      rw [run_receive_of_error (by exact h)]
      rfl
  | ok result =>
      obtain ⟨responses, input⟩ := result
      rw [run_receive_of_ok (by exact h)]
      rfl

/-- A transaction whose commands are all acknowledged ends like the same
commands issued directly on what follows the announced number: the same
responses and the same rest of the stream, or the same failure. -/
theorem transaction_eq_issue {c : Client} (hc : c.Normal)
    (batch : StreamBatch) (hsize : (batch.length : ℤ) < LONG_MAX)
    {text : Buffer} (htext : LF ∉ text) {lines : List (List Byte)}
    (hlength : lines.length = batch.length)
    (hlines : ∀ line ∈ lines, LF ∉ line) {arrivals : List Arrival}
    (harrivals : Delivers arrivals (replyLine '+' text ++ linesOf lines ++
      replyHeader '*' batch.length)) (s : Stream) :
    (transaction batch.calls).run { c with input := s.push arrivals } =
        (match (issue batch.calls).run { c with input := s } with
        | .error e => .error e
        | .ok (responses, d) => .ok (responses, { d with
            output := c.output ++ (Command.ofKeyword (bytes "MULTI")).get ++
              wire batch.calls ++ (Command.ofKeyword (bytes "EXEC")).get })) ∧
      ∀ responses d, (transaction batch.calls).run
          { c with input := s.push arrivals } = .ok (responses, d) →
        responses.length = batch.length ∧ d.Normal := by
  obtain ⟨front, header, rfl, hfront, hheader⟩ :=
    Feed.carries_append_iff.mp harrivals
  have hopen := run_transaction (hc.withInput (s.push (front ++ header)))
    batch.calls htext (by simpa using hlength) hlines hfront
    (Feed.push_append front header s)
  rw [← batch.length_readers] at hsize hheader
  rw [run_execMulti_stream (by exact batch.map_reader_calls) hsize hheader rfl]
    at hopen
  rw [hopen, run_issue_normal batch (by exact hc.notPipeline)
    (by exact hc.notMulti)]
  cases h : (recvAll batch.readers).run s with
  | error e =>
      rw [run_receive_of_error (by exact h)]
      exact ⟨rfl, fun _ _ hrun => nomatch hrun⟩
  | ok result =>
      obtain ⟨responses, input⟩ := result
      rw [run_receive_of_ok (by exact h)]
      constructor
      · simp [inTransaction, hc.noCmd, hc.noReaders, hc.notMulti]
      · intro responses' d hrun
        simp only [Except.ok.injEq, Prod.mk.injEq] at hrun
        obtain ⟨rfl, rfl⟩ := hrun
        refine ⟨?_, ⟨rfl, hc.notPipeline, rfl, rfl⟩⟩
        have hcount := Feed.inTurn_length h
        simpa using hcount

theorem transaction_eq_issue_get :
    let get := Command.withArguments (bytes "GET") [bytes "x"]
    let batch : StreamBatch := [(get, .readString)]
    let arrivals := arrivalsOf (replyLine '+' (bytes "OK") ++
      linesOf [bytes "+QUEUED\r"] ++ replyHeader '*' 1)
    let s := streamOf (encodeBulk (some (bytes "a")))
    (transaction batch.calls).run
        { connected s with input := s.push arrivals } =
      .ok ([.ofString (bytes "a")], { connected (streamOf []) with
        output := (Command.ofKeyword (bytes "MULTI")).get ++ get.get ++
          (Command.ofKeyword (bytes "EXEC")).get }) := by
  intro get batch arrivals s
  have htext : LF ∉ bytes "OK" := by decide
  have hlines : ∀ line ∈ [bytes "+QUEUED\r"], LF ∉ line := by decide
  have hequal := transaction_eq_issue (connected_normal s) batch (by decide)
    htext rfl hlines (delivers_arrivalsOf _) s
  exact hequal.1.trans (by decide)

/-! ## Refused commands -/

inductive Acknowledgement
  | queued
  | refused (text : Buffer)
  deriving DecidableEq

def Acknowledgement.line : Acknowledgement → Buffer
  | .queued => replyLine '+' (bytes "QUEUED")
  | .refused text => replyLine '-' text

def acknowledged (batch : StreamBatch)
    (answers : List Acknowledgement) : List StreamReader :=
  (batch.zip answers).filterMap fun answered =>
    if answered.2 = .queued then some answered.1.2 else none

def answerTo (reader : StreamReader) (reply : List Byte) : Option Response :=
  match reader.recv.run (streamOf reply) with
  | .ok (resp, _) => some resp
  | .error _ => none

theorem answerTo_of_reads {reader : StreamReader} {reply : List Byte}
    {resp : Response} (h : Reads reader.recv reply resp) :
    answerTo reader reply = some resp := by
  have hrun := h (arrivalsOf reply) (streamOf []) (delivers_arrivalsOf reply)
  rw [← streamOf_append, List.append_nil] at hrun
  rw [answerTo, hrun]

theorem answerTo_of_readsEach {readers : List StreamReader}
    {replies : List (List Byte)} {responses : List Response}
    (h : Feed.ReadsEach Arrival.carry (readers.map StreamReader.recv) replies
      responses) :
    responses.map some = List.zipWith answerTo readers replies := by
  induction readers generalizing replies responses with
  | nil =>
      cases h
      rfl
  | cons reader readers ih =>
      cases h with
      | cons hreads htail =>
          simp [ih htail, answerTo_of_reads hreads]

theorem exists_lines {answers : List Acknowledgement}
    (htexts : ∀ text, .refused text ∈ answers → LF ∉ text) :
    ∃ lines, lines.length = answers.length ∧ (∀ line ∈ lines, LF ∉ line) ∧
      (answers.map Acknowledgement.line).flatten = linesOf lines := by
  induction answers with
  | nil => exact ⟨[], rfl, by simp, rfl⟩
  | cons answer answers ih =>
      obtain ⟨lines, hlength, hlines, hflat⟩ := ih
        (fun text hmem => htexts text (List.mem_cons_of_mem answer hmem))
      obtain ⟨line, hline, hsplit⟩ :
          ∃ line, LF ∉ line ∧ answer.line = line ++ [LF] := by
        cases answer with
        | queued => exact replyLine_split (by decide) (by decide)
        | refused text =>
            exact replyLine_split (by decide) (htexts text List.mem_cons_self)
      refine ⟨line :: lines, by simp [hlength], ?_, ?_⟩
      · intro other hmem
        rcases List.mem_cons.mp hmem with rfl | htail
        · exact hline
        · exact hlines other htail
      · simp [linesOf, hsplit, hflat]

theorem length_acknowledged_le (batch : StreamBatch)
    (answers : List Acknowledgement) :
    (acknowledged batch answers).length ≤ batch.length := by
  have hfilter := List.length_filterMap_le
    (fun answered : (Command × StreamReader) × Acknowledgement =>
      if answered.2 = .queued then some answered.1.2 else none)
    (batch.zip answers)
  have hzip : (batch.zip answers).length ≤ batch.length := by
    rw [List.length_zip]
    exact min_le_left _ _
  exact hfilter.trans hzip

theorem acknowledged_eq_readers {batch : StreamBatch}
    {answers : List Acknowledgement}
    (h : (acknowledged batch answers).length = batch.length) :
    acknowledged batch answers = batch.readers := by
  induction batch generalizing answers with
  | nil => rfl
  | cons call batch ih =>
      cases answers with
      | nil => simp [acknowledged] at h
      | cons answer answers =>
          have hle := length_acknowledged_le batch answers
          cases answer with
          | queued =>
              have hstep : acknowledged (call :: batch) (.queued :: answers) =
                  call.2 :: acknowledged batch answers := by
                simp [acknowledged]
              rw [hstep] at h ⊢
              rw [ih (by simpa using h)]
              rfl
          | refused text =>
              have hstep : acknowledged (call :: batch)
                  (.refused text :: answers) = acknowledged batch answers := by
                simp [acknowledged]
              rw [hstep, List.length_cons] at h
              omega

/-- A refused command is harmless only if all are refused: `exec` returns one
response for each acknowledged command and takes the whole answer exactly when
none was acknowledged or none was refused, given that each reader takes its
reply whole. -/
theorem refused_commands_iff {c : Client} (hc : c.Normal)
    (batch : StreamBatch) (hsize : (batch.length : ℤ) < LONG_MAX)
    {text : Buffer} (htext : LF ∉ text) {answers : List Acknowledgement}
    (hanswers : answers.length = batch.length)
    (htexts : ∀ text, .refused text ∈ answers → LF ∉ text)
    {replies : List (List Byte)}
    (hreplies : replies.length = (acknowledged batch answers).length)
    {arrivals : List Arrival} {rest : Stream}
    (harrivals : Delivers arrivals (replyLine '+' text ++
      (answers.map Acknowledgement.line).flatten ++
      (replyHeader '*' replies.length ++ replies.flatten)))
    (hinput : c.input = rest.push arrivals) :
    let spared := ∃ responses d,
      (transaction batch.calls).run c = .ok (responses, d) ∧
      responses.map some =
        List.zipWith answerTo (acknowledged batch answers) replies ∧
      d.input = rest
    (spared → replies = [] ∨ replies.length = batch.length) ∧
      ∀ responses, Feed.ReadsEach Arrival.carry
          ((acknowledged batch answers).map StreamReader.recv) replies
          responses →
        (spared ↔ replies = [] ∨ replies.length = batch.length) := by
  intro spared
  obtain ⟨lines, hlength, hlines, hflat⟩ := exists_lines htexts
  rw [hflat] at harrivals
  obtain ⟨front, answer, rfl, hfront, hanswer⟩ :=
    Feed.carries_append_iff.mp harrivals
  obtain ⟨header, body, rfl, hheader, hbody⟩ :=
    Feed.carries_append_iff.mp hanswer
  rw [Feed.push_append, Feed.push_append] at hinput
  have hopen := run_transaction hc batch.calls htext
    (by simp [hlength, hanswers]) hlines hfront hinput
  have hfound := run_execHeader_count
    (c := c.inTransaction batch.calls ((rest.push body).push header))
    (by simpa using hsize) hheader rfl
  rw [length_readers_inTransaction, StreamBatch.length_calls] at hfound
  have hnecessary : spared → replies = [] ∨ replies.length = batch.length := by
    rintro ⟨responses, d, hrun, hresponses, _⟩
    by_cases hcount : replies.length = batch.length
    · exact Or.inr hcount
    · left
      rw [decide_eq_false hcount] at hfound
      have hstopped := hopen.trans (run_execMulti_of_not_found hfound)
      rw [← (run_unique hstopped hrun).1] at hresponses
      have hzip := congrArg List.length hresponses
      rw [List.length_zipWith, ← hreplies, min_self] at hzip
      exact List.eq_nil_of_length_eq_zero hzip.symm
  refine ⟨hnecessary, fun responses hreads => ⟨hnecessary, ?_⟩⟩
  intro hkept
  by_cases hcount : replies.length = batch.length
  · have hall := acknowledged_eq_readers (hreplies ▸ hcount)
    rw [hall] at hreads
    have hqueue := ReadsQueue.of_readsEach
      (c.mMgetKeys ++ batch.calls.flatMap Query.keys) hreads
    rw [← StreamBatch.map_reader_calls] at hqueue
    rw [hcount] at hheader
    have hexec := run_execMulti_of_reads
      (c := c.inTransaction batch.calls ((rest.push body).push header))
      (by simpa using hsize) (by simpa using hheader) hqueue hbody rfl
    refine ⟨responses, _, hopen.trans hexec, ?_, rfl⟩
    rw [hall]
    exact answerTo_of_readsEach hreads
  · obtain rfl : replies = [] := by
      rcases hkept with hnil | hsame
      · exact hnil
      · exact absurd hsame hcount
    rw [decide_eq_false hcount] at hfound
    refine ⟨[], _, hopen.trans (run_execMulti_of_not_found hfound), ?_, ?_⟩
    · simp
    · exact Feed.carries_nil_iff.mp hbody ▸ rfl

theorem refused_commands_iff_all :
    let batch : StreamBatch :=
      [(.withArguments (bytes "GET") [bytes "x"], .readString)]
    let replies := [encodeBulk (some (bytes "a"))]
    let arrivals := arrivalsOf (replyLine '+' (bytes "OK") ++
      ([Acknowledgement.queued].map Acknowledgement.line).flatten ++
      (replyHeader '*' replies.length ++ replies.flatten))
    let spared := ∃ responses d, (transaction batch.calls).run
        (connected ((streamOf []).push arrivals)) = .ok (responses, d) ∧
      responses.map some =
        List.zipWith answerTo (acknowledged batch [.queued]) replies ∧
      d.input = streamOf []
    (spared → replies = [] ∨ replies.length = batch.length) ∧
      ∀ responses, Feed.ReadsEach Arrival.carry
          ((acknowledged batch [.queued]).map StreamReader.recv) replies
          responses →
        (spared ↔ replies = [] ∨ replies.length = batch.length) := by
  intro batch replies arrivals
  have htext : LF ∉ bytes "OK" := by decide
  have htexts : ∀ text, Acknowledgement.refused text ∈ [.queued] →
      LF ∉ text := by simp
  exact refused_commands_iff (connected_normal _) batch (by decide) htext rfl
    htexts rfl (delivers_arrivalsOf _) rfl

theorem refused_command_spoils :
    let batch : StreamBatch :=
      [(.withArguments (bytes "GET") [bytes "x"], .readString),
        (.withArguments (bytes "FLUSHALL") [], .readStatusCode)]
    let answers := [Acknowledgement.queued, .refused (bytes "ERR")]
    let replies := [encodeBulk (some (bytes "a"))]
    let stream := streamOf (replyLine '+' (bytes "OK") ++
      (answers.map Acknowledgement.line).flatten ++
      (replyHeader '*' replies.length ++ replies.flatten))
    ¬ ∃ responses d,
      (transaction batch.calls).run (connected stream) = .ok (responses, d) ∧
      responses.map some =
        List.zipWith answerTo (acknowledged batch answers) replies ∧
      d.input = streamOf [] := by
  intro batch answers replies stream
  have hspoilt : (transaction batch.calls).run (connected stream) =
      .ok ([], { connected (streamOf replies.flatten) with
        output := (Command.ofKeyword (bytes "MULTI")).get ++
          wire batch.calls ++ (Command.ofKeyword (bytes "EXEC")).get
        mMulti := true
        mReaders := batch.calls.map Query.reader }) := by decide +kernel
  rintro ⟨responses, d, hrun, hresponses, _⟩
  rw [← (run_unique hspoilt hrun).1] at hresponses
  exact absurd hresponses (by decide)

/-! ## The answer to EXEC -/

inductive ExecAnswer
  | error (text : Buffer)
  | nil
  | replies (parts : List (List Byte))
  deriving DecidableEq

def ExecAnswer.encode : ExecAnswer → List Byte
  | .error text => replyLine '-' text
  | .nil => replyHeader '*' (-1)
  | .replies parts => replyHeader '*' parts.length ++ parts.flatten

/-- `exec` refuses every answer that does not announce one reply for each
reader, and reads none of the replies that follow. -/
theorem run_execHeader_mismatch {c : Client} {answer : ExecAnswer}
    (hsize : (c.mReaders.length : ℤ) < LONG_MAX)
    (htext : ∀ text, answer = .error text → LF ∉ text)
    (hmismatch : ∀ parts, answer = .replies parts →
      parts.length ≠ c.mReaders.length)
    {arrivals : List Arrival} {rest : Stream}
    (harrivals : Delivers arrivals answer.encode)
    (hinput : c.input = rest.push arrivals) :
    ∃ input, execHeader.run c = .ok (false, { c with
      input := input
      output := c.output ++ (Command.ofKeyword (bytes "EXEC")).get }) := by
  cases answer with
  | error text =>
      exact ⟨rest, run_execHeader_error (htext text rfl) harrivals hinput⟩
  | nil =>
      have hatol : atol (replyLine '*' (intText (-1))).tail = -1 :=
        atol_replyHeader (by decide) (by decide)
      have hrun := run_execHeader (by decide) (LF_not_mem_intText _) harrivals
        hinput
      have hne : (-1 : ℤ) ≠ c.mReaders.length := by omega
      rw [hatol, toLong_of_le hsize.le, decide_eq_false hne,
        Bool.and_false] at hrun
      exact ⟨rest, hrun⟩
  | replies parts =>
      obtain ⟨header, body, rfl, hheader, _⟩ :=
        Feed.carries_append_iff.mp harrivals
      rw [Feed.push_append] at hinput
      have hrun := run_execHeader_count hsize hheader hinput
      rw [decide_eq_false (hmismatch parts rfl)] at hrun
      exact ⟨rest.push body, hrun⟩

def openTransaction : Client := { connected (streamOf []) with
  output := (Command.ofKeyword (bytes "MULTI")).get ++
    (Command.withArguments (bytes "GET") [bytes "x"]).get
  mMulti := true
  mReaders := [.stream .readString] }

theorem reachable_openTransaction : Reachable openTransaction := by
  let entered := { connected (streamOf []) with
    output := (Command.ofKeyword (bytes "MULTI")).get
    mMulti := true }
  have hmulti : Called (connected (streamOf []))
      (streamOf (replyLine '+' (bytes "OK")), .multi) entered := by
    unfold Called
    decide +kernel
  have hget : Called entered (streamOf (replyLine '+' (bytes "QUEUED")),
      .query (.command (.withArguments (bytes "GET") [bytes "x"])
        .readString)) openTransaction := by
    unfold Called
    decide +kernel
  exact ⟨streamOf [], _, .snoc (.snoc .nil hmulti) hget⟩

/-- `exec` in a transaction ends the batch only on an answer with one reply
for each reader; on such an answer it does if the readers take the replies
whole. -/
theorem exec_ends_batch_iff {c : Client} (hc : Reachable c)
    (hmulti : c.mMulti = true) (hsize : (c.mReaders.length : ℤ) < LONG_MAX)
    {answer : ExecAnswer} (htext : ∀ text, answer = .error text → LF ∉ text)
    {arrivals : List Arrival} {rest : Stream}
    (harrivals : Delivers arrivals answer.encode) :
    let ends := ∃ responses d,
      exec.run { c with input := rest.push arrivals } = .ok (responses, d) ∧
      d.Normal ∧ d.input = rest
    let whole := ∀ parts, answer = .replies parts → ∃ responses last,
      ReadsQueue (c.mReaders.take parts.length) c.mMgetKeys
        (parts.take c.mReaders.length) responses last
    let announced := ∃ parts, answer = .replies parts ∧
      parts.length = c.mReaders.length
    (ends → announced) ∧ (whole → (ends ↔ announced)) := by
  intro ends whole announced
  have hnecessary : ends → announced := by
    rintro ⟨responses, d, hrun, hd, _⟩
    by_contra hmismatch
    have hcount : ∀ parts, answer = .replies parts →
        parts.length ≠ c.mReaders.length :=
      fun parts hanswer hlength => hmismatch ⟨parts, hanswer, hlength⟩
    obtain ⟨input, hheader⟩ := run_execHeader_mismatch
      (c := { c with input := rest.push arrivals }) hsize htext hcount
      harrivals rfl
    have hstopped := run_execMulti_of_not_found hheader
    rw [run_exec_multi (by exact hmulti)] at hrun
    have hstill := (run_unique hstopped hrun).2
    have hflag := hd.notMulti
    rw [← hstill, hmulti] at hflag
    exact absurd hflag (by simp)
  refine ⟨hnecessary, fun hwhole => ⟨hnecessary, ?_⟩⟩
  rintro ⟨parts, rfl, hlength⟩
  obtain ⟨responses, last, hqueue⟩ := hwhole parts rfl
  rw [hlength, List.take_length, ← hlength, List.take_length] at hqueue
  obtain ⟨header, body, rfl, hheader, hbody⟩ :=
    Feed.carries_append_iff.mp harrivals
  rw [hlength] at hheader
  have hexec := run_execMulti_of_reads (c := { c with
    input := rest.push (header ++ body) }) hsize hheader hqueue hbody
    (Feed.push_append header body rest)
  refine ⟨responses, _, (run_exec_multi (by exact hmulti)).trans hexec, ?_, rfl⟩
  exact ⟨rfl, hc.notPipeline hmulti, rfl, rfl⟩

theorem exec_ends_batch_iff_one :
    let answer := ExecAnswer.replies [encodeBulk (some (bytes "a"))]
    let ends := ∃ responses d, exec.run { openTransaction with
        input := (streamOf []).push (arrivalsOf answer.encode) } =
          .ok (responses, d) ∧
      d.Normal ∧ d.input = streamOf []
    let whole := ∀ parts, answer = .replies parts → ∃ responses last,
      ReadsQueue (openTransaction.mReaders.take parts.length)
        openTransaction.mMgetKeys
        (parts.take openTransaction.mReaders.length) responses last
    let announced := ∃ parts, answer = .replies parts ∧
      parts.length = openTransaction.mReaders.length
    (ends → announced) ∧ (whole → (ends ↔ announced)) := by
  intro answer
  have htext : ∀ text, answer = .error text → LF ∉ text := by
    simp [answer]
  exact exec_ends_batch_iff reachable_openTransaction rfl (by decide) htext
    (delivers_arrivalsOf _)

/-- After an aborted EXEC the client still is in the transaction. -/
theorem exec_abort_keeps_batch :
    Reachable openTransaction ∧ openTransaction.mMulti = true ∧
      ¬ ∃ responses d, exec.run { openTransaction with
          input := streamOf (ExecAnswer.error (bytes "EXECABORT")).encode } =
            .ok (responses, d) ∧
        d.Normal ∧ d.input = streamOf [] := by
  refine ⟨reachable_openTransaction, rfl, ?_⟩
  have hkept : exec.run { openTransaction with
      input := streamOf (ExecAnswer.error (bytes "EXECABORT")).encode } =
      .ok ([], { openTransaction with
        output := openTransaction.output ++
          (Command.ofKeyword (bytes "EXEC")).get }) := by decide +kernel
  rintro ⟨responses, d, hrun, hd, _⟩
  have hflag := hd.notMulti
  rw [← (run_unique hkept hrun).2] at hflag
  exact absurd hflag (by decide)

end Client

end Redispp
