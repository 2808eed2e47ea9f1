import Redispp.Readers

/-!
# The client

The state of a connected client and its public calls: commands, `multi`,
`pipeline`, `exec` and `discard`.  A command is sent at once, or kept in
`m_cmd` in pipeline mode; its reply is read at once, or by the reader kept in
`m_readers` when the batch ends.
-/

namespace Redispp

open StateExcept CLibrary

/-- `input` is what `m_fd` still delivers and `output` what has been written
to it; a write is taken to send everything it is given.  A `std::vector` holds
fewer than `LONG_MAX` readers, which some results take as a hypothesis. -/
structure Client where
  input : Stream
  output : Buffer
  mMulti : Bool
  mReaders : List ResponseReader
  mMgetKeys : List (List Buffer)
  mPipeline : Bool
  mCmd : Buffer
  deriving DecidableEq

abbrev ClientM (α : Type) := StateT Client (Except Fault) α

namespace Client

/-- `Client::Client` followed by `connect`. -/
def connected (input : Stream) : Client where
  input := input
  output := []
  mMulti := false
  mReaders := []
  mMgetKeys := []
  mPipeline := false
  mCmd := []

def receive {α : Type} (m : Recv α) : ClientM α := fun c =>
  match m.run c.input with
  | .error e => .error e
  | .ok (a, input) => .ok (a, { c with input := input })

def write (bs : Buffer) : ClientM Unit :=
  modify fun c => { c with output := c.output ++ bs }

/-- `(this->*fun)()`. -/
def call (reader : ResponseReader) : ClientM Response := do
  let c ← get
  let (resp, mgetKeys) ← receive (reader.call c.mMgetKeys)
  modify fun c => { c with mMgetKeys := mgetKeys }
  return resp

/-- `run(Command &)`. -/
def send (cmd : Command) : ClientM Unit :=
  write cmd.get

/-- `run(Command &, ResponseReader)`. -/
def run (cmd : Command) (reader : ResponseReader) : ClientM Response := do
  let c ← get
  if c.mPipeline then
    modify fun c => { c with
      mReaders := c.mReaders ++ [reader]
      mCmd := c.mCmd ++ cmd.get }
    return .new .queued
  else
    send cmd
    if c.mMulti then
      modify fun c => { c with mReaders := c.mReaders ++ [reader] }
      receive readQueued
    else call reader

def discard : ClientM Response := do
  modify fun c => { c with
    mMulti := false
    mPipeline := false
    mCmd := []
    mReaders := [] }
  run (.ofKeyword (bytes "DISCARD")) (.stream .readStatusCode)

def multi : ClientM Response := do
  let c ← get
  if c.mMulti || c.mPipeline then return .new .err
  else
    let ret ← run (.ofKeyword (bytes "MULTI")) (.stream .readStatusCode)
    modify fun c => { c with mMulti := true }
    return ret

def pipeline : ClientM Bool := do
  let c ← get
  if c.mMulti || c.mPipeline then return false
  else
    modify fun c => { c with mPipeline := true }
    return true

def readBack : List ResponseReader → ClientM (List Response)
  | [] => return []
  | reader :: rest => do
      let resp ← call reader
      let ret ← readBack rest
      return resp :: ret

/-- Whether the answer to EXEC announces one reply for each reader. -/
def execHeader : ClientM Bool := do
  send (.ofKeyword (bytes "EXEC"))
  let str ← receive getline
  let c ← get
  return str.head? = some (ascii '*') &&
    atol str.tail = toLong c.mReaders.length

def execMulti : ClientM (List Response) := do
  let found ← execHeader
  if found = false then return []
  else
    let c ← get
    let ret ← readBack c.mReaders
    modify fun c => { c with mMulti := false, mCmd := [], mReaders := [] }
    return ret

def execPipeline : ClientM (List Response) := do
  let c ← get
  write c.mCmd
  let ret ← readBack c.mReaders
  modify fun c => { c with mPipeline := false, mCmd := [], mReaders := [] }
  return ret

def exec : ClientM (List Response) := do
  let c ← get
  if c.mMulti then execMulti
  else if c.mPipeline then execPipeline
  else return []

def genericMultiParameter (keyword : Buffer) (keys : List Buffer)
    (reader : ResponseReader) : ClientM Response :=
  run (.withArguments keyword keys) reader

def mget (keys : List Buffer) : ClientM Response := do
  modify fun c => { c with mMgetKeys := c.mMgetKeys ++ [keys] }
  genericMultiParameter (bytes "MGET") keys .readMultiString

end Client

/-- The command calls of the interface. -/
inductive Query
  | command (cmd : Command) (reader : StreamReader)
  | mget (keys : List Buffer)
  deriving DecidableEq

namespace Query

def cmd : Query → Command
  | .command cmd _ => cmd
  | .mget keys => .withArguments (bytes "MGET") keys

def reader : Query → ResponseReader
  | .command _ reader => .stream reader
  | .mget _ => .readMultiString

def keys : Query → List (List Buffer)
  | .command _ _ => []
  | .mget keys => [keys]

def perform : Query → ClientM Response
  | .command cmd reader => Client.run cmd (.stream reader)
  | .mget keys => Client.mget keys

theorem run_perform (query : Query) (c : Client) :
    query.perform.run c = (Client.run query.cmd query.reader).run
      { c with mMgetKeys := c.mMgetKeys ++ query.keys } := by
  cases query with
  | command cmd reader => simp [perform, Query.cmd, Query.reader, keys]
  | mget keys => rfl

end Query

namespace Client

/-! ## What the calls do to the state -/

section Rules

variable {α : Type} {c d : Client}

theorem run_receive_of_ok {m : Recv α} {a : α} {input : Stream}
    (h : m.run c.input = .ok (a, input)) :
    (receive m).run c = .ok (a, { c with input := input }) := by
  simp only [StateT.run, receive] at h ⊢
  rw [h]

theorem run_receive_of_error {m : Recv α} {e : Fault}
    (h : m.run c.input = .error e) : (receive m).run c = .error e := by
  simp only [StateT.run, receive] at h ⊢
  rw [h]

theorem run_receive_eq_ok {m : Recv α} {a : α}
    (h : (receive m).run c = .ok (a, d)) :
    ∃ input, m.run c.input = .ok (a, input) ∧
      d = { c with input := input } := by
  cases hm : m.run c.input with
  | error e =>
      rw [run_receive_of_error hm] at h
      contradiction
  | ok result =>
      obtain ⟨a', input⟩ := result
      rw [run_receive_of_ok hm] at h
      simp only [Except.ok.injEq, Prod.mk.injEq] at h
      obtain ⟨rfl, rfl⟩ := h
      exact ⟨input, rfl, rfl⟩

@[simp] theorem run_write (bs : Buffer) :
    (write bs).run c = .ok ((), { c with output := c.output ++ bs }) := rfl

@[simp] theorem run_send (cmd : Command) :
    (send cmd).run c =
      .ok ((), { c with output := c.output ++ cmd.get }) := rfl

theorem run_call_stream (reader : StreamReader) :
    (call (.stream reader)).run c = (receive reader.recv).run c := by
  cases h : reader.recv.run c.input with
  | error e =>
      have hcall : ((ResponseReader.stream reader).call c.mMgetKeys).run
          c.input = .error e := run_bind_of_error h
      rw [run_receive_of_error h, call, run_get_bind,
        run_bind_of_error (run_receive_of_error hcall)]
  | ok result =>
      obtain ⟨resp, input⟩ := result
      have hcall : ((ResponseReader.stream reader).call c.mMgetKeys).run
          c.input = .ok ((resp, c.mMgetKeys), input) := by
        rw [ResponseReader.call, run_bind_of_ok h]
        rfl
      rw [run_receive_of_ok h, call, run_get_bind,
        run_bind_of_ok (run_receive_of_ok hcall)]
      rfl

theorem run_run_pipeline (hpipeline : c.mPipeline = true) (cmd : Command)
    (reader : ResponseReader) :
    (run cmd reader).run c = .ok (.new .queued, { c with
      mReaders := c.mReaders ++ [reader]
      mCmd := c.mCmd ++ cmd.get }) := by
  rw [run, run_get_bind, if_pos hpipeline]
  rfl

theorem run_run_multi (hpipeline : c.mPipeline = false)
    (hmulti : c.mMulti = true) (cmd : Command) (reader : ResponseReader) :
    (run cmd reader).run c = (receive readQueued).run { c with
      output := c.output ++ cmd.get
      mReaders := c.mReaders ++ [reader] } := by
  rw [run, run_get_bind, if_neg (by simp [hpipeline]),
    run_bind_of_ok (run_send cmd), if_pos hmulti, run_modify_bind]

theorem run_run_normal (hpipeline : c.mPipeline = false)
    (hmulti : c.mMulti = false) (cmd : Command) (reader : ResponseReader) :
    (run cmd reader).run c = (call reader).run { c with
      output := c.output ++ cmd.get } := by
  rw [run, run_get_bind, if_neg (by simp [hpipeline]),
    run_bind_of_ok (run_send cmd), if_neg (by simp [hmulti])]

theorem run_multi_open (hopen : (c.mMulti || c.mPipeline) = true) :
    multi.run c = .ok (.new .err, c) := by
  rw [multi, run_get_bind, if_pos hopen]
  rfl

theorem run_pipeline_open (hopen : (c.mMulti || c.mPipeline) = true) :
    pipeline.run c = .ok (false, c) := by
  rw [pipeline, run_get_bind, if_pos hopen]
  rfl

theorem run_pipeline_normal (hmulti : c.mMulti = false)
    (hpipeline : c.mPipeline = false) :
    pipeline.run c = .ok (true, { c with mPipeline := true }) := by
  rw [pipeline, run_get_bind, if_neg (by simp [hmulti, hpipeline])]
  rfl

theorem run_exec_normal (hmulti : c.mMulti = false)
    (hpipeline : c.mPipeline = false) : exec.run c = .ok ([], c) := by
  rw [exec, run_get_bind, if_neg (by simp [hmulti]),
    if_neg (by simp [hpipeline])]
  rfl

theorem run_exec_multi (hmulti : c.mMulti = true) :
    exec.run c = execMulti.run c := by
  rw [exec, run_get_bind, if_pos hmulti]

theorem run_exec_pipeline (hmulti : c.mMulti = false)
    (hpipeline : c.mPipeline = true) : exec.run c = execPipeline.run c := by
  rw [exec, run_get_bind, if_neg (by simp [hmulti]), if_pos hpipeline]

theorem run_call_of_ok {reader : ResponseReader} {resp : Response}
    {left : List (List Buffer)} {input : Stream}
    (h : (reader.call c.mMgetKeys).run c.input = .ok ((resp, left), input)) :
    (call reader).run c =
      .ok (resp, { c with input := input, mMgetKeys := left }) := by
  rw [call, run_get_bind, run_bind_of_ok (run_receive_of_ok h)]
  rfl

/-- A reader changes nothing but the input and the waiting key lists. -/
theorem run_call_reader {reader : ResponseReader} {resp : Response}
    (h : (call reader).run c = .ok (resp, d)) :
    (reader.call c.mMgetKeys).run c.input =
        .ok ((resp, d.mMgetKeys), d.input) ∧
      d = { c with input := d.input, mMgetKeys := d.mMgetKeys } := by
  rw [call, run_get_bind] at h
  obtain ⟨⟨resp', left⟩, next, hreceive, hrest⟩ := run_bind_eq_ok h
  obtain ⟨input, hread, rfl⟩ := run_receive_eq_ok hreceive
  rw [run_modify_bind] at hrest
  obtain ⟨rfl, rfl⟩ := run_pure_eq_ok hrest
  exact ⟨hread, rfl⟩

theorem run_call_eq_ok {reader : ResponseReader} {resp : Response}
    (h : (call reader).run c = .ok (resp, d)) :
    ∃ input keys, d = { c with input := input, mMgetKeys := keys } :=
  ⟨d.input, d.mMgetKeys, (run_call_reader h).2⟩

theorem run_readBack_eq_ok {readers : List ResponseReader}
    {responses : List Response}
    (h : (readBack readers).run c = .ok (responses, d)) :
    ∃ input keys, d = { c with input := input, mMgetKeys := keys } := by
  induction readers generalizing c d responses with
  | nil =>
      exact ⟨c.input, c.mMgetKeys, (run_pure_eq_ok h).2⟩
  | cons reader readers ih =>
      rw [readBack] at h
      obtain ⟨resp, next, hcall, hrest⟩ := run_bind_eq_ok h
      obtain ⟨ret, last, hback, hpure⟩ := run_bind_eq_ok hrest
      obtain ⟨input, keys, rfl⟩ := run_call_eq_ok hcall
      obtain ⟨input', keys', rfl⟩ := ih hback
      exact ⟨input', keys', (run_pure_eq_ok hpure).2⟩

end Rules

end Client

end Redispp
