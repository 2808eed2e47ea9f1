import Redispp.Outcomes
import Redispp.Service
import Redispp.Simulation

/-!
# A client and a service

`Remote` is the abstract machine in which a call is applied to the data of the
service directly: there are no bytes, no requests and no replies under way.  A
client that is wired to the server returns from every call, and what it
returns is exactly what the abstract machine may return, in any order of calls,
as long as the replies are ones that the readers take whole.
-/

namespace Redispp

open StateExcept Decimal CLibrary

variable {σ : Type}

/-! ## Calls applied to the service -/

/-- What a reader makes of a reply, and the key lists it leaves. -/
def ResponseReader.respond :
    ResponseReader → List (List Buffer) → Reply →
      Response × List (List Buffer)
  | .stream reader, keys, reply => (reader.respond reply, keys)
  | .readMultiString, keys, reply => mgetRespond keys reply

def respondAll : List ResponseReader → List (List Buffer) → List Reply →
    List Response × List (List Buffer)
  | reader :: readers, keys, reply :: replies =>
      let (resp, next) := reader.respond keys reply
      let (responses, last) := respondAll readers next replies
      (resp :: responses, last)
  | _, keys, _ => ([], keys)

def elementsOf (issued : List Query) : List (List Buffer) :=
  issued.map fun query => query.cmd.mElements

/-- The mode, the data of the service and the key lists that wait. -/
structure Remote (σ : Type) where
  mode : Mode
  data : σ
  keys : List (List Buffer)

namespace Remote

def fresh (data : σ) : Remote σ := ⟨.normal, data, []⟩

/-- A command is applied when it is made, or with the `exec` of its batch: a
transaction at one point and a pipeline in pieces.  The acknowledgement of a
command in a transaction is reported as an error. -/
inductive Step (serve : Service σ) (others : σ → σ → Prop) :
    Remote σ → Call × Outcome → Remote σ → Prop
  | ask {data seen next : σ} {keys left : List (List Buffer)} {query : Query}
      {reply : Reply} {resp : Response} :
      others data seen → serve seen query.cmd.mElements = (next, reply) →
      query.reader.respond (keys ++ query.keys) reply = (resp, left) →
      Step serve others ⟨.normal, data, keys⟩ (.query query, .response resp)
        ⟨.normal, next, left⟩
  | queue {data seen : σ} {keys : List (List Buffer)} {issued : List Query}
      {query : Query} : others data seen →
      Step serve others ⟨.multi issued, data, keys⟩
        (.query query, .response (.new .err))
        ⟨.multi (issued ++ [query]), seen, keys ++ query.keys⟩
  | collect {data : σ} {keys : List (List Buffer)} {issued : List Query}
      {query : Query} :
      Step serve others ⟨.pipeline issued, data, keys⟩
        (.query query, .response (.new .queued))
        ⟨.pipeline (issued ++ [query]), data, keys ++ query.keys⟩
  | multi {data seen : σ} {keys : List (List Buffer)} : others data seen →
      Step serve others ⟨.normal, data, keys⟩
        (.multi, .response (.ofBool true)) ⟨.multi [], seen, keys⟩
  | multiOpen {r : Remote σ} : r.mode ≠ .normal →
      Step serve others r (.multi, .response (.new .err)) r
  | pipeline {data : σ} {keys : List (List Buffer)} :
      Step serve others ⟨.normal, data, keys⟩ (.pipeline, .entered true)
        ⟨.pipeline [], data, keys⟩
  | pipelineOpen {r : Remote σ} : r.mode ≠ .normal →
      Step serve others r (.pipeline, .entered false) r
  | execNormal {data : σ} {keys : List (List Buffer)} :
      Step serve others ⟨.normal, data, keys⟩ (.exec, .responses [])
        ⟨.normal, data, keys⟩
  | execMulti {data seen next : σ} {keys left : List (List Buffer)}
      {issued : List Query} {replies : List Reply}
      {responses : List Response} : others data seen →
      serveAll serve seen (elementsOf issued) = (next, replies) →
      respondAll (issued.map Query.reader) keys replies = (responses, left) →
      Step serve others ⟨.multi issued, data, keys⟩
        (.exec, .responses responses) ⟨.normal, next, left⟩
  | execPipeline {data next : σ} {keys left : List (List Buffer)}
      {issued : List Query} {replies : List Reply}
      {responses : List Response} :
      Served serve others data (elementsOf issued) replies next →
      respondAll (issued.map Query.reader) keys replies = (responses, left) →
      Step serve others ⟨.pipeline issued, data, keys⟩
        (.exec, .responses responses) ⟨.normal, next, left⟩
  | discard {mode : Mode} {data seen : σ} {keys : List (List Buffer)} :
      others data seen →
      Step serve others ⟨mode, data, keys⟩
        (.discard, .response (.ofBool mode.isMulti)) ⟨.normal, seen, keys⟩

end Remote

/-! ## Replies that are taken whole -/

def ResponseReader.Takes : ResponseReader → List (List Buffer) → Reply → Prop
  | .stream reader, _, reply => reply.Sendable ∧ reader.Takes reply
  | .readMultiString, keys, reply =>
      reply.Sendable ∧ (∀ list ∈ keys, (list.length : ℤ) ≤ INT_MAX) ∧
        MgetTakes keys reply

def TakesAll : List ResponseReader → List (List Buffer) → List Reply → Prop
  | reader :: readers, keys, reply :: replies =>
      reader.Takes keys reply ∧
        TakesAll readers (reader.respond keys reply).2 replies
  | _, _, _ => True

/-- Whatever others do, the replies to the call are taken whole, and EXEC
announces a number of them that `exec` can compare. -/
def Remote.Fits (serve : Service σ) (others : σ → σ → Prop) (r : Remote σ) :
    Call → Prop
  | .query query => Ordinary query.cmd.mElements ∧
      (r.mode = .normal → ∀ seen, others r.data seen →
        query.reader.Takes (r.keys ++ query.keys)
          (serve seen query.cmd.mElements).2)
  | .exec => match r.mode with
      | .normal => True
      | .multi issued => (issued.length : ℤ) < LONG_MAX ∧
          ∀ seen, others r.data seen →
            TakesAll (issued.map Query.reader) r.keys
              (serveAll serve seen (elementsOf issued)).2
      | .pipeline issued => ∀ replies last,
          Served serve others r.data (elementsOf issued) replies last →
          TakesAll (issued.map Query.reader) r.keys replies
  | _ => True

theorem ResponseReader.Takes.reads {reader : ResponseReader}
    {keys : List (List Buffer)} {reply : Reply} (h : reader.Takes keys reply) :
    Reads (reader.call keys) reply.encode (reader.respond keys reply) := by
  cases reader with
  | stream reader =>
      exact Client.StreamReader.reads_call ((reader.yields_reply h.1).reads h.2)
  | readMultiString =>
      exact (readMultiString_yields h.1 h.2.1).reads h.2.2

theorem TakesAll.readsQueue {readers : List ResponseReader}
    {keys : List (List Buffer)} {replies : List Reply}
    (h : TakesAll readers keys replies)
    (hlength : replies.length = readers.length) :
    Client.ReadsQueue readers keys (replies.map Reply.encode)
      (respondAll readers keys replies).1
      (respondAll readers keys replies).2 := by
  induction readers generalizing keys replies with
  | nil =>
      rw [List.eq_nil_of_length_eq_zero hlength]
      exact .nil keys
  | cons reader readers ih =>
      cases replies with
      | nil => simp at hlength
      | cons reply replies =>
          exact .cons h.1.reads (ih h.2 (by simpa using hlength))

/-! ## The client at the other end -/

structure Wired (σ : Type) where
  client : Client
  server : Backend σ

def Wired.fresh (data : σ) : Wired σ :=
  ⟨.connected (streamOf []), ⟨data, none⟩⟩

/-- One public call that returns: what it writes are the requests that the
server answers, and the answers are what arrives. -/
structure Turn (serve : Service σ) (others : σ → σ → Prop) (w : Wired σ)
    (event : Call × Outcome) (next : Wired σ) (sent : List Byte)
    (requests : List (List Buffer)) (bs : List Byte)
    (arrivals : List Arrival) : Prop where
  returns : event.1.result.run (w.client.deliver arrivals) =
    .ok (event.2, next.client)
  writes : next.client.output = w.client.output ++ sent
  received : Requests.decode sent = some requests
  answers : Backend.Answers serve others w.server requests bs next.server
  delivers : Delivers arrivals bs

def Wired.Step (serve : Service σ) (others : σ → σ → Prop) (w : Wired σ)
    (event : Call × Outcome) (next : Wired σ) : Prop :=
  ∃ sent requests bs arrivals,
    Turn serve others w event next sent requests bs arrivals

/-- From a fresh client a run over these calls may return this and leave the
server so. -/
def Wired.May (serve : Service σ) (others : σ → σ → Prop) (data : σ)
    (events : List (Call × Outcome)) (server : Backend σ) : Prop :=
  ∃ last, Runs.Run (Wired.Step serve others) (.fresh data) events last ∧
    last.server = server

/-- The commands that the server has queued. -/
def Mode.queue : Mode → Option (List (List Buffer))
  | .multi issued => some (elementsOf issued)
  | _ => none

def Remote.server (r : Remote σ) : Backend σ := ⟨r.data, r.mode.queue⟩

/-- Between two calls: the server has the same data and has queued the same
commands, and nothing is left to be read. -/
structure Agrees (w : Wired σ) (r : Remote σ) : Prop where
  represents : Mode.Represents r.mode w.client
  input : w.client.input = streamOf []
  keys : w.client.mMgetKeys = r.keys
  server : w.server = r.server
  ordinary : ∀ query ∈ r.mode.issued, Ordinary query.cmd.mElements

theorem fresh_agrees (data : σ) : Agrees (.fresh data) (.fresh data) where
  represents := Mode.represents_normal_iff.mpr (Client.connected_normal _)
  input := rfl
  keys := rfl
  server := rfl
  ordinary := by simp [Remote.fresh]

/-- On these arrivals the call returns this, and the two agree again. -/
def Reaches (w : Wired σ) (call : Call) (arrivals : List Arrival)
    (outcome : Outcome) (after : Remote σ) : Prop :=
  ∃ client, call.result.run (w.client.deliver arrivals) =
      .ok (outcome, client) ∧ Agrees ⟨client, after.server⟩ after

theorem Client.deliver_eq {c : Client} (hinput : c.input = streamOf [])
    (arrivals : List Arrival) :
    c.deliver arrivals = { c with input := (streamOf []).push arrivals } := by
  rw [Client.deliver, hinput]
  simp [streamOf, arrivalsOf, Feed.push]

theorem Client.deliver_nothing {c : Client} {arrivals : List Arrival}
    (harrivals : Delivers arrivals []) : c.deliver arrivals = c := by
  rw [Feed.carries_nil_iff.mp harrivals, Client.deliver, List.append_nil]

section Calls

variable {w : Wired σ} {r : Remote σ} {data : σ} {keys : List (List Buffer)}
  {issued : List Query} {query : Query} {arrivals : List Arrival}

theorem ask_reaches (hagrees : Agrees w ⟨.normal, data, keys⟩) {reply : Reply}
    {resp : Response} {left : List (List Buffer)}
    (htakes : query.reader.Takes (keys ++ query.keys) reply)
    (hrespond : query.reader.respond (keys ++ query.keys) reply =
      (resp, left))
    (harrivals : Delivers arrivals reply.encode) (next : σ) :
    Reaches w (.query query) arrivals (.response resp)
      ⟨.normal, next, left⟩ := by
  have hnormal := Mode.represents_normal_iff.mp hagrees.represents
  have hread := htakes.reads arrivals (streamOf []) harrivals
  rw [hrespond] at hread
  have hcall := Client.run_call_of_ok (c := { w.client with
    input := (streamOf []).push arrivals
    output := w.client.output ++ query.cmd.get
    mMgetKeys := w.client.mMgetKeys ++ query.keys })
    (by rw [hagrees.keys]; exact hread)
  have hperform := query.run_perform (w.client.deliver arrivals)
  rw [Client.deliver_eq hagrees.input, Client.run_run_normal
    (by exact hnormal.notPipeline) (by exact hnormal.notMulti)] at hperform
  rw [Reaches, Client.deliver_eq hagrees.input]
  refine ⟨_, run_wrapped_iff.mpr ⟨_, hperform.trans hcall, rfl⟩, ?_⟩
  exact {
    represents := hagrees.represents.frame _ _ _
    input := rfl
    keys := rfl
    server := rfl
    ordinary := by simp }

theorem queue_reaches (hagrees : Agrees w ⟨.multi issued, data, keys⟩)
    (hordinary : Ordinary query.cmd.mElements)
    (harrivals : Delivers arrivals (replyLine '+' (bytes "QUEUED")))
    (seen : σ) :
    Reaches w (.query query) arrivals (.response (.new .err))
      ⟨.multi (issued ++ [query]), seen, keys ++ query.keys⟩ := by
  have hread := readQueued_reads_line (by decide) (by decide) arrivals
    (streamOf []) harrivals
  have hperform := query.run_perform { w.client with
    input := (streamOf []).push arrivals }
  rw [Client.run_run_multi (by exact hagrees.represents.pipeline)
    (by exact hagrees.represents.multi),
    Client.run_receive_of_ok (by exact hread)] at hperform
  have hreaches := Client.query_reaches
    (hagrees.represents.frame _ _ _) hperform
  rw [Reaches, Client.deliver_eq hagrees.input]
  refine ⟨_, run_wrapped_iff.mpr ⟨_, hperform, rfl⟩, ?_⟩
  exact {
    represents := hreaches.represents
    input := rfl
    keys := by simp [hagrees.keys]
    server := rfl
    ordinary := by
      intro other hmem
      rcases List.mem_append.mp hmem with hissued | hnew
      · exact hagrees.ordinary other hissued
      · rw [List.mem_singleton.mp hnew]
        exact hordinary }

theorem collect_reaches (hagrees : Agrees w ⟨.pipeline issued, data, keys⟩)
    (hordinary : Ordinary query.cmd.mElements)
    (harrivals : Delivers arrivals []) :
    Reaches w (.query query) arrivals (.response (.new .queued))
      ⟨.pipeline (issued ++ [query]), data, keys ++ query.keys⟩ := by
  have hperform := query.run_perform w.client
  rw [Client.run_run_pipeline (by exact hagrees.represents.pipeline)]
    at hperform
  have hreaches := Client.query_reaches hagrees.represents hperform
  rw [Reaches, Client.deliver_nothing harrivals]
  refine ⟨_, run_wrapped_iff.mpr ⟨_, hperform, rfl⟩, ?_⟩
  exact {
    represents := hreaches.represents
    input := hagrees.input
    keys := by simp [hagrees.keys]
    server := rfl
    ordinary := by
      intro other hmem
      rcases List.mem_append.mp hmem with hissued | hnew
      · exact hagrees.ordinary other hissued
      · rw [List.mem_singleton.mp hnew]
        exact hordinary }

theorem multi_reaches (hagrees : Agrees w ⟨.normal, data, keys⟩)
    (harrivals : Delivers arrivals (replyLine '+' (bytes "OK"))) (seen : σ) :
    Reaches w .multi arrivals (.response (.ofBool true))
      ⟨.multi [], seen, keys⟩ := by
  have hnormal := Mode.represents_normal_iff.mp hagrees.represents
  have hrun := Client.run_multi_normal
    (hnormal.withInput ((streamOf []).push arrivals)) (by decide) (by decide)
    harrivals rfl
  have hreaches := Client.multi_reaches (hagrees.represents.frame _ _ _) hrun
  rw [Reaches, Client.deliver_eq hagrees.input]
  refine ⟨_, run_wrapped_iff.mpr ⟨_, hrun, rfl⟩, ?_⟩
  exact {
    represents := hreaches.represents
    input := rfl
    keys := hagrees.keys
    server := rfl
    ordinary := by simp }

theorem pipeline_reaches (hagrees : Agrees w ⟨.normal, data, keys⟩)
    (harrivals : Delivers arrivals []) :
    Reaches w .pipeline arrivals (.entered true)
      ⟨.pipeline [], data, keys⟩ := by
  have hnormal := Mode.represents_normal_iff.mp hagrees.represents
  have hrun := Client.run_pipeline_normal hnormal.notMulti hnormal.notPipeline
  have hreaches := Client.pipeline_reaches hagrees.represents hrun
  rw [Reaches, Client.deliver_nothing harrivals]
  refine ⟨_, run_wrapped_iff.mpr ⟨_, hrun, rfl⟩, ?_⟩
  exact {
    represents := hreaches.represents
    input := hagrees.input
    keys := hagrees.keys
    server := rfl
    ordinary := by simp }

/-- A call that sends nothing and changes nothing. -/
theorem quiet_reaches {call : Call} {outcome : Outcome} (hagrees : Agrees w r)
    (harrivals : Delivers arrivals [])
    (hrun : call.result.run w.client = .ok (outcome, w.client)) :
    Reaches w call arrivals outcome r := by
  rw [Reaches, Client.deliver_nothing harrivals]
  refine ⟨w.client, hrun, ?_⟩
  rw [← hagrees.server]
  exact hagrees

theorem open_reaches (hagrees : Agrees w r) (hopen : r.mode ≠ .normal)
    (harrivals : Delivers arrivals []) :
    Reaches w .multi arrivals (.response (.new .err)) r ∧
      Reaches w .pipeline arrivals (.entered false) r := by
  have hflags : (w.client.mMulti || w.client.mPipeline) = true := by
    rw [hagrees.represents.multi, hagrees.represents.pipeline]
    cases hmode : r.mode with
    | normal => exact absurd hmode hopen
    | multi issued => rfl
    | pipeline issued => rfl
  exact ⟨quiet_reaches hagrees harrivals
      (run_wrapped_iff.mpr ⟨_, Client.run_multi_open hflags, rfl⟩),
    quiet_reaches hagrees harrivals
      (run_wrapped_iff.mpr ⟨_, Client.run_pipeline_open hflags, rfl⟩)⟩

theorem execNormal_reaches (hagrees : Agrees w ⟨.normal, data, keys⟩)
    (harrivals : Delivers arrivals []) :
    Reaches w .exec arrivals (.responses []) ⟨.normal, data, keys⟩ := by
  have hnormal := Mode.represents_normal_iff.mp hagrees.represents
  have hrun := Client.run_exec_normal hnormal.notMulti hnormal.notPipeline
  exact quiet_reaches hagrees harrivals (run_wrapped_iff.mpr ⟨_, hrun, rfl⟩)

theorem execMulti_reaches (hagrees : Agrees w ⟨.multi issued, data, keys⟩)
    {replies : List Reply} {responses : List Response}
    {left : List (List Buffer)} (hsize : (issued.length : ℤ) < LONG_MAX)
    (hlength : replies.length = issued.length)
    (htakes : TakesAll (issued.map Query.reader) keys replies)
    (hrespond : respondAll (issued.map Query.reader) keys replies =
      (responses, left))
    (harrivals : Delivers arrivals (replyHeader '*' replies.length ++
      (replies.map Reply.encode).flatten)) (next : σ) :
    Reaches w .exec arrivals (.responses responses) ⟨.normal, next, left⟩ := by
  have hqueue := htakes.readsQueue (by simpa using hlength)
  have hreaders : w.client.mReaders = issued.map Query.reader :=
    hagrees.represents.readers
  have hkeys : w.client.mMgetKeys = keys := hagrees.keys
  rw [hrespond, ← hreaders, ← hkeys] at hqueue
  obtain ⟨header, body, rfl, hheader, hbody⟩ :=
    Feed.carries_append_iff.mp harrivals
  have hcount : replies.length = w.client.mReaders.length := by
    simpa [hreaders] using hlength
  rw [hcount] at hheader
  have hrun := Client.run_execMulti_of_reads (c := { w.client with
    input := (streamOf []).push (header ++ body) })
    (by simpa [hreaders] using hsize) hheader hqueue hbody
    (Feed.push_append header body (streamOf []))
  rw [← Client.run_exec_multi (by exact hagrees.represents.multi)] at hrun
  rw [Reaches, Client.deliver_eq hagrees.input]
  refine ⟨_, run_wrapped_iff.mpr ⟨_, hrun, rfl⟩, ?_⟩
  exact {
    represents := ⟨rfl, hagrees.represents.pipeline, rfl, rfl⟩
    input := rfl
    keys := rfl
    server := rfl
    ordinary := by simp }

theorem execPipeline_reaches
    (hagrees : Agrees w ⟨.pipeline issued, data, keys⟩)
    {replies : List Reply} {responses : List Response}
    {left : List (List Buffer)} (hlength : replies.length = issued.length)
    (htakes : TakesAll (issued.map Query.reader) keys replies)
    (hrespond : respondAll (issued.map Query.reader) keys replies =
      (responses, left))
    (harrivals : Delivers arrivals (replies.map Reply.encode).flatten)
    (next : σ) :
    Reaches w .exec arrivals (.responses responses) ⟨.normal, next, left⟩ := by
  have hqueue := htakes.readsQueue (by simpa using hlength)
  have hreaders : w.client.mReaders = issued.map Query.reader :=
    hagrees.represents.readers
  have hkeys : w.client.mMgetKeys = keys := hagrees.keys
  rw [hrespond, ← hreaders, ← hkeys] at hqueue
  have hrun := Client.run_execPipeline_of_reads (c := { w.client with
    input := (streamOf []).push arrivals }) hqueue harrivals rfl
  rw [← Client.run_exec_pipeline (by exact hagrees.represents.multi)
    (by exact hagrees.represents.pipeline)] at hrun
  rw [Reaches, Client.deliver_eq hagrees.input]
  refine ⟨_, run_wrapped_iff.mpr ⟨_, hrun, rfl⟩, ?_⟩
  exact {
    represents := ⟨hagrees.represents.multi, rfl, rfl, rfl⟩
    input := rfl
    keys := rfl
    server := rfl
    ordinary := by simp }

theorem discard_reaches {mode : Mode} (hagrees : Agrees w ⟨mode, data, keys⟩)
    {mark : Char} {text : Buffer} (hmark : ascii mark ≠ LF)
    (htext : LF ∉ text)
    (hanswer : decide (ascii mark = ascii '+') = mode.isMulti)
    (harrivals : Delivers arrivals (replyLine mark text)) (seen : σ) :
    Reaches w .discard arrivals (.response (.ofBool mode.isMulti))
      ⟨.normal, seen, keys⟩ := by
  have hrun := Client.run_discard (c := { w.client with
    input := (streamOf []).push arrivals }) hmark htext harrivals rfl
  rw [hanswer] at hrun
  rw [Reaches, Client.deliver_eq hagrees.input]
  refine ⟨_, run_wrapped_iff.mpr ⟨_, hrun, rfl⟩, ?_⟩
  exact {
    represents := ⟨rfl, rfl, rfl, rfl⟩
    input := rfl
    keys := hagrees.keys
    server := rfl
    ordinary := by simp }

end Calls

/-! ## The two machines take the same steps -/

section Steps

variable {serve : Service σ} {others : σ → σ → Prop} {w : Wired σ}
  {r after : Remote σ} {server : Backend σ} {bs : List Byte}
  {call : Call} {outcome : Outcome} {query : Query}

/-- The server may answer the call with these bytes, and on any arrivals of
them it returns what the abstract machine does. -/
def Realises (serve : Service σ) (others : σ → σ → Prop) (w : Wired σ)
    (r : Remote σ) (call : Call) (outcome : Outcome) (after : Remote σ)
    (bs : List Byte) : Prop :=
  Remote.Step serve others r (call, outcome) after ∧
    Backend.Answers serve others w.server
      ((r.mode.sends call).map Command.mElements) bs after.server ∧
    ∀ arrivals, Delivers arrivals bs → Reaches w call arrivals outcome after

theorem Backend.answer_multi (seen : σ) :
    Backend.answer serve ⟨seen, none⟩ [bytes "MULTI"] =
      (⟨seen, some []⟩, replyLine '+' (bytes "OK")) := rfl

theorem Backend.answer_exec (seen : σ) (queued : List (List Buffer)) :
    Backend.answer serve ⟨seen, some queued⟩ [bytes "EXEC"] =
      (⟨(serveAll serve seen queued).1, none⟩,
        replyHeader '*' (serveAll serve seen queued).2.length ++
          ((serveAll serve seen queued).2.map Reply.encode).flatten) := rfl

theorem Backend.answer_discard (seen : σ) (mode : Mode) :
    ∃ mark text, ascii mark ≠ LF ∧ LF ∉ text ∧
      decide (ascii mark = ascii '+') = mode.isMulti ∧
      Backend.answer serve ⟨seen, mode.queue⟩ [bytes "DISCARD"] =
        (⟨seen, none⟩, replyLine mark text) := by
  cases mode with
  | normal => exact ⟨'-', _, by decide, by decide, rfl, rfl⟩
  | multi issued => exact ⟨'+', _, by decide, by decide, rfl, rfl⟩
  | pipeline issued => exact ⟨'-', _, by decide, by decide, rfl, rfl⟩

theorem ask_realises {data seen : σ} {keys : List (List Buffer)}
    (hagrees : Agrees w ⟨.normal, data, keys⟩)
    (hfits : Remote.Fits serve others ⟨.normal, data, keys⟩ (.query query))
    (hseen : others data seen) {next : σ} {reply : Reply} {resp : Response}
    {left : List (List Buffer)}
    (hserve : serve seen query.cmd.mElements = (next, reply))
    (hrespond : query.reader.respond (keys ++ query.keys) reply =
      (resp, left)) :
    Realises serve others w ⟨.normal, data, keys⟩ (.query query)
      (.response resp) ⟨.normal, next, left⟩ reply.encode := by
  obtain ⟨hordinary, htakes⟩ := hfits
  refine ⟨.ask hseen hserve hrespond, ?_, fun arrivals harrivals => ?_⟩
  · rw [hagrees.server]
    apply Backend.answers_one_iff.mpr ⟨seen, hseen, ?_⟩
    rw [Backend.answer_ordinary hordinary]
    simp only [Remote.server, Mode.queue, hserve]
  · have hreply := htakes rfl seen hseen
    rw [hserve] at hreply
    exact ask_reaches hagrees hreply hrespond harrivals next

theorem queue_realises {data seen : σ} {keys : List (List Buffer)}
    {issued : List Query} (hagrees : Agrees w ⟨.multi issued, data, keys⟩)
    (hordinary : Ordinary query.cmd.mElements) (hseen : others data seen) :
    Realises serve others w ⟨.multi issued, data, keys⟩ (.query query)
      (.response (.new .err))
      ⟨.multi (issued ++ [query]), seen, keys ++ query.keys⟩
      (replyLine '+' (bytes "QUEUED")) := by
  refine ⟨.queue hseen, ?_, fun arrivals harrivals =>
    queue_reaches hagrees hordinary harrivals seen⟩
  rw [hagrees.server]
  apply Backend.answers_one_iff.mpr ⟨seen, hseen, ?_⟩
  rw [Backend.answer_ordinary hordinary]
  simp [Remote.server, Mode.queue, elementsOf]

theorem collect_realises {data : σ} {keys : List (List Buffer)}
    {issued : List Query} (hagrees : Agrees w ⟨.pipeline issued, data, keys⟩)
    (hordinary : Ordinary query.cmd.mElements) :
    Realises serve others w ⟨.pipeline issued, data, keys⟩ (.query query)
      (.response (.new .queued))
      ⟨.pipeline (issued ++ [query]), data, keys ++ query.keys⟩ [] := by
  refine ⟨.collect, ?_, fun arrivals harrivals =>
    collect_reaches hagrees hordinary harrivals⟩
  rw [hagrees.server]
  exact .nil _

theorem multi_realises {data seen : σ} {keys : List (List Buffer)}
    (hagrees : Agrees w ⟨.normal, data, keys⟩) (hseen : others data seen) :
    Realises serve others w ⟨.normal, data, keys⟩ .multi
      (.response (.ofBool true)) ⟨.multi [], seen, keys⟩
      (replyLine '+' (bytes "OK")) := by
  refine ⟨.multi hseen, ?_, fun arrivals harrivals =>
    multi_reaches hagrees harrivals seen⟩
  rw [hagrees.server]
  exact Backend.answers_one_iff.mpr ⟨seen, hseen, Backend.answer_multi seen⟩

theorem quiet_realises (hagrees : Agrees w r)
    (hsends : r.mode.sends call = [])
    (hstep : Remote.Step serve others r (call, outcome) after)
    (hserver : after.server = r.server)
    (hreaches : ∀ arrivals, Delivers arrivals [] →
      Reaches w call arrivals outcome after) :
    Realises serve others w r call outcome after [] := by
  refine ⟨hstep, ?_, hreaches⟩
  rw [hsends, hagrees.server, hserver]
  exact .nil _

theorem execMulti_realises {data seen : σ} {keys : List (List Buffer)}
    {issued : List Query} (hagrees : Agrees w ⟨.multi issued, data, keys⟩)
    (hfits : Remote.Fits serve others ⟨.multi issued, data, keys⟩ .exec)
    (hseen : others data seen) {next : σ} {replies : List Reply}
    {responses : List Response} {left : List (List Buffer)}
    (hserve : serveAll serve seen (elementsOf issued) = (next, replies))
    (hrespond : respondAll (issued.map Query.reader) keys replies =
      (responses, left)) :
    Realises serve others w ⟨.multi issued, data, keys⟩ .exec
      (.responses responses) ⟨.normal, next, left⟩
      (replyHeader '*' replies.length ++
        (replies.map Reply.encode).flatten) := by
  obtain ⟨hsize, htakes⟩ := hfits
  have hreplies := htakes seen hseen
  have hlength := length_serveAll serve seen (elementsOf issued)
  rw [hserve] at hreplies hlength
  refine ⟨.execMulti hseen hserve hrespond, ?_, fun arrivals harrivals =>
    execMulti_reaches hagrees hsize (by simpa [elementsOf] using hlength)
      hreplies hrespond harrivals next⟩
  rw [hagrees.server]
  apply Backend.answers_one_iff.mpr ⟨seen, hseen, ?_⟩
  refine (Backend.answer_exec seen (elementsOf issued)).trans ?_
  rw [hserve]
  rfl

theorem elementsOf_sends (issued : List Query) :
    ((Mode.pipeline issued).sends .exec).map Command.mElements =
      elementsOf issued := by
  simp [elementsOf, Function.comp_def]

theorem Agrees.elements_ordinary (hagrees : Agrees w r) :
    ∀ elements ∈ elementsOf r.mode.issued, Ordinary elements := by
  intro elements hmem
  obtain ⟨query, hquery, rfl⟩ := List.mem_map.mp hmem
  exact hagrees.ordinary query hquery

theorem execPipeline_realises {data next : σ} {keys : List (List Buffer)}
    {issued : List Query} (hagrees : Agrees w ⟨.pipeline issued, data, keys⟩)
    (hfits : Remote.Fits serve others ⟨.pipeline issued, data, keys⟩ .exec)
    {replies : List Reply} {responses : List Response}
    {left : List (List Buffer)}
    (hserved : Served serve others data (elementsOf issued) replies next)
    (hrespond : respondAll (issued.map Query.reader) keys replies =
      (responses, left)) :
    Realises serve others w ⟨.pipeline issued, data, keys⟩ .exec
      (.responses responses) ⟨.normal, next, left⟩
      (replies.map Reply.encode).flatten := by
  refine ⟨.execPipeline hserved hrespond, ?_, fun arrivals harrivals =>
    execPipeline_reaches hagrees (by simpa [elementsOf] using
      hserved.length_eq) (hfits replies next hserved) hrespond harrivals next⟩
  rw [elementsOf_sends, hagrees.server]
  exact (Backend.answers_ordinary_iff hagrees.elements_ordinary).mpr
    ⟨replies, next, hserved, rfl, rfl⟩

theorem discard_realises {mode : Mode} {data seen : σ}
    {keys : List (List Buffer)} (hagrees : Agrees w ⟨mode, data, keys⟩)
    (hseen : others data seen) :
    ∃ bs, Realises serve others w ⟨mode, data, keys⟩ .discard
        (.response (.ofBool mode.isMulti)) ⟨.normal, seen, keys⟩ bs ∧
      Backend.answer serve ⟨seen, mode.queue⟩ [bytes "DISCARD"] =
        (⟨seen, none⟩, bs) := by
  obtain ⟨mark, text, hmark, htext, hticked, hanswer⟩ :=
    @Backend.answer_discard σ serve seen mode
  refine ⟨replyLine mark text, ⟨.discard hseen, ?_, fun arrivals harrivals =>
    discard_reaches hagrees hmark htext hticked harrivals seen⟩, hanswer⟩
  have hsends : mode.sends .discard = [.ofKeyword (bytes "DISCARD")] := by
    cases mode <;> rfl
  rw [hsends, hagrees.server]
  exact Backend.answers_one_iff.mpr ⟨seen, hseen, hanswer⟩

/-- Every step of the abstract machine is one that the server answers. -/
theorem realises_of_step (hagrees : Agrees w r)
    (hfits : Remote.Fits serve others r call)
    (hstep : Remote.Step serve others r (call, outcome) after) :
    ∃ bs, Realises serve others w r call outcome after bs := by
  cases hstep with
  | ask hseen hserve hrespond =>
      exact ⟨_, ask_realises hagrees hfits hseen hserve hrespond⟩
  | queue hseen => exact ⟨_, queue_realises hagrees hfits.1 hseen⟩
  | collect => exact ⟨_, collect_realises hagrees hfits.1⟩
  | multi hseen => exact ⟨_, multi_realises hagrees hseen⟩
  | multiOpen hopen =>
      exact ⟨_, quiet_realises hagrees (by cases hmode : r.mode <;> simp_all)
        (.multiOpen hopen) rfl fun _ harrivals =>
          (open_reaches hagrees hopen harrivals).1⟩
  | pipeline =>
      exact ⟨_, quiet_realises hagrees rfl .pipeline rfl fun _ harrivals =>
        pipeline_reaches hagrees harrivals⟩
  | pipelineOpen hopen =>
      exact ⟨_, quiet_realises hagrees (by cases hmode : r.mode <;> simp_all)
        (.pipelineOpen hopen) rfl fun _ harrivals =>
          (open_reaches hagrees hopen harrivals).2⟩
  | execNormal =>
      exact ⟨_, quiet_realises hagrees rfl .execNormal rfl fun _ harrivals =>
        execNormal_reaches hagrees harrivals⟩
  | execMulti hseen hserve hrespond =>
      exact ⟨_, execMulti_realises hagrees hfits hseen hserve hrespond⟩
  | execPipeline hserved hrespond =>
      exact ⟨_, execPipeline_realises hagrees hfits hserved hrespond⟩
  | discard hseen =>
      obtain ⟨bs, hrealises, _⟩ := discard_realises hagrees hseen
      exact ⟨bs, hrealises⟩

theorem query_realised (hagrees : Agrees w r)
    (hfits : Remote.Fits serve others r (.query query))
    (hserver : Backend.Answers serve others w.server
      ((r.mode.sends (.query query)).map Command.mElements) bs server) :
    ∃ outcome after, server = after.server ∧
      Realises serve others w r (.query query) outcome after bs := by
  obtain ⟨mode, data, keys⟩ := r
  have hordinary := hfits.1
  rw [hagrees.server] at hserver
  cases mode with
  | normal =>
      obtain ⟨seen, hseen, hanswer⟩ := Backend.answers_one_iff.mp hserver
      rw [Backend.answer_ordinary hordinary] at hanswer
      simp only [Remote.server, Mode.queue, Prod.mk.injEq] at hanswer
      obtain ⟨rfl, rfl⟩ := hanswer
      exact ⟨_, _, rfl, ask_realises hagrees hfits hseen rfl rfl⟩
  | multi issued =>
      obtain ⟨seen, hseen, hanswer⟩ := Backend.answers_one_iff.mp hserver
      rw [Backend.answer_ordinary hordinary] at hanswer
      simp only [Remote.server, Mode.queue, Prod.mk.injEq] at hanswer
      obtain ⟨rfl, rfl⟩ := hanswer
      refine ⟨_, _, ?_, queue_realises hagrees hordinary hseen⟩
      simp [Remote.server, Mode.queue, elementsOf]
  | pipeline issued =>
      cases hserver
      exact ⟨_, ⟨.pipeline (issued ++ [query]), data, keys ++ query.keys⟩, rfl,
        collect_realises hagrees hordinary⟩

theorem exec_realised (hagrees : Agrees w r)
    (hfits : Remote.Fits serve others r .exec)
    (hserver : Backend.Answers serve others w.server
      ((r.mode.sends .exec).map Command.mElements) bs server) :
    ∃ outcome after, server = after.server ∧
      Realises serve others w r .exec outcome after bs := by
  obtain ⟨mode, data, keys⟩ := r
  rw [hagrees.server] at hserver
  cases mode with
  | normal =>
      cases hserver
      exact ⟨_, _, rfl, quiet_realises hagrees rfl .execNormal rfl
        fun _ harrivals => execNormal_reaches hagrees harrivals⟩
  | multi issued =>
      obtain ⟨seen, hseen, hanswer⟩ := Backend.answers_one_iff.mp hserver
      have hexec := hanswer.symm.trans
        (Backend.answer_exec seen (elementsOf issued))
      rw [Prod.mk.injEq] at hexec
      obtain ⟨rfl, rfl⟩ := hexec
      exact ⟨_, _, rfl, execMulti_realises hagrees hfits hseen rfl rfl⟩
  | pipeline issued =>
      rw [elementsOf_sends] at hserver
      obtain ⟨replies, next, hserved, rfl, rfl⟩ :=
        (Backend.answers_ordinary_iff hagrees.elements_ordinary).mp hserver
      exact ⟨_, _, rfl, execPipeline_realises hagrees hfits hserved rfl⟩

/-- Whatever the server answers to a call is a step of the abstract machine. -/
theorem realised_of_answers (hagrees : Agrees w r)
    (hfits : Remote.Fits serve others r call)
    (hserver : Backend.Answers serve others w.server
      ((r.mode.sends call).map Command.mElements) bs server) :
    ∃ outcome after, server = after.server ∧
      Realises serve others w r call outcome after bs := by
  cases call with
  | query query => exact query_realised hagrees hfits hserver
  | exec => exact exec_realised hagrees hfits hserver
  | discard =>
      obtain ⟨mode, data, keys⟩ := r
      have hsends : mode.sends .discard = [.ofKeyword (bytes "DISCARD")] := by
        cases mode <;> rfl
      rw [hsends, hagrees.server] at hserver
      obtain ⟨seen, hseen, hanswer⟩ := Backend.answers_one_iff.mp hserver
      obtain ⟨text, hrealises, hended⟩ := discard_realises hagrees hseen
      have hsame := hended.symm.trans hanswer
      rw [Prod.mk.injEq] at hsame
      obtain ⟨rfl, rfl⟩ := hsame
      exact ⟨_, _, rfl, hrealises⟩
  | multi =>
      by_cases hopen : r.mode = .normal
      · obtain ⟨mode, data, keys⟩ := r
        obtain rfl : mode = .normal := hopen
        rw [hagrees.server] at hserver
        obtain ⟨seen, hseen, hanswer⟩ := Backend.answers_one_iff.mp hserver
        have haccepted := hanswer.symm.trans (Backend.answer_multi seen)
        rw [Prod.mk.injEq] at haccepted
        obtain ⟨rfl, rfl⟩ := haccepted
        exact ⟨_, _, rfl, multi_realises hagrees hseen⟩
      · have hsends : r.mode.sends .multi = [] := by
          cases hmode : r.mode <;> simp_all
        rw [hsends, hagrees.server] at hserver
        cases hserver
        exact ⟨_, r, rfl, quiet_realises hagrees hsends (.multiOpen hopen) rfl
          fun _ harrivals => (open_reaches hagrees hopen harrivals).1⟩
  | pipeline =>
      have hsends : r.mode.sends .pipeline = [] := by
        cases hmode : r.mode <;> rfl
      rw [hsends, hagrees.server] at hserver
      cases hserver
      by_cases hopen : r.mode = .normal
      · obtain ⟨mode, data, keys⟩ := r
        obtain rfl : mode = .normal := hopen
        exact ⟨_, ⟨.pipeline [], data, keys⟩, rfl,
          quiet_realises hagrees rfl .pipeline rfl fun _ harrivals =>
            pipeline_reaches hagrees harrivals⟩
      · exact ⟨_, r, rfl, quiet_realises hagrees hsends (.pipelineOpen hopen)
          rfl fun _ harrivals => (open_reaches hagrees hopen harrivals).2⟩

/-! ## Whole runs -/

/-- What a call writes are the requests that the mode says. -/
theorem writes_requests {arrivals : List Arrival} {client : Client}
    (hagrees : Agrees w r)
    (hrun : call.result.run (w.client.deliver arrivals) =
      .ok (outcome, client)) :
    client.output = w.client.output ++
      ((r.mode.sends call).map Command.get).flatten := by
  rw [Client.deliver_eq hagrees.input] at hrun
  obtain ⟨next, _, hreaches⟩ := Client.perform_refines
    (hagrees.represents.frame _ _ _) (Call.run_perform_iff.mpr ⟨_, hrun⟩)
  exact hreaches.output

theorem Realises.turn (hagrees : Agrees w r)
    (h : Realises serve others w r call outcome after bs)
    {arrivals : List Arrival} (harrivals : Delivers arrivals bs) :
    ∃ client sent, Turn serve others w (call, outcome) ⟨client, after.server⟩
        sent ((r.mode.sends call).map Command.mElements) bs arrivals ∧
      Agrees ⟨client, after.server⟩ after := by
  obtain ⟨client, hreturns, hafter⟩ := h.2.2 arrivals harrivals
  exact ⟨client, ((r.mode.sends call).map Command.get).flatten, {
    returns := hreturns
    writes := writes_requests hagrees hreturns
    received := Requests.decode_get _
    answers := h.2.1
    delivers := harrivals }, hafter⟩

theorem wired_bisimulation (serve : Service σ) (others : σ → σ → Prop) :
    Runs.Bisimulation (Wired.Step serve others) (Remote.Step serve others)
      (Remote.Fits serve others) Agrees where
  forth := by
    rintro w r call outcome ⟨client, server⟩ hagrees hfits
      ⟨sent, requests, bs, arrivals, hturn⟩
    have hwritten := hturn.writes.symm.trans
      (writes_requests hagrees hturn.returns)
    have hreceived := hturn.received
    rw [List.append_cancel_left hwritten, Requests.decode_get] at hreceived
    have hanswers := hturn.answers
    rw [← Option.some.inj hreceived] at hanswers
    obtain ⟨other, after, rfl, hstep, _, hreaches⟩ :=
      realised_of_answers hagrees hfits hanswers
    obtain ⟨client', hrun, hafter⟩ := hreaches arrivals hturn.delivers
    obtain ⟨rfl, rfl⟩ := run_unique hrun hturn.returns
    exact ⟨after, hstep, hafter⟩
  back := by
    intro w r call outcome after hagrees hfits hstep
    obtain ⟨bs, hrealises⟩ := realises_of_step hagrees hfits hstep
    obtain ⟨client, sent, hturn, hafter⟩ :=
      hrealises.turn hagrees (delivers_arrivalsOf bs)
    exact ⟨_, ⟨_, _, _, _, hturn⟩, hafter⟩

section Whole

variable {data : σ} {events : List (Call × Outcome)} {last : Wired σ}

theorem wired_run_forth (hfits : Runs.Along (Remote.Step serve others)
      (Remote.Fits serve others) (.fresh data) (events.map Prod.fst))
    (hrun : Runs.Run (Wired.Step serve others) (.fresh data) events last) :
    ∃ r, Runs.Run (Remote.Step serve others) (.fresh data) events r ∧
      Agrees last r := by
  rw [← List.append_nil (events.map Prod.fst)] at hfits
  obtain ⟨r, habstract, hagrees, _⟩ :=
    (wired_bisimulation serve others).run_forth hrun (fresh_agrees data) hfits
  exact ⟨r, habstract, hagrees⟩

theorem may_iff (hfits : Runs.Along (Remote.Step serve others)
      (Remote.Fits serve others) (.fresh data) (events.map Prod.fst))
    (server : Backend σ) :
    Wired.May serve others data events server ↔
      ∃ r, Runs.Run (Remote.Step serve others) (.fresh data) events r ∧
        r.server = server := by
  constructor
  · rintro ⟨last, hrun, rfl⟩
    obtain ⟨r, habstract, hagrees⟩ := wired_run_forth hfits hrun
    exact ⟨r, habstract, hagrees.server.symm⟩
  · rintro ⟨r, habstract, rfl⟩
    obtain ⟨last, hrun, hagrees⟩ := (wired_bisimulation serve others).run_back
      habstract (fresh_agrees data) hfits
    exact ⟨last, hrun, hagrees.server⟩

/-- Over calls whose replies are taken whole, a run of the client and the
server is possible exactly if the abstract machine may return the same from the
same calls and end with the same data, and no run leaves a byte unread. -/
theorem run_iff (hfits : Runs.Along (Remote.Step serve others)
      (Remote.Fits serve others) (.fresh data) (events.map Prod.fst)) :
    (∀ server, Wired.May serve others data events server ↔
      ∃ r, Runs.Run (Remote.Step serve others) (.fresh data) events r ∧
        r.server = server) ∧
      ∀ last, Runs.Run (Wired.Step serve others) (.fresh data) events last →
        last.client.input = streamOf [] := by
  refine ⟨fun server => may_iff hfits server, ?_⟩
  intro last hrun
  obtain ⟨r, _, hagrees⟩ := wired_run_forth hfits hrun
  exact hagrees.input

end Whole

/-- In such a run no call waits for ever: there are requests that the next
call sends, and it returns on any answers to them, however these arrive. -/
theorem run_proceeds {data : σ} {events : List (Call × Outcome)}
    {last : Wired σ} {calls : List Call}
    (hfits : Runs.Along (Remote.Step serve others)
      (Remote.Fits serve others) (.fresh data)
      (events.map Prod.fst ++ call :: calls))
    (hrun : Runs.Run (Wired.Step serve others) (.fresh data) events last) :
    ∃ requests, ∀ bs server arrivals,
      Backend.Answers serve others last.server requests bs server →
      Delivers arrivals bs →
      ∃ outcome client sent, Turn serve others last (call, outcome)
        ⟨client, server⟩ sent requests bs arrivals := by
  obtain ⟨r, _, hagrees, hrest⟩ := (wired_bisimulation serve others).run_forth
    hrun (fresh_agrees data) hfits
  refine ⟨(r.mode.sends call).map Command.mElements, ?_⟩
  intro bs server arrivals hserver harrivals
  obtain ⟨outcome, after, rfl, hrealises⟩ :=
    realised_of_answers hagrees hrest.1 hserver
  obtain ⟨client, sent, hturn, _⟩ := hrealises.turn hagrees harrivals
  exact ⟨outcome, client, sent, hturn⟩

end Steps

/-- One key, which is set by the first client that asks. -/
def setnx : Service Bool := fun held _ =>
  (true, .integer (if held then 0 else 1))

def setnxQuery : Query :=
  .command (.withArguments (bytes "SETNX") [bytes "k", bytes "v"])
    .readIntegerAsBool

theorem setnx_takes (held : Bool) (elements : List Buffer)
    (keys : List (List Buffer)) :
    setnxQuery.reader.Takes keys (setnx held elements).2 := by
  refine ⟨?_, Or.inl rfl⟩
  cases held <;> simp only [setnx, Reply.Sendable] <;> decide

theorem setnx_fits (r : Remote Bool) (others : Bool → Bool → Prop) :
    Remote.Fits setnx others r (.query setnxQuery) :=
  ⟨by decide, fun _ seen _ => setnx_takes seen _ _⟩

/-- Another client sets the key between the command and its EXEC. -/
theorem run_iff_setnx :
    let others (held next : Bool) := held = true → next = true
    let events : List (Call × Outcome) := [(.multi, .response (.ofBool true)),
      (.query setnxQuery, .response (.new .err)),
      (.exec, .responses [.ofBool false])]
    Wired.May setnx others false events ⟨true, none⟩ ∧
      (∀ server, Wired.May setnx others false events server ↔
        ∃ r, Runs.Run (Remote.Step setnx others) (.fresh false) events r ∧
          r.server = server) ∧
      ∀ last, Runs.Run (Wired.Step setnx others) (.fresh false) events last →
        last.client.input = streamOf [] := by
  intro others events
  have hfits : Runs.Along (Remote.Step setnx others)
      (Remote.Fits setnx others) (.fresh false) (events.map Prod.fst) := by
    refine ⟨trivial, fun _ _ hmulti => ⟨setnx_fits _ _, fun _ _ hquery =>
      ⟨?_, fun _ _ _ => trivial⟩⟩⟩
    cases hmulti with
    | multiOpen hopen => exact absurd rfl hopen
    | multi =>
        cases hquery
        exact ⟨by decide, fun seen _ =>
          ⟨setnx_takes seen setnxQuery.cmd.mElements _, trivial⟩⟩
  have hmay := run_iff hfits
  have hmulti : Remote.Step setnx others (.fresh false) events[0]
      ⟨.multi [], false, []⟩ := .multi id
  have hquery : Remote.Step setnx others ⟨.multi [], false, []⟩ events[1]
      ⟨.multi [setnxQuery], false, []⟩ := .queue id
  have hexec : Remote.Step setnx others ⟨.multi [setnxQuery], false, []⟩
      events[2] ⟨.normal, true, []⟩ :=
    .execMulti (fun _ => rfl : others false true) rfl rfl
  exact ⟨(hmay.1 _).mpr
    ⟨_, .snoc (.snoc (.snoc .nil hmulti) hquery) hexec, rfl⟩, hmay⟩

theorem run_proceeds_setnx :
    ∃ requests, ∀ bs server arrivals,
      Backend.Answers setnx (fun _ _ => True) (Wired.fresh false).server
        requests bs server →
      Delivers arrivals bs →
      ∃ outcome client sent, Turn setnx (fun _ _ => True) (.fresh false)
        (.query setnxQuery, outcome) ⟨client, server⟩ sent requests bs
        arrivals := by
  have hfits : Runs.Along (Remote.Step setnx fun _ _ => True)
      (Remote.Fits setnx fun _ _ => True) (.fresh false)
      (([] : List (Call × Outcome)).map Prod.fst ++ [.query setnxQuery]) :=
    ⟨setnx_fits _ _, fun _ _ _ => trivial⟩
  exact run_proceeds hfits .nil

end Redispp
