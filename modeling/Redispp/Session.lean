import Redispp.Requests
import Redispp.Transactions

/-!
# Sessions with a server

The client and a server that has one flag for an open transaction.  The server
reads the requests off the bytes the client has written and chooses its
answers; the client reads the answers off its stream.  `multi` sets the
client's flag without a look at the answer, and `exec` clears it only when the
announced number is the one it expects, so that the two flags agree in the
runs where the answers leave both no choice.
-/

namespace Redispp

open StateExcept Decimal CLibrary

inductive Answer
  | accepted (text : Buffer)
  | queued
  | refused (text : Buffer)
  | aborted (text : Buffer)
  | replied (reply : List Byte)
  | executed (parts : List (List Byte))
  deriving DecidableEq

def Answer.encode : Answer → List Byte
  | .accepted text => replyLine '+' text
  | .queued => replyLine '+' (bytes "QUEUED")
  | .refused text => replyLine '-' text
  | .aborted text => replyLine '-' text
  | .replied reply => reply
  | .executed parts => replyHeader '*' parts.length ++ parts.flatten

def Ordinary (elements : List Buffer) : Prop :=
  elements.head? ≠ some (bytes "MULTI") ∧
    elements.head? ≠ some (bytes "EXEC") ∧
    elements.head? ≠ some (bytes "DISCARD")

instance (elements : List Buffer) : Decidable (Ordinary elements) :=
  inferInstanceAs (Decidable (_ ∧ _ ∧ _))

structure Server where
  inMulti : Bool
  acknowledged : ℕ
  deriving DecidableEq

/-- What the server may answer.  Any request may be refused with an error
line, and EXEC may fail and end the transaction. -/
inductive Serves : Server → List Buffer → Answer → Server → Prop
  | multi {s : Server} {text : Buffer} : LF ∉ text →
      Serves s [bytes "MULTI"] (.accepted text) ⟨true, 0⟩
  | discard {s : Server} {text : Buffer} : s.inMulti = true → LF ∉ text →
      Serves s [bytes "DISCARD"] (.accepted text) ⟨false, 0⟩
  | exec {s : Server} {parts : List (List Byte)} : s.inMulti = true →
      parts.length = s.acknowledged →
      Serves s [bytes "EXEC"] (.executed parts) ⟨false, 0⟩
  | abort {s : Server} {text : Buffer} : s.inMulti = true → LF ∉ text →
      Serves s [bytes "EXEC"] (.aborted text) ⟨false, 0⟩
  | queue {s : Server} {elements : List Buffer} : s.inMulti = true →
      Ordinary elements →
      Serves s elements .queued ⟨true, s.acknowledged + 1⟩
  | reply {s : Server} {elements : List Buffer} {reply : List Byte} :
      s.inMulti = false → Ordinary elements →
      Serves s elements (.replied reply) s
  | refuse {s : Server} {elements : List Buffer} {text : Buffer} :
      LF ∉ text → Serves s elements (.refused text) s

inductive ServesAll :
    Server → List (List Buffer) → List Answer → Server → Prop
  | nil (s : Server) : ServesAll s [] [] s
  | cons {s mid last : Server} {elements : List Buffer} {answer : Answer}
      {requests : List (List Buffer)} {answers : List Answer} :
      Serves s elements answer mid → ServesAll mid requests answers last →
      ServesAll s (elements :: requests) (answer :: answers) last

structure System where
  client : Client
  server : Server
  deriving DecidableEq

def Call.Ordinary : Call → Prop
  | .query q => Redispp.Ordinary q.cmd.mElements
  | _ => True

def Client.deliver (c : Client) (arrivals : List Arrival) : Client :=
  { c with input := ⟨c.input.pending ++ arrivals, c.input.ending⟩ }

/-- One public call that returns: what it writes are the requests that the
server answers, and the answers are what arrives. -/
structure Exchange (sys : System) (event : Call × List Answer)
    (next : System) (sent : List Byte) (requests : List (List Buffer))
    (arrivals : List Arrival) : Prop where
  ordinary : event.1.Ordinary
  returns : event.1.perform.run (sys.client.deliver arrivals) =
    .ok ((), next.client)
  writes : next.client.output = sys.client.output ++ sent
  received : Requests.decode sent = some requests
  serves : ServesAll sys.server requests event.2 next.server
  delivers : Delivers arrivals (event.2.map Answer.encode).flatten

def System.Step (sys : System) (event : Call × List Answer)
    (next : System) : Prop :=
  ∃ sent requests arrivals, Exchange sys event next sent requests arrivals

def System.fresh : System where
  client := .connected (streamOf [])
  server := ⟨false, 0⟩

/-- The answers do not reach what the client leaves undone: MULTI is accepted,
EXEC is answered by one reply for each reader or refused without effect,
DISCARD ends an open transaction, and every reply is one that its reader takes
whole. -/
def Met (c : Client) (event : Call × List Answer) : Prop :=
  match event.1 with
  | .query query => c.mMulti = false → c.mPipeline = false →
      ∃ resp left, Reads (query.reader.call (c.mMgetKeys ++ query.keys))
        (event.2.map Answer.encode).flatten (resp, left)
  | .multi => c.mMulti = false → c.mPipeline = false →
      ∃ text, event.2 = [.accepted text]
  | .pipeline => True
  | .exec =>
      (c.mMulti = true → (c.mReaders.length : ℤ) < LONG_MAX ∧
        ((∃ text, event.2 = [.refused text]) ∨
          ∃ parts responses left, event.2 = [.executed parts] ∧
            Client.ReadsQueue c.mReaders c.mMgetKeys parts responses left)) ∧
      (c.mPipeline = true → ∃ responses left,
        Client.ReadsQueue c.mReaders c.mMgetKeys
          (event.2.map Answer.encode) responses left)
  | .discard => c.mMulti = true → ∃ text, event.2 = [.accepted text]

/-! ## What the server does -/

theorem Serves.inMulti_of_ordinary {s last : Server} {elements : List Buffer}
    {answer : Answer} (h : Serves s elements answer last)
    (hordinary : Ordinary elements) : last.inMulti = s.inMulti := by
  obtain ⟨hmulti, hexec, hdiscard⟩ := hordinary
  cases h with
  | multi => exact absurd rfl hmulti
  | discard => exact absurd rfl hdiscard
  | exec => exact absurd rfl hexec
  | abort => exact absurd rfl hexec
  | queue hin => exact hin.symm
  | reply => rfl
  | refuse => rfl

theorem ServesAll.inMulti_of_ordinary {s last : Server}
    {requests : List (List Buffer)} {answers : List Answer}
    (h : ServesAll s requests answers last)
    (hordinary : ∀ elements ∈ requests, Ordinary elements) :
    last.inMulti = s.inMulti := by
  induction h with
  | nil => rfl
  | cons hserves _ ih =>
      rw [ih fun elements hmem =>
        hordinary elements (List.mem_cons_of_mem _ hmem)]
      exact hserves.inMulti_of_ordinary (hordinary _ List.mem_cons_self)

theorem ServesAll.nil_requests {s last : Server} {answers : List Answer}
    (h : ServesAll s [] answers last) : answers = [] ∧ last = s := by
  cases h
  exact ⟨rfl, rfl⟩

theorem ServesAll.one_request {s last : Server} {elements : List Buffer}
    {answers : List Answer} (h : ServesAll s [elements] answers last) :
    ∃ answer, answers = [answer] ∧ Serves s elements answer last := by
  cases h with
  | cons hserves htail =>
      cases htail
      exact ⟨_, rfl, hserves⟩

theorem Serves.line_of_inMulti {s last : Server} {elements : List Buffer}
    {answer : Answer} (h : Serves s elements answer last)
    (hordinary : Ordinary elements) (hin : s.inMulti = true) :
    ∃ line, LF ∉ line ∧ answer.encode = line ++ [LF] := by
  obtain ⟨hmulti, hexec, hdiscard⟩ := hordinary
  cases h with
  | multi => exact absurd rfl hmulti
  | discard => exact absurd rfl hdiscard
  | exec => exact absurd rfl hexec
  | abort => exact absurd rfl hexec
  | queue => exact replyLine_split (by decide) (by decide)
  | reply hout =>
      rw [hin] at hout
      exact absurd hout (by simp)
  | refuse htext => exact replyLine_split (by decide) htext

theorem Serves.discard_cases {s last : Server} {answer : Answer}
    (h : Serves s [bytes "DISCARD"] answer last) :
    ∃ mark text, ascii mark ≠ LF ∧ LF ∉ text ∧
      answer.encode = replyLine mark text ∧
      ((∃ text, answer = .accepted text) ∧ last.inMulti = false ∨
        (∀ text, answer ≠ .accepted text) ∧ last = s) := by
  generalize helements : [bytes "DISCARD"] = elements at h
  cases h with
  | multi => exact absurd helements (by decide)
  | exec => exact absurd helements (by decide)
  | abort => exact absurd helements (by decide)
  | discard _ htext =>
      exact ⟨'+', _, by decide, htext, rfl, Or.inl ⟨⟨_, rfl⟩, rfl⟩⟩
  | queue _ hordinary =>
      rw [← helements] at hordinary
      exact absurd hordinary (by decide)
  | reply _ hordinary =>
      rw [← helements] at hordinary
      exact absurd hordinary (by decide)
  | refuse htext =>
      exact ⟨'-', _, by decide, htext, rfl, Or.inr ⟨by simp, rfl⟩⟩

theorem Serves.accepted_multi {s last : Server} {text : Buffer}
    (h : Serves s [bytes "MULTI"] (.accepted text) last) :
    LF ∉ text ∧ last.inMulti = true := by
  generalize helements : [bytes "MULTI"] = elements at h
  cases h with
  | multi htext => exact ⟨htext, rfl⟩
  | discard => exact absurd helements (by decide)

theorem Serves.of_refused {s last : Server} {elements : List Buffer}
    {text : Buffer} (h : Serves s elements (.refused text) last) :
    LF ∉ text ∧ last = s := by
  cases h with
  | refuse htext => exact ⟨htext, rfl⟩

theorem Serves.of_executed {s last : Server} {elements : List Buffer}
    {parts : List (List Byte)}
    (h : Serves s elements (.executed parts) last) :
    last.inMulti = false := by
  cases h with
  | exec => rfl

/-! ## What an exchange does -/

/-- The flags agree, nothing is left to be read, and the commands of a
pipeline are ordinary ones. -/
structure InStep (sys : System) (mode : Mode) : Prop where
  represents : Mode.Represents mode sys.client
  input : sys.client.input = streamOf []
  agree : sys.client.mMulti = sys.server.inMulti
  ordinary : ∀ query ∈ mode.unsent, Ordinary query.cmd.mElements

theorem Mode.Step.unsent {mode next : Mode} {call : Call}
    (h : Mode.Step mode call next) :
    ∀ query ∈ next.unsent, query ∈ mode.unsent ∨ call = .query query := by
  intro query hmem
  cases h with
  | query =>
      cases mode with
      | normal => simp at hmem
      | multi issued => simp at hmem
      | pipeline issued =>
          rcases List.mem_append.mp hmem with hissued | hnew
          · exact Or.inl hissued
          · rw [List.mem_singleton] at hnew
            exact Or.inr (by rw [hnew])
  | multi => cases mode <;> simp_all
  | pipeline => cases mode <;> simp_all
  | discard => simp at hmem
  | exec => simp at hmem
  | execRefused => simp at hmem

variable {sys next : System} {mode : Mode} {call : Call}
  {answers : List Answer} {sent : List Byte} {requests : List (List Buffer)}
  {arrivals : List Arrival}

theorem Exchange.outcome (hin : InStep sys mode)
    (h : Exchange sys (call, answers) next sent requests arrivals) :
    (∃ mode', Mode.Step mode call mode' ∧
      Mode.Represents mode' next.client) ∧
    ServesAll sys.server ((mode.sends call).map Command.mElements) answers
      next.server ∧
    call.perform.run { sys.client with
      input := (streamOf []).push arrivals } = .ok ((), next.client) := by
  have hdeliver : sys.client.deliver arrivals =
      { sys.client with input := (streamOf []).push arrivals } := by
    rw [Client.deliver, hin.input]
    simp [streamOf, arrivalsOf, Feed.push]
  have hrun := h.returns
  rw [hdeliver] at hrun
  have hrepresents := hin.represents.frame ((streamOf []).push arrivals)
    sys.client.output sys.client.mMgetKeys
  obtain ⟨mode', hstep, hreaches⟩ := Client.perform_refines hrepresents hrun
  have hsent : sent = ((mode.sends call).map Command.get).flatten := by
    have hwritten := h.writes.symm.trans hreaches.output
    exact List.append_cancel_left hwritten
  have hrequests : requests = (mode.sends call).map Command.mElements := by
    have hreceived := h.received
    rw [hsent, Requests.decode_get] at hreceived
    exact (Option.some.inj hreceived).symm
  refine ⟨⟨mode', hstep, hreaches.represents⟩, ?_, hrun⟩
  rw [← hrequests]
  exact h.serves

theorem Exchange.inStep (hin : InStep sys mode)
    (h : Exchange sys (call, answers) next sent requests arrivals)
    (hinput : next.client.input = streamOf [])
    (hagree : next.client.mMulti = next.server.inMulti) :
    ∃ mode', InStep next mode' := by
  obtain ⟨⟨mode', hstep, hrepresents⟩, _, _⟩ := h.outcome hin
  refine ⟨mode', hrepresents, hinput, hagree, ?_⟩
  intro query hmem
  rcases hstep.unsent query hmem with hold | hnew
  · exact hin.ordinary query hold
  · have hordinary := h.ordinary
    simp only at hordinary
    rw [hnew] at hordinary
    exact hordinary

theorem Exchange.quiet (hin : InStep sys mode)
    (h : Exchange sys (call, answers) next sent requests arrivals)
    (hsends : mode.sends call = [])
    (hquiet : ∀ d, call.perform.run sys.client = .ok ((), d) →
      d.input = sys.client.input ∧ d.mMulti = sys.client.mMulti) :
    ∃ mode', InStep next mode' := by
  obtain ⟨_, hserves, hrun⟩ := h.outcome hin
  rw [hsends] at hserves
  obtain ⟨hanswers, hserver⟩ := hserves.nil_requests
  have harrivals := h.delivers
  simp only [hanswers, List.map_nil, List.flatten_nil] at harrivals
  rw [Feed.carries_nil_iff.mp harrivals, Feed.push_nil, ← hin.input] at hrun
  obtain ⟨hinput, hflag⟩ := hquiet _ hrun
  apply h.inStep hin
  · rw [hinput, hin.input]
  · rw [hflag, hin.agree, hserver]

/-! ## Each call keeps the parties in step -/

theorem eq_of_returned {α : Type} {m : ClientM α} {c d e : Client} {a : α}
    (hm : m.run c = .ok (a, d))
    (h : (m >>= fun _ => pure ()).run c = .ok ((), e)) : e = d := by
  obtain ⟨b, hb⟩ := run_discarded_eq_ok h
  exact (run_unique hb hm).2

theorem Exchange.direct_inStep {query : Query} (hin : InStep sys .normal)
    (h : Exchange sys (.query query, answers) next sent requests arrivals)
    (hmet : Met sys.client (.query query, answers)) :
    ∃ mode', InStep next mode' := by
  have hordinary : Ordinary query.cmd.mElements := h.ordinary
  have hmulti : sys.client.mMulti = false := hin.represents.multi
  have hpipeline : sys.client.mPipeline = false := hin.represents.pipeline
  obtain ⟨_, hserves, hrun⟩ := h.outcome hin
  obtain ⟨answer, rfl, hanswer⟩ := hserves.one_request
  obtain ⟨resp, left, hread⟩ := hmet hmulti hpipeline
  have hcall := hread arrivals (streamOf []) h.delivers
  have hperform := query.run_perform
    { sys.client with input := (streamOf []).push arrivals }
  rw [Client.run_run_normal (by exact hpipeline) (by exact hmulti),
    Client.call, run_get_bind,
    run_bind_of_ok (Client.run_receive_of_ok (by exact hcall))] at hperform
  have hnext := eq_of_returned hperform hrun
  apply h.inStep hin
  · rw [hnext]
  · rw [hnext, hanswer.inMulti_of_ordinary hordinary, ← hin.agree]

theorem Exchange.queued_inStep {query : Query} {issued : List Query}
    (hin : InStep sys (.multi issued))
    (h : Exchange sys (.query query, answers) next sent requests arrivals) :
    ∃ mode', InStep next mode' := by
  have hordinary : Ordinary query.cmd.mElements := h.ordinary
  have hmulti : sys.client.mMulti = true := hin.represents.multi
  have hpipeline : sys.client.mPipeline = false := hin.represents.pipeline
  obtain ⟨_, hserves, hrun⟩ := h.outcome hin
  obtain ⟨answer, rfl, hanswer⟩ := hserves.one_request
  obtain ⟨line, hline, hencode⟩ :=
    hanswer.line_of_inMulti hordinary (hin.agree.symm.trans hmulti)
  have hdelivers : Delivers arrivals (line ++ [LF]) := by
    simpa [hencode] using h.delivers
  have hread := Client.readQueued_reads hline arrivals (streamOf []) hdelivers
  have hperform := query.run_perform
    { sys.client with input := (streamOf []).push arrivals }
  rw [Client.run_run_multi (by exact hpipeline) (by exact hmulti),
    Client.run_receive_of_ok (by exact hread)] at hperform
  have hnext := eq_of_returned hperform hrun
  apply h.inStep hin
  · rw [hnext]
  · rw [hnext, hanswer.inMulti_of_ordinary hordinary, ← hin.agree]

theorem Exchange.query_inStep {query : Query} (hin : InStep sys mode)
    (h : Exchange sys (.query query, answers) next sent requests arrivals)
    (hmet : Met sys.client (.query query, answers)) :
    ∃ mode', InStep next mode' := by
  cases mode with
  | normal => exact h.direct_inStep hin hmet
  | multi issued => exact h.queued_inStep hin
  | pipeline issued =>
      have hpipeline : sys.client.mPipeline = true := hin.represents.pipeline
      apply h.quiet hin rfl
      intro d hd
      have hperform := query.run_perform sys.client
      rw [Client.run_run_pipeline (by exact hpipeline)] at hperform
      rw [eq_of_returned hperform hd]
      exact ⟨rfl, rfl⟩

theorem Exchange.multi_inStep (hin : InStep sys mode)
    (h : Exchange sys (.multi, answers) next sent requests arrivals)
    (hmet : Met sys.client (.multi, answers)) :
    ∃ mode', InStep next mode' := by
  obtain ⟨_, hserves, hrun⟩ := h.outcome hin
  cases mode with
  | normal =>
      have hnormal := Mode.represents_normal_iff.mp hin.represents
      obtain ⟨text, rfl⟩ := hmet hnormal.notMulti hnormal.notPipeline
      obtain ⟨answer, hanswer, hserve⟩ := hserves.one_request
      obtain rfl : Answer.accepted text = answer := by simpa using hanswer
      have hdelivers : Delivers arrivals (replyLine '+' text) := by
        simpa [Answer.encode] using h.delivers
      have haccepted := hserve.accepted_multi
      have hmulti := Client.run_multi_normal
        (hnormal.withInput ((streamOf []).push arrivals)) (by decide)
        haccepted.1 hdelivers rfl
      have hnext := eq_of_returned hmulti hrun
      apply h.inStep hin
      · rw [hnext]
      · rw [hnext, haccepted.2]
  | multi issued =>
      have hmulti : sys.client.mMulti = true := hin.represents.multi
      have hopen := Client.run_multi_open (c := sys.client) (by simp [hmulti])
      apply h.quiet hin rfl
      intro d hd
      rw [eq_of_returned hopen hd]
      exact ⟨rfl, rfl⟩
  | pipeline issued =>
      have hpipeline : sys.client.mPipeline = true := hin.represents.pipeline
      have hopen := Client.run_multi_open (c := sys.client)
        (by simp [hpipeline])
      apply h.quiet hin rfl
      intro d hd
      rw [eq_of_returned hopen hd]
      exact ⟨rfl, rfl⟩

theorem Exchange.pipeline_inStep (hin : InStep sys mode)
    (h : Exchange sys (.pipeline, answers) next sent requests arrivals) :
    ∃ mode', InStep next mode' := by
  apply h.quiet hin (by cases mode <;> rfl)
  intro d hd
  by_cases hopen : (sys.client.mMulti || sys.client.mPipeline) = true
  · rw [eq_of_returned (Client.run_pipeline_open hopen) hd]
    exact ⟨rfl, rfl⟩
  · simp only [Bool.or_eq_true, not_or, Bool.not_eq_true] at hopen
    have hentered := Client.run_pipeline_normal hopen.1 hopen.2
    rw [eq_of_returned hentered hd]
    exact ⟨rfl, rfl⟩

theorem Exchange.execMulti_inStep {issued : List Query}
    (hin : InStep sys (.multi issued))
    (h : Exchange sys (.exec, answers) next sent requests arrivals)
    (hmet : Met sys.client (.exec, answers)) :
    ∃ mode', InStep next mode' := by
  have hmulti : sys.client.mMulti = true := hin.represents.multi
  obtain ⟨_, hserves, hrun⟩ := h.outcome hin
  obtain ⟨hsize, hanswers⟩ := hmet.1 hmulti
  obtain ⟨answer, hone, hserve⟩ := hserves.one_request
  have hdelivers := h.delivers
  rcases hanswers with ⟨text, rfl⟩ | ⟨parts, responses, left, rfl, hqueue⟩
  · obtain rfl : Answer.refused text = answer := by simpa using hone
    obtain ⟨htext, hserver⟩ := hserve.of_refused
    have hline : Delivers arrivals (replyLine '-' text) := by
      simpa [Answer.encode] using hdelivers
    have hheader := Client.run_execHeader_error
      (c := { sys.client with input := (streamOf []).push arrivals })
      htext hline rfl
    have hexec := Client.run_execMulti_of_not_found hheader
    rw [← Client.run_exec_multi (by exact hmulti)] at hexec
    have hnext := eq_of_returned hexec hrun
    apply h.inStep hin
    · rw [hnext]
    · rw [hnext, hserver, ← hin.agree]
  · obtain rfl : Answer.executed parts = answer := by simpa using hone
    obtain ⟨header, body, rfl, hheader, hbody⟩ :=
      Feed.carries_append_iff.mp (by simpa [Answer.encode] using hdelivers)
    rw [hqueue.lengths.1] at hheader
    have hexec := Client.run_execMulti_of_reads (c := { sys.client with
      input := (streamOf []).push (header ++ body) }) hsize hheader hqueue
      hbody (Feed.push_append header body (streamOf []))
    rw [← Client.run_exec_multi (by exact hmulti)] at hexec
    have hnext := eq_of_returned hexec hrun
    apply h.inStep hin
    · rw [hnext]
    · rw [hnext, hserve.of_executed]

theorem Exchange.execPipeline_inStep {issued : List Query}
    (hin : InStep sys (.pipeline issued))
    (h : Exchange sys (.exec, answers) next sent requests arrivals)
    (hmet : Met sys.client (.exec, answers)) :
    ∃ mode', InStep next mode' := by
  have hmulti : sys.client.mMulti = false := hin.represents.multi
  have hpipeline : sys.client.mPipeline = true := hin.represents.pipeline
  obtain ⟨_, hserves, hrun⟩ := h.outcome hin
  obtain ⟨responses, left, hqueue⟩ := hmet.2 hpipeline
  have hordinary : ∀ elements ∈
      ((Mode.pipeline issued).sends .exec).map Command.mElements,
      Ordinary elements := by
    intro elements hmem
    simp only [Mode.sends, Mode.unsent, List.map_map, List.mem_map,
      Function.comp_apply] at hmem
    obtain ⟨query, hquery, rfl⟩ := hmem
    exact hin.ordinary query hquery
  have hexec := Client.run_execPipeline_of_reads (c := { sys.client with
    input := (streamOf []).push arrivals }) hqueue h.delivers rfl
  rw [← Client.run_exec_pipeline (by exact hmulti) (by exact hpipeline)]
    at hexec
  have hnext := eq_of_returned hexec hrun
  apply h.inStep hin
  · rw [hnext]
  · rw [hnext, hserves.inMulti_of_ordinary hordinary, ← hin.agree]

theorem Exchange.exec_inStep (hin : InStep sys mode)
    (h : Exchange sys (.exec, answers) next sent requests arrivals)
    (hmet : Met sys.client (.exec, answers)) :
    ∃ mode', InStep next mode' := by
  cases mode with
  | normal =>
      have hnormal := Mode.represents_normal_iff.mp hin.represents
      have hnone := Client.run_exec_normal hnormal.notMulti
        hnormal.notPipeline
      apply h.quiet hin rfl
      intro d hd
      rw [eq_of_returned hnone hd]
      exact ⟨rfl, rfl⟩
  | multi issued => exact h.execMulti_inStep hin hmet
  | pipeline issued => exact h.execPipeline_inStep hin hmet

theorem Exchange.discard_inStep (hin : InStep sys mode)
    (h : Exchange sys (.discard, answers) next sent requests arrivals)
    (hmet : Met sys.client (.discard, answers)) :
    ∃ mode', InStep next mode' := by
  obtain ⟨_, hserves, hrun⟩ := h.outcome hin
  have hsends : mode.sends .discard = [.ofKeyword (bytes "DISCARD")] := by
    cases mode <;> rfl
  rw [hsends] at hserves
  obtain ⟨answer, rfl, hserve⟩ := hserves.one_request
  obtain ⟨mark, text, hmark, htext, hencode, hcases⟩ := hserve.discard_cases
  have hdelivers : Delivers arrivals (replyLine mark text) := by
    simpa [hencode] using h.delivers
  have hdiscard := Client.run_discard hmark htext hdelivers
    (c := { sys.client with input := (streamOf []).push arrivals }) rfl
  have hnext := eq_of_returned hdiscard hrun
  apply h.inStep hin
  · rw [hnext]
  · rw [hnext]
    rcases hcases with ⟨_, hended⟩ | ⟨hrefused, hserver⟩
    · exact hended.symm
    · rw [hserver, ← hin.agree]
      by_contra hopen
      obtain ⟨text', htaken⟩ := hmet (by simpa using Ne.symm hopen)
      exact hrefused text' (by simpa using htaken)

theorem System.Step.inStep {event : Call × List Answer}
    (hstep : System.Step sys event next) (hin : InStep sys mode)
    (hmet : Met sys.client event) : ∃ mode', InStep next mode' := by
  obtain ⟨sent, requests, arrivals, h⟩ := hstep
  obtain ⟨call, answers⟩ := event
  cases call with
  | query query => exact h.query_inStep hin hmet
  | multi => exact h.multi_inStep hin hmet
  | pipeline => exact h.pipeline_inStep hin
  | exec => exact h.exec_inStep hin hmet
  | discard => exact h.discard_inStep hin hmet

theorem fresh_inStep : InStep System.fresh .normal where
  represents := Mode.represents_normal_iff.mpr (Client.connected_normal _)
  input := rfl
  agree := rfl
  ordinary := by simp

/-- In a run from a fresh client all of whose exchanges meet the condition,
the client's flag is the server's. -/
theorem run_agrees {events : List (Call × List Answer)} {last : System}
    (hrun : Runs.Run
      (fun sys event next => System.Step sys event next ∧ Met sys.client event)
      System.fresh events last) :
    last.client.mMulti = last.server.inMulti := by
  have hin : ∃ mode, InStep last mode := by
    apply hrun.invariant fun sys => ∃ mode, InStep sys mode
    · exact ⟨.normal, fresh_inStep⟩
    · rintro sys event next ⟨mode, hin⟩ ⟨hstep, hmet⟩
      exact hstep.inStep hin hmet
  obtain ⟨mode, hin⟩ := hin
  exact hin.agree

/-- GET, made directly and in a transaction. -/
theorem run_agrees_transaction :
    let query := Query.command
      (.withArguments (bytes "GET") [bytes "k"]) .readString
    let reply := encodeBulk (some (bytes "v"))
    let events : List (Call × List Answer) := [(.query query, [.replied reply]),
      (.multi, [.accepted (bytes "OK")]), (.query query, [.queued]),
      (.exec, [.executed [reply]])]
    ∃ last, Runs.Run (fun sys event next =>
        System.Step sys event next ∧ Met sys.client event)
        System.fresh events last ∧
      last.client.mMulti = last.server.inMulti := by
  intro query reply events
  let multi := (Command.ofKeyword (bytes "MULTI")).get
  let exec := (Command.ofKeyword (bytes "EXEC")).get
  let wire (event : Call × List Answer) :=
    arrivalsOf (event.2.map Answer.encode).flatten
  let asked : System := {
    client := { Client.connected (streamOf []) with output := query.cmd.get }
    server := ⟨false, 0⟩ }
  let entered : System := {
    client := { asked.client with
      output := query.cmd.get ++ multi
      mMulti := true }
    server := ⟨true, 0⟩ }
  let queued : System := {
    client := { entered.client with
      output := query.cmd.get ++ multi ++ query.cmd.get
      mReaders := [query.reader] }
    server := ⟨true, 1⟩ }
  let last : System := {
    client := { asked.client with
      output := query.cmd.get ++ multi ++ query.cmd.get ++ exec }
    server := ⟨false, 0⟩ }
  have hreads (keys : List (List Buffer)) :
      Reads (query.reader.call keys) reply (.ofString (bytes "v"), keys) :=
    Client.StreamReader.reads_call
      (readString_reads_bulk (by decide) (by decide))
  have hordinary : Ordinary query.cmd.mElements := by decide
  have hasked : Exchange System.fresh events[0] asked query.cmd.get
      [query.cmd.mElements] (wire events[0]) := {
    ordinary := hordinary
    returns := by decide +kernel
    writes := rfl
    received := by decide +kernel
    serves := .cons (.reply rfl (by decide)) (.nil _)
    delivers := delivers_arrivalsOf _ }
  have hentered : Exchange asked events[1] entered multi [[bytes "MULTI"]]
      (wire events[1]) := {
    ordinary := trivial
    returns := by decide +kernel
    writes := rfl
    received := by decide +kernel
    serves := .cons (.multi (by decide)) (.nil _)
    delivers := delivers_arrivalsOf _ }
  have hqueued : Exchange entered events[2] queued query.cmd.get
      [query.cmd.mElements] (wire events[2]) := {
    ordinary := hordinary
    returns := by decide +kernel
    writes := rfl
    received := by decide +kernel
    serves := .cons (.queue rfl (by decide)) (.nil _)
    delivers := delivers_arrivalsOf _ }
  have hlast : Exchange queued events[3] last exec [[bytes "EXEC"]]
      (wire events[3]) := {
    ordinary := trivial
    returns := by decide +kernel
    writes := rfl
    received := by decide +kernel
    serves := .cons (.exec rfl rfl) (.nil _)
    delivers := delivers_arrivalsOf _ }
  have hmetAsked : Met System.fresh.client events[0] :=
    fun _ _ => ⟨_, _, hreads []⟩
  have hmetEntered : Met asked.client events[1] :=
    fun _ _ => ⟨bytes "OK", rfl⟩
  have hmetQueued : Met entered.client events[2] :=
    fun hmulti => absurd hmulti (by decide)
  have hmetLast : Met queued.client events[3] := by
    constructor
    · intro _
      exact ⟨by decide, Or.inr ⟨_, _, _, rfl, .cons (hreads []) (.nil [])⟩⟩
    · intro hpipeline
      exact absurd hpipeline (by decide)
  have hrun : Runs.Run (fun sys event next =>
      System.Step sys event next ∧ Met sys.client event)
      System.fresh events last :=
    .snoc (.snoc (.snoc (.snoc .nil
      ⟨⟨_, _, _, hasked⟩, hmetAsked⟩) ⟨⟨_, _, _, hentered⟩, hmetEntered⟩)
      ⟨⟨_, _, _, hqueued⟩, hmetQueued⟩) ⟨⟨_, _, _, hlast⟩, hmetLast⟩
  exact ⟨last, hrun, run_agrees hrun⟩

theorem run_disagrees_refused_multi :
    ¬ ∀ events last, Runs.Run System.Step System.fresh events last →
      last.client.mMulti = last.server.inMulti := by
  intro hagree
  let entered : System := {
    client := { Client.connected (streamOf []) with
      output := (Command.ofKeyword (bytes "MULTI")).get
      mMulti := true }
    server := ⟨false, 0⟩ }
  have hmulti : Exchange System.fresh (.multi, [.refused (bytes "ERR")])
      entered (Command.ofKeyword (bytes "MULTI")).get [[bytes "MULTI"]]
      (arrivalsOf (replyLine '-' (bytes "ERR"))) := {
    ordinary := trivial
    returns := by decide +kernel
    writes := rfl
    received := by decide +kernel
    serves := .cons (.refuse (by decide)) (.nil _)
    delivers := delivers_arrivalsOf _ }
  exact absurd (hagree _ _ (.snoc .nil ⟨_, _, _, hmulti⟩)) (by decide)

end Redispp
