import Redispp.Remote

/-!
# Batches and direct calls

The commands of a batch, made directly, in a pipeline and in a transaction,
while other clients change the data.  A pipeline returns and does exactly what
the direct calls may.  A transaction returns and does what the direct calls
would if no other client were at work from some point on.
-/

namespace Redispp

open CLibrary

variable {σ : Type} {serve : Service σ} {others : σ → σ → Prop}

/-! ## Programs -/

namespace Client.StreamBatch

def requests (batch : StreamBatch) : List (List Buffer) :=
  elementsOf batch.calls

/-- What the readers make of the replies. -/
def responses (batch : StreamBatch) (replies : List Reply) : List Response :=
  List.zipWith StreamReader.respond batch.readers replies

def directly (batch : StreamBatch) (responses : List Response) :
    List (Call × Outcome) :=
  List.zipWith (fun query resp => (.query query, .response resp)) batch.calls
    responses

def issuing (batch : StreamBatch) (answer : Response)
    (responses : List Response) : List (Call × Outcome) :=
  batch.calls.map (fun query => (.query query, .response answer)) ++
    [(.exec, .responses responses)]

def pipelined (batch : StreamBatch) (responses : List Response) :
    List (Call × Outcome) :=
  (.pipeline, .entered true) :: batch.issuing (.new .queued) responses

def transacted (batch : StreamBatch) (responses : List Response) :
    List (Call × Outcome) :=
  (.multi, .response (.ofBool true)) :: batch.issuing (.new .err) responses

@[simp] theorem requests_cons (call : Command × StreamReader)
    (rest : StreamBatch) :
    requests (call :: rest) = call.1.mElements :: requests rest := rfl

@[simp] theorem responses_cons (call : Command × StreamReader)
    (rest : StreamBatch) (reply : Reply) (replies : List Reply) :
    responses (call :: rest) (reply :: replies) =
      call.2.respond reply :: responses rest replies := rfl

end Client.StreamBatch

open Client

theorem respondAll_stream (readers : List StreamReader)
    (keys : List (List Buffer)) (replies : List Reply) :
    respondAll (readers.map .stream) keys replies =
      (List.zipWith StreamReader.respond readers replies, keys) := by
  induction readers generalizing replies with
  | nil => rfl
  | cons reader readers ih =>
      cases replies with
      | nil => rfl
      | cons reply replies =>
          simp [respondAll, ResponseReader.respond, ih]

/-! ## What is served -/

theorem served_nil_iff {data last : σ} {replies : List Reply} :
    Served serve others data [] replies last ↔ replies = [] ∧ last = data := by
  constructor
  · intro h
    cases h
    exact ⟨rfl, rfl⟩
  · rintro ⟨rfl, rfl⟩
    exact .nil _

theorem served_cons_iff {data last : σ} {elements : List Buffer}
    {requests : List (List Buffer)} {replies : List Reply} :
    Served serve others data (elements :: requests) replies last ↔
      ∃ seen rest, others data seen ∧
        replies = (serve seen elements).2 :: rest ∧
        Served serve others (serve seen elements).1 requests rest last := by
  constructor
  · intro h
    cases h with
    | cons hseen hserve hrest =>
        exact ⟨_, _, hseen, by rw [hserve], by rw [hserve]; exact hrest⟩
  · rintro ⟨seen, rest, hseen, rfl, hrest⟩
    exact .cons hseen rfl hrest

theorem exists_served (hrefl : ∀ data, others data data) (data : σ)
    (requests : List (List Buffer)) :
    ∃ replies last, Served serve others data requests replies last := by
  induction requests generalizing data with
  | nil => exact ⟨[], data, .nil data⟩
  | cons elements requests ih =>
      obtain ⟨replies, last, hserved⟩ := ih (serve data elements).1
      exact ⟨_, last, .cons (hrefl data) rfl hserved⟩

/-- Served alone. -/
theorem served_eq_iff {data last : σ} {requests : List (List Buffer)}
    {replies : List Reply} :
    Served serve Eq data requests replies last ↔
      serveAll serve data requests = (last, replies) := by
  induction requests generalizing data replies with
  | nil =>
      rw [served_nil_iff, serveAll, Prod.mk.injEq]
      exact ⟨fun h => ⟨h.2.symm, h.1.symm⟩, fun h => ⟨h.2.symm, h.1.symm⟩⟩
  | cons elements requests ih =>
      rw [served_cons_iff, serveAll]
      constructor
      · rintro ⟨_, rest, rfl, rfl, hrest⟩
        simp [ih.mp hrest]
      · intro h
        simp only [Prod.mk.injEq] at h
        obtain ⟨rfl, rfl⟩ := h
        exact ⟨data, _, rfl, rfl, ih.mpr rfl⟩

theorem Served.alone {data seen last : σ} {requests : List (List Buffer)}
    {replies : List Reply} (hrefl : ∀ data, others data data)
    (h : Served serve Eq seen requests replies last)
    (hseen : others data seen) (hne : requests ≠ []) :
    Served serve others data requests replies last := by
  have hrest {data last : σ} {requests : List (List Buffer)}
      {replies : List Reply} (h : Served serve Eq data requests replies last) :
      Served serve others data requests replies last := by
    induction h with
    | nil => exact .nil _
    | cons heq hserve _ ih => exact .cons (heq ▸ hrefl _) hserve ih
  cases h with
  | nil => exact absurd rfl hne
  | cons heq hserve htail => exact .cons (heq ▸ hseen) hserve (hrest htail)

/-! ## Runs of the abstract machine -/

variable {batch : StreamBatch} {responses : List Response} {r : Remote σ}

theorem ask_iff {data : σ} {keys : List (List Buffer)} {cmd : Command}
    {reader : StreamReader} {resp : Response} :
    Remote.Step serve others ⟨.normal, data, keys⟩
        (.query (.command cmd reader), .response resp) r ↔
      ∃ seen, others data seen ∧
        resp = reader.respond (serve seen cmd.mElements).2 ∧
        r = ⟨.normal, (serve seen cmd.mElements).1, keys⟩ := by
  constructor
  · intro h
    cases h with
    | ask hseen hserve hrespond =>
        simp only [Query.reader, Query.keys, List.append_nil,
          ResponseReader.respond, Prod.mk.injEq] at hrespond
        obtain ⟨rfl, rfl⟩ := hrespond
        simp only [Query.cmd] at hserve
        exact ⟨_, hseen, by rw [hserve], by rw [hserve]⟩
  · rintro ⟨seen, hseen, rfl, rfl⟩
    apply Remote.Step.ask hseen rfl
    simp [Query.reader, Query.keys, Query.cmd, ResponseReader.respond]

theorem directly_iff {data : σ} {keys : List (List Buffer)}
    (hlength : responses.length = batch.length) :
    Runs.Run (Remote.Step serve others) ⟨.normal, data, keys⟩
        (batch.directly responses) r ↔
      ∃ replies last, Served serve others data batch.requests replies last ∧
        responses = batch.responses replies ∧ r = ⟨.normal, last, keys⟩ := by
  induction batch generalizing data responses with
  | nil =>
      obtain rfl := List.eq_nil_of_length_eq_zero hlength
      have hnone : StreamBatch.directly [] [] = [] := rfl
      rw [hnone, Runs.run_nil_iff]
      constructor
      · rintro rfl
        exact ⟨[], data, .nil data, rfl, rfl⟩
      · rintro ⟨replies, last, hserved, _, rfl⟩
        cases hserved
        rfl
  | cons call batch ih =>
      obtain ⟨cmd, reader⟩ := call
      cases responses with
      | nil => simp at hlength
      | cons resp responses =>
          have hrest {data : σ} := @ih responses data (by simpa using hlength)
          have hsplit : StreamBatch.directly ((cmd, reader) :: batch)
              (resp :: responses) =
              (.query (.command cmd reader), .response resp) ::
                StreamBatch.directly batch responses := rfl
          rw [hsplit, Runs.run_cons_iff, StreamBatch.requests_cons]
          constructor
          · rintro ⟨mid, hask, hrun⟩
            obtain ⟨seen, hseen, rfl, rfl⟩ := ask_iff.mp hask
            obtain ⟨replies, last, hserved, rfl, rfl⟩ := hrest.mp hrun
            exact ⟨_, last, .cons hseen rfl hserved, rfl, rfl⟩
          · rintro ⟨replies, last, hserved, hresponses, rfl⟩
            obtain ⟨seen, rest, hseen, rfl, htail⟩ :=
              served_cons_iff.mp hserved
            rw [StreamBatch.responses_cons, List.cons.injEq] at hresponses
            exact ⟨_, ask_iff.mpr ⟨seen, hseen, hresponses.1, rfl⟩,
              hrest.mpr ⟨rest, last, htail, hresponses.2, rfl⟩⟩

theorem collect_iff {data : σ} {keys : List (List Buffer)}
    {issued : List Query} :
    Runs.Run (Remote.Step serve others) ⟨.pipeline issued, data, keys⟩
        (batch.issuing (.new .queued) responses) r ↔
      Remote.Step serve others ⟨.pipeline (issued ++ batch.calls), data, keys⟩
        (.exec, .responses responses) r := by
  induction batch generalizing issued with
  | nil =>
      have hexec : StreamBatch.issuing [] (.new .queued) responses =
          [(.exec, .responses responses)] := rfl
      rw [hexec, Runs.run_cons_iff]
      simp [Runs.run_nil_iff, StreamBatch.calls]
  | cons call batch ih =>
      obtain ⟨cmd, reader⟩ := call
      have hsplit : StreamBatch.issuing ((cmd, reader) :: batch) (.new .queued)
          responses = (.query (.command cmd reader), .response (.new .queued))
            :: StreamBatch.issuing batch (.new .queued) responses := rfl
      rw [hsplit, Runs.run_cons_iff]
      have hcollect {mid : Remote σ} :
          Remote.Step serve others ⟨.pipeline issued, data, keys⟩
            (.query (.command cmd reader), .response (.new .queued)) mid ↔
          mid = ⟨.pipeline (issued ++ [.command cmd reader]), data, keys⟩ := by
        constructor
        · intro h
          cases h
          simp [Query.keys]
        · rintro rfl
          have hstep : Remote.Step serve others ⟨.pipeline issued, data, keys⟩
              (.query (.command cmd reader), .response (.new .queued))
              ⟨_, data, keys ++ Query.keys (.command cmd reader)⟩ := .collect
          rwa [Query.keys, List.append_nil] at hstep
      simp only [hcollect, exists_eq_left, ih, List.append_assoc,
        List.singleton_append, StreamBatch.calls_cons]

theorem queue_iff (hrefl : ∀ data, others data data)
    (htrans : ∀ data mid last, others data mid → others mid last →
      others data last) {data : σ} {keys : List (List Buffer)}
    {issued : List Query} :
    Runs.Run (Remote.Step serve others) ⟨.multi issued, data, keys⟩
        (batch.issuing (.new .err) responses) r ↔
      ∃ seen, others data seen ∧ Remote.Step serve others
        ⟨.multi (issued ++ batch.calls), seen, keys⟩
        (.exec, .responses responses) r := by
  induction batch generalizing data issued with
  | nil =>
      have hexec : StreamBatch.issuing [] (.new .err) responses =
          [(.exec, .responses responses)] := rfl
      rw [hexec, Runs.run_cons_iff]
      simp only [Runs.run_nil_iff, exists_eq_right', StreamBatch.calls,
        List.map_nil, List.append_nil]
      constructor
      · intro h
        exact ⟨data, hrefl data, h⟩
      · rintro ⟨seen, hseen, h⟩
        cases h with
        | execMulti hlater hserve hrespond =>
            exact .execMulti (htrans _ _ _ hseen hlater) hserve hrespond
  | cons call batch ih =>
      obtain ⟨cmd, reader⟩ := call
      have hsplit : StreamBatch.issuing ((cmd, reader) :: batch) (.new .err)
          responses = (.query (.command cmd reader), .response (.new .err))
            :: StreamBatch.issuing batch (.new .err) responses := rfl
      rw [hsplit, Runs.run_cons_iff]
      have hqueue {mid : Remote σ} :
          Remote.Step serve others ⟨.multi issued, data, keys⟩
            (.query (.command cmd reader), .response (.new .err)) mid ↔
          ∃ seen, others data seen ∧
            mid = ⟨.multi (issued ++ [.command cmd reader]), seen, keys⟩ := by
        constructor
        · intro h
          cases h with
          | queue hseen =>
              exact ⟨_, hseen, by simp [Query.keys]⟩
        · rintro ⟨seen, hseen, rfl⟩
          have hstep : Remote.Step serve others ⟨.multi issued, data, keys⟩
              (.query (.command cmd reader), .response (.new .err))
              ⟨_, seen, keys ++ Query.keys (.command cmd reader)⟩ :=
            .queue hseen
          rwa [Query.keys, List.append_nil] at hstep
      simp only [hqueue, StreamBatch.calls_cons]
      constructor
      · rintro ⟨_, ⟨seen, hseen, rfl⟩, hrun⟩
        obtain ⟨later, hlater, hexec⟩ := ih.mp hrun
        rw [List.append_assoc] at hexec
        exact ⟨later, htrans _ _ _ hseen hlater, hexec⟩
      · rintro ⟨seen, hseen, hexec⟩
        refine ⟨_, ⟨seen, hseen, rfl⟩, ih.mpr ⟨seen, hrefl seen, ?_⟩⟩
        rw [List.append_assoc]
        exact hexec

theorem execPipeline_iff {data : σ} {keys : List (List Buffer)} :
    Remote.Step serve others ⟨.pipeline batch.calls, data, keys⟩
        (.exec, .responses responses) r ↔
      ∃ replies last, Served serve others data batch.requests replies last ∧
        responses = batch.responses replies ∧ r = ⟨.normal, last, keys⟩ := by
  constructor
  · intro h
    cases h with
    | execPipeline hserved hrespond =>
        rw [StreamBatch.map_reader_calls, respondAll_stream, Prod.mk.injEq]
          at hrespond
        obtain ⟨rfl, rfl⟩ := hrespond
        exact ⟨_, _, hserved, rfl, rfl⟩
  · rintro ⟨replies, last, hserved, rfl, rfl⟩
    apply Remote.Step.execPipeline hserved
    rw [StreamBatch.map_reader_calls, respondAll_stream]
    rfl

theorem execMulti_iff {data : σ} {keys : List (List Buffer)} :
    Remote.Step serve others ⟨.multi batch.calls, data, keys⟩
        (.exec, .responses responses) r ↔
      ∃ seen, others data seen ∧ ∃ replies last,
        Served serve Eq seen batch.requests replies last ∧
        responses = batch.responses replies ∧ r = ⟨.normal, last, keys⟩ := by
  simp only [served_eq_iff]
  constructor
  · intro h
    cases h with
    | execMulti hseen hserve hrespond =>
        rw [StreamBatch.map_reader_calls, respondAll_stream, Prod.mk.injEq]
          at hrespond
        obtain ⟨rfl, rfl⟩ := hrespond
        exact ⟨_, hseen, _, _, hserve, rfl, rfl⟩
  · rintro ⟨seen, hseen, replies, last, hserve, rfl, rfl⟩
    apply Remote.Step.execMulti hseen hserve
    rw [StreamBatch.map_reader_calls, respondAll_stream]
    rfl

theorem pipelined_iff {data : σ} :
    Runs.Run (Remote.Step serve others) (.fresh data)
        (batch.pipelined responses) r ↔
      ∃ replies last, Served serve others data batch.requests replies last ∧
        responses = batch.responses replies ∧ r = ⟨.normal, last, []⟩ := by
  rw [← execPipeline_iff, ← List.nil_append batch.calls, ← collect_iff,
    StreamBatch.pipelined, Runs.run_cons_iff]
  constructor
  · rintro ⟨mid, hopen, hrun⟩
    cases hopen
    exact hrun
  · intro hrun
    exact ⟨_, .pipeline, hrun⟩

theorem transacted_iff (hrefl : ∀ data, others data data)
    (htrans : ∀ data mid last, others data mid → others mid last →
      others data last) {data : σ} :
    Runs.Run (Remote.Step serve others) (.fresh data)
        (batch.transacted responses) r ↔
      ∃ seen, others data seen ∧ ∃ replies last,
        Served serve Eq seen batch.requests replies last ∧
        responses = batch.responses replies ∧ r = ⟨.normal, last, []⟩ := by
  rw [← execMulti_iff, StreamBatch.transacted, Runs.run_cons_iff]
  constructor
  · rintro ⟨mid, hopen, hrun⟩
    cases hopen with
    | multi hseen =>
        obtain ⟨later, hlater, hexec⟩ := (queue_iff hrefl htrans).mp hrun
        obtain ⟨last, hlast, hserved⟩ := execMulti_iff.mp hexec
        exact execMulti_iff.mpr ⟨last, htrans _ _ _ hseen
          (htrans _ _ _ hlater hlast), hserved⟩
  · intro hexec
    exact ⟨_, .multi (hrefl data), (queue_iff hrefl htrans).mpr
      ⟨data, hrefl data, hexec⟩⟩

/-! ## Batches whose replies are taken whole -/

/-- Whatever other clients do, each reader takes its reply whole. -/
structure BatchFits (serve : Service σ) (others : σ → σ → Prop) (data : σ)
    (batch : StreamBatch) : Prop where
  ordinary : ∀ query ∈ batch.calls, Ordinary query.cmd.mElements
  takes : ∀ replies last,
    Served serve others data batch.requests replies last →
    List.Forall₂ (fun reader reply => reply.Sendable ∧
      StreamReader.Takes reader reply) batch.readers replies

theorem takesAll_stream {readers : List StreamReader} {replies : List Reply}
    (h : List.Forall₂ (fun reader reply => reply.Sendable ∧
      StreamReader.Takes reader reply) readers replies)
    (keys : List (List Buffer)) :
    TakesAll (readers.map .stream) keys replies := by
  induction h with
  | nil => trivial
  | cons hreply _ ih => exact ⟨hreply, ih⟩

theorem BatchFits.alone (hrefl : ∀ data, others data data) {data seen : σ}
    (h : BatchFits serve others data batch) (hseen : others data seen) :
    BatchFits serve Eq seen batch where
  ordinary := h.ordinary
  takes := by
    intro replies last hserved
    by_cases hne : batch.requests = []
    · rw [hne] at hserved
      cases hserved
      rw [List.map_eq_nil_iff.mp (List.map_eq_nil_iff.mp hne)]
      exact .nil
    · exact h.takes replies last (hserved.alone hrefl hseen hne)

theorem BatchFits.tail (hrefl : ∀ data, others data data) {data seen : σ}
    {call : Command × StreamReader}
    (h : BatchFits serve others data (call :: batch))
    (hseen : others data seen) :
    ((serve seen call.1.mElements).2.Sendable ∧
        call.2.Takes (serve seen call.1.mElements).2) ∧
      BatchFits serve others (serve seen call.1.mElements).1 batch := by
  have htail {replies : List Reply} {last : σ}
      (hserved : Served serve others (serve seen call.1.mElements).1
        batch.requests replies last) :=
    List.forall₂_cons.mp (h.takes _ last (.cons hseen rfl hserved))
  obtain ⟨replies, last, hserved⟩ :=
    exists_served hrefl (serve seen call.1.mElements).1 batch.requests
  exact ⟨(htail hserved).1, {
    ordinary := fun query hmem => h.ordinary query (List.mem_cons_of_mem _ hmem)
    takes := fun replies last hserved => (htail hserved).2 }⟩

theorem along_directly (hrefl : ∀ data, others data data) {data : σ}
    {keys : List (List Buffer)} (h : BatchFits serve others data batch) :
    Runs.Along (Remote.Step serve others) (Remote.Fits serve others)
      ⟨.normal, data, keys⟩ (batch.calls.map .query) := by
  induction batch generalizing data with
  | nil => trivial
  | cons call batch ih =>
      refine ⟨⟨h.ordinary _ List.mem_cons_self, fun _ seen hseen =>
        (h.tail hrefl hseen).1⟩, ?_⟩
      intro outcome next hstep
      cases outcome with
      | response resp =>
          obtain ⟨seen, hseen, _, rfl⟩ := ask_iff.mp hstep
          exact ih (h.tail hrefl hseen).2
      | entered entered => cases hstep
      | responses responses => cases hstep

theorem along_collect {data : σ} {keys : List (List Buffer)}
    {issued : List Query}
    (hordinary : ∀ query ∈ batch.calls, Ordinary query.cmd.mElements)
    (hexec : Remote.Fits serve others
      ⟨.pipeline (issued ++ batch.calls), data, keys⟩ .exec) :
    Runs.Along (Remote.Step serve others) (Remote.Fits serve others)
      ⟨.pipeline issued, data, keys⟩ (batch.calls.map .query ++ [.exec]) := by
  induction batch generalizing issued with
  | nil =>
      rw [StreamBatch.calls, List.map_nil, List.append_nil] at hexec
      exact ⟨hexec, fun _ _ _ => trivial⟩
  | cons call batch ih =>
      refine ⟨⟨hordinary _ List.mem_cons_self, fun hnormal => ?_⟩, ?_⟩
      · simp at hnormal
      · intro outcome next hstep
        cases hstep
        rw [Query.keys, List.append_nil]
        apply ih fun query hmem => hordinary query (List.mem_cons_of_mem _ hmem)
        rw [List.append_assoc]
        exact hexec

theorem along_queue (hrefl : ∀ data, others data data)
    (htrans : ∀ data mid last, others data mid → others mid last →
      others data last) {data : σ} {keys : List (List Buffer)}
    {issued : List Query}
    (hordinary : ∀ query ∈ batch.calls, Ordinary query.cmd.mElements)
    (hexec : ∀ seen, others data seen → Remote.Fits serve others
      ⟨.multi (issued ++ batch.calls), seen, keys⟩ .exec) :
    Runs.Along (Remote.Step serve others) (Remote.Fits serve others)
      ⟨.multi issued, data, keys⟩ (batch.calls.map .query ++ [.exec]) := by
  induction batch generalizing data issued with
  | nil =>
      have hnow := hexec data (hrefl data)
      rw [StreamBatch.calls, List.map_nil, List.append_nil] at hnow
      exact ⟨hnow, fun _ _ _ => trivial⟩
  | cons call batch ih =>
      refine ⟨⟨hordinary _ List.mem_cons_self, fun hnormal => ?_⟩, ?_⟩
      · simp at hnormal
      · intro outcome next hstep
        cases hstep with
        | queue hseen =>
            rw [Query.keys, List.append_nil]
            apply ih fun query hmem =>
              hordinary query (List.mem_cons_of_mem _ hmem)
            intro later hlater
            rw [List.append_assoc]
            exact hexec later (htrans _ _ _ hseen hlater)

theorem BatchFits.execPipeline {data : σ}
    (h : BatchFits serve others data batch) :
    Remote.Fits serve others ⟨.pipeline batch.calls, data, []⟩ .exec := by
  intro replies last hserved
  rw [StreamBatch.map_reader_calls]
  exact takesAll_stream (h.takes replies last hserved) []

theorem BatchFits.execMulti (hrefl : ∀ data, others data data)
    (htrans : ∀ data mid last, others data mid → others mid last →
      others data last) (hsize : (batch.length : ℤ) < LONG_MAX) {data seen : σ}
    (h : BatchFits serve others data batch) (hseen : others data seen) :
    Remote.Fits serve others ⟨.multi batch.calls, seen, []⟩ .exec := by
  refine ⟨by simpa using hsize, fun later hlater => ?_⟩
  have halone := h.alone hrefl (htrans _ _ _ hseen hlater)
  rw [StreamBatch.map_reader_calls]
  exact takesAll_stream (halone.takes _ _ (served_eq_iff.mpr rfl)) []

/-! ## The three ways to make the calls -/

theorem map_fst_directly (hlength : responses.length = batch.length) :
    (batch.directly responses).map Prod.fst = batch.calls.map .query := by
  induction batch generalizing responses with
  | nil =>
      obtain rfl := List.eq_nil_of_length_eq_zero hlength
      rfl
  | cons call batch ih =>
      cases responses with
      | nil => simp at hlength
      | cons resp responses =>
          exact congrArg (Call.query (.command call.1 call.2) :: ·)
            (@ih responses (by simpa using hlength))

theorem map_fst_issuing (answer : Response) :
    (batch.issuing answer responses).map Prod.fst =
      batch.calls.map .query ++ [.exec] := by
  simp [StreamBatch.issuing, Function.comp_def]

theorem length_responses {data last : σ} {replies : List Reply}
    (h : Served serve others data batch.requests replies last) :
    (batch.responses replies).length = batch.length := by
  have hlength := h.length_eq
  simp only [StreamBatch.requests, elementsOf, List.length_map,
    StreamBatch.length_calls] at hlength
  simp [StreamBatch.responses, hlength]

theorem may_directly_iff (hrefl : ∀ data, others data data) {data : σ}
    (hfits : BatchFits serve others data batch)
    (hlength : responses.length = batch.length) (server : Backend σ) :
    Wired.May serve others data (batch.directly responses) server ↔
      ∃ replies last, Served serve others data batch.requests replies last ∧
        responses = batch.responses replies ∧ server = ⟨last, none⟩ := by
  have halong : Runs.Along (Remote.Step serve others)
      (Remote.Fits serve others) (.fresh data) (batch.calls.map .query) :=
    along_directly hrefl hfits
  rw [← map_fst_directly hlength] at halong
  rw [may_iff halong]
  constructor
  · rintro ⟨r, hrun, rfl⟩
    obtain ⟨replies, last, hserved, hresponses, rfl⟩ :=
      (directly_iff hlength).mp hrun
    exact ⟨replies, last, hserved, hresponses, rfl⟩
  · rintro ⟨replies, last, hserved, hresponses, rfl⟩
    exact ⟨_, (directly_iff hlength).mpr
      ⟨replies, last, hserved, hresponses, rfl⟩, rfl⟩

/-- While other clients do what they will, a pipeline may return responses and
leave the server so exactly if the direct calls may. -/
theorem pipeline_transparent (hrefl : ∀ data, others data data) {data : σ}
    (hfits : BatchFits serve others data batch) (responses : List Response)
    (server : Backend σ) :
    Wired.May serve others data (batch.pipelined responses) server ↔
      responses.length = batch.length ∧
        Wired.May serve others data (batch.directly responses) server := by
  have halong : Runs.Along (Remote.Step serve others)
      (Remote.Fits serve others) (.fresh data)
      ((batch.pipelined responses).map Prod.fst) := by
    rw [StreamBatch.pipelined, List.map_cons, map_fst_issuing]
    refine ⟨trivial, fun _ _ hopen => ?_⟩
    cases hopen with
    | pipeline => exact along_collect hfits.ordinary hfits.execPipeline
    | pipelineOpen hopen => exact absurd rfl hopen
  rw [may_iff halong]
  constructor
  · rintro ⟨r, hrun, rfl⟩
    obtain ⟨replies, last, hserved, rfl, rfl⟩ := pipelined_iff.mp hrun
    have hlength := length_responses hserved
    exact ⟨hlength, (may_directly_iff hrefl hfits hlength _).mpr
      ⟨replies, last, hserved, rfl, rfl⟩⟩
  · rintro ⟨hlength, hmay⟩
    obtain ⟨replies, last, hserved, hresponses, rfl⟩ :=
      (may_directly_iff hrefl hfits hlength server).mp hmay
    exact ⟨_, pipelined_iff.mpr ⟨replies, last, hserved, hresponses, rfl⟩,
      rfl⟩

/-- A batch that asks for the key twice. -/
def setnxTwice : StreamBatch :=
  List.replicate 2 (setnxQuery.cmd, .readIntegerAsBool)

theorem setnx_batchFits (others : Bool → Bool → Prop) (held : Bool) :
    BatchFits setnx others held setnxTwice where
  ordinary := by decide
  takes := by
    intro replies last hserved
    obtain ⟨seen, rest, _, rfl, hrest⟩ := served_cons_iff.mp hserved
    obtain ⟨later, none, _, rfl, hnil⟩ := served_cons_iff.mp hrest
    obtain ⟨rfl, _⟩ := served_nil_iff.mp hnil
    exact .cons (setnx_takes seen _ []) (.cons (setnx_takes later _ []) .nil)

theorem pipeline_transparent_setnx :
    let others (held next : Bool) := held = true → next = true
    let responses := [.ofBool false, .ofBool false]
    Wired.May setnx others false (setnxTwice.pipelined responses)
        ⟨true, none⟩ ↔
      responses.length = setnxTwice.length ∧
        Wired.May setnx others false (setnxTwice.directly responses)
          ⟨true, none⟩ :=
  pipeline_transparent (fun _ => id) (setnx_batchFits _ false) _ _

/-- A transaction may return responses and leave the server so exactly if the
direct calls may from data that the others have reached, with no other client
at work from there on. -/
theorem transaction_isolated (hrefl : ∀ data, others data data)
    (htrans : ∀ data mid last, others data mid → others mid last →
      others data last) {data : σ}
    (hsize : (batch.length : ℤ) < LONG_MAX)
    (hfits : BatchFits serve others data batch) (responses : List Response)
    (server : Backend σ) :
    Wired.May serve others data (batch.transacted responses) server ↔
      responses.length = batch.length ∧ ∃ seen, others data seen ∧
        Wired.May serve Eq seen (batch.directly responses) server := by
  have halong : Runs.Along (Remote.Step serve others)
      (Remote.Fits serve others) (.fresh data)
      ((batch.transacted responses).map Prod.fst) := by
    rw [StreamBatch.transacted, List.map_cons, map_fst_issuing]
    refine ⟨trivial, fun _ _ hopen => ?_⟩
    cases hopen with
    | multi hseen =>
        exact along_queue hrefl htrans hfits.ordinary fun later hlater =>
          hfits.execMulti hrefl htrans hsize (htrans _ _ _ hseen hlater)
    | multiOpen hopen => exact absurd rfl hopen
  have halone {seen : σ} (hseen : others data seen) :=
    hfits.alone hrefl hseen
  rw [may_iff halong]
  constructor
  · rintro ⟨r, hrun, rfl⟩
    obtain ⟨seen, hseen, replies, last, hserved, rfl, rfl⟩ :=
      (transacted_iff hrefl htrans).mp hrun
    have hlength := length_responses hserved
    exact ⟨hlength, seen, hseen,
      (may_directly_iff (fun _ => rfl) (halone hseen) hlength _).mpr
        ⟨replies, last, hserved, rfl, rfl⟩⟩
  · rintro ⟨hlength, seen, hseen, hmay⟩
    obtain ⟨replies, last, hserved, hresponses, rfl⟩ :=
      (may_directly_iff (fun _ => rfl) (halone hseen) hlength server).mp hmay
    exact ⟨_, (transacted_iff hrefl htrans).mpr
      ⟨seen, hseen, replies, last, hserved, hresponses, rfl⟩, rfl⟩

theorem transaction_isolated_setnx :
    let others (held next : Bool) := held = true → next = true
    let responses := [.ofBool true, .ofBool false]
    Wired.May setnx others false (setnxTwice.transacted responses)
        ⟨true, none⟩ ↔
      responses.length = setnxTwice.length ∧ ∃ seen, others false seen ∧
        Wired.May setnx Eq seen (setnxTwice.directly responses)
          ⟨true, none⟩ :=
  transaction_isolated (fun _ => id)
    (fun _ _ _ hfirst hsecond hheld => hsecond (hfirst hheld)) (by decide)
    (setnx_batchFits _ false) _ _

end Redispp
