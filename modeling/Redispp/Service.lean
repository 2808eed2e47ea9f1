import Redispp.ReplyTypes
import Redispp.Requests
import Redispp.Session

/-!
# A service behind the protocol

Any state machine that answers commands can stand behind a connection.  The
protocol adds the transactions: a connection queues commands and has them
served at EXEC, one after another.  Between two requests of a connection other
clients may change the data, and inside an EXEC they may not.
-/

namespace Redispp

variable {σ : Type}

/-! ## The server -/

/-- A service answers a command, given as its elements. -/
abbrev Service (σ : Type) := σ → List Buffer → σ × Reply

def serveAll (serve : Service σ) : σ → List (List Buffer) → σ × List Reply
  | data, [] => (data, [])
  | data, elements :: requests =>
      let (next, reply) := serve data elements
      let (last, replies) := serveAll serve next requests
      (last, reply :: replies)

/-- The commands are served in this order, and others come between them. -/
inductive Served (serve : Service σ) (others : σ → σ → Prop) :
    σ → List (List Buffer) → List Reply → σ → Prop
  | nil (data : σ) : Served serve others data [] [] data
  | cons {data seen next last : σ} {elements : List Buffer} {reply : Reply}
      {requests : List (List Buffer)} {replies : List Reply} :
      others data seen → serve seen elements = (next, reply) →
      Served serve others next requests replies last →
      Served serve others data (elements :: requests) (reply :: replies) last

/-- The data and the commands queued in an open transaction. -/
structure Backend (σ : Type) where
  data : σ
  queue : Option (List (List Buffer))

namespace Backend

def answer (serve : Service σ) (b : Backend σ) (elements : List Buffer) :
    Backend σ × List Byte :=
  match b.queue with
  | none =>
      if elements.head? = some (bytes "MULTI") then
        (⟨b.data, some []⟩, replyLine '+' (bytes "OK"))
      else if elements.head? = some (bytes "EXEC") ∨
          elements.head? = some (bytes "DISCARD") then
        (b, replyLine '-' (bytes "ERR without MULTI"))
      else
        let (data, reply) := serve b.data elements
        (⟨data, none⟩, reply.encode)
  | some queued =>
      if elements.head? = some (bytes "MULTI") then
        (b, replyLine '-' (bytes "ERR nested MULTI"))
      else if elements.head? = some (bytes "EXEC") then
        let (data, replies) := serveAll serve b.data queued
        (⟨data, none⟩, replyHeader '*' replies.length ++
          (replies.map Reply.encode).flatten)
      else if elements.head? = some (bytes "DISCARD") then
        (⟨b.data, none⟩, replyLine '+' (bytes "OK"))
      else
        (⟨b.data, some (queued ++ [elements])⟩,
          replyLine '+' (bytes "QUEUED"))

/-- What the server answers to the requests of one connection. -/
inductive Answers (serve : Service σ) (others : σ → σ → Prop) :
    Backend σ → List (List Buffer) → List Byte → Backend σ → Prop
  | nil (b : Backend σ) : Answers serve others b [] [] b
  | cons {b next last : Backend σ} {seen : σ} {elements : List Buffer}
      {requests : List (List Buffer)} {bs rest : List Byte} :
      others b.data seen →
      answer serve ⟨seen, b.queue⟩ elements = (next, bs) →
      Answers serve others next requests rest last →
      Answers serve others b (elements :: requests) (bs ++ rest) last

end Backend

theorem length_serveAll (serve : Service σ) (data : σ)
    (requests : List (List Buffer)) :
    (serveAll serve data requests).2.length = requests.length := by
  induction requests generalizing data with
  | nil => rfl
  | cons elements requests ih => simp [serveAll, ih]

theorem Served.length_eq {serve : Service σ} {others : σ → σ → Prop}
    {data last : σ} {requests : List (List Buffer)} {replies : List Reply}
    (h : Served serve others data requests replies last) :
    replies.length = requests.length := by
  induction h with
  | nil => rfl
  | cons _ _ _ ih => simp [ih]

/-! ## What the server does -/

variable {serve : Service σ} {others : σ → σ → Prop}

theorem Backend.answer_ordinary {b : Backend σ} {elements : List Buffer}
    (h : Ordinary elements) :
    b.answer serve elements =
      match b.queue with
      | none => (⟨(serve b.data elements).1, none⟩,
          (serve b.data elements).2.encode)
      | some queued => (⟨b.data, some (queued ++ [elements])⟩,
          replyLine '+' (bytes "QUEUED")) := by
  obtain ⟨hmulti, hexec, hdiscard⟩ := h
  unfold Backend.answer
  cases b.queue with
  | none => rw [if_neg hmulti, if_neg (by simp [hexec, hdiscard])]
  | some queued =>
      simp only [if_neg hmulti, if_neg hexec, if_neg hdiscard]

theorem Backend.answers_one_iff {b last : Backend σ} {elements : List Buffer}
    {bs : List Byte} :
    Backend.Answers serve others b [elements] bs last ↔
      ∃ seen, others b.data seen ∧
        Backend.answer serve ⟨seen, b.queue⟩ elements = (last, bs) := by
  constructor
  · intro h
    cases h with
    | cons hseen hanswer hrest =>
        cases hrest
        rw [List.append_nil]
        exact ⟨_, hseen, hanswer⟩
  · rintro ⟨seen, hseen, hanswer⟩
    rw [← List.append_nil bs]
    exact .cons hseen hanswer (.nil last)

/-- Outside a transaction the requests are served in order. -/
theorem Backend.answers_ordinary_iff {data : σ} {last : Backend σ}
    {requests : List (List Buffer)} {bs : List Byte}
    (hordinary : ∀ elements ∈ requests, Ordinary elements) :
    Backend.Answers serve others ⟨data, none⟩ requests bs last ↔
      ∃ replies next, Served serve others data requests replies next ∧
        last = ⟨next, none⟩ ∧ bs = (replies.map Reply.encode).flatten := by
  induction requests generalizing data bs with
  | nil =>
      constructor
      · intro h
        cases h
        exact ⟨[], data, .nil data, rfl, rfl⟩
      · rintro ⟨replies, next, hserved, rfl, rfl⟩
        cases hserved
        exact .nil _
  | cons elements requests ih =>
      have helements := hordinary elements List.mem_cons_self
      have htail : ∀ other ∈ requests, Ordinary other :=
        fun other hmem => hordinary other (List.mem_cons_of_mem _ hmem)
      constructor
      · intro h
        cases h with
        | cons hseen hanswer hrest =>
            rw [Backend.answer_ordinary helements] at hanswer
            simp only [Prod.mk.injEq] at hanswer
            obtain ⟨rfl, rfl⟩ := hanswer
            obtain ⟨replies, next, hserved, rfl, rfl⟩ := (ih htail).mp hrest
            exact ⟨_, next, .cons hseen rfl hserved, rfl, rfl⟩
      · rintro ⟨replies, next, hserved, rfl, rfl⟩
        cases hserved with
        | cons hseen hserve hrest =>
            apply Backend.Answers.cons hseen
            · rw [Backend.answer_ordinary helements, hserve]
            · exact (ih htail).mpr ⟨_, next, hrest, rfl, rfl⟩

end Redispp
