import Redispp.Pipelining

/-!
# Requests on the wire

The request grammar as the server reads it: a number of elements, then each
element behind its length.  The decoder knows nothing of the encoder in
`Command.get`.  Every element is taken by its length, so that no byte inside
an argument is ever looked at.
-/

namespace Redispp

open StateExcept Decimal

namespace Requests

abbrev Decoder (α : Type) := Feed.Receiver Byte Unit Unit α

abbrev Takes {α : Type} (m : Decoder α) (bs : List Byte) (a : α) : Prop :=
  Feed.Reads some m bs a

def literal (bs : List Byte) : Decoder Unit := fun feed =>
  if feed.pending.take bs.length = bs then
    .ok ((), { feed with pending := feed.pending.drop bs.length })
  else .error ()

def exactly (n : ℕ) : Decoder (List Byte) := fun feed =>
  if n ≤ feed.pending.length then
    .ok (feed.pending.take n, { feed with pending := feed.pending.drop n })
  else .error ()

def digits : Decoder (List Byte) := fun feed =>
  if feed.pending.takeWhile isDigit = [] then .error ()
  else .ok (feed.pending.takeWhile isDigit,
    { feed with pending := feed.pending.dropWhile isDigit })

def number (mark : Char) : Decoder ℕ := do
  literal [ascii mark]
  let ds ← digits
  literal [CR, LF]
  return value ds

def element : Decoder Buffer := do
  let size ← number '$'
  let s ← exactly size
  literal [CR, LF]
  return s

def request : Decoder (List Buffer) := do
  let count ← number '*'
  Feed.inTurn (List.replicate count element)

def requests : ℕ → Decoder (List (List Buffer))
  | 0 => do
      let feed ← get
      if feed.pending = [] then return [] else throw ()
  | most + 1 => do
      let feed ← get
      if feed.pending = [] then return []
      else
        let elements ← request
        let others ← requests most
        return elements :: others

/-- All of the input as requests, with nothing left over; a request has at
least one byte. -/
def decode (bs : List Byte) : Option (List (List Buffer)) :=
  match (requests bs.length).run ⟨bs, ()⟩ with
  | .ok (elements, ⟨[], ()⟩) => some elements
  | _ => none

/-! ## The decoder on encoded requests -/

theorem carries_some_iff {items bs : List Byte} :
    Feed.Carries some items bs ↔ items = bs := by
  unfold Feed.Carries
  constructor
  · intro h
    exact List.map_injective_iff.mpr (Option.some_injective Byte) h
  · rintro rfl
    rfl

theorem literal_takes (bs : List Byte) : Takes (literal bs) bs () := by
  intro items feed hitems
  rw [carries_some_iff.mp hitems]
  simp [StateT.run, literal, Feed.push]

theorem exactly_takes (bs : List Byte) :
    Takes (exactly bs.length) bs bs := by
  intro items feed hitems
  rw [carries_some_iff.mp hitems]
  simp [StateT.run, exactly, Feed.push]

theorem run_digits_text {n : ℕ} {feed : Feed Byte Unit}
    (hstop : ∀ b ∈ feed.pending.head?, isDigit b = false) :
    digits.run (feed.push (text n)) = .ok (text n, feed) := by
  simp [StateT.run, digits, Feed.push, takeWhile_text hstop,
    dropWhile_text hstop]

theorem number_takes (mark : Char) (n : ℕ) :
    Takes (number mark) (Command.header mark n) n := by
  have hnumeral : Takes (do
      let ds ← digits
      literal [CR, LF]
      return value ds) (text n ++ [CR, LF]) n := by
    intro items feed hitems
    rw [carries_some_iff.mp hitems, Feed.push_append,
      run_bind_of_ok (run_digits_text CR_not_isDigit)]
    have hend : Takes (literal [CR, LF] >>= fun _ =>
        (pure (value (text n)) : Decoder ℕ)) [CR, LF] n :=
      (literal_takes [CR, LF]).bind_pure (by rw [value_text])
    exact hend [CR, LF] feed (carries_some_iff.mpr rfl)
  exact (literal_takes [ascii mark]).bind hnumeral

theorem element_takes (s : Buffer) :
    Takes element (Command.encodeElement s) s := by
  have hend : Takes (literal [CR, LF] >>= fun _ =>
      (pure s : Decoder Buffer)) [CR, LF] s :=
    (literal_takes [CR, LF]).bind_pure rfl
  exact (number_takes '$' s.length).bind ((exactly_takes s).bind hend)

theorem elements_takes (elements : List Buffer) :
    Feed.ReadsEach some (List.replicate elements.length element)
      (elements.map Command.encodeElement) elements := by
  induction elements with
  | nil => exact .nil
  | cons s rest ih => exact .cons (element_takes s) ih

theorem request_takes (cmd : Command) :
    Takes request cmd.get cmd.mElements :=
  (number_takes '*' cmd.mElements.length).bind
    (elements_takes cmd.mElements).inTurn

theorem get_ne_nil (cmd : Command) : cmd.get ≠ [] := by
  simp [Command.get, Command.header]

theorem requests_run {most : ℕ} {cmds : List Command}
    (hmost : cmds.length ≤ most) :
    (requests most).run ⟨(cmds.map Command.get).flatten, ()⟩ =
      .ok (cmds.map Command.mElements, ⟨[], ()⟩) := by
  induction cmds generalizing most with
  | nil => cases most <;> rfl
  | cons cmd rest ih =>
      cases most with
      | zero => simp at hmost
      | succ most =>
          have hfeed : (⟨((cmd :: rest).map Command.get).flatten, ()⟩ :
              Feed Byte Unit) =
              Feed.push cmd.get ⟨(rest.map Command.get).flatten, ()⟩ := rfl
          have hpending : (Feed.push cmd.get
              ⟨(rest.map Command.get).flatten, ()⟩ :
                Feed Byte Unit).pending ≠ [] := by
            simp [get_ne_nil]
          have hrequest := request_takes cmd cmd.get
            ⟨(rest.map Command.get).flatten, ()⟩ (carries_some_iff.mpr rfl)
          have hrest := ih (by simpa using hmost)
          rw [hfeed, requests, run_get_bind, if_neg hpending,
            run_bind_of_ok hrequest, run_bind_of_ok hrest]
          rfl

theorem length_le_flatten (cmds : List Command) :
    cmds.length ≤ (cmds.map Command.get).flatten.length := by
  induction cmds with
  | nil => simp
  | cons cmd rest ih =>
      have hpos := List.length_pos_of_ne_nil (get_ne_nil cmd)
      simp only [List.map_cons, List.flatten_cons, List.length_cons,
        List.length_append]
      omega

theorem decode_get (cmds : List Command) :
    decode (cmds.map Command.get).flatten =
      some (cmds.map Command.mElements) := by
  rw [decode, requests_run (length_le_flatten cmds)]

theorem flatten_get_injective {cmds others : List Command}
    (h : (cmds.map Command.get).flatten = (others.map Command.get).flatten) :
    cmds = others := by
  have hdecode : some (cmds.map Command.mElements) =
      some (others.map Command.mElements) := by
    rw [← decode_get, ← decode_get, h]
  have hinj : Function.Injective Command.mElements :=
    fun _ _ => Command.ext_mElements
  exact List.map_injective_iff.mpr hinj (Option.some.inj hdecode)

theorem decode_wire (batch : List Query) :
    decode (Client.wire batch) =
      some (batch.map fun query => query.cmd.mElements) := by
  have hwire : Client.wire batch =
      ((batch.map Query.cmd).map Command.get).flatten := by
    simp [Client.wire, Function.comp_def]
  rw [hwire, decode_get, List.map_map]
  rfl

end Requests

namespace Client

open Requests

/-! ## What a call sends -/

/-- A call puts these bytes on the wire: in pipeline mode it keeps them for
`exec`, in the other modes it has written them when it returns. -/
structure Sends (call : ClientM Response) (bs : Buffer) : Prop where
  kept : ∀ c : Client, c.mPipeline = true →
    ∃ d, call.run c = .ok (.new .queued, d) ∧ d.mCmd = c.mCmd ++ bs
  written : ∀ (c d : Client) (resp : Response), c.mPipeline = false →
    call.run c = .ok (resp, d) → d.output = c.output ++ bs

theorem run_sends (cmd : Command) (reader : ResponseReader) :
    Sends (run cmd reader) cmd.get := by
  constructor
  · intro c hpipeline
    exact ⟨_, run_run_pipeline hpipeline cmd reader, rfl⟩
  · intro c d resp hpipeline hrun
    cases hmulti : c.mMulti with
    | true =>
        rw [run_run_multi hpipeline hmulti] at hrun
        obtain ⟨input, _, rfl⟩ := run_receive_eq_ok hrun
        rfl
    | false =>
        rw [run_run_normal hpipeline hmulti] at hrun
        obtain ⟨input, keys, rfl⟩ := run_call_eq_ok hrun
        rfl

theorem Sends.unique {call : ClientM Response} {bs others : Buffer}
    (h : Sends call bs) (hother : Sends call others) : bs = others := by
  let c : Client := { connected (streamOf []) with mPipeline := true }
  obtain ⟨d, hrun, hcmd⟩ := h.kept c rfl
  obtain ⟨d', hrun', hcmd'⟩ := hother.kept c rfl
  obtain ⟨_, rfl⟩ := run_unique hrun hrun'
  rw [hcmd] at hcmd'
  exact hcmd'

/-- The elements that a call sends, as the server decodes them. -/
def SendsElements (call : ClientM Response) (elements : List Buffer) :
    Prop :=
  ∃ bs, Sends call bs ∧ decode bs = some [elements]

theorem run_sendsElements_iff {cmd : Command} {reader : ResponseReader}
    {elements : List Buffer} :
    SendsElements (run cmd reader) elements ↔ elements = cmd.mElements := by
  have hdecode := decode_get [cmd]
  simp only [List.map_cons, List.map_nil, List.flatten_cons,
    List.flatten_nil, List.append_nil] at hdecode
  constructor
  · rintro ⟨bs, hsends, helements⟩
    rw [hsends.unique (run_sends cmd reader), hdecode] at helements
    simpa using helements.symm
  · rintro rfl
    exact ⟨cmd.get, run_sends cmd reader, hdecode⟩

/-- Whatever the keywords and arguments are, the commands written one after
another decode to exactly their elements, and so do the bytes that a pipeline
keeps for them. -/
theorem commands_decode (calls : List (Buffer × List Buffer))
    (batch : List Query) {c : Client} (hc : c.Normal) :
    decode (calls.map fun call =>
        (Command.withArguments call.1 call.2).get).flatten =
      some (calls.map fun call => call.1 :: call.2) ∧
      ∃ responses d,
        (pipeline >>= fun _ => issue batch).run c = .ok (responses, d) ∧
        d.mCmd = (batch.map fun query => query.cmd.get).flatten ∧
        decode d.mCmd = some (batch.map fun query => query.cmd.mElements) := by
  constructor
  · have hwritten := decode_get
      (calls.map fun call => Command.withArguments call.1 call.2)
    simpa [Function.comp_def] using hwritten
  · obtain ⟨entered, hopen, hissue⟩ := run_pipeline_issue hc batch
    exact ⟨_, _, (run_bind_of_ok hopen).trans hissue, rfl, decode_wire batch⟩

theorem commands_decode_mimicry :
    let call := (bytes "SET", [bytes "x\r\n*1\r\n$4\r\nPING\r\n", []])
    let cmd := Command.withArguments call.1 call.2
    decode ([call].map fun call =>
        (Command.withArguments call.1 call.2).get).flatten =
      some ([call].map fun call => call.1 :: call.2) ∧
      ∃ responses d,
        (pipeline >>= fun _ => issue [.command cmd .readStatusCode]).run
          (connected (streamOf [])) = .ok (responses, d) ∧
        d.mCmd = ([Query.command cmd .readStatusCode].map
          fun query => query.cmd.get).flatten ∧
        decode d.mCmd = some ([Query.command cmd .readStatusCode].map
          fun query => query.cmd.mElements) :=
  commands_decode _ _ (connected_normal (streamOf []))

end Client

end Redispp
