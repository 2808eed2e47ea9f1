import Redispp.Modes

/-!
# Connecting

`connect` asks the kernel for a socket and for the peer at an address, and
takes the descriptor when there is one.  It may be called again at any time:
the fields of a batch are not touched, so that what a pipeline has kept goes
out on the new connection.  An address that cannot be parsed is not noticed;
the address stays zero.
-/

namespace CLibrary

open Decimal

/-! ## Addresses -/

def octet? (s : List UInt8) : Option UInt8 :=
  if s ≠ [] ∧ s.all isDigit ∧ (s.length = 1 ∨ s.head? ≠ some (ascii '0')) ∧
      value s ≤ 255 then
    some (value s).toUInt8
  else none

/-- `inet_pton(AF_INET, ..)`: four numbers with points between them. -/
def inetPton (s : List UInt8) : Option (List UInt8) := do
  let octets ← (s.splitOn (ascii '.')).mapM octet?
  if octets.length = 4 then some octets else none

/-- `htons` of a `short`: its 16 bits, the high ones first. -/
def htons (port : ℤ) : List UInt8 :=
  let bits := (port % 65536).toNat
  [(bits / 256).toUInt8, (bits % 256).toUInt8]

end CLibrary

namespace Redispp

open StateExcept Decimal CLibrary

/-- `struct sockaddr_in`, as far as `connect` fills it in. -/
structure SockaddrIn where
  sinPort : List Byte
  sinAddr : List Byte
  deriving DecidableEq

/-- What the kernel answers in one call of `connect`: the descriptor that
`socket` returns, and what a peer that was reached has in store. -/
structure Attempt where
  socket : ℤ
  peer : SockaddrIn → Option Stream

namespace Client

/-- `host.c_str()` ends at the first NUL. -/
def sockaddr (host : List Byte) (port : ℤ) : SockaddrIn where
  sinPort := htons port
  sinAddr := (inetPton (host.takeWhile (· ≠ 0))).getD [0, 0, 0, 0]

def connect (host : List Byte) (port : ℤ) (attempt : Attempt) :
    ClientM Bool :=
  if attempt.socket = 0 then return false
  else
    match attempt.peer (sockaddr host port) with
    | none => return false
    | some input => do
        modify fun c => { c with input := input, output := [] }
        return true

/-- The default arguments of `connect`. -/
example : sockaddr (bytes "127.0.0.1") 6379 =
    ⟨[24, 235], [127, 0, 0, 1]⟩ := by decide

theorem run_connect (host : List Byte) (port : ℤ) (attempt : Attempt)
    (c : Client) :
    (connect host port attempt).run c = .ok (false, c) ∨
      ∃ input, (connect host port attempt).run c =
        .ok (true, { c with input := input, output := [] }) := by
  unfold connect
  split
  · exact Or.inl (run_pure _ _)
  · split
    · exact Or.inl (run_pure _ _)
    · next input _ => exact Or.inr ⟨input, rfl⟩

end Client

/-- A public call on whatever has arrived, or an attempt to connect and
whether it succeeded. -/
inductive Link
  | call (input : Stream) (call : Call)
  | connect (host : List Byte) (port : ℤ) (attempt : Attempt) (up : Bool)

def Link.Taken (c : Client) : Link → Client → Prop
  | .call input made, d => Client.Called c (input, made) d
  | .connect host port attempt up, d =>
      (Client.connect host port attempt).run c = .ok (up, d)

instance (c : Client) (link : Link) (d : Client) :
    Decidable (Link.Taken c link d) :=
  match link with
  | .call input made => inferInstanceAs <| Decidable
      (made.perform.run { c with input := input } = .ok ((), d))
  | .connect host port attempt up => inferInstanceAs <| Decidable
      ((Client.connect host port attempt).run c = .ok (up, d))

/-- The mode of a client, and what went out on its present connection. -/
structure Line where
  mode : Mode
  sent : Buffer

/-- Connecting again changes what counts as sent, and nothing else. -/
inductive Line.Step : Line → Link → Line → Prop
  | call {mode next : Mode} {sent : Buffer} {input : Stream} {call : Call} :
      Mode.Step mode call next →
      Step ⟨mode, sent⟩ (.call input call)
        ⟨next, sent ++ ((mode.sends call).map Command.get).flatten⟩
  | connected {mode : Mode} {sent : Buffer} {host : List Byte} {port : ℤ}
      {attempt : Attempt} :
      Step ⟨mode, sent⟩ (.connect host port attempt true) ⟨mode, []⟩
  | refused {line : Line} {host : List Byte} {port : ℤ} {attempt : Attempt} :
      Step line (.connect host port attempt false) line

theorem Link.Taken.step {mode : Mode} {c d : Client} {link : Link}
    (h : Mode.Represents mode c) (htaken : Link.Taken c link d) :
    ∃ next, Line.Step ⟨mode, c.output⟩ link ⟨next, d.output⟩ ∧
      Mode.Represents next d := by
  cases link with
  | call input made =>
      have hcalled : Client.Called c (input, made) d := htaken
      obtain ⟨next, hstep, hreaches⟩ :=
        Client.perform_refines (h.frame input _ _) hcalled
      refine ⟨next, ?_, hreaches.represents⟩
      rw [hreaches.output]
      exact .call hstep
  | connect host port attempt up =>
      have hrun : (Client.connect host port attempt).run c = .ok (up, d) :=
        htaken
      rcases Client.run_connect host port attempt c with
        hfalse | ⟨input', htrue⟩
      · obtain ⟨rfl, rfl⟩ := run_unique hrun hfalse
        exact ⟨mode, .refused, h⟩
      · obtain ⟨rfl, rfl⟩ := run_unique hrun htrue
        exact ⟨mode, .connected, h.frame input' [] c.mMgetKeys⟩

theorem run_linked_from {mode : Mode} {links : List Link} {c d : Client}
    (h : Mode.Represents mode c) (hrun : Runs.Run Link.Taken c links d) :
    ∃ next, Runs.Run Line.Step ⟨mode, c.output⟩ links ⟨next, d.output⟩ ∧
      Mode.Represents next d := by
  apply hrun.history_invariant fun links d => ∃ next,
    Runs.Run Line.Step ⟨mode, c.output⟩ links ⟨next, d.output⟩ ∧
      Mode.Represents next d
  · exact ⟨mode, .nil, h⟩
  · rintro past mid link last ⟨next, hpast, hnext⟩ htaken
    obtain ⟨after, hstep, hafter⟩ := htaken.step hnext
    exact ⟨after, hpast.snoc hstep, hafter⟩

/-- Over every run of public calls and attempts to connect, whatever arrives,
the client is in the mode of its calls, as if it had not connected again, and
has sent on the present connection what these calls wrote since. -/
theorem run_linked {input : Stream} {links : List Link} {c : Client}
    (h : Runs.Run Link.Taken (Client.connected input) links c) :
    ∃ mode, Runs.Run Line.Step ⟨.normal, []⟩ links ⟨mode, c.output⟩ ∧
      Mode.Represents mode c :=
  run_linked_from
    (Mode.represents_normal_iff.mpr (Client.connected_normal input)) h

theorem run_linked_again :
    let again := Link.connect (bytes "127.0.0.1") 6379
      ⟨3, fun _ => some (streamOf [])⟩ true
    let c : Client :=
      { Client.connected (streamOf []) with mPipeline := true }
    ∃ mode, Runs.Run Line.Step ⟨.normal, []⟩
        [.call (streamOf []) .pipeline, again] ⟨mode, c.output⟩ ∧
      Mode.Represents mode c := by
  intro again c
  have hopen : Link.Taken (Client.connected (streamOf []))
      (.call (streamOf []) .pipeline) c := by
    decide +kernel
  have hagain : Link.Taken c again c := by
    decide +kernel
  exact run_linked (.cons hopen (.cons hagain .nil))

/-! ## A batch across two connections -/

abbrev Arriving := List (Stream × Query)

def Arriving.queries (asked : Arriving) : List Query := asked.map Prod.snd

def Arriving.links (asked : Arriving) : List Link :=
  asked.map fun arrived => .call arrived.1 (.query arrived.2)

theorem Line.run_pipeline_queries {asked : Arriving} {issued : List Query}
    {sent : Buffer} {line : Line}
    (h : Runs.Run Line.Step ⟨.pipeline issued, sent⟩ asked.links line) :
    line = ⟨.pipeline (issued ++ asked.queries), sent⟩ := by
  induction asked generalizing issued with
  | nil =>
      rw [h.of_nil]
      simp [Arriving.queries]
  | cons arrived asked ih =>
      obtain ⟨mid, hfirst, hrest⟩ := h.of_cons
      cases hfirst with
      | call hstep =>
          cases hstep
          have hmore : Runs.Run Line.Step
              ⟨.pipeline (issued ++ [arrived.2]), sent⟩ (Arriving.links asked)
              line := by
            simpa [Arriving.links] using hrest
          rw [ih hmore]
          simp [Arriving.queries]

theorem Line.run_multi_queries {asked : Arriving} {issued : List Query}
    {sent : Buffer} {line : Line}
    (h : Runs.Run Line.Step ⟨.multi issued, sent⟩ asked.links line) :
    line = ⟨.multi (issued ++ asked.queries),
      sent ++ Client.wire asked.queries⟩ := by
  induction asked generalizing issued sent with
  | nil =>
      rw [h.of_nil]
      simp [Arriving.queries]
  | cons arrived asked ih =>
      obtain ⟨mid, hfirst, hrest⟩ := h.of_cons
      cases hfirst with
      | call hstep =>
          cases hstep
          simpa [Arriving.queries] using ih hrest

theorem Line.step_pipeline_exec {issued : List Query} {sent : Buffer}
    {last : Stream} {line : Line}
    (h : Line.Step ⟨.pipeline issued, sent⟩ (.call last .exec) line) :
    line = ⟨.normal, sent ++ Client.wire issued⟩ := by
  cases h with
  | call hstep =>
      cases hstep
      simp [Client.wire, Function.comp_def]

theorem Line.step_multi_exec {issued : List Query} {sent : Buffer}
    {last : Stream} {line : Line}
    (h : Line.Step ⟨.multi issued, sent⟩ (.call last .exec) line) :
    line.sent = sent ++ (Command.ofKeyword (bytes "EXEC")).get := by
  cases h with
  | call => simp

/-- The calls of one batch, with a connection that is made before its end. -/
def acrossConnect (opening : Stream × Call) (before : Arriving)
    (host : List Byte) (port : ℤ) (attempt : Attempt) (after : Arriving)
    (last : Stream) : List Link :=
  .call opening.1 opening.2 :: (before.links ++
    .connect host port attempt true :: (after.links ++ [.call last .exec]))

namespace Client

/-- A pipeline that is open when the client connects again sends all of its
commands on the new connection.  A transaction is torn: the new connection
gets the commands that were still to come, and EXEC. -/
theorem batch_across_connect {c d : Client} (hc : c.Normal)
    {opening : Stream × Call} {before after : Arriving} {host : List Byte}
    {port : ℤ} {attempt : Attempt} {last : Stream}
    (h : Runs.Run Link.Taken c
      (acrossConnect opening before host port attempt after last) d) :
    (opening.2 = .pipeline →
        d.output = wire (before.queries ++ after.queries) ∧ d.Normal) ∧
      (opening.2 = .multi →
        d.output = wire after.queries ++
          (Command.ofKeyword (bytes "EXEC")).get) := by
  obtain ⟨mode, hlines, hmode⟩ :=
    run_linked_from (Mode.represents_normal_iff.mpr hc) h
  obtain ⟨opened, hopen, hrest⟩ := hlines.of_cons
  obtain ⟨waiting, hbefore, hrest⟩ := hrest.split
  obtain ⟨again, hconnect, hrest⟩ := hrest.of_cons
  obtain ⟨asked, hafter, hexec⟩ := hrest.split
  obtain ⟨final, hexec, hnil⟩ := hexec.of_cons
  rw [← hnil.of_nil] at hexec
  constructor
  · intro hpipeline
    rw [hpipeline] at hopen
    cases hopen with
    | call hstep =>
        cases hstep
        obtain rfl := Line.run_pipeline_queries hbefore
        cases hconnect
        obtain rfl := Line.run_pipeline_queries hafter
        obtain ⟨hnormal, hsent⟩ :=
          Line.mk.inj (Line.step_pipeline_exec hexec)
        refine ⟨by simpa [wire] using hsent, ?_⟩
        rw [hnormal] at hmode
        exact Mode.represents_normal_iff.mp hmode
  · intro hmulti
    rw [hmulti] at hopen
    cases hopen with
    | call hstep =>
        cases hstep
        obtain rfl := Line.run_multi_queries hbefore
        cases hconnect
        obtain rfl := Line.run_multi_queries hafter
        simpa using Line.step_multi_exec hexec

def setAcross : List Link :=
  acrossConnect (streamOf [], .pipeline)
    [(streamOf [], .command
      (.withArguments (bytes "SET") [bytes "k", bytes "v"]) .readStatusCode)]
    (bytes "127.0.0.1") 6379 ⟨3, fun _ => some (streamOf [])⟩ []
    (streamOf (replyLine '+' (bytes "OK")))

theorem run_setAcross :
    Runs.Run Link.Taken (connected (streamOf [])) setAcross
      { connected (streamOf []) with
        output := (Command.withArguments (bytes "SET")
          [bytes "k", bytes "v"]).get } := by
  let opened : Client := { connected (streamOf []) with mPipeline := true }
  let asked : Client := { opened with
    mCmd := (Command.withArguments (bytes "SET") [bytes "k", bytes "v"]).get
    mReaders := [.stream .readStatusCode] }
  have hopen : Link.Taken (connected (streamOf [])) setAcross[0] opened := by
    decide +kernel
  have hset : Link.Taken opened setAcross[1] asked := by
    decide +kernel
  have hconnect : Link.Taken asked setAcross[2] asked := by
    decide +kernel
  have hexec : Link.Taken asked setAcross[3]
      { connected (streamOf []) with
        output := (Command.withArguments (bytes "SET")
          [bytes "k", bytes "v"]).get } := by
    decide +kernel
  exact .cons hopen (.cons hset (.cons hconnect (.cons hexec .nil)))

theorem batch_across_connect_set :
    let d : Client := { connected (streamOf []) with
      output := (Command.withArguments (bytes "SET")
        [bytes "k", bytes "v"]).get }
    d.output = (Command.withArguments (bytes "SET")
      [bytes "k", bytes "v"]).get ∧ d.Normal :=
  (batch_across_connect (connected_normal (streamOf [])) run_setAcross).1 rfl

end Client

end Redispp
