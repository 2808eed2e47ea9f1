import Redispp.Commands
import Redispp.Requests

/-!
# The arguments of `zunion` and `zinter`

The grammar of the two commands as the server reads it: the number of keys is
written ahead of them, and two optional tails follow, each behind its keyword.
Keys are taken by their number, so that none is mistaken for a keyword.
-/

namespace Redispp

open StateExcept Decimal CLibrary

structure ZSetArguments where
  dest : Buffer
  keys : List Buffer
  weights : Option (List Buffer)
  aggregate : Option Buffer
  deriving DecidableEq

namespace ZSetArguments

def parseAggregate : List Buffer → Option (Option Buffer)
  | [] => some none
  | [keyword, s] => if keyword = bytes "AGGREGATE" then some (some s) else none
  | _ => none

/-- The tails behind `n` keys. -/
def parseTails (n : ℕ) (rest : List Buffer) :
    Option (Option (List Buffer) × Option Buffer) :=
  if rest.head? = some (bytes "WEIGHTS") then
    if rest.tail.length < n then none
    else (parseAggregate (rest.tail.drop n)).map fun aggregate =>
      (some (rest.tail.take n), aggregate)
  else (parseAggregate rest).map fun aggregate => (none, aggregate)

/-- `dest numkeys key*numkeys [WEIGHTS w*numkeys] [AGGREGATE a]`. -/
def parse : List Buffer → Option ZSetArguments
  | dest :: number :: rest =>
      match intValue? number with
      | none => none
      | some n =>
          if n < 0 ∨ rest.length < n then none
          else (parseTails n.toNat (rest.drop n.toNat)).map fun tails =>
            ⟨dest, rest.take n.toNat, tails.1, tails.2⟩
  | _ => none

end ZSetArguments

/-! ## What the code writes -/

def weightElements (weights : List Double) : List Buffer :=
  if weights.length ≠ 0 then bytes "WEIGHTS" :: weights.map doubleText
  else []

def aggregateElements : Option Buffer → List Buffer
  | none => []
  | some s => [bytes "AGGREGATE", s]

theorem mElements_foldl_pushDouble (cmd : Command) (weights : List Double) :
    (weights.foldl Command.pushDouble cmd).mElements =
      cmd.mElements ++ weights.map doubleText := by
  induction weights generalizing cmd with
  | nil => simp
  | cons weight weights ih => simp [ih, Command.pushDouble]

theorem mElements_zSetCommand (keyword key : Buffer) (keys : List Buffer)
    (weights : List Double) (aggregate : Option Buffer) :
    (zSetCommand keyword key keys weights aggregate).mElements =
      keyword :: key :: intText (toLong keys.length) :: (keys ++
        (weightElements weights ++ aggregateElements aggregate)) := by
  unfold zSetCommand weightElements
  cases aggregate with
  | none =>
      split <;> simp [aggregateElements, Command.pushLong,
        Command.mElements_foldl_push, mElements_foldl_pushDouble]
  | some s =>
      split <;> simp [aggregateElements, Command.pushLong,
        Command.mElements_foldl_push, mElements_foldl_pushDouble]

/-! ## Parsing it -/

namespace ZSetArguments

def ofWeights (weights : List Double) : Option (List Buffer) :=
  if weights = [] then none else some (weights.map doubleText)

def ofAggregate (aggregate : List Byte) : Option Buffer :=
  if aggregate = [] then none else some aggregate

theorem parseAggregate_elements (aggregate : Option Buffer) :
    parseAggregate (aggregateElements aggregate) = some aggregate := by
  cases aggregate with
  | none => rfl
  | some s => simp [parseAggregate, aggregateElements]

theorem parseTails_elements {n : ℕ} {weights : List Double}
    (hcount : weights.length ≠ 0 → n = weights.length)
    (aggregate : Option Buffer) :
    parseTails n (weightElements weights ++ aggregateElements aggregate) =
      some (ofWeights weights, aggregate) := by
  unfold parseTails weightElements ofWeights
  by_cases hweights : weights.length ≠ 0
  · have hne : weights ≠ [] := by simpa using hweights
    rw [if_pos hweights, if_neg hne, hcount hweights, List.cons_append,
      List.head?_cons, if_pos rfl, List.tail_cons,
      if_neg (by simp only [List.length_append, List.length_map]; omega),
      List.drop_left' (List.length_map _), List.take_left' (List.length_map _),
      parseAggregate_elements]
    rfl
  · have hnil : weights = [] := by simpa using hweights
    rw [if_neg hweights, if_pos hnil, List.nil_append,
      parseAggregate_elements]
    have hhead : (aggregateElements aggregate).head? ≠
        some (bytes "WEIGHTS") := by
      cases aggregate with
      | none => simp [aggregateElements]
      | some s =>
          rw [aggregateElements, List.head?_cons, ne_eq, Option.some.injEq]
          decide
    rw [if_neg hhead]
    rfl

theorem parse_elements {dest : Buffer} {keys : List Buffer}
    {weights : List Double} (hkeys : (keys.length : ℤ) ≤ LONG_MAX)
    (hcount : weights.length ≠ 0 → keys.length = weights.length)
    (aggregate : Option Buffer) :
    parse (dest :: intText (toLong keys.length) :: (keys ++
        (weightElements weights ++ aggregateElements aggregate))) =
      some ⟨dest, keys, ofWeights weights, aggregate⟩ := by
  rw [parse, toLong_of_le hkeys, intValue?_intText]
  dsimp only
  rw [if_neg (by rw [List.length_append]; omega), Int.toNat_natCast,
    List.drop_left' rfl, List.take_left' rfl, parseTails_elements hcount]
  rfl

/-- What is parsed has as many keys as the number says. -/
theorem length_keys_of_parse {dest : Buffer} {z : ℤ} {rest : List Buffer}
    {arguments : ZSetArguments}
    (h : parse (dest :: intText z :: rest) = some arguments) :
    (arguments.keys.length : ℤ) = z := by
  rw [parse, intValue?_intText] at h
  dsimp only at h
  split at h
  · contradiction
  · next hrange =>
      obtain ⟨tails, _, rfl⟩ := Option.map_eq_some_iff.mp h
      simp only [List.length_take]
      omega

end ZSetArguments

/-! ## The calls -/

/-- The four overloads of either command. -/
inductive ZSetForm
  | keysOnly
  | withAggregate (aggregate : List Byte)
  | withWeights (weights : List Double)
  | withBoth (weights : List Double) (aggregate : List Byte)
  deriving DecidableEq

namespace ZSetForm

def weights : ZSetForm → List Double
  | .keysOnly | .withAggregate _ => []
  | .withWeights weights | .withBoth weights _ => weights

def aggregate : ZSetForm → List Byte
  | .keysOnly | .withWeights _ => []
  | .withAggregate aggregate | .withBoth _ aggregate => aggregate

def zunion (key : Buffer) (keys : List Buffer) : ZSetForm → ClientM Response
  | .keysOnly => Client.zunionKeys key keys
  | .withAggregate aggregate => Client.zunionAggregate key keys aggregate
  | .withWeights weights => Client.zunionWeights key keys weights
  | .withBoth weights aggregate => Client.zunion key keys weights aggregate

def zinter (key : Buffer) (keys : List Buffer) : ZSetForm → ClientM Response
  | .keysOnly => Client.zinterKeys key keys
  | .withAggregate aggregate => Client.zinterAggregate key keys aggregate
  | .withWeights weights => Client.zinterWeights key keys weights
  | .withBoth weights aggregate => Client.zinter key keys weights aggregate

theorem zunion_eq_generic (form : ZSetForm) (key : Buffer)
    (keys : List Buffer) :
    form.zunion key keys = Client.genericZSetOperation (bytes "ZUNION") key
      keys form.weights form.aggregate := by
  cases form <;> rfl

theorem zinter_eq_generic (form : ZSetForm) (key : Buffer)
    (keys : List Buffer) :
    form.zinter key keys = Client.genericZSetOperation (bytes "ZINTER") key
      keys form.weights form.aggregate := by
  cases form <;> rfl

end ZSetForm

namespace Client

/-- What the call is to do: it is refused, with nothing sent and nothing
changed, just for a wrong number of weights, and otherwise sends what parses
as its arguments. -/
structure SendsArguments (call : ClientM Response) (keyword key : Buffer)
    (keys : List Buffer) (weights : List Double) (aggregate : List Byte) :
    Prop where
  refused : ∀ c : Client, call.run c = .ok (.new .err, c) ↔
    weights ≠ [] ∧ weights.length ≠ keys.length
  parsed : ¬ (weights ≠ [] ∧ weights.length ≠ keys.length) →
    ∃ elements, SendsElements call (keyword :: elements) ∧
      ZSetArguments.parse elements = some
        { dest := key
          keys := keys
          weights := ZSetArguments.ofWeights weights
          aggregate := ZSetArguments.ofAggregate aggregate }

theorem get_append_ne (c : Client) (cmd : Command) :
    c.output ++ cmd.get ≠ c.output ∧ c.mCmd ++ cmd.get ≠ c.mCmd := by
  simp [Requests.get_ne_nil]

/-- A command that is sent leaves its trace. -/
theorem run_run_ne_refused (cmd : Command) (reader : ResponseReader)
    (resp : Response) (c : Client) : (run cmd reader).run c ≠ .ok (resp, c) := by
  intro h
  obtain ⟨houtput, hcmd⟩ := get_append_ne c cmd
  cases hpipeline : c.mPipeline with
  | true =>
      rw [run_run_pipeline hpipeline] at h
      exact hcmd (congrArg Client.mCmd (Prod.mk.inj (Except.ok.inj h)).2)
  | false =>
      exact houtput ((run_sends cmd reader).written c c resp hpipeline h).symm

theorem throw_not_sends (fault : Fault) (bs : Buffer) :
    ¬ Sends (throw fault) bs := by
  intro h
  obtain ⟨d, hrun, _⟩ := h.kept
    { connected (streamOf []) with mPipeline := true } rfl
  contradiction

theorem weightsRejected_iff_ne {keys : List Buffer} {weights : List Double} :
    Action.weightsRejected keys weights = true ↔
      weights ≠ [] ∧ weights.length ≠ keys.length := by
  rw [← Action.weightsRejected_iff, ne_comm (a := keys.length)]
  simp

/-- The aggregate is sent as it was given exactly when its length is an
`int`. -/
theorem copiedAggregate_eq_iff {aggregate : List Byte}
    (hNUL : 0 ∉ aggregate) :
    Action.copiedAggregate aggregate = ZSetArguments.ofAggregate aggregate ↔
      (aggregate.length : ℤ) ≤ INT_MAX := by
  have hwhole := Buffer.ofCString_eq_self_iff (s := aggregate)
  rw [and_iff_right hNUL] at hwhole
  unfold Action.copiedAggregate ZSetArguments.ofAggregate
  by_cases hempty : aggregate = []
  · rw [hempty]
    decide
  · rw [if_pos (by simpa using hempty), if_neg hempty, hwhole]

theorem parse_zSetCommand_iff {key : Buffer} {keys : List Buffer}
    {weights : List Double} {copied given : Option Buffer}
    (haccepted : ¬ (weights ≠ [] ∧ weights.length ≠ keys.length)) :
    ZSetArguments.parse (key :: intText (toLong keys.length) :: (keys ++
        (weightElements weights ++ aggregateElements copied))) =
        some ⟨key, keys, ZSetArguments.ofWeights weights, given⟩ ↔
      (keys.length : ℤ) ≤ LONG_MAX ∧ copied = given := by
  have hcount : weights.length ≠ 0 → keys.length = weights.length := by
    intro hne
    by_contra hlength
    exact haccepted ⟨by simpa using hne, Ne.symm hlength⟩
  constructor
  · intro hparse
    have hkeys := toLong_eq_self_iff.mp
      (ZSetArguments.length_keys_of_parse hparse).symm
    rw [ZSetArguments.parse_elements hkeys hcount] at hparse
    simp only [Option.some.injEq, ZSetArguments.mk.injEq, true_and] at hparse
    exact ⟨hkeys, hparse⟩
  · rintro ⟨hkeys, rfl⟩
    exact ZSetArguments.parse_elements hkeys hcount copied

theorem run_zSetCommand_sendsArguments_iff (keyword key : Buffer)
    {keys : List Buffer} {weights : List Double} {aggregate : List Byte}
    (hweights : ¬ (weights ≠ [] ∧ weights.length ≠ keys.length))
    (copied : Option Buffer) :
    SendsArguments (run (zSetCommand keyword key keys weights copied)
        (.stream .readInteger)) keyword key keys weights aggregate ↔
      (keys.length : ℤ) ≤ LONG_MAX ∧
        copied = ZSetArguments.ofAggregate aggregate := by
  have hsends : ∀ elements, SendsElements (run (zSetCommand keyword key
      keys weights copied) (.stream .readInteger)) (keyword :: elements) ↔
      elements = key :: intText (toLong keys.length) :: (keys ++
        (weightElements weights ++ aggregateElements copied)) := by
    intro elements
    rw [run_sendsElements_iff, mElements_zSetCommand, List.cons.injEq,
      and_iff_right rfl]
  rw [← parse_zSetCommand_iff hweights]
  constructor
  · rintro ⟨-, hparsed⟩
    obtain ⟨elements, helements, hparse⟩ := hparsed hweights
    rw [← (hsends elements).mp helements]
    exact hparse
  · intro hparse
    refine ⟨fun c => ?_, fun _ => ⟨_, (hsends _).mpr rfl, hparse⟩⟩
    exact iff_of_false (run_run_ne_refused _ _ _ c) hweights

theorem genericZSetOperation_sendsArguments_iff (keyword key : Buffer)
    (keys : List Buffer) (weights : List Double) {aggregate : List Byte}
    (hNUL : 0 ∉ aggregate) :
    SendsArguments (genericZSetOperation keyword key keys weights aggregate)
        keyword key keys weights aggregate ↔
      (weights ≠ [] ∧ weights.length ≠ keys.length) ∨
        ((keys.length : ℤ) ≤ LONG_MAX ∧
          (aggregate.length : ℤ) ≤ INT_MAX) := by
  by_cases hweights : weights ≠ [] ∧ weights.length ≠ keys.length
  · rw [Action.genericZSetOperation_rejected
      (weightsRejected_iff_ne.mpr hweights)]
    refine iff_of_true ?_ (Or.inl hweights)
    exact ⟨fun c => iff_of_true rfl hweights, fun h => absurd hweights h⟩
  · have haccepted : Action.weightsRejected keys weights = false := by
      rw [← Bool.not_eq_true, weightsRejected_iff_ne]
      exact hweights
    rw [or_iff_right hweights, Action.genericZSetOperation_accepted haccepted]
    by_cases hfault :
        aggregate.length ≠ 0 ∧ Buffer.ofCString aggregate = none
    · rw [if_pos hfault]
      constructor
      · rintro ⟨-, hparsed⟩
        obtain ⟨elements, ⟨bs, hsends, _⟩, _⟩ := hparsed hweights
        exact absurd hsends (throw_not_sends _ bs)
      · rintro ⟨-, hmax⟩
        have hwhole := Buffer.ofCString_eq_self_iff.mpr ⟨hNUL, hmax⟩
        rw [hfault.2] at hwhole
        contradiction
    · rw [if_neg hfault, run_zSetCommand_sendsArguments_iff _ _ hweights,
        copiedAggregate_eq_iff hNUL]

/-- Through each of the eight overloads the call does what it is to do
exactly when it is refused or the aggregate is no longer than an `int` (and
the number of keys is a `long`). -/
theorem zSetOperation_iff (form : ZSetForm) (key : Buffer)
    (keys : List Buffer) (hNUL : 0 ∉ form.aggregate) :
    (SendsArguments (form.zunion key keys) (bytes "ZUNION") key keys
          form.weights form.aggregate ↔
        (form.weights ≠ [] ∧ form.weights.length ≠ keys.length) ∨
          ((keys.length : ℤ) ≤ LONG_MAX ∧
            (form.aggregate.length : ℤ) ≤ INT_MAX)) ∧
      (SendsArguments (form.zinter key keys) (bytes "ZINTER") key keys
          form.weights form.aggregate ↔
        (form.weights ≠ [] ∧ form.weights.length ≠ keys.length) ∨
          ((keys.length : ℤ) ≤ LONG_MAX ∧
            (form.aggregate.length : ℤ) ≤ INT_MAX)) := by
  rw [form.zunion_eq_generic, form.zinter_eq_generic]
  exact ⟨genericZSetOperation_sendsArguments_iff _ key keys _ hNUL,
    genericZSetOperation_sendsArguments_iff _ key keys _ hNUL⟩

/-- Keys and weights that look like the keywords of the tails. -/
theorem zSetOperation_iff_keywords :
    let keys := [bytes "WEIGHTS", bytes "2"]
    let form := ZSetForm.withBoth [.finite false (2 ^ 52) (-52) (by decide),
      .finite true (2 ^ 52) (-53) (by decide)] (bytes "MAX")
    (SendsArguments (form.zunion (bytes "d") keys) (bytes "ZUNION")
          (bytes "d") keys form.weights form.aggregate ↔
        (form.weights ≠ [] ∧ form.weights.length ≠ keys.length) ∨
          ((keys.length : ℤ) ≤ LONG_MAX ∧
            (form.aggregate.length : ℤ) ≤ INT_MAX)) ∧
      (SendsArguments (form.zinter (bytes "d") keys) (bytes "ZINTER")
          (bytes "d") keys form.weights form.aggregate ↔
        (form.weights ≠ [] ∧ form.weights.length ≠ keys.length) ∨
          ((keys.length : ℤ) ≤ LONG_MAX ∧
            (form.aggregate.length : ℤ) ≤ INT_MAX)) :=
  zSetOperation_iff _ (bytes "d") _ (by decide)

theorem ofCString_replicate {n : ℕ} (hn : toInt n < 0) {b : Byte}
    (hb : b ≠ 0) : Buffer.ofCString (List.replicate n b) = none := by
  have hwhole : strlen (List.replicate n b) = n := by
    have hNUL : 0 ∉ List.replicate n b := by
      simp [List.mem_replicate, Ne.symm hb]
    rw [strlen_eq_length_iff.mpr hNUL, List.length_replicate]
  unfold Buffer.ofCString
  rw [hwhole, if_pos hn]

theorem zunionAggregate_replicate {n : ℕ} (hn : toInt n < 0)
    (key : Buffer) (keys : List Buffer) {b : Byte} (hb : b ≠ 0) :
    zunionAggregate key keys (List.replicate n b) = throw .invertedRange := by
  have hne : (List.replicate n b).length ≠ 0 := by
    rw [List.length_replicate]
    rintro rfl
    exact absurd hn (by decide)
  unfold zunionAggregate zunion genericZSetOperation
  rw [if_neg (by simp), if_pos hne, ofCString_replicate hn hb]

/-- An aggregate whose length is negative as an `int`. -/
theorem zSetOperation_long_aggregate :
    let form := ZSetForm.withAggregate (List.replicate 2147483648 (ascii 'A'))
    let keys := [bytes "k"]
    0 ∉ form.aggregate ∧
      ¬ (form.weights ≠ [] ∧ form.weights.length ≠ keys.length) ∧
      form.zunion (bytes "d") keys = throw .invertedRange ∧
      ¬ SendsArguments (form.zunion (bytes "d") keys) (bytes "ZUNION")
        (bytes "d") keys form.weights form.aggregate := by
  intro form keys
  have hcall : form.zunion (bytes "d") keys = throw .invertedRange :=
    zunionAggregate_replicate (by decide) _ _ (by decide)
  have haccepted :
      ¬ (form.weights ≠ [] ∧ form.weights.length ≠ keys.length) :=
    fun h => h.1 rfl
  refine ⟨?_, haccepted, hcall, ?_⟩
  · intro hmem
    exact absurd (List.eq_of_mem_replicate hmem) (by decide)
  · rw [hcall]
    rintro ⟨-, hparsed⟩
    obtain ⟨elements, ⟨bs, hsends, _⟩, _⟩ := hparsed haccepted
    exact throw_not_sends _ bs hsends

end Client

end Redispp
