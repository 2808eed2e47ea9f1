import Redispp.Command

/-!
# The options of SORT

`SortParams` keeps, for each option, a flag and the operands of the last call
that set it, and `buildCommand` writes those whose flag is set in one fixed
order.  The server reads the options from left to right in any order.
-/

namespace Redispp

open Decimal

/-- `m_limit_start` and `m_limit_count` have no value until `limit` is
called. -/
structure SortParams where
  mBy : Buffer
  mHasBy : Bool
  mLimitStart : Option ℤ
  mLimitCount : Option ℤ
  mHasLimit : Bool
  mGetPattern : Buffer
  mHasGetPattern : Bool
  mSortOrder : Buffer
  mHasSortOrder : Bool
  mAlpha : Bool
  mStore : Buffer
  mHasStore : Bool
  limitSet : mHasLimit = true → mLimitStart.isSome ∧ mLimitCount.isSome
  deriving DecidableEq

namespace SortParams

def new : SortParams where
  mBy := []
  mHasBy := false
  mLimitStart := none
  mLimitCount := none
  mHasLimit := false
  mGetPattern := []
  mHasGetPattern := false
  mSortOrder := []
  mHasSortOrder := false
  mAlpha := false
  mStore := []
  mHasStore := false
  limitSet := by simp

/-- `by`. -/
def byPattern (p : SortParams) (pattern : Buffer) : SortParams :=
  { p with mBy := pattern, mHasBy := true }

def limit (p : SortParams) (start count : ℤ) : SortParams :=
  { p with
    mLimitStart := some start
    mLimitCount := some count
    mHasLimit := true
    limitSet := by simp }

def get (p : SortParams) (pattern : Buffer) : SortParams :=
  { p with mGetPattern := pattern, mHasGetPattern := true }

def order (p : SortParams) (order : Buffer) : SortParams :=
  { p with mSortOrder := order, mHasSortOrder := true }

def alpha (p : SortParams) : SortParams :=
  { p with mAlpha := true }

def store (p : SortParams) (key : Buffer) : SortParams :=
  { p with mStore := key, mHasStore := true }

def buildCommand (p : SortParams) (key : Buffer) : Command :=
  let cmd := (Command.ofKeyword (bytes "SORT")).push key
  let cmd := if p.mHasBy then (cmd.push (bytes "BY")).push p.mBy else cmd
  let cmd :=
    if h : p.mHasLimit then
      ((cmd.push (bytes "LIMIT")).pushLong
        (p.mLimitStart.get (p.limitSet h).1)).pushLong
        (p.mLimitCount.get (p.limitSet h).2)
    else cmd
  let cmd :=
    if p.mHasGetPattern then (cmd.push (bytes "GET")).push p.mGetPattern
    else cmd
  let cmd := if p.mHasSortOrder then cmd.push p.mSortOrder else cmd
  let cmd := if p.mAlpha then cmd.push (bytes "ALPHA") else cmd
  if p.mHasStore then (cmd.push (bytes "STORE")).push p.mStore else cmd

end SortParams

inductive SortOrder
  | asc
  | desc
  deriving DecidableEq, Repr

def SortOrder.text : SortOrder → Buffer
  | .asc => bytes "ASC"
  | .desc => bytes "DESC"

/-- The setter calls. -/
inductive SortCall
  | byPattern (pattern : Buffer)
  | limit (start count : ℤ)
  | get (pattern : Buffer)
  | order (direction : SortOrder)
  | alpha
  | store (key : Buffer)
  deriving DecidableEq

def SortCall.apply : SortCall → SortParams → SortParams
  | .byPattern pattern, p => p.byPattern pattern
  | .limit start count, p => p.limit start count
  | .get pattern, p => p.get pattern
  | .order direction, p => p.order direction.text
  | .alpha, p => p.alpha
  | .store key, p => p.store key

def SortParams.after (calls : List SortCall) : SortParams :=
  calls.foldl (fun p call => call.apply p) .new

/-! ## The grammar -/

structure SortOptions where
  byPattern : Option Buffer
  limit : Option (ℤ × ℤ)
  get : Option Buffer
  order : Option SortOrder
  alpha : Bool
  store : Option Buffer
  deriving DecidableEq

namespace SortOptions

def none : SortOptions := ⟨.none, .none, .none, .none, false, .none⟩

/-- Each option consumes its own operands, whatever they are. -/
def parse : List Buffer → SortOptions → Option SortOptions
  | [], options => some options
  | keyword :: rest, options =>
      if keyword = bytes "ASC" then
        parse rest { options with order := some .asc }
      else if keyword = bytes "DESC" then
        parse rest { options with order := some .desc }
      else if keyword = bytes "ALPHA" then
        parse rest { options with alpha := true }
      else if keyword = bytes "BY" then
        match rest with
        | pattern :: rest => parse rest { options with byPattern := some pattern }
        | [] => .none
      else if keyword = bytes "GET" then
        match rest with
        | pattern :: rest => parse rest { options with get := some pattern }
        | [] => .none
      else if keyword = bytes "STORE" then
        match rest with
        | key :: rest => parse rest { options with store := some key }
        | [] => .none
      else if keyword = bytes "LIMIT" then
        match rest with
        | start :: count :: rest =>
            match intValue? start, intValue? count with
            | some start, some count =>
                parse rest { options with limit := some (start, count) }
            | _, _ => .none
        | _ => .none
      else .none

/-- The key and the options of the arguments of SORT. -/
def parseArguments : List Buffer → Option (Buffer × SortOptions)
  | key :: rest => (parse rest none).map fun options => (key, options)
  | [] => .none

end SortOptions

namespace SortCall

/-! ## The operands of the last call -/

def byPattern? : SortCall → Option Buffer
  | .byPattern pattern => some pattern
  | _ => none

def limit? : SortCall → Option (ℤ × ℤ)
  | .limit start count => some (start, count)
  | _ => none

def get? : SortCall → Option Buffer
  | .get pattern => some pattern
  | _ => none

def order? : SortCall → Option SortOrder
  | .order direction => some direction
  | _ => none

def store? : SortCall → Option Buffer
  | .store key => some key
  | _ => none

end SortCall

/-- For each option the operands of its last call. -/
def SortOptions.last (calls : List SortCall) : SortOptions where
  byPattern := (calls.filterMap SortCall.byPattern?).getLast?
  limit := (calls.filterMap SortCall.limit?).getLast?
  get := (calls.filterMap SortCall.get?).getLast?
  order := (calls.filterMap SortCall.order?).getLast?
  alpha := decide (.alpha ∈ calls)
  store := (calls.filterMap SortCall.store?).getLast?

namespace SortOptions

def set (options : SortOptions) : SortCall → SortOptions
  | .byPattern pattern => { options with byPattern := some pattern }
  | .limit start count => { options with limit := some (start, count) }
  | .get pattern => { options with get := some pattern }
  | .order direction => { options with order := some direction }
  | .alpha => { options with alpha := true }
  | .store key => { options with store := some key }

theorem last_concat (calls : List SortCall) (call : SortCall) :
    last (calls ++ [call]) = (last calls).set call := by
  cases call <;>
    simp [last, set, SortCall.byPattern?, SortCall.limit?, SortCall.get?,
      SortCall.order?, SortCall.store?]

end SortOptions

/-! ## What the setters keep -/

/-- An operand and its flag. -/
def flagged {α : Type} (has : Bool) (operand : α) : Option α :=
  if has then some operand else none

/-- The flags and operands are those of the options. -/
structure SortParams.Holds (p : SortParams) (options : SortOptions) :
    Prop where
  byPattern : flagged p.mHasBy p.mBy = options.byPattern
  limit : flagged p.mHasLimit (p.mLimitStart, p.mLimitCount) =
    options.limit.map fun range => (some range.1, some range.2)
  get : flagged p.mHasGetPattern p.mGetPattern = options.get
  order : flagged p.mHasSortOrder p.mSortOrder =
    options.order.map SortOrder.text
  alpha : p.mAlpha = options.alpha
  store : flagged p.mHasStore p.mStore = options.store

namespace SortParams

theorem holds_new : SortParams.new.Holds SortOptions.none :=
  ⟨rfl, rfl, rfl, rfl, rfl, rfl⟩

theorem holds_apply {p : SortParams} {options : SortOptions}
    (h : p.Holds options) (call : SortCall) :
    (call.apply p).Holds (options.set call) := by
  cases call with
  | byPattern pattern => exact { h with byPattern := rfl }
  | limit start count => exact { h with limit := rfl }
  | get pattern => exact { h with get := rfl }
  | order direction => exact { h with order := rfl }
  | alpha => exact { h with alpha := rfl }
  | store key => exact { h with store := rfl }

theorem holds_after (calls : List SortCall) :
    (after calls).Holds (.last calls) := by
  induction calls using List.reverseRecOn with
  | nil => exact holds_new
  | append_singleton calls call ih =>
      rw [after, List.foldl_append, SortOptions.last_concat]
      exact holds_apply ih call

end SortParams

/-! ## What `buildCommand` writes -/

def keywordElements (keyword : Buffer) : Option Buffer → List Buffer
  | none => []
  | some operand => [keyword, operand]

def limitElements : Option (ℤ × ℤ) → List Buffer
  | none => []
  | some (start, count) => [bytes "LIMIT", intText start, intText count]

/-- The options in the order of `buildCommand`. -/
def SortOptions.elements (options : SortOptions) : List Buffer :=
  keywordElements (bytes "BY") options.byPattern ++
    (limitElements options.limit ++
      (keywordElements (bytes "GET") options.get ++
        ((options.order.map SortOrder.text).toList ++
          ((if options.alpha then [bytes "ALPHA"] else []) ++
            keywordElements (bytes "STORE") options.store))))

namespace SortParams

theorem mElements_keyword (cmd : Command) (has : Bool)
    (keyword operand : Buffer) :
    (if has then (cmd.push keyword).push operand else cmd).mElements =
      cmd.mElements ++ keywordElements keyword (flagged has operand) := by
  cases has <;> simp [keywordElements, flagged]

theorem mElements_word (cmd : Command) (has : Bool) (word : Buffer) :
    (if has then cmd.push word else cmd).mElements =
      cmd.mElements ++ (flagged has word).toList := by
  cases has <;> simp [flagged]

theorem mElements_limit (p : SortParams) {range : Option (ℤ × ℤ)}
    (hlimit : flagged p.mHasLimit (p.mLimitStart, p.mLimitCount) =
      range.map fun range => (some range.1, some range.2))
    (cmd : Command) :
    (if h : p.mHasLimit then
        ((cmd.push (bytes "LIMIT")).pushLong
          (p.mLimitStart.get (p.limitSet h).1)).pushLong
          (p.mLimitCount.get (p.limitSet h).2)
      else cmd).mElements = cmd.mElements ++ limitElements range := by
  split
  · next hhas =>
      cases range with
      | none => simp [flagged, hhas] at hlimit
      | some range =>
          simp only [flagged, hhas, if_true, Option.map_some,
            Option.some.injEq, Prod.mk.injEq] at hlimit
          simp [hlimit, Command.pushLong, limitElements]
  · next hhas =>
      cases range with
      | none => simp [limitElements]
      | some range => simp [flagged, hhas] at hlimit

theorem mElements_buildCommand {p : SortParams} {options : SortOptions}
    (h : p.Holds options) (key : Buffer) :
    (p.buildCommand key).mElements =
      bytes "SORT" :: key :: options.elements := by
  have halpha : (if options.alpha then [bytes "ALPHA"] else []) =
      (flagged p.mAlpha (bytes "ALPHA")).toList := by
    rw [h.alpha]
    cases options.alpha <;> rfl
  unfold buildCommand
  dsimp only
  rw [mElements_keyword, mElements_word, mElements_word, mElements_keyword,
    mElements_limit p h.limit, mElements_keyword, h.byPattern, h.get, h.order,
    h.store, SortOptions.elements, halpha]
  simp

end SortParams

/-! ## Parsing it -/

namespace SortOptions

section Parts

variable (range : Option (ℤ × ℤ)) (byPattern get store : Option Buffer)
  (order : Option SortOrder) (alpha : Bool) (rest : List Buffer)

theorem parse_by :
    parse (keywordElements (bytes "BY") byPattern ++ rest)
        ⟨.none, range, get, order, alpha, store⟩ =
      parse rest ⟨byPattern, range, get, order, alpha, store⟩ := by
  cases byPattern with
  | none => rfl
  | some pattern =>
      change parse (bytes "BY" :: pattern :: rest) _ = _
      rw [parse.eq_def]
      rfl

theorem parse_limit :
    parse (limitElements range ++ rest)
        ⟨byPattern, .none, get, order, alpha, store⟩ =
      parse rest ⟨byPattern, range, get, order, alpha, store⟩ := by
  cases range with
  | none => rfl
  | some range =>
      have hparse : parse (limitElements (some range) ++ rest)
          ⟨byPattern, .none, get, order, alpha, store⟩ =
          match intValue? (intText range.1), intValue? (intText range.2) with
          | some start, some count =>
              parse rest
                ⟨byPattern, some (start, count), get, order, alpha, store⟩
          | _, _ => .none := rfl
      rw [hparse, intValue?_intText, intValue?_intText]

theorem parse_get :
    parse (keywordElements (bytes "GET") get ++ rest)
        ⟨byPattern, range, .none, order, alpha, store⟩ =
      parse rest ⟨byPattern, range, get, order, alpha, store⟩ := by
  cases get with
  | none => rfl
  | some pattern =>
      change parse (bytes "GET" :: pattern :: rest) _ = _
      rw [parse.eq_def]
      rfl

theorem parse_order :
    parse ((order.map SortOrder.text).toList ++ rest)
        ⟨byPattern, range, get, .none, alpha, store⟩ =
      parse rest ⟨byPattern, range, get, order, alpha, store⟩ := by
  cases order with
  | none => rfl
  | some direction =>
      cases direction with
      | asc =>
          change parse (bytes "ASC" :: rest) _ = _
          rw [parse.eq_def]
          rfl
      | desc =>
          change parse (bytes "DESC" :: rest) _ = _
          rw [parse.eq_def]
          rfl

theorem parse_alpha :
    parse ((if alpha then [bytes "ALPHA"] else []) ++ rest)
        ⟨byPattern, range, get, order, false, store⟩ =
      parse rest ⟨byPattern, range, get, order, alpha, store⟩ := by
  cases alpha with
  | false => rfl
  | true =>
      change parse (bytes "ALPHA" :: rest) _ = _
      rw [parse.eq_def]
      rfl

theorem parse_store :
    parse (keywordElements (bytes "STORE") store)
        ⟨byPattern, range, get, order, alpha, .none⟩ =
      some ⟨byPattern, range, get, order, alpha, store⟩ := by
  cases store with
  | none => rfl
  | some key => rfl

end Parts

/-- Every set of options is read back as it is, whatever the operands look
like. -/
theorem parse_elements (options : SortOptions) :
    parse options.elements none = some options := by
  rw [elements, none, parse_by, parse_limit, parse_get, parse_order,
    parse_alpha, parse_store]

end SortOptions

/-- The arguments that `buildCommand` writes are read back as the key and the
operands of each option's last call, and depend on nothing else. -/
theorem buildCommand_round_trip (key : Buffer) (calls : List SortCall) :
    (∃ arguments,
        ((SortParams.after calls).buildCommand key).mElements =
          bytes "SORT" :: arguments ∧
        SortOptions.parseArguments arguments = some (key, .last calls)) ∧
      ∀ others, SortOptions.last others = .last calls →
        (SortParams.after others).buildCommand key =
          (SortParams.after calls).buildCommand key := by
  have helements : ∀ calls,
      ((SortParams.after calls).buildCommand key).mElements =
        bytes "SORT" :: key :: (SortOptions.last calls).elements :=
    fun calls => SortParams.mElements_buildCommand
      (SortParams.holds_after calls) key
  refine ⟨⟨_, helements calls, ?_⟩, ?_⟩
  · rw [SortOptions.parseArguments, SortOptions.parse_elements,
      Option.map_some]
  · intro others hsame
    apply Command.ext_mElements
    rw [helements, helements, hsame]

example :
    ((SortParams.after [.store (bytes "BY"), .get (bytes "*"), .limit 0 (-1),
      .get (bytes "STORE")]).buildCommand (bytes "ASC")).mElements =
      [bytes "SORT", bytes "ASC", bytes "LIMIT", bytes "0", bytes "-1",
        bytes "GET", bytes "STORE", bytes "STORE", bytes "BY"] := by
  decide +kernel

end Redispp
