import Redispp.Socket

/-!
# The reply readers

One function for each `read_*` member of the client.  All but
`read_multi_string` depend on the stream alone; that one also takes the key
lists waiting in `m_mget_keys` and returns those left.
-/

namespace Redispp

open CLibrary

inductive KeyType
  | string
  | list
  | set
  | zset
  | hash
  | none
  deriving DecidableEq, Repr

def KeyType.code : KeyType → ℤ
  | .string => 1
  | .list => 2
  | .set => 3
  | .zset => 4
  | .hash => 5
  | .none => 6

def readString : Recv Response := do
  let str ← getline
  if str.head? = some (ascii '$') then
    let sz := toInt (atol str.tail)
    if sz = -1 then return .new .err
    else if sz ≠ 0 then
      let s ← readBody sz
      return (((Response.new .err).setType .string).setBuffer s).2
    else return .new .err
  else return .new .err

def readStatusCode : Recv Response := do
  let str ← getline
  if str.head? = some (ascii '+') then
    return ((Response.new .bool).setBool true).2
  else return .new .bool

def readSingleLine : Recv Response := do
  let str ← getline
  if str.head? = some (ascii '+') then
    let str := str.takeWhile (· ≠ CR)
    match Buffer.ofCString str.tail with
    | none => throw .invertedRange
    | some s => return (((Response.new .err).setType .string).setBuffer s).2
  else return .new .err

def readQueued : Recv Response := do
  let str ← getline
  if str = bytes "+QUEUED" then return (Response.new .err).setType .queued
  else return .new .err

def readInteger : Recv Response := do
  let str ← getline
  if str.head? = some (ascii ':') then
    return (((Response.new .err).setType .long).setLong (atol str.tail)).2
  else return .new .err

def readDouble : Recv Response := do
  let ret ← readString
  if ret.type ≠ .string then return ret
  else
    let s := ret.mStr
    return ((ret.setType .double).setDouble (atof s)).2

def readIntegerAsBool : Recv Response := do
  let str ← getline
  if str.head? = some (ascii ':') then
    let l := atol str.tail
    if l = 0 ∨ l = 1 then
      return (((Response.new .err).setType .bool).setBool (l = 1)).2
    else return .new .err
  else return .new .err

def multiBulkLoop : ℕ → Response → Recv Response
  | 0, ret => return ret
  | left + 1, ret => do
      let s ← readString
      if s.type ≠ .string then return .new .err
      else multiBulkLoop left (ret.addString s.mStr).2

def readMultiBulk : Recv Response := do
  let str ← getline
  if str.head? ≠ some (ascii '*') then return .new .err
  else
    let count := atol str.tail
    if count ≤ 0 then return .new .list
    else multiBulkLoop count.toNat (.new .list)

def multiStringLoop : List Buffer → Response → Recv Response
  | [], ret => return ret
  | k :: keys, ret => do
      let v ← readString
      if v.type = .string then multiStringLoop keys (ret.addPair k v.mStr).2
      else multiStringLoop keys ret

def readMultiString (mgetKeys : List (List Buffer)) :
    Recv (Response × List (List Buffer)) := do
  let str ← getline
  if str.head? ≠ some (ascii '*') then return (.new .err, mgetKeys)
  else
    match mgetKeys.getLast? with
    | none => return (.new .err, mgetKeys)
    | some keys =>
        let count := atol str.tail
        if count ≤ 0 ∨ count ≠ toInt keys.length then
          return (.new .err, mgetKeys.dropLast)
        else
          let ret ← multiStringLoop keys (.new .hash)
          return (ret, mgetKeys.dropLast)

/-- The loop of `read_key_value_list`, two steps of the iterator a turn. -/
def keyValueLoop : List Buffer → Response → Recv Response
  | [], ret => return ret
  | [_], _ => throw .outOfBounds
  | key :: val :: rest, ret => keyValueLoop rest (ret.addPair key val).2

def readKeyValueList : Recv Response := do
  let bulk ← readMultiBulk
  if bulk.type ≠ .list ∨ bulk.size.tmod 2 ≠ 0 then return .new .err
  else keyValueLoop bulk.mArray (.new .hash)

def readTypeReply : Recv Response := do
  let ret ← readSingleLine
  if ret.type ≠ .string then return .new .err
  else
    let t := ret.mStr
    let ret := ret.setType .long
    if t = bytes "string" then return (ret.setLong KeyType.string.code).2
    else if t = bytes "list" then return (ret.setLong KeyType.list.code).2
    else if t = bytes "set" then return (ret.setLong KeyType.set.code).2
    else if t = bytes "zset" then return (ret.setLong KeyType.zset.code).2
    else if t = bytes "hash" then return (ret.setLong KeyType.hash.code).2
    else if t = bytes "none" then return (ret.setLong KeyType.none.code).2
    else return .new .err

/-- `std::string::find` from a position on. -/
def findFrom (s : List Byte) (c : Byte) (pos : ℕ) : Option ℕ :=
  ((s.drop pos).findIdx? (· = c)).map (pos + ·)

/-- `std::string::substr`, which throws when it starts past the end. -/
def substr (s : List Byte) (pos n : ℕ) : Recv (List Byte) :=
  if s.length < pos then throw .outOfRange else return (s.drop pos).take n

/-- The loop of `read_info_reply`, which finds a further CR in each turn but
the last. -/
def infoLoop (s : List Byte) : ℕ → ℕ → ℕ → Response → Recv Response
  | 0, _, _, _ => throw .endless
  | turns + 1, pos, oldPos, ret =>
      match findFrom s CR pos with
      | none => return ret
      | some pos => do
          let line ← substr s oldPos (pos - oldPos)
          let next := pos + 2
          match findFrom line (ascii ':') 0 with
          | none => infoLoop s turns next next ret
          | some colonPos => do
              let key ← substr line 0 colonPos
              let val ← substr line (colonPos + 1) line.length
              infoLoop s turns next next (ret.addStdStrings key val).2

def readInfoReply : Recv Response := do
  let ret ← readString
  if ret.type ≠ .string then return .new .err
  else
    let s := ret.mStr
    infoLoop s (s.length + 1) 0 0 (ret.setType .infoMap)

inductive StreamReader
  | readString
  | readInteger
  | readDouble
  | readIntegerAsBool
  | readStatusCode
  | readSingleLine
  | readMultiBulk
  | readQueued
  | readInfoReply
  | readTypeReply
  | readKeyValueList
  deriving DecidableEq, Repr

def StreamReader.recv : StreamReader → Recv Response
  | .readString => Redispp.readString
  | .readInteger => Redispp.readInteger
  | .readDouble => Redispp.readDouble
  | .readIntegerAsBool => Redispp.readIntegerAsBool
  | .readStatusCode => Redispp.readStatusCode
  | .readSingleLine => Redispp.readSingleLine
  | .readMultiBulk => Redispp.readMultiBulk
  | .readQueued => Redispp.readQueued
  | .readInfoReply => Redispp.readInfoReply
  | .readTypeReply => Redispp.readTypeReply
  | .readKeyValueList => Redispp.readKeyValueList

inductive ResponseReader
  | stream (reader : StreamReader)
  | readMultiString
  deriving DecidableEq, Repr

/-- `(this->*fun)()`, with `m_mget_keys` passed through. -/
def ResponseReader.call (reader : ResponseReader)
    (mgetKeys : List (List Buffer)) : Recv (Response × List (List Buffer)) :=
  match reader with
  | .stream r => do
      let resp ← r.recv
      return (resp, mgetKeys)
  | .readMultiString => Redispp.readMultiString mgetKeys

/-! ## Locality -/

abbrev Local {α : Type} (m : Recv α) : Prop :=
  Feed.Local Arrival.carry (· = Closing.silent) m

theorem readString_local : Local readString := by
  apply getline_local.bind
  intro str
  refine Feed.Local.ite (Feed.Local.ite (Feed.Local.pure _)
    (Feed.Local.ite ?_ (Feed.Local.pure _))) (Feed.Local.pure _)
  exact (readBody_local _).bind fun s => Feed.Local.pure _

theorem readDouble_local : Local readDouble := by
  apply readString_local.bind
  intro ret
  exact Feed.Local.ite (Feed.Local.pure _) (Feed.Local.pure _)

theorem multiBulkLoop_local (left : ℕ) (ret : Response) :
    Local (multiBulkLoop left ret) := by
  induction left generalizing ret with
  | zero => exact Feed.Local.pure _
  | succ left ih =>
      apply readString_local.bind
      intro s
      exact Feed.Local.ite (Feed.Local.pure _) (ih _)

theorem readMultiBulk_local : Local readMultiBulk := by
  apply getline_local.bind
  intro str
  exact Feed.Local.ite (Feed.Local.pure _)
    (Feed.Local.ite (Feed.Local.pure _) (multiBulkLoop_local _ _))

theorem keyValueLoop_local (l : List Buffer) (ret : Response) :
    Local (keyValueLoop l ret) := by
  fun_induction keyValueLoop l ret with
  | case1 ret => exact Feed.Local.pure _
  | case2 ret => exact Feed.Local.fail _
  | case3 key val rest ret ih => exact ih

theorem substr_local (s : List Byte) (pos n : ℕ) : Local (substr s pos n) :=
  Feed.Local.ite (Feed.Local.fail _) (Feed.Local.pure _)

theorem infoLoop_local (s : List Byte) (turns pos oldPos : ℕ)
    (ret : Response) : Local (infoLoop s turns pos oldPos ret) := by
  induction turns generalizing pos oldPos ret with
  | zero => exact Feed.Local.fail _
  | succ turns ih =>
      rw [infoLoop]
      split
      · exact Feed.Local.pure _
      · apply (substr_local _ _ _).bind
        intro line
        split
        · exact ih _ _ _
        · apply (substr_local _ _ _).bind
          intro key
          apply (substr_local _ _ _).bind
          intro val
          exact ih _ _ _

theorem readSingleLine_local : Local readSingleLine := by
  apply getline_local.bind
  intro str
  refine Feed.Local.ite ?_ (Feed.Local.pure _)
  dsimp only
  split
  · exact Feed.Local.fail _
  · exact Feed.Local.pure _

theorem StreamReader.recv_local (reader : StreamReader) :
    Local reader.recv := by
  cases reader with
  | readString => exact readString_local
  | readDouble => exact readDouble_local
  | readSingleLine => exact readSingleLine_local
  | readMultiBulk => exact readMultiBulk_local
  | readInteger =>
      apply getline_local.bind
      intro str
      exact Feed.Local.ite (Feed.Local.pure _) (Feed.Local.pure _)
  | readIntegerAsBool =>
      apply getline_local.bind
      intro str
      exact Feed.Local.ite (Feed.Local.ite (Feed.Local.pure _)
        (Feed.Local.pure _)) (Feed.Local.pure _)
  | readStatusCode =>
      apply getline_local.bind
      intro str
      exact Feed.Local.ite (Feed.Local.pure _) (Feed.Local.pure _)
  | readQueued =>
      apply getline_local.bind
      intro str
      exact Feed.Local.ite (Feed.Local.pure _) (Feed.Local.pure _)
  | readInfoReply =>
      apply readString_local.bind
      intro ret
      exact Feed.Local.ite (Feed.Local.pure _) (infoLoop_local _ _ _ _ _)
  | readTypeReply =>
      apply readSingleLine_local.bind
      intro ret
      apply Feed.Local.ite (Feed.Local.pure _)
      repeat
        apply Feed.Local.ite (Feed.Local.pure _)
      exact Feed.Local.pure _
  | readKeyValueList =>
      apply readMultiBulk_local.bind
      intro bulk
      exact Feed.Local.ite (Feed.Local.pure _) (keyValueLoop_local _ _)

end Redispp
