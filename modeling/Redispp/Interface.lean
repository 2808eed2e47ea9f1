import Redispp.Commands
import Redispp.IntegerArguments
import Redispp.Scores
import Redispp.ZSetOperations
import Redispp.SortReplies
import Redispp.LineReplies
import Redispp.Session

/-!
# The command calls by name

Every public call that sends a command, with the command it builds and the
reader it leaves for the reply.  The bytes of a request say which reader is
waiting for its reply, and none of the calls sends a command that the client
keeps for its batches.
-/

namespace Redispp

open Decimal CLibrary

/-! ## The generic commands -/

namespace Generic

def zStartEndInt (keyword key : Buffer) (first last : ℤ) : Query :=
  .command (.withArguments keyword [key, intText first, intText last])
    .readInteger

def withScores (withscores : Bool) : List Buffer :=
  if withscores then [bytes "WITHSCORES"] else []

def zrange (keyword key : Buffer) (first last : ℤ) (withscores : Bool) :
    Query :=
  .command (.withArguments keyword
    ([key, intText first, intText last] ++ withScores withscores))
    .readMultiBulk

def zrank (keyword key member : Buffer) : Query :=
  .command (.withArguments keyword [key, member]) .readInteger

def multiParameter (keyword : Buffer) (keys : List Buffer)
    (reader : StreamReader) : Query :=
  .command (.withArguments keyword keys) reader

def pop (keyword key : Buffer) : Query :=
  .command (.withArguments keyword [key]) .readString

def push (keyword key val : Buffer) : Query :=
  .command (.withArguments keyword [key, val]) .readInteger

def keyIntReturnInt (keyword key : Buffer) (val : ℤ) (addBy : Bool) : Query :=
  .command (keyIntCommand keyword key val addBy) .readInteger

def listItemAction (keyword key : Buffer) (n : ℤ) (val : Buffer)
    (reader : StreamReader) : Query :=
  .command (.withArguments keyword [key, intText n, val]) reader

def setKeyValue (keyword key val : Buffer) : Query :=
  .command (.withArguments keyword [key, val]) .readIntegerAsBool

def card (keyword key : Buffer) : Query :=
  .command (.withArguments keyword [key]) .readInteger

def hSimpleList (keyword key : Buffer) : Query :=
  .command (.withArguments keyword [key]) .readMultiBulk

def blockingPop (keyword : Buffer) (keys : List Buffer) (timeout : ℤ) :
    Query :=
  .command (.withArguments keyword (keys ++ [intText timeout])) .readMultiBulk

def mset (keyword : Buffer) (keys vals : List Buffer)
    (reader : StreamReader) : Query :=
  .command (msetCommand keyword keys vals) reader

def zSetOperation (keyword key : Buffer) (keys : List Buffer)
    (weights : List Double) (aggregate : List Byte) : Query :=
  .command (zSetCommand keyword key keys weights
    (Action.copiedAggregate aggregate)) .readInteger

end Generic

/-! ## The calls -/

/-- `mset`, `msetnx`, `zunion` and `zinter` stand for the calls whose
arguments are accepted. -/
inductive Invocation
  | auth (key : Buffer)
  | select (index : ℤ)
  | keys (pattern : Buffer)
  | dbsize
  | lastsave
  | flushdb
  | flushall
  | save
  | bgsave
  | bgrewriteaof
  | move (key : Buffer) (index : ℤ)
  | sort (key : Buffer)
  | sortBy (key : Buffer) (params : SortParams)
  | type (key : Buffer)
  | append (key padding : Buffer)
  | substr (key : Buffer) (start last : ℤ)
  | configGet (key field : Buffer)
  | configSet (key field val : Buffer)
  | get (key : Buffer)
  | set (key val : Buffer)
  | getset (key val : Buffer)
  | setnx (key val : Buffer)
  | exists (key : Buffer)
  | del (key : Buffer)
  | delKeys (keys : List Buffer)
  | mget (keys : List Buffer)
  | expire (key : Buffer) (ttl : ℤ)
  | expireat (key : Buffer) (timestamp : ℤ)
  | mset (keys vals : List Buffer)
  | msetnx (keys vals : List Buffer)
  | info
  | incr (key : Buffer) (val : ℤ)
  | decr (key : Buffer) (val : ℤ)
  | rename (src dst : Buffer)
  | renamenx (src dst : Buffer)
  | randomkey
  | ttl (key : Buffer)
  | ping
  | lpush (key val : Buffer)
  | rpush (key val : Buffer)
  | rpoplpush (src dst : Buffer)
  | llen (key : Buffer)
  | lpop (key : Buffer)
  | rpop (key : Buffer)
  | blpop (keys : List Buffer) (timeout : ℤ)
  | brpop (keys : List Buffer) (timeout : ℤ)
  | ltrim (key : Buffer) (start last : ℤ)
  | lindex (key : Buffer) (pos : ℤ)
  | lrem (key : Buffer) (count : ℤ) (val : Buffer)
  | lset (key : Buffer) (pos : ℤ) (val : Buffer)
  | lrange (key : Buffer) (start last : ℤ)
  | sadd (key val : Buffer)
  | srem (key val : Buffer)
  | spop (key : Buffer)
  | scard (key : Buffer)
  | sismember (key val : Buffer)
  | smembers (key : Buffer)
  | srandmember (key : Buffer)
  | smove (src dst member : Buffer)
  | sinter (keys : List Buffer)
  | sunion (keys : List Buffer)
  | sdiff (keys : List Buffer)
  | sinterstore (keys : List Buffer)
  | sunionstore (keys : List Buffer)
  | sdiffstore (keys : List Buffer)
  | zadd (key : Buffer) (score : Double) (member : Buffer)
  | zrem (key member : Buffer)
  | zincrby (key : Buffer) (score : Double) (member : Buffer)
  | zscore (key member : Buffer)
  | zrank (key member : Buffer)
  | zrevrank (key member : Buffer)
  | zrange (key : Buffer) (start last : ℤ) (withscores : Bool)
  | zrevrange (key : Buffer) (start last : ℤ) (withscores : Bool)
  | zcard (key : Buffer)
  | zcount (key : Buffer) (start last : ℤ)
  | zremrangebyrank (key : Buffer) (min max : ℤ)
  | zremrangebyscore (key : Buffer) (min max : ℤ)
  | zrangebyscore (key : Buffer) (min max : ℤ) (withscores : Bool)
  | zrangebyscoreLimit (key : Buffer) (min max start last : ℤ)
      (withscores : Bool)
  | zunion (key : Buffer) (keys : List Buffer) (weights : List Double)
      (aggregate : List Byte)
  | zinter (key : Buffer) (keys : List Buffer) (weights : List Double)
      (aggregate : List Byte)
  | hset (key field val : Buffer)
  | hget (key field : Buffer)
  | hdel (key field : Buffer)
  | hexists (key field : Buffer)
  | hlen (key : Buffer)
  | hkeys (key : Buffer)
  | hvals (key : Buffer)
  | hgetall (key : Buffer)
  | hincrby (key field : Buffer) (d : Double)

namespace Invocation

def query : Invocation → Query
  | .auth key => .command (.withArguments (bytes "AUTH") [key]) .readStatusCode
  | .select index =>
      .command (.withArguments (bytes "SELECT") [intText index])
        .readStatusCode
  | .keys pattern =>
      .command (.withArguments (bytes "KEYS") [pattern]) .readMultiBulk
  | .dbsize => .command (.ofKeyword (bytes "DBSIZE")) .readInteger
  | .lastsave => .command (.ofKeyword (bytes "LASTSAVE")) .readInteger
  | .flushdb => .command (.ofKeyword (bytes "FLUSHDB")) .readStatusCode
  | .flushall => .command (.ofKeyword (bytes "FLUSHALL")) .readStatusCode
  | .save => .command (.ofKeyword (bytes "SAVE")) .readStatusCode
  | .bgsave => .command (.ofKeyword (bytes "BGSAVE")) .readStatusCode
  | .bgrewriteaof =>
      .command (.ofKeyword (bytes "BGREWRITEAOF")) .readStatusCode
  | .move key index =>
      .command (.withArguments (bytes "MOVE") [key, intText index])
        .readIntegerAsBool
  | .sort key => .command (.withArguments (bytes "SORT") [key]) .readMultiBulk
  | .sortBy key params => .command (params.buildCommand key) .readMultiBulk
  | .type key => .command (.withArguments (bytes "TYPE") [key]) .readTypeReply
  | .append key padding =>
      .command (.withArguments (bytes "APPEND") [key, padding]) .readInteger
  | .substr key start last =>
      .command (.withArguments (bytes "SUBSTR")
        [key, intText start, intText last]) .readString
  | .configGet key field =>
      .command (.withArguments (bytes "CONFIG") [key, bytes "GET", field])
        .readMultiBulk
  | .configSet key field val =>
      .command (.withArguments (bytes "CONFIG") [key, bytes "SET", field, val])
        .readString
  | .get key => .command (.withArguments (bytes "GET") [key]) .readString
  | .set key val =>
      .command (.withArguments (bytes "SET") [key, val]) .readStatusCode
  | .getset key val =>
      .command (.withArguments (bytes "GETSET") [key, val]) .readString
  | .setnx key val =>
      .command (.withArguments (bytes "SETNX") [key, val]) .readIntegerAsBool
  | .exists key =>
      .command (.withArguments (bytes "EXISTS") [key]) .readIntegerAsBool
  | .del key => .command (.withArguments (bytes "DEL") [key]) .readInteger
  | .delKeys list => Generic.multiParameter (bytes "DEL") list .readInteger
  | .mget list => .mget list
  | .expire key seconds =>
      Generic.keyIntReturnInt (bytes "EXPIRE") key (toInt seconds) false
  | .expireat key timestamp =>
      Generic.keyIntReturnInt (bytes "EXPIREAT") key (toInt timestamp) false
  | .mset list vals => Generic.mset (bytes "MSET") list vals .readStatusCode
  | .msetnx list vals =>
      Generic.mset (bytes "MSETNX") list vals .readIntegerAsBool
  | .info => .command (.ofKeyword (bytes "INFO")) .readInfoReply
  | .incr key val => Generic.keyIntReturnInt (bytes "INCR") key val true
  | .decr key val => Generic.keyIntReturnInt (bytes "DECR") key val true
  | .rename src dst =>
      .command (.withArguments (bytes "RENAME") [src, dst]) .readStatusCode
  | .renamenx src dst =>
      .command (.withArguments (bytes "RENAMENX") [src, dst])
        .readIntegerAsBool
  | .randomkey => .command (.ofKeyword (bytes "RANDOMKEY")) .readSingleLine
  | .ttl key => .command (.withArguments (bytes "TTL") [key]) .readInteger
  | .ping => .command (.ofKeyword (bytes "PING")) .readStatusCode
  | .lpush key val => Generic.push (bytes "LPUSH") key val
  | .rpush key val => Generic.push (bytes "RPUSH") key val
  | .rpoplpush src dst =>
      .command (.withArguments (bytes "RPOPLPUSH") [src, dst]) .readString
  | .llen key => .command (.withArguments (bytes "LLEN") [key]) .readInteger
  | .lpop key => Generic.pop (bytes "LPOP") key
  | .rpop key => Generic.pop (bytes "RPOP") key
  | .blpop list timeout => Generic.blockingPop (bytes "BLPOP") list timeout
  | .brpop list timeout => Generic.blockingPop (bytes "BRPOP") list timeout
  | .ltrim key start last =>
      .command (.withArguments (bytes "LTRIM")
        [key, intText start, intText last]) .readStatusCode
  | .lindex key pos =>
      .command (.withArguments (bytes "LINDEX") [key, intText pos]) .readString
  | .lrem key count val =>
      Generic.listItemAction (bytes "LREM") key count val .readInteger
  | .lset key pos val =>
      Generic.listItemAction (bytes "LSET") key pos val .readStatusCode
  | .lrange key start last =>
      .command (.withArguments (bytes "LRANGE")
        [key, intText start, intText last]) .readMultiBulk
  | .sadd key val => Generic.setKeyValue (bytes "SADD") key val
  | .srem key val => Generic.setKeyValue (bytes "SREM") key val
  | .spop key => Generic.pop (bytes "SPOP") key
  | .scard key => Generic.card (bytes "SCARD") key
  | .sismember key val => Generic.setKeyValue (bytes "SISMEMBER") key val
  | .smembers key =>
      .command (.withArguments (bytes "SMEMBERS") [key]) .readMultiBulk
  | .srandmember key => Generic.pop (bytes "SRANDMEMBER") key
  | .smove src dst member =>
      .command (.withArguments (bytes "SMOVE") [src, dst, member])
        .readIntegerAsBool
  | .sinter list => Generic.multiParameter (bytes "SINTER") list .readMultiBulk
  | .sunion list => Generic.multiParameter (bytes "SUNION") list .readMultiBulk
  | .sdiff list => Generic.multiParameter (bytes "SDIFF") list .readMultiBulk
  | .sinterstore list =>
      Generic.multiParameter (bytes "SINTERSTORE") list .readInteger
  | .sunionstore list =>
      Generic.multiParameter (bytes "SUNIONSTORE") list .readInteger
  | .sdiffstore list =>
      Generic.multiParameter (bytes "SDIFFSTORE") list .readInteger
  | .zadd key score member =>
      .command (.withArguments (bytes "ZADD") [key, doubleText score, member])
        .readIntegerAsBool
  | .zrem key member =>
      .command (.withArguments (bytes "ZREM") [key, member]) .readIntegerAsBool
  | .zincrby key score member =>
      .command (.withArguments (bytes "ZINCRBY")
        [key, doubleText score, member]) .readDouble
  | .zscore key member =>
      .command (.withArguments (bytes "ZSCORE") [key, member]) .readDouble
  | .zrank key member => Generic.zrank (bytes "ZRANK") key member
  | .zrevrank key member => Generic.zrank (bytes "ZREVRANK") key member
  | .zrange key start last withscores =>
      Generic.zrange (bytes "ZRANGE") key start last withscores
  | .zrevrange key start last withscores =>
      Generic.zrange (bytes "ZREVRANGE") key start last withscores
  | .zcard key => Generic.card (bytes "ZCARD") key
  | .zcount key start last =>
      Generic.zStartEndInt (bytes "ZCOUNT") key start last
  | .zremrangebyrank key min max =>
      Generic.zStartEndInt (bytes "ZREMRANGEBYRANK") key min max
  | .zremrangebyscore key min max =>
      Generic.zStartEndInt (bytes "ZREMRANGEBYSCORE") key min max
  | .zrangebyscore key min max withscores =>
      .command (.withArguments (bytes "ZRANGEBYSCORE")
        ([key, intText min, intText max] ++ Generic.withScores withscores))
        .readMultiBulk
  | .zrangebyscoreLimit key min max start last withscores =>
      .command (.withArguments (bytes "ZRANGEBYSCORE")
        ([key, intText min, intText max, bytes "LIMIT", intText start,
          intText last] ++ Generic.withScores withscores)) .readMultiBulk
  | .zunion key list weights aggregate =>
      Generic.zSetOperation (bytes "ZUNION") key list weights aggregate
  | .zinter key list weights aggregate =>
      Generic.zSetOperation (bytes "ZINTER") key list weights aggregate
  | .hset key field val =>
      .command (.withArguments (bytes "HSET") [key, field, val])
        .readIntegerAsBool
  | .hget key field =>
      .command (.withArguments (bytes "HGET") [key, field]) .readString
  | .hdel key field =>
      .command (.withArguments (bytes "HDEL") [key, field]) .readIntegerAsBool
  | .hexists key field =>
      .command (.withArguments (bytes "HEXISTS") [key, field])
        .readIntegerAsBool
  | .hlen key => .command (.withArguments (bytes "HLEN") [key]) .readInteger
  | .hkeys key => Generic.hSimpleList (bytes "HKEYS") key
  | .hvals key => Generic.hSimpleList (bytes "HVALS") key
  | .hgetall key =>
      .command (.withArguments (bytes "HGETALL") [key]) .readKeyValueList
  | .hincrby key field d =>
      .command (.withArguments (bytes "HINCRBY") [key, field, doubleText d])
        .readInteger

/-- The keyword and the reader that waits for the reply. -/
def readers : List (String × ResponseReader) := [
  ("AUTH", .stream .readStatusCode), ("SELECT", .stream .readStatusCode),
  ("KEYS", .stream .readMultiBulk), ("DBSIZE", .stream .readInteger),
  ("LASTSAVE", .stream .readInteger), ("FLUSHDB", .stream .readStatusCode),
  ("FLUSHALL", .stream .readStatusCode), ("SAVE", .stream .readStatusCode),
  ("BGSAVE", .stream .readStatusCode),
  ("BGREWRITEAOF", .stream .readStatusCode),
  ("MOVE", .stream .readIntegerAsBool), ("SORT", .stream .readMultiBulk),
  ("TYPE", .stream .readTypeReply), ("APPEND", .stream .readInteger),
  ("SUBSTR", .stream .readString), ("GET", .stream .readString),
  ("SET", .stream .readStatusCode), ("GETSET", .stream .readString),
  ("SETNX", .stream .readIntegerAsBool),
  ("EXISTS", .stream .readIntegerAsBool), ("DEL", .stream .readInteger),
  ("MGET", .readMultiString), ("EXPIRE", .stream .readInteger),
  ("EXPIREAT", .stream .readInteger), ("MSET", .stream .readStatusCode),
  ("MSETNX", .stream .readIntegerAsBool), ("INFO", .stream .readInfoReply),
  ("INCR", .stream .readInteger), ("INCRBY", .stream .readInteger),
  ("DECR", .stream .readInteger), ("DECRBY", .stream .readInteger),
  ("RENAME", .stream .readStatusCode),
  ("RENAMENX", .stream .readIntegerAsBool),
  ("RANDOMKEY", .stream .readSingleLine), ("TTL", .stream .readInteger),
  ("PING", .stream .readStatusCode), ("LPUSH", .stream .readInteger),
  ("RPUSH", .stream .readInteger), ("RPOPLPUSH", .stream .readString),
  ("LLEN", .stream .readInteger), ("LPOP", .stream .readString),
  ("RPOP", .stream .readString), ("BLPOP", .stream .readMultiBulk),
  ("BRPOP", .stream .readMultiBulk), ("LTRIM", .stream .readStatusCode),
  ("LINDEX", .stream .readString), ("LREM", .stream .readInteger),
  ("LSET", .stream .readStatusCode), ("LRANGE", .stream .readMultiBulk),
  ("SADD", .stream .readIntegerAsBool), ("SREM", .stream .readIntegerAsBool),
  ("SPOP", .stream .readString), ("SCARD", .stream .readInteger),
  ("SISMEMBER", .stream .readIntegerAsBool),
  ("SMEMBERS", .stream .readMultiBulk), ("SRANDMEMBER", .stream .readString),
  ("SMOVE", .stream .readIntegerAsBool), ("SINTER", .stream .readMultiBulk),
  ("SUNION", .stream .readMultiBulk), ("SDIFF", .stream .readMultiBulk),
  ("SINTERSTORE", .stream .readInteger),
  ("SUNIONSTORE", .stream .readInteger), ("SDIFFSTORE", .stream .readInteger),
  ("ZADD", .stream .readIntegerAsBool), ("ZREM", .stream .readIntegerAsBool),
  ("ZINCRBY", .stream .readDouble), ("ZSCORE", .stream .readDouble),
  ("ZRANK", .stream .readInteger), ("ZREVRANK", .stream .readInteger),
  ("ZRANGE", .stream .readMultiBulk), ("ZREVRANGE", .stream .readMultiBulk),
  ("ZCARD", .stream .readInteger), ("ZCOUNT", .stream .readInteger),
  ("ZREMRANGEBYRANK", .stream .readInteger),
  ("ZREMRANGEBYSCORE", .stream .readInteger),
  ("ZRANGEBYSCORE", .stream .readMultiBulk), ("ZUNION", .stream .readInteger),
  ("ZINTER", .stream .readInteger), ("HSET", .stream .readIntegerAsBool),
  ("HGET", .stream .readString), ("HDEL", .stream .readIntegerAsBool),
  ("HEXISTS", .stream .readIntegerAsBool), ("HLEN", .stream .readInteger),
  ("HKEYS", .stream .readMultiBulk), ("HVALS", .stream .readMultiBulk),
  ("HGETALL", .stream .readKeyValueList), ("HINCRBY", .stream .readInteger)]

/-- The reader for a request; the two forms of CONFIG differ in length. -/
def readerOf (elements : List Buffer) : Option ResponseReader :=
  elements.head?.bind fun keyword =>
    if keyword = bytes "CONFIG" then
      if elements.length = 4 then some (.stream .readMultiBulk)
      else some (.stream .readString)
    else (readers.find? fun entry => bytes entry.1 = keyword).map Prod.snd

end Invocation

namespace Command

/-! ## Keywords -/

@[simp] theorem head_push (cmd : Command) (s : Buffer) :
    (cmd.push s).mElements.head? = cmd.mElements.head? := by
  rw [mElements_push, List.head?_append_of_ne_nil _ cmd.hasKeyword]

@[simp] theorem head_pushLong (cmd : Command) (l : ℤ) :
    (cmd.pushLong l).mElements.head? = cmd.mElements.head? :=
  cmd.head_push (intText l)

theorem head_withArguments (keyword : Buffer) (arguments : List Buffer) :
    (withArguments keyword arguments).mElements.head? = some keyword := by
  simp

theorem head_msetCommand (keyword : Buffer) (list vals : List Buffer) :
    (msetCommand keyword list vals).mElements.head? = some keyword := by
  have hfold (cmd : Command) (pairs : List (Buffer × Buffer)) :
      (pairs.foldl (fun cmd pair => (cmd.push pair.1).push pair.2)
        cmd).mElements.head? = cmd.mElements.head? := by
    induction pairs generalizing cmd with
    | nil => rfl
    | cons pair pairs ih =>
        rw [List.foldl_cons, ih, head_push, head_push]
  exact hfold (.ofKeyword keyword) (list.zip vals)

theorem head_buildCommand (key : Buffer) (params : SortParams) :
    (params.buildCommand key).mElements.head? = some (bytes "SORT") := by
  unfold SortParams.buildCommand
  dsimp only
  split_ifs <;> simp

end Command

namespace Invocation

theorem readerOf_of_head {elements : List Buffer} {keyword : Buffer}
    {reader : ResponseReader} (hhead : elements.head? = some keyword)
    (hconfig : keyword ≠ bytes "CONFIG")
    (hfind : (readers.find? fun entry => bytes entry.1 = keyword).map Prod.snd =
      some reader) : readerOf elements = some reader := by
  rw [readerOf, hhead, Option.bind_some, if_neg hconfig, hfind]

/-- The elements of a request say which reader waits for its reply. -/
theorem readerOf_query (inv : Invocation) :
    readerOf inv.query.cmd.mElements = some inv.query.reader := by
  cases inv <;> simp only [query, Query.cmd, Query.reader,
    Generic.zStartEndInt, Generic.zrange, Generic.zrank,
    Generic.multiParameter, Generic.pop, Generic.push, Generic.keyIntReturnInt,
    Generic.listItemAction, Generic.setKeyValue, Generic.card,
    Generic.hSimpleList, Generic.blockingPop, Generic.mset,
    Generic.zSetOperation]
  case configGet key field => rfl
  case configSet key field val => rfl
  case sortBy key params =>
    exact readerOf_of_head (Command.head_buildCommand key params)
      (by decide) (by decide)
  case mset list vals | msetnx list vals =>
    exact readerOf_of_head (Command.head_msetCommand _ list vals)
      (by decide) (by decide)
  case expire key seconds | expireat key timestamp =>
    rw [keyIntCommand_plain]
    exact readerOf_of_head rfl (by decide) (by decide)
  case incr key val | decr key val =>
    rw [keyIntCommand_addBy]
    split_ifs
    · exact readerOf_of_head rfl (by decide) (by decide)
    · exact readerOf_of_head rfl (by decide) (by decide)
  case zunion key list weights aggregate | zinter key list weights aggregate =>
    rw [mElements_zSetCommand]
    exact readerOf_of_head rfl (by decide) (by decide)
  all_goals
    first
    | exact readerOf_of_head (Command.head_withArguments _ _)
        (by decide) (by decide)
    | exact readerOf_of_head rfl (by decide) (by decide)

/-- The client keeps MULTI, EXEC and DISCARD for its batches. -/
theorem ordinary_query (inv : Invocation) :
    Ordinary inv.query.cmd.mElements := by
  have hreader := readerOf_query inv
  have hnone {keyword : Buffer} (hconfig : keyword ≠ bytes "CONFIG")
      (hfind : (readers.find? fun entry => bytes entry.1 = keyword) = none) :
      inv.query.cmd.mElements.head? ≠ some keyword := by
    intro hhead
    rw [readerOf, hhead, Option.bind_some, if_neg hconfig, hfind] at hreader
    simp at hreader
  exact ⟨hnone (by decide) (by decide), hnone (by decide) (by decide),
    hnone (by decide) (by decide)⟩

/-- The calls that have their own definitions are these queries. -/
theorem perform_query (key field member : Buffer) (keys vals : List Buffer)
    (n : ℤ) (d : Double) (params : SortParams) (weights : List Double)
    (aggregate : List Byte) :
    (mget keys).query.perform = Client.mget keys ∧
      (expire key n).query.perform = Client.expire key n ∧
      (expireat key n).query.perform = Client.expireat key n ∧
      (incr key n).query.perform = Client.incr key n ∧
      (decr key n).query.perform = Client.decr key n ∧
      (sortBy key params).query.perform = Client.sort key params ∧
      randomkey.query.perform = Client.randomkey ∧
      (zadd key d member).query.perform = Client.zadd key d member ∧
      (zincrby key d member).query.perform = Client.zincrby key d member ∧
      (hincrby key field d).query.perform = Client.hincrby key field d ∧
      (Action.mset keys vals).accepted = .query (mset keys vals).query ∧
      (Action.msetnx keys vals).accepted = .query (msetnx keys vals).query ∧
      (Action.zunion key keys weights aggregate).accepted =
        .query (zunion key keys weights aggregate).query ∧
      (Action.zinter key keys weights aggregate).accepted =
        .query (zinter key keys weights aggregate).query :=
  ⟨rfl, rfl, rfl, rfl, rfl, rfl, rfl, rfl, rfl, rfl, rfl, rfl, rfl, rfl⟩

end Invocation

/-! ## What a request says about the call -/

theorem Query.eq_of_cmd_reader {query other : Query}
    (hcmd : query.cmd = other.cmd) (hreader : query.reader = other.reader) :
    query = other := by
  cases query with
  | command cmd reader =>
      cases other with
      | command cmd' reader' => simp_all [Query.cmd, Query.reader]
      | mget keys => simp [Query.reader] at hreader
  | mget keys =>
      cases other with
      | command cmd' reader' => simp [Query.reader] at hreader
      | mget keys' =>
          have helements := congrArg Command.mElements hcmd
          simpa [Query.cmd] using helements

theorem Invocation.query_eq_of_cmd {inv other : Invocation}
    (hcmd : inv.query.cmd = other.query.cmd) : inv.query = other.query := by
  apply Query.eq_of_cmd_reader hcmd
  have hreader := inv.readerOf_query
  rw [hcmd, other.readerOf_query] at hreader
  exact (Option.some.inj hreader).symm

/-- The bytes of a batch of calls decide what each of them does with its reply:
two batches that are the same on the wire are the same commands, with the same
readers and the same keys waiting for MGET. -/
theorem batch_of_wire {batch other : List Invocation}
    (h : Client.wire (batch.map Invocation.query) =
      Client.wire (other.map Invocation.query)) :
    batch.map Invocation.query = other.map Invocation.query := by
  have hcmds : batch.map (fun inv => inv.query.cmd) =
      other.map (fun inv => inv.query.cmd) := by
    apply Requests.flatten_get_injective
    simpa [Client.wire, Function.comp_def] using h
  clear h
  induction batch generalizing other with
  | nil =>
      rw [List.map_nil, eq_comm, List.map_eq_nil_iff] at hcmds
      rw [hcmds]
  | cons inv batch ih =>
      cases other with
      | nil => simp at hcmds
      | cons inv' other =>
          rw [List.map_cons, List.map_cons, List.cons.injEq] at hcmds
          rw [List.map_cons, List.map_cons,
            Invocation.query_eq_of_cmd hcmds.1, ih hcmds.2]

theorem batch_of_wire_del :
    let key := bytes "k"
    [Invocation.mget [key], .del key].map Invocation.query =
      [Invocation.mget [key], .delKeys [key]].map Invocation.query :=
  batch_of_wire (by decide)

end Redispp
