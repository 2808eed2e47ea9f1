import Redispp.SortParams
import Redispp.BulkReplies
import Redispp.Client

/-!
# Replies to SORT

With STORE the server answers SORT by the number of elements stored, without
it by the elements.  `sort` always reads a multi-bulk reply.
-/

namespace Redispp

open CLibrary

namespace Client

/-- `sort(Buffer, SortParams)`. -/
def sort (key : Buffer) (params : SortParams) : ClientM Response :=
  run (params.buildCommand key) (.stream .readMultiBulk)

end Client

inductive SortAnswer
  | stored (n : ℤ)
  | elements (payloads : List Buffer)
  deriving DecidableEq

namespace SortAnswer

def encode : SortAnswer → Buffer
  | .stored n => replyHeader ':' n
  | .elements payloads => encodeMultiBulk (payloads.map some)

/-- The response that carries the answer. -/
def response : SortAnswer → Response
  | .stored n => .ofLong n
  | .elements payloads => .ofList payloads

def payloads : SortAnswer → List Buffer
  | .stored _ => []
  | .elements payloads => payloads

end SortAnswer

end Redispp
