import Redispp.StateExcept
import Redispp.Feed
import Redispp.Runs
import Redispp.Decimal
import Redispp.CLibrary
import Redispp.DoubleText
import Redispp.DoubleRounding
import Redispp.Command
import Redispp.SortParams
import Redispp.Response
import Redispp.Containers
import Redispp.Socket
import Redispp.BodyLoop
import Redispp.Readers
import Redispp.InfoLoop
import Redispp.Schedules
import Redispp.Replies
import Redispp.IntegerReplies
import Redispp.BulkReplies
import Redispp.BulkHeader
import Redispp.HashReplies
import Redispp.StreamEnds
import Redispp.Client
import Redispp.LineReplies
import Redispp.SortReplies
import Redispp.Batch
import Redispp.Modes
import Redispp.Pipelining
import Redispp.Requests
import Redispp.IntegerArguments
import Redispp.Transactions
import Redispp.MgetPairing
import Redispp.KeyLists
import Redispp.Session
import Redispp.Commands
import Redispp.ZSetOperations
import Redispp.Scores
import Redispp.History
import Redispp.DirectMget
import Redispp.Info
import Redispp.Contracts
import Redispp.Outcomes
import Redispp.LiveStreams
import Redispp.ReplyTypes
import Redispp.Simulation
import Redispp.Service
import Redispp.Remote
import Redispp.RemoteBatches
import Redispp.Interface
import Redispp.Connections
import Redispp.Consumption
import Redispp.RequestCuts
import Redispp.SessionEnds
