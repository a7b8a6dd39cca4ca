import OnlineChat.Lib.Exec
import OnlineChat.Lib.Ledger
import OnlineChat.Reactor.Dispatch
import OnlineChat.Reactor.Bookkeeping
import OnlineChat.Reactor.History
import OnlineChat.Reactor.Streams
import OnlineChat.Echo
import OnlineChat.ThreadPool.Pool
import OnlineChat.ThreadPool.Tasks
import OnlineChat.ThreadPool.Wakeup
import OnlineChat.ThreadPool.Shutdown
import OnlineChat.ChatServer.Server
import OnlineChat.ChatServer.Descriptors
import OnlineChat.Lib.EdgeSource
import OnlineChat.Backlog
import OnlineChat.Gauss.Connector
import OnlineChat.Gauss.Returns
import OnlineChat.Gauss.Errmsg
import OnlineChat.ChatServer.Readiness
import OnlineChat.Typed
import OnlineChat.Reactor.Api
import OnlineChat.Receiver
import OnlineChat.RecvErrors
import OnlineChat.Terminated
import OnlineChat.Reactor.Stale
import OnlineChat.Lib.Lens
import OnlineChat.Reactor.Turn
import OnlineChat.Reactor.BatchOrder
import OnlineChat.Gauss.Results
import OnlineChat.ThreadPool.Progress
import OnlineChat.Lib.Service
import OnlineChat.ThreadPool.Refinement
import OnlineChat.ThreadPool.Deadlock
import OnlineChat.Reactor.Batch
import OnlineChat.Lib.Interleave
import OnlineChat.Reactor.EchoSession
import OnlineChat.Reactor.Returns
import OnlineChat.Reactor.Sessions
import OnlineChat.Reactor.Objects
import OnlineChat.Dialogue
import OnlineChat.Gauss.Overrun
import OnlineChat.Lib.Turns
import OnlineChat.ChatServer.Visit
import OnlineChat.ChatServer.Visits
import OnlineChat.ChatServer.Turn
import OnlineChat.Network
import OnlineChat.Chat
import OnlineChat.EchoChat
