import Mongrel2.Runs
import Mongrel2.Ownership
import Mongrel2.ByteStream
import Mongrel2.StateMachine
import Mongrel2.ConnectionTask
import Mongrel2.Register
import Mongrel2.Descriptors
import Mongrel2.HttpParser
import Mongrel2.Callbacks
import Mongrel2.HeaderSection
import Mongrel2.Connection
import Mongrel2.HandlerBody
import Mongrel2.Upload
import Mongrel2.StreamResponse
import Mongrel2.ResponseNumbers
import Mongrel2.SplitHeader
import Mongrel2.ContentLength
import Mongrel2.MsgStream
import Mongrel2.KeepAlive
import Mongrel2.ProxyDeliver
import Mongrel2.SslRecv
import Mongrel2.LexPath
import Mongrel2.Dir
import Mongrel2.Sweep
import Mongrel2.SuperPoll
import Mongrel2.IdleSlots
import Mongrel2.HotSet
import Mongrel2.Tasks
import Mongrel2.HttpClientParser
import Mongrel2.Proxy
import Mongrel2.ProxyChunks
import Mongrel2.Routing
import Mongrel2.TstLookup
import Mongrel2.TstValues
import Mongrel2.ProxyRouting
import Mongrel2.BackendTypes
import Mongrel2.Reload
import Mongrel2.ProxyDescriptor
import Mongrel2.RequestWords
import Mongrel2.RequestTarget
import Mongrel2.ReportOnce
import Mongrel2.Netstring
import Mongrel2.Payload
import Mongrel2.Json
import Mongrel2.HeadersJson
import Mongrel2.HandlerParser
import Mongrel2.HandlerReads
import Mongrel2.Control
import Mongrel2.Sending
import Mongrel2.DirResponse
import Mongrel2.FileCache
import Mongrel2.FileRecords
import Mongrel2.ErrorPaths
import Mongrel2.Ast
import Mongrel2.ConfigFile
import Mongrel2.RequestHeaders
import Mongrel2.HeaderCapacity
import Mongrel2.Pattern
import Mongrel2.Calendar
import Mongrel2.TimeFormat
import Mongrel2.DateHeader
import Mongrel2.Conditional
import Mongrel2.FileSize
import Mongrel2.RouteInserts
import Mongrel2.PrefixPattern
import Mongrel2.TstMap
import Mongrel2.Cache
import Mongrel2.Setting
import Mongrel2.DefaultHost
import Mongrel2.PatternMeaning
import Mongrel2.PatternReads
import Mongrel2.TstCollect
import Mongrel2.AstReads
import Mongrel2.Transparent
import Mongrel2.HeaderEscape
import Mongrel2.TstQueue
import Mongrel2.Command
import Mongrel2.ConfigString
import Mongrel2.HeaderDict
import Mongrel2.SchedulerRuns
import Mongrel2.ConfigServes
import Mongrel2.Exchange
import Mongrel2.Hash
import Mongrel2.HashRuns
import Mongrel2.Mime
import Mongrel2.Halloc
