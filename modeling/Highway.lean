import Highway.Lib.Run
import Highway.Lib.Scan
import Highway.Lib.Fields
import Highway.Lib.Decimal
import Highway.Lib.Chain
import Highway.Lib.Local
import Highway.Std.Buffer
import Highway.Std.String
import Highway.Std.Offsets
import Highway.Std.Number
import Highway.Std.Unsigned
import Highway.Std.Views
import Highway.Std.Mimetypes
import Highway.Std.Memory
import Highway.Std.Pool
import Highway.Std.Resize
import Highway.Server.Client
import Highway.Server.Sendall
import Highway.Server.RecvAll
import Highway.Server.Descriptor
import Highway.Server.Listen
import Highway.Server.ServerRun
import Highway.Servlet.Config
import Highway.Servlet.Request
import Highway.Servlet.StatusLine
import Highway.Servlet.Head
import Highway.Servlet.Reader
import Highway.Servlet.Window
import Highway.Servlet.Chunks
import Highway.Servlet.Single
import Highway.Servlet.ContentLength
import Highway.Servlet.Exact
import Highway.Servlet.Whole
import Highway.Servlet.Spoiled
import Highway.Servlet.HeaderLines
import Highway.Servlet.Table
import Highway.Servlet.Bounds
import Highway.Servlet.Refill
import Highway.Servlet.Isolation
import Highway.Servlet.Accounting
import Highway.Servlet.Response
import Highway.Servlet.ResponseChange
import Highway.Servlet.ResponseHead
import Highway.Servlet.ResponseLog
import Highway.Servlet.RoundTrip
import Highway.Servlet.Refusal
import Highway.Servlet.Connection
import Highway.Servlet.BodyWrites
import Highway.Servlet.Message
import Highway.Servlet.Loop
import Highway.Servlet.KeepAlive
import Highway.Servlet.Reply
import Highway.Servlet.Filters
import Highway.Servlet.Accept
import Highway.Servlet.Service
import Highway.Servlet.FileContent
import Highway.Servlet.Traverse
import Highway.Static.Cache
import Highway.Static.Serve
import Highway.Jc.Storage
import Highway.Jc.Serve
import Highway.Jc.Elements
import Highway.Jc.Threads
import Highway.Boot.Start
import Highway.Boot.ServletRun
import Highway.Boot.Shutdown
import Highway.Boot.Ending
import Highway.Thread.Worker
import Highway.Thread.Queue
import Highway.Thread.Ownership
import Highway.Thread.Wait
import Highway.Thread.Deadline
import Highway.Thread.Pool
import Highway.Thread.RoundRobin
import Highway.Thread.ThreadPoolRun
import Highway.Thread.PoolLife
import Highway.Thread.PoolWalk
import Highway.Thread.PoolEnd
import Highway.Thread.PoolMeasure
import Highway.Thread.PoolBound
import Highway.Thread.PoolWait
import Highway.Thread.Lock
import Highway.Thread.Context
