import IOContext.Accounting
import IOContext.Crashes
import IOContext.Decoding
import IOContext.Draining
import IOContext.Encoding
import IOContext.Epoll.Handles
import IOContext.Epoll.Interest
import IOContext.Epoll.Lengths
import IOContext.Epoll.Reading
import IOContext.Epoll.Requests
import IOContext.Epoll.Responses
import IOContext.Epoll.Table
import IOContext.Epoll.Unsent
import IOContext.FirstRequest
import IOContext.Fresh
import IOContext.FullRing
import IOContext.Hello.Overlapped
import IOContext.Hello.Polling
import IOContext.Http.Fields
import IOContext.Http.Grammar
import IOContext.Iocp.Alternating
import IOContext.Iocp.Counting
import IOContext.Iocp.Receiving
import IOContext.Iocp.Responding
import IOContext.Iocp.Sending
import IOContext.Iocp.Table
import IOContext.KeepAlive
import IOContext.Listener
import IOContext.Lookups
import IOContext.Malformed
import IOContext.Pool
import IOContext.Prototype.Connection
import IOContext.Rearming
import IOContext.SendStream
import IOContext.Tasks
import IOContext.Transmission
import IOContext.Wakeups
import IOContext.ZeroHttpd.Loop
