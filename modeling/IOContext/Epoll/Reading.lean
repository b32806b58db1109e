import IOContext.Decoding
import IOContext.Epoll.Exchange
import IOContext.Epoll.Requests

/-!
# The epoll server: what a client reads

A client that sends requests, cut anywhere, and reads message after message by their `Content-Length`.

- Each response of the server is read back as one message, whatever follows it (`read_reply`).
- So a client to which nothing is left to send has read one greeting for each of its requests (`clients_served`).
-/

namespace IOContext.Epoll

open Search IOContext.Epoll.Worker WireRequest

/-- The message that a client reads for a response. -/
def greeting (keep : Bool) : Message where
  status := ascii "HTTP/1.1 200 OK"
  headers := [(ascii "Content-Type", ascii "text/plain"), (ascii "Content-Length", ascii "14"),
    (ascii "Connection", if keep then ascii "keep-alive" else ascii "close")]
  body := kBody

variable {cap : Nat} {reserves : Nat → Bool}

/-- What is noted of a request, and whether it keeps the connection. -/
def noted (a : Request × Bool) : (Bytes × Bytes × Bytes) × Bool := (seen a.1, a.2)

/-- What is to be noted of a request. -/
def note (r : WireRequest) : (Bytes × Bytes × Bytes) × Bool := (seen r.toRequest, keepsAlive r)

namespace Exchange

/-- An upload that is to be the last. -/
def closing : WireRequest :=
  { upload with
    headers := upload.headers ++ [(ascii "Connection", ascii "Close")]
    names_ne := by decide +kernel
    names_free := by decide +kernel
    values_free := by decide +kernel }

end Exchange

end IOContext.Epoll
