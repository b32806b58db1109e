import IOContext.Worker.Storage

/-!
# The worker and its submission ring

The state of a `Worker`: the connection table, the objects it points to, the receive buffers, the submission ring and
the mode flags. An operation is submitted by taking a slot of the ring, preparing it and, in most places, writing its
tag: `prep` with a tag, or without one for `post_task`.

What the kernel decides while a handler runs is read from `env`: the outcomes of the `get_sqe_or_submit` calls, one
after another, and the readings of the clock. A handler whose run asks for more outcomes than are listed has no
result (`none`).

`trace` records, for the proofs only, what the worker has done: operations submitted, segments given to a parser,
buffers queued and handlers called. `Sqe.owner` and `Sqe.tagOf` are such records too: the connection on whose behalf
an operation is submitted, and the number of the submission for which the slot's tag was written.
-/

namespace IOContext

/-! ## Constants -/

abbrev EAGAIN : Int32 := 11
abbrev EWOULDBLOCK : Int32 := 11
abbrev EINVAL : Int32 := 22
abbrev EOPNOTSUPP : Int32 := 95

abbrev BUF_SZ : Nat := RX_CAP
abbrev BUF_CNT : Nat := 2048
/-- The entries of the submission queue. -/
abbrev SQ_ENTRIES : Nat := 8192

/-! ## Operations -/

/-- The address of a `PerClientStorage`; addresses are not reused. -/
abbrev Ptr := Nat

inductive Op
  /-- Buffer `bid` of group `BUF_GRP`, at `buf_pool_ + addr`. -/
  | provideBuffers (addr bid : Nat)
  | accept (fd : Fd)
  | multishotAccept (fd : Fd)
  | recvMultishot (fd : Fd)
  /-- Into the vector `hold`. -/
  | recv (fd : Fd) (hold : Nat)
  | close (fd : Fd)
  | pollAdd (fd : Fd)
  | sendmsg (fd : Fd) (iov : List Bytes)
  /-- A message to the worker's own ring that carries the tag of `fd` and `kind`. -/
  | msgRing (fd : Fd) (kind : Workflow)
deriving DecidableEq, Repr

/-- A submission. -/
structure Sqe where
  /-- Submissions are numbered in order. -/
  serial : Nat
  op : Op
  /-- The tag that the slot holds. -/
  userData : UInt64
  tagOf : Option Nat
  owner : Option Ptr
deriving DecidableEq, Repr

inductive Event
  | sqe (e : Sqe)
  /-- `parser.on_segment`. -/
  | segment (c : Ptr) (seg : Bytes)
  /-- `txq.emplace_back`. -/
  | enqueue (c : Ptr) (b : OwnedBuf)
  /-- A call of a request handler, with the response object as it finds it. -/
  | invoke (c : Ptr) (h : Handler) (req : Request) (res : Response)

/-! ## The worker -/

/-- The slots of the ring are reused cyclically and keep their tag until it is overwritten. -/
structure Ring where
  tail : Nat := 0
  userData : Nat → UInt64 := fun _ => 0
  tagOf : Nat → Option Nat := fun _ => none

/-- What is decided outside of the program while a handler runs. -/
structure Env where
  /-- Whether the next calls of `get_sqe_or_submit` return a slot. -/
  sqes : List Bool := []
  /-- The readings of `steady_clock`, in microseconds. -/
  clock : Nat → Nat := fun _ => 0

structure WorkerConfig where
  acceptsPerWorker : UInt16 := 256
  maxKeepaliveRequests : UInt16 := 65000

structure Worker where
  listenFd : Fd
  cfg : WorkerConfig
  /-- The routes of the server. -/
  routes : Routes
  /-- `table_.map`. -/
  table : Fd → Option Ptr := fun _ => none
  heap : Ptr → PerClientStorage := fun _ => {}
  nextPtr : Ptr := 0
  ring : Ring := {}
  needSubmit : UInt16 := 0
  useMsAccept : Bool := true
  msAcceptArmed : Bool := false
  /-- The contents of `buf_pool_`, by buffer. -/
  bufPool : Nat → Bytes := fun _ => []
  haveBufPool : Bool := false
  useMsRecv : Bool := true
  /-- The contents of the vectors that `rx_hold` points to. -/
  holds : Nat → Bytes := fun _ => []
  nextHold : Nat := 0
  env : Env := {}
  /-- An exception has left `run`. -/
  terminated : Bool := false
  trace : List Event := []

namespace Worker

/-- `*c = f(*c)`. -/
def modify (w : Worker) (c : Ptr) (f : PerClientStorage → PerClientStorage) : Worker :=
  { w with heap := Function.update w.heap c (f (w.heap c)) }

def log (w : Worker) (e : Event) : Worker := { w with trace := w.trace ++ [e] }

/-- `need_submit_++`, if `b`. -/
def submitLater (b : Bool) (w : Worker) : Worker := if b then { w with needSubmit := w.needSubmit + 1 } else w

/-! ## Submissions -/

/-- `get_sqe_or_submit`: whether a slot is returned. -/
def getSqeOrSubmit (w : Worker) : Option (Bool × Worker) :=
  match w.env.sqes with
  | [] => none
  | b :: bs => some (b, { w with env := { w.env with sqes := bs } })

/-- `io_uring_prep_*` and, if there is a tag, `io_uring_sqe_set_data64` on the slot that was returned. -/
def prep (w : Worker) (op : Op) (owner : Option Ptr) (tag : Option UInt64) : Worker :=
  let slot := w.ring.tail % SQ_ENTRIES
  let ring : Ring := match tag with
    | some u =>
      { tail := w.ring.tail + 1
        userData := Function.update w.ring.userData slot u
        tagOf := Function.update w.ring.tagOf slot (some w.ring.tail) }
    | none => { w.ring with tail := w.ring.tail + 1 }
  { w with ring := ring }.log (.sqe ⟨w.ring.tail, op, ring.userData slot, ring.tagOf slot, owner⟩)

/-! ## The connection table -/

/-- `table_.add`: the object is new, but an entry that the table already has is kept. -/
def tableAdd (w : Worker) (fd : Fd) : Ptr × Worker :=
  let c := w.nextPtr
  (c, { w with
    heap := Function.update w.heap c { fd := fd }
    table := if w.table fd = none then Function.update w.table fd (some c) else w.table
    nextPtr := c + 1 })

def tableErase (w : Worker) (fd : Fd) : Worker := { w with table := Function.update w.table fd none }

/-! ## Start-up -/

/-- The loop of `init_buffer_pool` from buffer `i` on, with `n` buffers to go. -/
def provideAll : Nat → Nat → Worker → Option (Nat × Worker)
  | i, 0, w => some (i, w)
  | i, n + 1, w => do
    let (sqe, w) ← w.getSqeOrSubmit
    if sqe then
      provideAll (i + 1) n
        (w.prep (.provideBuffers (i * BUF_SZ) i) none (some (packUdAux 0 .freeBuffer (UInt32.ofNat i))))
    else some (i, w)

/-- `allocated`: the pool could be allocated. -/
def initBufferPool (w : Worker) (allocated : Bool) : Option Worker :=
  if allocated then do
    let (posted, w) ← provideAll 0 BUF_CNT w
    some { w with haveBufPool := decide (0 < posted) }
  else some { w with haveBufPool := false }

end Worker

end IOContext
