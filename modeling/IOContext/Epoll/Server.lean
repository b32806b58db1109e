import IOContext.Base.Reach
import IOContext.Epoll.RequestContext
import Mathlib.Data.List.FinRange
import Mathlib.Logic.Function.Basic

/-!
# The epoll server: connections and their worker

A worker keeps its connections in the slots of a table. A handle is an index with the generation of the slot at the time
of `allocate`; `try_get` compares the generation, `close_and_recycle` does not. The events of `epoll_wait` name
descriptors, which `fd2h` maps to handles; a descriptor that is not mapped has the default handle.

What the kernel answers to `recv`, `accept4` and `sendmsg` comes with the event; a `sendmsg` for which no answer is left
would block. The table is that of one worker: what other workers do to it between two events is not part of a step, but
the results hold from any table. `log` is what can be seen of a run.
-/

namespace IOContext.Epoll

/-! ## Tunables -/

def rxCap : Nat := 8192

def maxIov : Nat := 8

def kBody : Bytes := ascii "Hello, World!\n"

def kHdrKeep : Bytes :=
  ascii "HTTP/1.1 200 OK\r\nContent-Type: text/plain\r\nContent-Length: 14\r\nConnection: keep-alive\r\n\r\n"

def kHdrClose : Bytes :=
  ascii "HTTP/1.1 200 OK\r\nContent-Type: text/plain\r\nContent-Length: 14\r\nConnection: close\r\n\r\n"

def EPOLLIN : UInt32 := 0x1
def EPOLLOUT : UInt32 := 0x4
def EPOLLERR : UInt32 := 0x8
def EPOLLHUP : UInt32 := 0x10
def EPOLLRDHUP : UInt32 := 0x2000
def EPOLLET : UInt32 := 0x80000000

/-- `events & flags`. -/
def has (events flags : UInt32) : Bool := events &&& flags != 0

/-- An error or a hang-up. -/
def hasHup (events : UInt32) : Bool := has events (EPOLLERR ||| EPOLLHUP ||| EPOLLRDHUP)

/-! ## Connections -/

structure ConnHandle where
  index : UInt32 := 0
  generation : UInt32 := 0
deriving DecidableEq, Repr

structure OwnedBuf where
  bytes : Bytes
  eor : Bool := false
deriving DecidableEq, Repr

/-- `clear` makes all of it the default; a closed descriptor is -1. -/
structure PerClientStorage where
  fd : Int := -1
  served : UInt32 := 0
  closing : Bool := false
  http : RequestContext := {}
  req : Request := {}
  txq : List OwnedBuf := []
  txFirstOffset : Nat := 0
  wantOut : Bool := false
  self : ConnHandle := {}
deriving DecidableEq, Repr

structure ConnSlot where
  generation : UInt32 := 1
  inUse : Bool := false
  client : PerClientStorage := {}
deriving DecidableEq, Repr

/-! ## The kernel, and what can be seen -/

/-- What `sendmsg` answers; EINTR counts as would-block. -/
inductive SendResult
  | sent (n : Nat)
  | wouldBlock
  | failed
deriving DecidableEq, Repr

/-- What `recv` answers; no bytes are the end of the stream. -/
inductive RecvResult
  | received (p : Bytes)
  | wouldBlock
  | interrupted
  | failed
deriving DecidableEq, Repr

/-- What `accept4` answers. -/
inductive AcceptResult
  | accepted (fd : Nat)
  | interrupted
  | wouldBlock
  | failed
deriving DecidableEq, Repr

inductive Effect (cap : Nat)
  | recycled (i : Fin cap)
  | closed (fd : Int)
  | sent (i : Fin cap) (p : Bytes)
  /-- The last byte of a buffer has been sent. -/
  | completed (i : Fin cap) (b : OwnedBuf)
  | epAdd (fd : Int) (ev : UInt32)
  | epMod (fd : Int) (ev : UInt32)
  | epDel (fd : Int)
deriving DecidableEq, Repr

/-- Whether the worker goes on: an exception may have left `run`, or it may wait in `allocate` for a slot. -/
inductive Status
  | running
  | raised
  | waiting
deriving DecidableEq, Repr

/-- A worker with its table of `cap` slots. A `PerClientStorage*` is the index of its slot. -/
structure Worker (cap : Nat) where
  slots : Fin cap → ConnSlot := fun _ => {}
  fd2h : Int → Option ConnHandle := fun _ => none
  keepaliveLimit : UInt16
  listen : Nat
  sends : List SendResult := []
  status : Status := .running
  log : List (Effect cap) := []

namespace Worker

variable {cap : Nat}

def emit (w : Worker cap) (es : List (Effect cap)) : Worker cap := { w with log := w.log ++ es }

def setSlot (w : Worker cap) (i : Fin cap) (s : ConnSlot) : Worker cap :=
  { w with slots := Function.update w.slots i s }

def client (w : Worker cap) (i : Fin cap) : PerClientStorage := (w.slots i).client

def setClient (w : Worker cap) (i : Fin cap) (c : PerClientStorage) : Worker cap :=
  w.setSlot i { w.slots i with client := c }

section

variable {w : Worker cap} {i j : Fin cap} {s : ConnSlot} {c : PerClientStorage} {es : List (Effect cap)}

@[simp] theorem setSlot_slots : (w.setSlot i s).slots i = s := Function.update_self ..

theorem setSlot_other (h : j ≠ i) : (w.setSlot i s).slots j = w.slots j := Function.update_of_ne h ..

@[simp] theorem setClient_slots : (w.setClient i c).slots i = { w.slots i with client := c } := setSlot_slots

theorem setClient_other (h : j ≠ i) : (w.setClient i c).slots j = w.slots j := setSlot_other h

@[simp] theorem setClient_client : (w.setClient i c).client i = c := by simp [client]

@[simp] theorem emit_slots : (w.emit es).slots = w.slots := rfl

@[simp] theorem emit_client : (w.emit es).client i = w.client i := rfl

end

/-! ## The table -/

/-- The first free slot is taken; without one the worker waits. An index has 32 bits. -/
def allocate (w : Worker cap) : Option (ConnHandle × Worker cap) :=
  ((List.finRange cap).find? fun i => i.val < 2 ^ 32 && !(w.slots i).inUse).map fun i : Fin cap =>
    (⟨UInt32.ofNat i.val, (w.slots i).generation⟩, w.setSlot i { w.slots i with inUse := true, client := {} })

def tryGet (w : Worker cap) (h : ConnHandle) : Option (Fin cap) :=
  if hi : h.index.toNat < cap then
    if (w.slots ⟨h.index.toNat, hi⟩).inUse && (w.slots ⟨h.index.toNat, hi⟩).generation == h.generation then
      some ⟨h.index.toNat, hi⟩
    else none
  else none

def recycleEffects (w : Worker cap) (i : Fin cap) : List (Effect cap) :=
  (if (w.client i).fd = -1 then [] else [.closed (w.client i).fd]) ++ [.recycled i]

/-- A slot that is given back: its descriptor is closed, and its generation ends. -/
def recycle (w : Worker cap) (i : Fin cap) : Worker cap :=
  (w.setSlot i {
    generation := (w.slots i).generation + 1
    inUse := false
    client := { w.client i with fd := -1, txq := [], txFirstOffset := 0, wantOut := false } }).emit (w.recycleEffects i)

/-- The generation of the handle is not looked at. -/
def closeAndRecycle (w : Worker cap) (h : ConnHandle) : Worker cap :=
  if hi : h.index.toNat < cap then
    if (w.slots ⟨h.index.toNat, hi⟩).inUse then w.recycle ⟨h.index.toNat, hi⟩ else w
  else w

/-! ## The fd map and the interest list -/

def mapFd (w : Worker cap) (fd : Int) (h : ConnHandle) : Worker cap :=
  { w with fd2h := Function.update w.fd2h fd (some h) }

/-- A descriptor that is not mapped has the default handle. -/
def lookup (w : Worker cap) (fd : Int) : ConnHandle := (w.fd2h fd).getD {}

def unmapFd (w : Worker cap) (fd : Int) : Worker cap := { w with fd2h := Function.update w.fd2h fd none }

/-- What follows a hang-up or a failed read. -/
def hangUp (w : Worker cap) (fd : Int) (h : ConnHandle) : Worker cap :=
  ((w.closeAndRecycle h).unmapFd fd).emit [.epDel fd]

/-! ## Sending -/

/-- The bytes of the buffers that one `sendmsg` offers, the first from its offset on, up to the first that ends a
response. -/
def gather : Nat → Nat → List OwnedBuf → List Bytes
  | 0, _, _ => []
  | _, _, [] => []
  | n + 1, off, b :: q => b.bytes.drop off :: if b.eor then [] else gather n 0 q

/-- What is left of a queue after some bytes of it have been sent, and which buffers that completes. -/
structure Consumed where
  txq : List OwnedBuf
  txFirstOffset : Nat
  finishedResponse : Bool
  completed : List OwnedBuf
deriving DecidableEq

def consume : List OwnedBuf → Nat → Nat → Consumed
  | [], off, _ => ⟨[], off, false, []⟩
  | b :: q, off, remain =>
    if remain = 0 then ⟨b :: q, off, false, []⟩
    else
      let avail := b.bytes.length - off
      if remain < avail then ⟨b :: q, off + remain, false, []⟩
      else if b.eor then ⟨q, 0, true, [b]⟩
      else
        let rest := consume q 0 (remain - avail)
        { rest with completed := b :: rest.completed }

inductive FlushResult
  | noData
  | blocked
  | progress
  | finished
  | fatal
deriving DecidableEq

/-- A closed descriptor is an error. -/
def sendmsg (w : Worker cap) (fd : Int) : SendResult × Worker cap :=
  if fd = -1 then (.failed, w)
  else
    match w.sends with
    | [] => (.wouldBlock, w)
    | r :: rs => (r, { w with sends := rs })

/-- The kernel takes at most what it is offered. -/
def flushSendOnce (w : Worker cap) (i : Fin cap) : FlushResult × Worker cap :=
  let c := w.client i
  if c.txq = [] then (.noData, w)
  else
    let iov := gather maxIov c.txFirstOffset c.txq
    if iov = [] then (.noData, w)
    else
      match w.sendmsg c.fd with
      | (.wouldBlock, w) => (.blocked, w)
      | (.failed, w) => (.fatal, w)
      | (.sent n, w) =>
        let sent := min n iov.flatten.length
        if sent = 0 then (.blocked, w)
        else
          let d := consume c.txq c.txFirstOffset sent
          (if d.finishedResponse && d.txq.isEmpty then .finished else .progress,
            (w.setClient i { c with txq := d.txq, txFirstOffset := d.txFirstOffset }).emit
              (.sent i (iov.flatten.take sent) :: d.completed.map (.completed i)))

theorem sendmsg_cases (w : Worker cap) (fd : Int) : ∃ r sends, w.sendmsg fd = (r, { w with sends := sends }) ∧
    (r ≠ .failed → fd ≠ -1) := by
  unfold sendmsg
  split
  · exact ⟨.failed, w.sends, rfl, fun h => absurd rfl h⟩
  · rename_i hfd
    split
    · exact ⟨.wouldBlock, w.sends, rfl, fun _ => hfd⟩
    · rename_i r sends _
      exact ⟨r, sends, rfl, fun _ => hfd⟩

/-- Nothing is sent, or a part of the queue is. -/
theorem flushSendOnce_cases (w : Worker cap) (i : Fin cap) :
    (∃ r sends, w.flushSendOnce i = (r, { w with sends := sends }) ∧
      (r = .noData ∨ (w.client i).fd ≠ -1 ∧ r = .blocked ∨ r = .fatal)) ∨
    ∃ sends p n d, (w.client i).fd ≠ -1 ∧ d = consume (w.client i).txq (w.client i).txFirstOffset n ∧
      w.flushSendOnce i = (if d.finishedResponse && d.txq.isEmpty then .finished else .progress,
        (({ w with sends := sends } : Worker cap).setClient i
          { w.client i with txq := d.txq, txFirstOffset := d.txFirstOffset }).emit
            (.sent i p :: d.completed.map (.completed i))) := by
  obtain ⟨r, sends, hsend, hfd⟩ := w.sendmsg_cases (w.client i).fd
  unfold flushSendOnce
  dsimp only
  split
  · exact .inl ⟨_, w.sends, rfl, .inl rfl⟩
  · split
    · exact .inl ⟨_, w.sends, rfl, .inl rfl⟩
    · rw [hsend]
      cases r with
      | wouldBlock => exact .inl ⟨_, sends, rfl, .inr (.inl ⟨hfd (by simp), rfl⟩)⟩
      | failed => exact .inl ⟨_, sends, rfl, .inr (.inr rfl)⟩
      | sent n =>
        dsimp only
        split
        · exact .inl ⟨_, sends, rfl, .inr (.inl ⟨hfd (by simp), rfl⟩)⟩
        · exact .inr ⟨sends, _, _, _, hfd (by simp), rfl, rfl⟩

/-- The connection is closed from within: by then the descriptor of the client is -1, and its mapping stays. -/
def closeClient (w : Worker cap) (i : Fin cap) : Worker cap :=
  let w := w.closeAndRecycle (w.client i).self
  (w.unmapFd (w.client i).fd).emit [.epDel (w.client i).fd]

/-- EPOLLOUT is wanted as long as something is queued. -/
def arm (w : Worker cap) (i : Fin cap) : Worker cap :=
  let c := w.client i
  let needOut := !c.txq.isEmpty
  if needOut = c.wantOut then w
  else
    (w.setClient i { c with wantOut := needOut }).emit
      [.epMod c.fd (EPOLLIN ||| EPOLLRDHUP ||| EPOLLET ||| if needOut then EPOLLOUT else 0)]

def countServed (w : Worker cap) (i : Fin cap) : Worker cap :=
  w.setClient i { w.client i with served := (w.client i).served + 1 }

/-- A response is finished. -/
def endResponse (w : Worker cap) (i : Fin cap) : Bool × Worker cap :=
  let w := w.countServed i
  if w.keepaliveLimit.toUInt32 ≤ (w.client i).served ∨ (w.client i).closing = true then (false, w.closeClient i)
  else (true, w)

/-- A turn of the loop of `try_flush_and_arm`, and whether there is another one. -/
def flushTurn (w : Worker cap) (i : Fin cap) : Bool × Worker cap :=
  match w.flushSendOnce i with
  | (.progress, w) => (true, w)
  | (.finished, w) => w.endResponse i
  | (.fatal, w) => (false, w.closeClient i)
  | (.noData, w) | (.blocked, w) => (false, w.arm i)

def flushLoop : Nat → Fin cap → Worker cap → Worker cap
  | 0, _, w => w
  | fuel + 1, i, w =>
    match w.flushTurn i with
    | (true, w) => flushLoop fuel i w
    | (false, w) => w

/-- Each turn but the last uses an answer of the kernel. -/
def tryFlushAndArm (w : Worker cap) (i : Fin cap) : Worker cap := flushLoop (w.sends.length + 1) i w

def txEnqueueLiteral (w : Worker cap) (i : Fin cap) (p : Bytes) (eor : Bool) : Worker cap :=
  (w.setClient i { w.client i with txq := (w.client i).txq ++ [⟨p, eor⟩] }).tryFlushAndArm i

/-- `served` and the limit less one are compared as unsigned numbers. -/
def enqueueRequestForResponse (w : Worker cap) (i : Fin cap) (keepAlive : Bool) : Worker cap :=
  let keep := keepAlive && (w.client i).served < w.keepaliveLimit.toUInt32 - 1
  (w.txEnqueueLiteral i (if keep then kHdrKeep else kHdrClose) false).txEnqueueLiteral i kBody true

/-! ## Events -/

variable (reserves : Nat → Bool)

/-- Parse a segment; the requests in it are answered on the way. -/
def onSegment (w : Worker cap) (i : Fin cap) (p : Bytes) : Worker cap :=
  let r := Epoll.onSegment reserves (fun _ keepAlive w => w.enqueueRequestForResponse i keepAlive) p
    { http := (w.client i).http, req := (w.client i).req, out := w }
  let x := left r
  let w := x.out.setClient i { x.out.client i with http := x.http, req := x.req }
  match r with
  | .ok _ => w
  | .error _ => { w with status := .raised }

/-- The loop of `handle_recv_et`; without an answer `recv` would block. -/
def recvLoop (fd : Int) (h : ConnHandle) (i : Fin cap) : List RecvResult → Worker cap → Worker cap
  | [], w => w
  | .received p :: rs, w =>
    if p = [] then w.hangUp fd h
    else
      let w := w.onSegment reserves i (p.take rxCap)
      if w.status = .running then recvLoop fd h i rs w else w
  | .wouldBlock :: _, w => w
  | .interrupted :: rs, w => recvLoop fd h i rs w
  | .failed :: _, w => w.hangUp fd h

def handleRecvEt (w : Worker cap) (fd : Int) (events : UInt32) (recvs : List RecvResult) : Worker cap :=
  match w.tryGet (w.lookup fd) with
  | none => w.emit [.epDel fd]
  | some i => if hasHup events then w.hangUp fd (w.lookup fd) else recvLoop reserves fd (w.lookup fd) i recvs w

def handleSendReadyEt (w : Worker cap) (fd : Int) : Worker cap :=
  match w.tryGet (w.lookup fd) with
  | none => w.emit [.epDel fd]
  | some i => w.tryFlushAndArm i

def acceptLoop : List AcceptResult → Worker cap → Worker cap
  | [], w => w
  | .accepted fd :: as, w =>
    match w.allocate with
    | none => { w with status := .waiting }
    | some (h, w) =>
      match w.tryGet h with
      | some i =>
        acceptLoop as (((w.setClient i { fd := fd, self := h }).mapFd fd h).emit
          [.epAdd fd (EPOLLIN ||| EPOLLRDHUP ||| EPOLLET)])
      | none => acceptLoop as (w.emit [.closed fd])
  | .interrupted :: as, w => acceptLoop as w
  | .wouldBlock :: _, w | .failed :: _, w => w

/-- An event of `epoll_wait`, and what the kernel answers while it is handled. -/
structure Event where
  fd : Nat
  events : UInt32
  recvs : List RecvResult := []
  sends : List SendResult := []
  accepts : List AcceptResult := []
deriving DecidableEq, Repr

/-- The body of the loop over a batch of events. -/
def dispatch (w : Worker cap) (e : Event) : Worker cap :=
  if e.fd = w.listen then acceptLoop e.accepts w
  else
    let w := if has e.events EPOLLIN then w.handleRecvEt reserves e.fd e.events e.recvs else w
    if w.status = .running then
      let w := if has e.events EPOLLOUT then w.handleSendReadyEt e.fd else w
      if hasHup e.events then w.hangUp e.fd (w.lookup e.fd) else w
    else w

def handle (w : Worker cap) (e : Event) : Worker cap := dispatch reserves { w with sends := e.sends } e

/-- `sweep_idle`: the connections that the clock has made idle are closed. By the time their descriptor is looked at it
is -1, so that their mapping stays. -/
def sweepIdle (w : Worker cap) (idle : Fin cap → Bool) : Worker cap :=
  (List.finRange cap).foldl (fun w i =>
    if (w.slots i).inUse && idle i then
      match w.tryGet ⟨UInt32.ofNat i.val, (w.slots i).generation⟩ with
      | none => w
      | some j =>
        let w := (w.setClient j { w.client j with closing := true }).closeAndRecycle
          ⟨UInt32.ofNat i.val, (w.slots i).generation⟩
        if (w.client j).fd = -1 then w else (w.unmapFd (w.client j).fd).emit [.epDel (w.client j).fd]
    else w) w

/-- What the loop of `run` does: an event of a batch is handled, or no event has come for a second. -/
inductive Action (cap : Nat)
  | event (e : Event)
  | idle (late : Fin cap → Bool)

def step (w : Worker cap) (a : Action cap) : Option (Worker cap) :=
  if w.status = .running then
    some (match a with
      | .event e => w.handle reserves e
      | .idle late => w.sweepIdle late)
  else none

end Worker

end IOContext.Epoll
