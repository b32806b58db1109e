import IOContext.Http.Machine
import IOContext.Tag
import Mathlib.Logic.Function.Basic

/-!
# The state of one connection

`PerClientStorage` holds the parser, the handler found for the request and the queues of one connection. Here are the
parts of its methods, and of `sendkick_inline`, that touch nothing else.

- `takeBatch` moves the front of `txq` into `txInflight` and fills the iovec array (`takeBatch_inflight`); `rollback`
  puts it back (`rollback_txq`).
- `responseBufs` are the buffers that a response is sent as.
-/

namespace IOContext

/-! ## Constants -/

abbrev RX_CAP : Nat := 8192
abbrev MAX_IOV : Nat := 8
abbrev PROC_MAX_SEGMENTS : Nat := 32
/-- In microseconds. -/
abbrev PROC_TIME_BUDGET : Nat := 200

/-! ## Buffers -/

/-- A buffer with the bytes it points to; `guard` keeps them alive and unchanged. -/
structure OwnedBuf where
  wb : Bytes
  /-- Marks the end of a response. -/
  eor : Bool := false
deriving DecidableEq, Repr

def OwnedBuf.literal (p : Bytes) (eor : Bool := false) : OwnedBuf := ⟨p, eor⟩

/-- The iovec array and the `msghdr` of a connection: the kernel reads the first `msgIovlen` entries. -/
structure BatchedSendData where
  iov : List Bytes := []
  msgIovlen : Nat := 0
deriving DecidableEq, Repr

/-- What the kernel sends. -/
def BatchedSendData.submitted (d : BatchedSendData) : List Bytes := d.iov.take d.msgIovlen

/-- A request handler; it may change the response as it likes. -/
abbrev Handler := Request → Response → Response

/-- `routes_`, with one entry for each path. -/
abbrev Routes := List (Bytes × Handler)

/-! ## Connections -/

structure PerClientStorage where
  fd : Fd := -1
  served : UInt32 := 0
  closing : Bool := false
  keepAlive : Bool := true
  parser : ProcessingMachine := {}
  requestHandler : Option Handler := none
  /-- `owner` points to the worker. -/
  hasOwner : Bool := false
  batchedSendData : BatchedSendData := {}
  keepaliveLimit : UInt16 := 65000
  msRecvArmed : Bool := false
  polloutArmed : Bool := false
  sendkickPending : Bool := false
  rxq : List OwnedBuf := []
  /-- The vector that `rx_hold` points to. -/
  rxHold : Option Nat := none
  txq : List OwnedBuf := []
  txInflight : List OwnedBuf := []
  sendInflight : Bool := false
  inflightEor : Bool := false

namespace PerClientStorage

/-! ## Batches -/

/-- The loop that fills `iov`: at most `n` buffers, and none after an end of response. -/
def gather : Nat → List OwnedBuf → List Bytes × Bool
  | 0, _ => ([], false)
  | _ + 1, [] => ([], false)
  | n + 1, b :: q => if b.eor then ([b.wb], true) else (b.wb :: (gather n q).1, (gather n q).2)

/-- `sendkick_inline` up to its `get_sqe_or_submit`. -/
def takeBatch (c : PerClientStorage) : PerClientStorage :=
  let (iov, eor) := gather MAX_IOV c.txq
  { c with
    batchedSendData := { iov := iov ++ c.batchedSendData.iov.drop iov.length, msgIovlen := iov.length }
    txInflight := c.txq.take iov.length
    txq := c.txq.drop iov.length
    sendInflight := true
    inflightEor := eor }

/-- The batch goes back to the front of the queue, its last buffer first. -/
def rollback (c : PerClientStorage) : PerClientStorage :=
  { c with
    txq := c.txInflight.foldr (fun b q => b :: q) c.txq
    txInflight := []
    sendInflight := false
    inflightEor := false }

/-- A flush would send. -/
def Ready (o : PerClientStorage) : Prop := o.sendInflight = false ∧ o.txq ≠ []

instance (o : PerClientStorage) : Decidable o.Ready := inferInstanceAs (Decidable (_ ∧ _))

theorem ready_iff {o : PerClientStorage} : o.Ready ↔ ¬(o.sendInflight || o.txq.isEmpty) = true := by
  simp [Ready]

/-- The buffers that are still to be sent, oldest first. -/
def queue (c : PerClientStorage) : List OwnedBuf := c.txInflight ++ c.txq

theorem gather_eq (n : Nat) (q : List OwnedBuf) :
    (gather n q).1 = (q.take (gather n q).1.length).map (·.wb) := by
  induction n generalizing q with
  | zero => simp [gather]
  | succ n ih =>
    cases q with
    | nil => simp [gather]
    | cons b q =>
      unfold gather
      split
      · simp
      · simpa using ih q

/-- The batch consists of the first buffers of the queue. -/
theorem takeBatch_inflight (c : PerClientStorage) :
    c.takeBatch.batchedSendData.submitted = c.takeBatch.txInflight.map (·.wb) := by
  simp only [takeBatch, BatchedSendData.submitted, List.take_left']
  exact gather_eq _ _

@[simp] theorem rollback_txq (c : PerClientStorage) : c.rollback.txq = c.txInflight ++ c.txq := by
  simp [rollback]

/-! ## Completed sends, handlers, responses -/

def onSendCompleted (c : PerClientStorage) : Bool × PerClientStorage :=
  let finished := c.inflightEor
  let c := { c with txInflight := [], sendInflight := false, inflightEor := false }
  if finished then
    let c := { c with served := c.served + 1 }
    (c.keepaliveLimit.toUInt32 ≤ c.served || !c.keepAlive || c.closing, c)
  else (false, c)

def findHandler (c : PerClientStorage) (routes : Routes) : PerClientStorage :=
  match routes.lookup c.parser.req.path with
  | some h => { c with requestHandler := some h }
  | none => c

/-- The buffers of a response, in the order in which `generate_response` appends them. -/
def responseBufs (res : Response) : List OwnedBuf :=
  [⟨ascii "HTTP/1.1 " ++ res.code ++ [CR, LF] ++
    (ascii "Content-Length: " ++ toDecimal res.body.length ++ [CR, LF]), false⟩] ++
  res.headers.map (fun h => ⟨h.1 ++ ascii ": " ++ h.2 ++ [CR, LF], false⟩) ++
  [OwnedBuf.literal [CR, LF] false, ⟨res.body, false⟩]

/-- No buffer of a response is marked as its end. -/
theorem responseBufs_eor (res : Response) : ∀ b ∈ responseBufs res, b.eor = false := fun b hb => by
  simp only [responseBufs, OwnedBuf.literal, List.mem_append, List.mem_map, List.mem_cons, List.not_mem_nil,
    or_false] at hb
  obtain (rfl | ⟨_, -, rfl⟩) | rfl | rfl := hb <;> rfl

end PerClientStorage

end IOContext
