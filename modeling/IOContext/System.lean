import IOContext.Base.Reach
import IOContext.Worker.Run

/-!
# The worker and the kernel

A state is the worker together with the completions that the kernel still owes it. A step delivers one of them, in
any order: the kernel writes the received bytes, the loop runs its switch on the completion, and what the handler
submits is owed from then on.

A close takes effect (`executeClose`) some time before its completion is delivered; an accept returns a number that is
not open. A `MSG_RING` owes two completions, the message with the tag that was passed and its own.

Completions are dispatched by their tag, as the code does (`.tagged`), or under the kind they were posted with
(`.posted`), which sets aside that tags do not tell all kinds apart; the completion that a `MSG_RING` owes for itself
was posted with no kind.
-/

namespace IOContext

/-! ## Completions owed -/

/-- A completion that the kernel owes. -/
structure Pending where
  sqe : Sqe
  /-- The message of a `MSG_RING`. -/
  message : Bool := false
  /-- A close that has taken effect. -/
  executed : Bool := false
deriving DecidableEq

namespace Pending

/-- The tag with which the completion arrives. -/
def tag (p : Pending) : UInt64 :=
  match p.sqe.op, p.message with
  | .msgRing fd kind, true => packUd fd kind
  | _, _ => p.sqe.userData

/-- The descriptor and the kind for which the operation was submitted. -/
def posted (p : Pending) : Option (Fd × Workflow) :=
  match p.sqe.op with
  | .provideBuffers _ _ => some (0, .freeBuffer)
  | .accept fd => some (fd, .accept)
  | .multishotAccept fd => some (fd, .accept)
  | .recvMultishot fd => some (fd, .recv)
  | .recv fd _ => some (fd, .recv)
  | .close fd => some (fd, .closed)
  | .pollAdd fd => some (fd, .pollOut)
  | .sendmsg fd _ => some (fd, .send)
  | .msgRing fd kind => if p.message then some (fd, kind) else none

end Pending

/-- How the loop finds the branch for a completion. -/
inductive Dispatch
  | tagged
  | posted
deriving DecidableEq

/-- The descriptor and the kind under which a completion is handled. -/
def Dispatch.read : Dispatch → Pending → Option (Fd × Workflow)
  | tagged, p => some ((unpackUd p.tag).1, (unpackUd p.tag).2.1)
  | posted, p => p.posted

/-- The completions owed for a submission. -/
def Event.owed : Event → List Pending
  | .sqe e => match e.op with
    | .msgRing _ _ => [{ sqe := e, message := true }, { sqe := e }]
    | _ => [{ sqe := e }]
  | _ => []

/-! ## The system -/

structure Sys where
  w : Worker
  pending : List Pending
  /-- The descriptors that are open. -/
  openFds : Fd → Bool
  /-- The bytes that the kernel has delivered to a connection by positive `Recv` completions. -/
  received : Ptr → Bytes := fun _ => []

inductive Action
  /-- The `i`-th completion owed is that of a close: the descriptor is closed. -/
  | executeClose (i : Nat)
  /-- The `i`-th completion owed is delivered; `data` are the bytes received. -/
  | complete (i : Nat) (cqe : Cqe) (data : Bytes) (env : Env)
  | endBatch

namespace Sys

/-- What the kernel may answer. -/
def Admissible (s : Sys) (p : Pending) (cqe : Cqe) (data : Bytes) : Prop :=
  match p.sqe.op with
  | .accept _ | .multishotAccept _ => 0 < cqe.res → s.openFds cqe.res = false
  | .recvMultishot _ =>
    (cqe.more = true → 0 < cqe.res) ∧
    (0 < cqe.res → cqe.buffer ≠ none ∧ data.length = cqe.res.toInt.toNat ∧ data.length ≤ BUF_SZ)
  | .recv _ _ => cqe.buffer = none ∧ (0 < cqe.res → data.length = cqe.res.toInt.toNat ∧ data.length ≤ RX_CAP)
  | .sendmsg _ iov => cqe.res.toInt ≤ iov.flatten.length
  | .close _ => p.executed = true ∧ cqe.res ≤ 0
  | .msgRing _ _ => cqe.res = 0
  | .pollAdd _ | .provideBuffers _ _ => True

instance (s : Sys) (p : Pending) (cqe : Cqe) (data : Bytes) : Decidable (s.Admissible p cqe data) := by
  unfold Admissible
  split <;> infer_instance

/-- A multishot operation goes on after a completion with `IORING_CQE_F_MORE`. -/
def goesOn (p : Pending) (cqe : Cqe) : Bool :=
  match p.sqe.op with
  | .multishotAccept _ | .recvMultishot _ => cqe.more
  | _ => false

/-- The kernel writes the bytes received into the buffer of the operation. -/
def fillBuffer (w : Worker) (p : Pending) (cqe : Cqe) (data : Bytes) : Worker :=
  match p.sqe.op, cqe.buffer with
  | .recvMultishot _, some bid =>
    { w with bufPool := Function.update w.bufPool bid (data ++ (w.bufPool bid).drop data.length) }
  | .recv _ hold, _ => { w with holds := Function.update w.holds hold (data ++ (w.holds hold).drop data.length) }
  | _, _ => w

/-- The descriptors that are open after a completion. -/
def openAfter (s : Sys) (p : Pending) (cqe : Cqe) : Fd → Bool :=
  match p.sqe.op with
  | .accept _ | .multishotAccept _ => if 0 < cqe.res then Function.update s.openFds cqe.res true else s.openFds
  | _ => s.openFds

/-- The bytes delivered so far after a completion. -/
def receivedAfter (s : Sys) (p : Pending) (cqe : Cqe) (data : Bytes) : Ptr → Bytes :=
  match p.sqe.op, p.sqe.owner with
  | .recvMultishot _, some c | .recv _ _, some c =>
    if 0 < cqe.res then Function.update s.received c (s.received c ++ data) else s.received
  | _, _ => s.received

/-- The completions owed for what `w'` has submitted and `w` had not. -/
def owedSince (w w' : Worker) : List Pending := (w'.trace.drop w.trace.length).flatMap Event.owed

/-- The worker when the loop reads a completion. -/
def arrive (s : Sys) (p : Pending) (cqe : Cqe) (data : Bytes) (env : Env) : Worker :=
  { fillBuffer s.w p cqe data with env := env }

/-- The branch that the loop takes. -/
def handled (d : Dispatch) (w : Worker) (p : Pending) (cqe : Cqe) : Option Worker :=
  match d.read p with
  | some (fd, kind) => w.handle fd kind cqe
  | none => some w

/-- The state after a completion that has left the worker in `w'`. -/
def after (s : Sys) (i : Nat) (p : Pending) (cqe : Cqe) (data : Bytes) (w' : Worker) : Sys where
  w := w'
  pending := (if goesOn p cqe then s.pending else s.pending.eraseIdx i) ++ owedSince s.w w'
  openFds := s.openAfter p cqe
  received := s.receivedAfter p cqe data

def complete (d : Dispatch) (s : Sys) (i : Nat) (cqe : Cqe) (data : Bytes) (env : Env) : Option Sys := do
  let p ← s.pending[i]?
  if s.Admissible p cqe data then
    let w' ← handled d (s.arrive p cqe data env) p cqe
    some (s.after i p cqe data w')
  else none

def executeClose (s : Sys) (i : Nat) : Option Sys := do
  let p ← s.pending[i]?
  match p.sqe.op, p.executed with
  | .close fd, false =>
    some { s with
      pending := s.pending.set i { p with executed := true }
      openFds := Function.update s.openFds fd false }
  | _, _ => none

/-- One step, unless an exception has ended the worker. -/
def step (d : Dispatch) (s : Sys) (a : Action) : Option Sys :=
  if s.w.terminated then none
  else match a with
    | .executeClose i => s.executeClose i
    | .complete i cqe data env => s.complete d i cqe data env
    | .endBatch => some { s with w := s.w.endBatch }

/-- The states in which the loop is entered: the descriptors that are open then are arbitrary. -/
def Init (s : Sys) : Prop :=
  ∃ listenFd cfg routes allocated env,
    Worker.startUp listenFd cfg routes allocated env = some s.w ∧
    s.pending = s.w.trace.flatMap Event.owed ∧ s.received = fun _ => []

/-- The system when the loop is entered. -/
def start (listenFd : Fd) (cfg : WorkerConfig) (routes : Routes) (allocated : Bool) (env : Env)
    (openFds : Fd → Bool) : Option Sys :=
  (Worker.startUp listenFd cfg routes allocated env).map fun w =>
    { w := w, pending := w.trace.flatMap Event.owed, openFds := openFds }

theorem start_init {listenFd : Fd} {cfg : WorkerConfig} {routes : Routes} {allocated : Bool} {env : Env}
    {openFds : Fd → Bool} {s : Sys} (h : start listenFd cfg routes allocated env openFds = some s) : Init s := by
  obtain ⟨w, hw, rfl⟩ := Option.map_eq_some_iff.mp h
  exact ⟨listenFd, cfg, routes, allocated, env, hw, rfl, rfl⟩

/-- The states of the runs whose steps all meet `ok`. -/
abbrev Reachable (d : Dispatch) (ok : Sys → Action → Prop) : Sys → Prop := Reach Init (step d) ok

end Sys

end IOContext
