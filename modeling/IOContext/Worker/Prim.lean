import IOContext.Worker.Run
import Mathlib.Logic.Relation

/-!
# What the code does to a connection, in primitive steps

Whatever a handler does on behalf of the connection `c` with number `fd` is a sequence of primitive steps (`Prims`): it
changes the object `c`, feeds its parser, queues a buffer, calls the handler, or submits an operation on `fd`. The
steps are indexed by the effects that are allowed, so that one lemma for each function says both that it is such a
sequence and what it does not do.

- A sequence leaves the table and every other object alone (`Prims.frame`) and only adds to the trace (`Prims.trace`).
- The functions of the loop, by their effects: `post_prims`, `sendkick_prims`, `startRecv_prims`, `closeConn_prims`,
  `parseStep_prims`, `generateResponse_prims`, and the branches of the switch (`handleConn_prims`).
-/

namespace IOContext

/-! ## Operations -/

/-- The descriptor that an operation is on. -/
def Op.target : Op → Option Fd
  | .provideBuffers _ _ => none
  | .accept fd | .multishotAccept fd | .recvMultishot fd | .recv fd _ | .close fd | .pollAdd fd | .sendmsg fd _
  | .msgRing fd _ => some fd

/-- The tag that is written into the slot. -/
def Op.tag : Op → Option UInt64
  | .provideBuffers _ bid => some (packUdAux 0 .freeBuffer (UInt32.ofNat bid))
  | .accept fd | .multishotAccept fd => some (packUd fd .accept)
  | .recvMultishot fd | .recv fd _ => some (packUd fd .recv)
  | .close fd => some (packUd fd .closed)
  | .pollAdd fd => some (packUd fd .pollOut)
  | .sendmsg fd _ => some (packUd fd .send)
  | .msgRing _ _ => none

/-- An accept of either mode. -/
def Op.Accepts : Op → Prop
  | .accept _ | .multishotAccept _ => True
  | _ => False

instance : DecidablePred Op.Accepts
  | .accept _ | .multishotAccept _ => isTrue trivial
  | .provideBuffers _ _ | .recvMultishot _ | .recv _ _ | .close _ | .pollAdd _ | .sendmsg _ _ | .msgRing _ _ =>
      isFalse id

/-- The kinds that `post` is called with. -/
def Workflow.IsTask : Workflow → Prop
  | .findHandler | .generateResponse | .requestFlush | .requestClose => True
  | _ => False

/-- The operations that belong to a connection. -/
def Op.Owned : Op → Prop
  | .provideBuffers _ _ | .accept _ | .multishotAccept _ => False
  | .msgRing _ kind => kind.IsTask
  | .recvMultishot _ | .recv _ _ | .close _ | .pollAdd _ | .sendmsg _ _ => True

/-- The operations that a handler of the connection `c` with number `fd` submits: those on `fd`, on behalf of `c`, and
those that belong to no connection. -/
inductive Op.For (c : Ptr) (fd : Fd) : Op → Option Ptr → Prop
  | own {op : Op} (ht : op.target = some fd) (ho : op.Owned) : Op.For c fd op (some c)
  | buffer (addr bid : Nat) : Op.For c fd (.provideBuffers addr bid) none
  | listen {op : Op} (ha : op.Accepts) : Op.For c fd op none

/-! ## Effects -/

/-- The part of a connection that its sends depend on is kept. -/
structure KeepsTx (o o' : PerClientStorage) : Prop where
  txq : o'.txq = o.txq
  txInflight : o'.txInflight = o.txInflight
  sendInflight : o'.sendInflight = o.sendInflight

/-- The part of a connection that its receives depend on is kept. -/
structure KeepsRx (o o' : PerClientStorage) : Prop where
  rxq : o'.rxq = o.rxq
  rxHold : o'.rxHold = o.rxHold
  msRecvArmed : o'.msRecvArmed = o.msRecvArmed

theorem KeepsTx.refl (o : PerClientStorage) : KeepsTx o o := ⟨rfl, rfl, rfl⟩

theorem KeepsRx.refl (o : PerClientStorage) : KeepsRx o o := ⟨rfl, rfl, rfl⟩

theorem KeepsTx.trans {o o' o'' : PerClientStorage} (h : KeepsTx o o') (h' : KeepsTx o' o'') : KeepsTx o o'' :=
  ⟨h'.1.trans h.1, h'.2.trans h.2, h'.3.trans h.3⟩

theorem KeepsRx.trans {o o' o'' : PerClientStorage} (h : KeepsRx o o') (h' : KeepsRx o' o'') : KeepsRx o o'' :=
  ⟨h'.1.trans h.1, h'.2.trans h.2, h'.3.trans h.3⟩

inductive Effect
  | submit (op : Op)
  /-- The object of the connection, before and after. -/
  | change (o o' : PerClientStorage)
  /-- The first segment of the receive queue goes to the parser. -/
  | segment
  | enqueue
  | invoke
  /-- A new vector for `rx_hold`. -/
  | alloc
  | msRecvOff
  /-- The flags of the listener. -/
  | acceptMode
  /-- An exception leaves the worker. -/
  | crash

namespace Effect

/-- `post`, without the inline flush. -/
inductive Posts : Effect → Prop
  | msg (fd : Fd) (kind : Workflow) : Posts (.submit (.msgRing fd kind))

inductive Sends : Effect → Prop
  | flush (fd : Fd) : Sends (.submit (.msgRing fd .requestFlush))
  | send (fd : Fd) (iov : List Bytes) : Sends (.submit (.sendmsg fd iov))
  | takeBatch (o : PerClientStorage) (h : o.Ready) : Sends (.change o o.takeBatch)
  | rollback (o : PerClientStorage) : Sends (.change o o.rollback)

inductive Responds : Effect → Prop
  | sends {e : Effect} (h : Sends e) : Responds e
  | enqueue : Responds .enqueue
  | invoke : Responds .invoke

/-- What follows a segment that has been parsed. -/
inductive Reports : Effect → Prop
  | msg (fd : Fd) (kind : Workflow) : Reports (.submit (.msgRing fd kind))
  | closing (o : PerClientStorage) : Reports (.change o { o with closing := true })
  | crash : Reports .crash

inductive Parses : Effect → Prop
  | msg (fd : Fd) (kind : Workflow) : Parses (.submit (.msgRing fd kind))
  | segment : Parses .segment
  | closing (o : PerClientStorage) : Parses (.change o { o with closing := true })
  | crash : Parses .crash

inductive Recvs : Effect → Prop
  | multishot (fd : Fd) : Recvs (.submit (.recvMultishot fd))
  | single (fd : Fd) (hold : Nat) : Recvs (.submit (.recv fd hold))
  | alloc : Recvs .alloc
  | armed (o : PerClientStorage) : Recvs (.change o { o with msRecvArmed := true })
  | hold (o : PerClientStorage) (hold : Option Nat) : Recvs (.change o { o with rxHold := hold })

inductive Provides : Effect → Prop
  | provide (addr bid : Nat) : Provides (.submit (.provideBuffers addr bid))

inductive Closes : Effect → Prop
  | close (fd : Fd) : Closes (.submit (.close fd))
  | closing (o : PerClientStorage) : Closes (.change o { o with closing := true })

inductive Polls : Effect → Prop
  | poll (fd : Fd) : Polls (.submit (.pollAdd fd))
  | armed (o : PerClientStorage) : Polls (.change o { o with polloutArmed := true })

/-- What a `Recv` completion that delivers bytes does, but for the return of the buffer. -/
inductive Receives : Effect → Prop
  | parses {e : Effect} (h : Parses e) : Receives e
  | sends {e : Effect} (h : Sends e) : Receives e
  | recvs {e : Effect} (h : Recvs e) : Receives e
  | queue (o : PerClientStorage) (rxq : List OwnedBuf) : Receives (.change o { o with rxq := rxq })
  | disarm (o : PerClientStorage) : Receives (.change o { o with msRecvArmed := false })

/-- What a `Recv` completion that delivers none does. -/
inductive Fails : Effect → Prop
  | recvs {e : Effect} (h : Recvs e) : Fails e
  | closes {e : Effect} (h : Closes e) : Fails e
  | disarm (o : PerClientStorage) : Fails (.change o { o with msRecvArmed := false })
  | msRecvOff : Fails .msRecvOff

/-- What a `Send` completion does. -/
inductive Completes : Effect → Prop
  | sends {e : Effect} (h : Sends e) : Completes e
  | polls {e : Effect} (h : Polls e) : Completes e
  | closes {e : Effect} (h : Closes e) : Completes e
  | done (o : PerClientStorage) : Completes (.change o o.onSendCompleted.2)

inductive Accepts : Effect → Prop
  | accept {op : Op} (h : op.Accepts) : Accepts (.submit op)
  | acceptMode : Accepts .acceptMode

inductive Listens : Effect → Prop
  | submit (op : Op) : Listens (.submit op)
  | acceptMode : Listens .acceptMode

/-- The listener is left alone. -/
def Serves : Effect → Prop
  | .submit op => ¬op.Accepts
  | .acceptMode => False
  | _ => True

/-- The listener and the pool are left alone. -/
def Works : Effect → Prop
  | .submit (.provideBuffers _ _) => False
  | .submit op => ¬op.Accepts
  | .acceptMode => False
  | _ => True

theorem Works.serves : ∀ e, Works e → Serves e
  | .submit (.provideBuffers _ _), h => h.elim
  | .submit (.accept _), h | .submit (.multishotAccept _), h => absurd trivial h
  | .submit (.recvMultishot _), _ | .submit (.recv _ _), _ | .submit (.close _), _ | .submit (.pollAdd _), _
  | .submit (.sendmsg _ _), _ | .submit (.msgRing _ _), _ => id
  | .change _ _, _ | .segment, _ | .enqueue, _ | .invoke, _ | .alloc, _ | .msRecvOff, _ | .crash, _ => trivial

/-- The parser is not fed, no handler called, and no task posted but a flush. -/
def Tends : Effect → Prop
  | .submit (.provideBuffers _ _) => False
  | .submit (.msgRing _ kind) => kind = .requestFlush
  | .submit op => ¬op.Accepts
  | .change o o' => o'.rxq = o.rxq ∧ o'.requestHandler = o.requestHandler
  | .alloc | .msRecvOff => True
  | .segment | .enqueue | .invoke | .acceptMode | .crash => False

theorem Tends.works : ∀ e, Tends e → Works e
  | .submit (.provideBuffers _ _), h => h.elim
  | .submit (.accept _), h | .submit (.multishotAccept _), h => h
  | .submit (.recvMultishot _), h | .submit (.recv _ _), h | .submit (.close _), h | .submit (.pollAdd _), h
  | .submit (.sendmsg _ _), h => h
  | .submit (.msgRing _ _), _ => id
  | .change _ _, _ | .alloc, _ | .msRecvOff, _ => trivial

end Effect

/-- What an event of a sequence says. -/
def Event.Allowed (L : Effect → Prop) (c : Ptr) (fd : Fd) : Event → Prop
  | .sqe e => L (.submit e.op) ∧ e.op.For c fd e.owner
  | .segment q _ => L .segment ∧ q = c
  | .enqueue q _ => L .enqueue ∧ q = c
  | .invoke q _ _ _ => L .invoke ∧ q = c

namespace Worker

/-! ## Primitive steps -/

/-- A primitive step on behalf of the connection `c` with number `fd` that has one of the effects `L`, or none. -/
inductive Prim (L : Effect → Prop) (c : Ptr) (fd : Fd) : Worker → Worker → Prop
  | quiet {w : Worker} (env : Env) (needSubmit : UInt16) : Prim L c fd w { w with env := env, needSubmit := needSubmit }
  | crash {w : Worker} (hL : L .crash) : Prim L c fd w { w with terminated := true }
  | change {w : Worker} (f : PerClientStorage → PerClientStorage) (hL : L (.change (w.heap c) (f (w.heap c))))
      (hfd : (f (w.heap c)).fd = (w.heap c).fd) (hparser : (f (w.heap c)).parser = (w.heap c).parser)
      (hclosing : (w.heap c).closing = true → (f (w.heap c)).closing = true) : Prim L c fd w (w.modify c f)
  | segment {w : Worker} {b : OwnedBuf} {rest : List OwnedBuf} (hL : L .segment) (hrxq : (w.heap c).rxq = b :: rest) :
      Prim L c fd w
        ((w.modify c fun o => { o with rxq := rest, parser := o.parser.onSegment b.wb }).log (.segment c b.wb))
  | enqueue {w : Worker} (hL : L .enqueue) (b : OwnedBuf) :
      Prim L c fd w ((w.modify c fun o => { o with txq := o.txq ++ [b] }).log (.enqueue c b))
  | invoke {w : Worker} (hL : L .invoke) (h : Handler) (res : Response) :
      Prim L c fd w ((w.modify c fun o => { o with parser := { o.parser with res := res } }).log
        (.invoke c h (w.heap c).parser.req (w.heap c).parser.res))
  | alloc {w : Worker} (hL : L .alloc) :
      Prim L c fd w { w with
        holds := Function.update w.holds w.nextHold (List.replicate RX_CAP 0), nextHold := w.nextHold + 1 }
  | msRecvOff {w : Worker} (hL : L .msRecvOff) : Prim L c fd w { w with useMsRecv := false }
  | acceptMode {w : Worker} (hL : L .acceptMode) (useMsAccept msAcceptArmed : Bool) :
      Prim L c fd w { w with useMsAccept := useMsAccept, msAcceptArmed := msAcceptArmed }
  | submit {w : Worker} {op : Op} {owner : Option Ptr} (hL : L (.submit op)) (hop : op.For c fd owner) :
      Prim L c fd w (w.prep op owner op.tag)

abbrev Prims (L : Effect → Prop) (c : Ptr) (fd : Fd) : Worker → Worker → Prop := Relation.ReflTransGen (Prim L c fd)

/-- The table stands for `c` under `fd`. -/
structure At (w : Worker) (c : Ptr) (fd : Fd) : Prop where
  table : w.table fd = some c
  obj : (w.heap c).fd = fd

section Prims

variable {L L' : Effect → Prop} {c : Ptr} {fd : Fd} {w w' w'' : Worker}

theorem Prim.mono (hL : ∀ e, L e → L' e) (h : Prim L c fd w w') : Prim L' c fd w w' := by
  cases h with
  | quiet env n => exact .quiet env n
  | crash h => exact .crash (hL _ h)
  | change f h hfd hparser hclosing => exact .change f (hL _ h) hfd hparser hclosing
  | segment h hrxq => exact .segment (hL _ h) hrxq
  | enqueue h b => exact .enqueue (hL _ h) b
  | invoke h hd res => exact .invoke (hL _ h) hd res
  | alloc h => exact .alloc (hL _ h)
  | msRecvOff h => exact .msRecvOff (hL _ h)
  | acceptMode h a b => exact .acceptMode (hL _ h) a b
  | submit h hop => exact .submit (hL _ h) hop

theorem Prims.mono (hL : ∀ e, L e → L' e) (h : Prims L c fd w w') : Prims L' c fd w w' :=
  Relation.ReflTransGen.mono (fun _ _ => Prim.mono hL) _ _ h

/-- Every effect is allowed. -/
theorem Prims.any (h : Prims L c fd w w') : Prims (fun _ => True) c fd w w' := h.mono fun _ _ => trivial

/-- A preorder that contains the primitive steps contains their sequences. -/
theorem Prims.lift {R : Worker → Worker → Prop} (hrefl : ∀ w, R w w)
    (htrans : ∀ w w' w'', R w w' → R w' w'' → R w w'') (h1 : ∀ w w', Prim L c fd w w' → R w w')
    (h : Prims L c fd w w') : R w w' := by
  induction h with
  | refl => exact hrefl _
  | tail _ hp ih => exact htrans _ _ _ ih (h1 _ _ hp)

/-! ## The frame -/

@[simp] theorem heap_modify (w : Worker) (c : Ptr) (f : PerClientStorage → PerClientStorage) :
    (w.modify c f).heap c = f (w.heap c) := Function.update_self ..

theorem heap_modify_ne (w : Worker) {c q : Ptr} (hq : q ≠ c) (f : PerClientStorage → PerClientStorage) :
    (w.modify c f).heap q = w.heap q := Function.update_of_ne hq ..

@[simp] theorem heap_prep (w : Worker) (op : Op) (owner : Option Ptr) (tag : Option UInt64) :
    (w.prep op owner tag).heap = w.heap := rfl

@[simp] theorem heap_withSqes (w : Worker) (sqes : List Bool) : (w.withSqes sqes).heap = w.heap := rfl

@[simp] theorem heap_log (w : Worker) (e : Event) : (w.log e).heap = w.heap := rfl

/-- What a sequence of primitive steps leaves alone. -/
structure Frame (c : Ptr) (w w' : Worker) : Prop where
  listenFd : w'.listenFd = w.listenFd
  cfg : w'.cfg = w.cfg
  routes : w'.routes = w.routes
  table : w'.table = w.table
  nextPtr : w'.nextPtr = w.nextPtr
  bufPool : w'.bufPool = w.bufPool
  haveBufPool : w'.haveBufPool = w.haveBufPool
  heap : ∀ q, q ≠ c → w'.heap q = w.heap q
  obj : (w'.heap c).fd = (w.heap c).fd
  closing : (w.heap c).closing = true → (w'.heap c).closing = true

theorem Prim.frame (h : Prim L c fd w w') : Frame c w w' := by
  cases h with
  | quiet | crash => exact ⟨rfl, rfl, rfl, rfl, rfl, rfl, rfl, fun _ _ => rfl, rfl, id⟩
  | change f _ hfd _ hclosing =>
    exact ⟨rfl, rfl, rfl, rfl, rfl, rfl, rfl, fun q hq => heap_modify_ne w hq f, by simpa using hfd,
      by simpa using hclosing⟩
  | segment _ _ => exact ⟨rfl, rfl, rfl, rfl, rfl, rfl, rfl, fun q hq => by simp [heap_modify_ne w hq], by simp,
      by simp⟩
  | enqueue _ b => exact ⟨rfl, rfl, rfl, rfl, rfl, rfl, rfl, fun q hq => by simp [heap_modify_ne w hq], by simp,
      by simp⟩
  | invoke _ h res => exact ⟨rfl, rfl, rfl, rfl, rfl, rfl, rfl, fun q hq => by simp [heap_modify_ne w hq], by simp,
      by simp⟩
  | alloc => exact ⟨rfl, rfl, rfl, rfl, rfl, rfl, rfl, fun _ _ => rfl, rfl, id⟩
  | msRecvOff => exact ⟨rfl, rfl, rfl, rfl, rfl, rfl, rfl, fun _ _ => rfl, rfl, id⟩
  | acceptMode => exact ⟨rfl, rfl, rfl, rfl, rfl, rfl, rfl, fun _ _ => rfl, rfl, id⟩
  | submit => exact ⟨rfl, rfl, rfl, rfl, rfl, rfl, rfl, fun _ _ => rfl, rfl, id⟩

theorem Frame.trans (h : Frame c w w') (h' : Frame c w' w'') : Frame c w w'' :=
  ⟨h'.listenFd.trans h.listenFd, h'.cfg.trans h.cfg, h'.routes.trans h.routes, h'.table.trans h.table,
    h'.nextPtr.trans h.nextPtr, h'.bufPool.trans h.bufPool, h'.haveBufPool.trans h.haveBufPool,
    fun q hq => (h'.heap q hq).trans (h.heap q hq), h'.obj.trans h.obj, h'.closing ∘ h.closing⟩

theorem Prims.frame (h : Prims L c fd w w') : Frame c w w' :=
  h.lift (fun _ => ⟨rfl, rfl, rfl, rfl, rfl, rfl, rfl, fun _ _ => rfl, rfl, id⟩) (fun _ _ _ => Frame.trans)
    fun _ _ => Prim.frame

theorem At.prims (hat : w.At c fd) (h : Prims L c fd w w') : w'.At c fd :=
  ⟨by rw [h.frame.table]; exact hat.table, by rw [h.frame.obj]; exact hat.obj⟩

/-! ## The object -/

/-- What every change keeps is kept, unless buffers are queued. -/
theorem Prims.keepsTx (hchange : ∀ o o', L (.change o o') → KeepsTx o o') (henqueue : ¬L .enqueue)
    (h : Prims L c fd w w') : KeepsTx (w.heap c) (w'.heap c) :=
  h.lift (R := fun w w' => KeepsTx (w.heap c) (w'.heap c)) (fun _ => .refl _) (fun _ _ _ => .trans) fun w w' h => by
    cases h with
    | change f hL => simpa using hchange _ _ hL
    | enqueue hL => exact absurd hL henqueue
    | segment | invoke => constructor <;> simp
    | quiet | crash | alloc | msRecvOff | acceptMode | submit => exact .refl _

/-- What every change keeps is kept, unless the parser is fed. -/
theorem Prims.keepsRx (hchange : ∀ o o', L (.change o o') → KeepsRx o o') (hsegment : ¬L .segment)
    (h : Prims L c fd w w') : KeepsRx (w.heap c) (w'.heap c) :=
  h.lift (R := fun w w' => KeepsRx (w.heap c) (w'.heap c)) (fun _ => .refl _) (fun _ _ _ => .trans) fun w w' h => by
    cases h with
    | change f hL => simpa using hchange _ _ hL
    | segment hL => exact absurd hL hsegment
    | enqueue | invoke => constructor <;> simp
    | quiet | crash | alloc | msRecvOff | acceptMode | submit => exact .refl _

/-! ## The trace -/

@[simp] theorem trace_modify (w : Worker) (c : Ptr) (f : PerClientStorage → PerClientStorage) :
    (w.modify c f).trace = w.trace := rfl

@[simp] theorem trace_log (w : Worker) (e : Event) : (w.log e).trace = w.trace ++ [e] := rfl

/-- The trace after a submission. -/
theorem trace_prep (w : Worker) (op : Op) (owner : Option Ptr) (tag : Option UInt64) :
    ∃ e : Sqe, e.op = op ∧ e.owner = owner ∧ e.serial = w.ring.tail ∧
      (w.prep op owner tag).trace = w.trace ++ [.sqe e] := ⟨_, rfl, rfl, rfl, rfl⟩

/-- A sequence adds allowed events to the trace. -/
theorem Prims.trace (h : Prims L c fd w w') :
    ∃ evs, w'.trace = w.trace ++ evs ∧ ∀ e ∈ evs, Event.Allowed L c fd e := by
  refine h.lift (R := fun w w' => ∃ evs, w'.trace = w.trace ++ evs ∧ ∀ e ∈ evs, Event.Allowed L c fd e)
    (fun w => ⟨[], by simp⟩) ?_ fun w w' h => ?_
  · rintro w w' w'' ⟨evs, h, hev⟩ ⟨evs', h', hev'⟩
    exact ⟨evs ++ evs', by rw [h', h, List.append_assoc], fun e he => (List.mem_append.mp he).elim (hev e) (hev' e)⟩
  · cases h with
    | quiet | crash | change | alloc | msRecvOff | acceptMode => exact ⟨[], by simp⟩
    | segment hL _ => exact ⟨[_], rfl, by simpa [Event.Allowed] using hL⟩
    | enqueue hL b => exact ⟨[_], rfl, by simpa [Event.Allowed] using hL⟩
    | invoke hL h res => exact ⟨[_], rfl, by simpa [Event.Allowed] using hL⟩
    | submit hL hop => exact ⟨[_], rfl, by simpa [Event.Allowed] using ⟨hL, hop⟩⟩

end Prims

end Worker

end IOContext
