import IOContext.SendStream
import IOContext.Worker.Batches

/-!
# The batch in flight

The runs of one connection's sending side: buffers are appended to the queue, `sendkick_inline` is called from anywhere,
any branch of the switch is taken for the connection, and a send completes while it is outstanding.

- The batch in flight is what the iovec array says, and there is none while nothing is being sent (`Batched`); at most
  one send is outstanding, and its iovecs stay as they were submitted (`in_flight`).
- What is to be sent changes only by what is appended and by a send that completes; a batch that cannot be sent is put
  back in front, as the loops of the source do it (`queue_conserved`, `rollback_putBack`).
-/

namespace IOContext

namespace PerClientStorage

variable {o : PerClientStorage}

/-- The batch that is being sent. -/
structure Batch (o : PerClientStorage) : Prop where
  nonempty : o.txInflight ≠ []
  length : o.txInflight.length ≤ MAX_IOV
  msgIovlen : o.batchedSendData.msgIovlen = o.txInflight.length
  iov : o.batchedSendData.submitted = o.txInflight.map (·.wb)
  unmarked : ∀ b ∈ o.txInflight.dropLast, b.eor = false
  last : o.txInflight.getLast?.map (·.eor) = some o.inflightEor

/-- Either a batch is being sent, or there is none. -/
structure Batched (o : PerClientStorage) : Prop where
  busy : o.sendInflight = true → o.Batch
  idle : o.sendInflight = false → o.txInflight = [] ∧ o.inflightEor = false

/-- The loop takes a nonempty batch, and stops after the end of a response. -/
theorem gather_batch : ∀ (n : Nat) {q : List OwnedBuf}, q ≠ [] →
    let b := q.take (gather (n + 1) q).1.length
    b ≠ [] ∧ b.length = (gather (n + 1) q).1.length ∧ b.length ≤ n + 1 ∧ (∀ x ∈ b.dropLast, x.eor = false) ∧
      b.getLast?.map (·.eor) = some (gather (n + 1) q).2
  | n, x :: q, _ => by
    unfold gather
    cases hx : x.eor with
    | true => simp [hx]
    | false =>
      rw [if_neg Bool.false_ne_true]
      cases n with
      | zero => simp [gather, hx]
      | succ n =>
        cases q with
        | nil => simp [gather, hx]
        | cons y q =>
          obtain ⟨hne, hlen, hle, hunmarked, hlast⟩ := gather_batch n (List.cons_ne_nil y q)
          obtain ⟨z, zs, hb⟩ := List.exists_cons_of_ne_nil hne
          simp only [List.length_cons, List.take_succ_cons]
          rw [hb] at hlen hle hunmarked hlast ⊢
          refine ⟨List.cons_ne_nil _ _, congrArg (· + 1) hlen, Nat.succ_le_succ hle, fun b hmem => ?_, ?_⟩
          · rw [List.dropLast_cons_cons] at hmem
            rcases List.mem_cons.mp hmem with rfl | hmem
            · exact hx
            · exact hunmarked b hmem
          · rw [List.getLast?_cons_cons]
            exact hlast

theorem Batch.of_take (h : o.Ready) : o.takeBatch.Batch := by
  obtain ⟨hne, hlen, hle, hunmarked, hlast⟩ := gather_batch 7 h.2
  exact ⟨hne, hle, hlen.symm, takeBatch_inflight o, hunmarked, hlast⟩

theorem Batch.same {o' : PerClientStorage} (hs : SameTx o o') (h : o.Batch) : o'.Batch := by
  constructor
  · rw [hs.txInflight]
    exact h.nonempty
  · rw [hs.txInflight]
    exact h.length
  · rw [hs.batchedSendData, hs.txInflight]
    exact h.msgIovlen
  · rw [hs.batchedSendData, hs.txInflight]
    exact h.iov
  · rw [hs.txInflight]
    exact h.unmarked
  · rw [hs.txInflight, hs.inflightEor]
    exact h.last

theorem Batched.txInv : TxInv Batched where
  same hs h := by
    refine ⟨fun hbusy => (h.busy (hs.sendInflight.symm.trans hbusy)).same hs, fun hidle => ?_⟩
    rw [hs.txInflight, hs.inflightEor]
    exact h.idle (hs.sendInflight.symm.trans hidle)
  takeBatch hready _ := ⟨fun _ => .of_take hready, fun hidle => absurd hidle (by simp [takeBatch])⟩
  rollback _ := ⟨fun hbusy => absurd hbusy (by simp [PerClientStorage.rollback]), fun _ => ⟨rfl, rfl⟩⟩
  completed {o} _ := by
    have hidle : o.onSendCompleted.2.sendInflight = false := by
      unfold onSendCompleted
      dsimp only
      split <;> rfl
    refine ⟨fun hbusy => absurd hbusy (by rw [hidle]; exact Bool.false_ne_true), fun _ => ?_⟩
    unfold onSendCompleted
    dsimp only
    split <;> exact ⟨rfl, rfl⟩

theorem Batched.append (h : o.Batched) (b : OwnedBuf) : { o with txq := o.txq ++ [b] }.Batched :=
  ⟨fun hbusy => ⟨(h.busy hbusy).nonempty, (h.busy hbusy).length, (h.busy hbusy).msgIovlen, (h.busy hbusy).iov,
    (h.busy hbusy).unmarked, (h.busy hbusy).last⟩, h.idle⟩

/-- The batch is what is being sent, and empty when nothing is. -/
theorem Batched.inflight (h : o.Batched) : o.txInflight = o.batch.getD [] := by
  unfold batch
  cases hs : o.sendInflight with
  | true => rfl
  | false => exact (h.idle hs).1

theorem Batched.queue (h : o.Batched) : o.queue = o.unsent := congrArg (· ++ o.txq) h.inflight

/-- The loop of a rollback, by indices from the back of the batch. -/
def putBack (batch q : List OwnedBuf) : List OwnedBuf :=
  (List.range batch.length).foldl (fun q i => batch[batch.length - 1 - i]?.toList ++ q) q

/-- The first `k` rounds put the last `k` buffers back. -/
theorem putBack_eq (batch q : List OwnedBuf) : putBack batch q = batch ++ q := by
  have hrounds : ∀ k ≤ batch.length, (List.range k).foldl (fun q i => batch[batch.length - 1 - i]?.toList ++ q) q =
      batch.drop (batch.length - k) ++ q := by
    intro k
    induction k with
    | zero => simp
    | succ k ih =>
      intro hk
      have hi : batch.length - (k + 1) < batch.length := by omega
      have hnext : batch.length - (k + 1) + 1 = batch.length - k := by omega
      rw [List.range_succ, List.foldl_append, ih (by omega), List.drop_eq_getElem_cons hi, hnext]
      simp [Nat.sub_sub, Nat.add_comm 1 k, List.getElem?_eq_getElem hi]
  have hall := hrounds _ le_rfl
  rwa [Nat.sub_self, List.drop_zero] at hall

theorem rollback_putBack (o : PerClientStorage) : o.rollback.txq = putBack o.txInflight o.txq := by
  rw [putBack_eq, rollback_txq]

end PerClientStorage

namespace Stream

open Worker

inductive TxAction
  /-- `txq.emplace_back`. -/
  | append (b : OwnedBuf)
  /-- `sendkick_inline`. -/
  | kick (env : Env)
  | own (a : Action)

def obj (s : Stream) : PerClientStorage := s.w.heap s.c

def appendTx (s : Stream) (b : OwnedBuf) : Stream :=
  { s with w := (s.w.modify s.c fun o => { o with txq := o.txq ++ [b] }).log (.enqueue s.c b) }

def txStep (s : Stream) : TxAction → Option Stream
  | .append b => some (s.appendTx b)
  | .kick env => ({ s.w with env := env }.sendkick s.c).map fun w' =>
    { s with w := w', outstanding := s.outstanding ++ sendsSince s.w w' }
  | .own a => s.step a

/-- A connection that nothing is being sent for, whatever is queued. -/
def Idle (s : Stream) : Prop :=
  s.w.At s.c s.fd ∧ s.obj.sendInflight = false ∧ s.obj.txInflight = [] ∧ s.obj.inflightEor = false ∧ s.outstanding = []

variable {s s' t : Stream} {a : TxAction} {ts : List (Transition Stream TxAction)} {w w' : Worker} {c : Ptr} {fd : Fd}

/-! ## The invariant -/

structure TxOk (s : Stream) : Prop where
  live : s.w.At s.c s.fd
  batched : s.obj.Batched
  outstanding : s.outstanding = [] ∨ ∃ b, s.obj.batch = some b ∧ s.outstanding = [b.map (·.wb)]

theorem Idle.txOk (h : Idle s) : s.TxOk := by
  obtain ⟨hat, hidle, hinflight, heor, hout⟩ := h
  exact ⟨hat, ⟨fun hbusy => absurd (hidle.symm.trans hbusy) Bool.false_ne_true, fun _ => ⟨hinflight, heor⟩⟩, .inl hout⟩

/-- What a step of the sending side is. -/
inductive TxStepped (s : Stream) : TxAction → Stream → Prop
  | append (b : OwnedBuf) : TxStepped s (.append b) (s.appendTx b)
  | kick {env : Env} {w' : Worker} (h : { s.w with env := env }.sendkick s.c = some w') :
      TxStepped s (.kick env) { s with w := w', outstanding := s.outstanding ++ sendsSince s.w w' }
  | handle {kind : Workflow} {cqe : Cqe} {bufPool holds : Nat → Bytes} {env : Env} {w' : Worker} (hkind : kind ≠ .send)
      (h : { s.w with bufPool := bufPool, holds := holds, env := env }.handleConn s.c s.fd kind cqe = some w') :
      TxStepped s (.own (.handle kind cqe bufPool holds env))
        { s with w := w', outstanding := s.outstanding ++ sendsSince s.w w' }
  | sent {i : Nat} {res : Int32} {env : Env} {iov : List Bytes} {w' : Worker} (hi : s.outstanding[i]? = some iov)
      (h : { s.w with env := env }.handleConn s.c s.fd .send { res := res } = some w') :
      TxStepped s (.own (.sent i res env))
        { s with
          w := w'
          outstanding := s.outstanding.eraseIdx i ++ sendsSince s.w w'
          taken := s.taken ++ iov.flatten.take res.toInt.toNat }

theorem txStep_cases (h : s.txStep a = some s') : TxStepped s a s' := by
  cases a with
  | append b =>
    cases h
    exact .append b
  | kick env =>
    obtain ⟨w', hw, rfl⟩ := Option.map_eq_some_iff.mp h
    exact .kick hw
  | own a =>
    have h : s.step a = some s' := h
    unfold step at h
    split at h
    · cases h
    · cases a with
      | handle kind cqe bufPool holds env =>
        dsimp only at h
        split at h
        · cases h
        · rename_i hkind
          obtain ⟨w', hw, h⟩ := Option.bind_eq_some_iff.mp h
          cases h
          exact .handle hkind hw
      | sent i res env =>
        obtain ⟨iov, hi, h⟩ := Option.bind_eq_some_iff.mp h
        split at h
        · obtain ⟨w', hw, h⟩ := Option.bind_eq_some_iff.mp h
          cases h
          exact .sent hi hw
        · cases h

theorem TxOk.append (h : s.TxOk) (b : OwnedBuf) : (s.appendTx b).TxOk := by
  have hobj : (s.appendTx b).obj = { s.obj with txq := s.obj.txq ++ [b] } := if_pos rfl
  refine ⟨⟨h.live.table, ?_⟩, ?_, ?_⟩
  · show (s.appendTx b).obj.fd = s.fd
    rw [hobj]
    exact h.live.obj
  · rw [hobj]
    exact h.batched.append b
  · rw [hobj]
    exact h.outstanding

/-- Whatever branch is taken for the connection, the batch stays in order. -/
theorem handleConn_batched {kind : Workflow} {cqe : Cqe} (hat : w.At c fd) (hb : (w.heap c).Batched)
    (h : w.handleConn c fd kind cqe = some w') : (w'.heap c).Batched :=
  handleConn_keeps PerClientStorage.Batched.txInv (fun _ hi => hi.append _) hat h hb

theorem sendsSince_transfers (ht : Transfers c w w') :
    sendsSince w w' = [] ∨ ∃ b, (w'.heap c).batch = some b ∧ sendsSince w w' = [b.map (·.wb)] :=
  outstanding_transfers (.inl rfl) ht

theorem TxStepped.txOk (h : TxStepped s a s') (hok : s.TxOk) : s'.TxOk := by
  obtain ⟨hat, hbatched, hout⟩ := hok
  cases h with
  | append b => exact TxOk.append ⟨hat, hbatched, hout⟩ b
  | @kick env w' hw =>
    have hat : ({ s.w with env := env } : Worker).At s.c s.fd := ⟨hat.table, hat.obj⟩
    have hp := sendkick_prims hat hw
    refine ⟨hat.prims hp, (hp.mono (Effect.Sends.keeps PerClientStorage.Batched.txInv)).keeps
      PerClientStorage.Batched.txInv hbatched, ?_⟩
    have htr := sendkick_transfers hat hw
    exact outstanding_transfers hout htr
  | @handle kind cqe bufPool holds env w' hkind hw =>
    have hat : ({ s.w with bufPool := bufPool, holds := holds, env := env } : Worker).At s.c s.fd :=
      ⟨hat.table, hat.obj⟩
    have htr := handleConn_transfers hkind hat hw
    exact ⟨hat.prims (handleConn_prims hat hw), handleConn_batched hat hbatched hw, outstanding_transfers hout htr⟩
  | @sent i res env iov w' hi hw =>
    have hat : ({ s.w with env := env } : Worker).At s.c s.fd := ⟨hat.table, hat.obj⟩
    refine ⟨hat.prims (handleConn_prims hat hw), handleConn_batched hat hbatched hw, ?_⟩
    -- the send that completes was the only one
    have herase : s.outstanding.eraseIdx i = [] := by
      rcases hout with hnil | ⟨b, -, hb⟩
      · rw [hnil]
        rfl
      · rw [hb] at hi ⊢
        obtain ⟨hlt, -⟩ := List.getElem?_eq_some_iff.mp hi
        obtain rfl : i = 0 := by simpa using hlt
        rfl
    rw [herase]
    have htr := handleSend_transfers hat hw
    split at htr
    · split at htr
      · have hout := sendsSince_transfers htr
        exact hout
      · have hout := sendsSince_transfers htr
        exact hout
    · have hout := sendsSince_transfers htr
      exact hout

theorem txOk_of_reach (h : Reach Idle txStep (fun _ _ => True) s) : s.TxOk :=
  Reach.invariant (I := TxOk) (fun _ => Idle.txOk) (fun _ _ _ hok _ h => (txStep_cases h).txOk hok) s h

/-! ## The batch in flight -/

/-- What holds of a connection at any time while it sends. -/
structure InFlight (s : Stream) : Prop where
  atMostOne : s.outstanding.length ≤ 1
  /-- A send that is outstanding is that of the batch, and its iovecs are as they were submitted. -/
  batch : ∀ iov ∈ s.outstanding, s.obj.sendInflight = true ∧ s.obj.Batch ∧ s.obj.batchedSendData.submitted = iov
  idle : s.obj.sendInflight = false → s.obj.txInflight = [] ∧ s.obj.inflightEor = false

/-- In every run of appends, flushes and completions the batch in flight is what the kernel was given. -/
theorem in_flight (h : Reach Idle txStep (fun _ _ => True) s) : s.InFlight := by
  obtain ⟨-, hbatched, hout⟩ := txOk_of_reach h
  refine ⟨?_, ?_, hbatched.idle⟩
  · rcases hout with hnil | ⟨b, -, hb⟩
    · simp [hnil]
    · simp [hb]
  · intro iov hiov
    rcases hout with hnil | ⟨b, hb, hout⟩
    · rw [hnil] at hiov
      cases hiov
    · rw [hout, List.mem_singleton] at hiov
      unfold PerClientStorage.batch at hb
      split at hb
      · rename_i hbusy
        have hbatch := hbatched.busy hbusy
        refine ⟨hbusy, hbatch, ?_⟩
        rw [hbatch.iov, hiov, ← Option.some.inj hb]
      · cases hb

theorem accepted_idle : Idle accepted := ⟨⟨rfl, rfl⟩, rfl, rfl, rfl, rfl⟩

/-- While a response is being sent, one more buffer is appended and a flush asked for. -/
theorem in_flight_responded : ∃ s, execAll txStep (fun _ _ => True)
    ((requested ++ responded).map .own ++ [.append ⟨ascii "x", true⟩, .kick {}]) accepted = some s ∧
      s.outstanding.length = 1 ∧ s.obj.txq.length = 1 ∧ s.InFlight := by
  obtain ⟨s, hs, hobs⟩ := Option.map_eq_some_iff.mp (show
    (execAll txStep (fun _ _ => True)
      ((requested ++ responded).map .own ++ [.append ⟨ascii "x", true⟩, .kick {}]) accepted).map
        (fun s => (s.outstanding.length, s.obj.txq.length)) = some (1, 1) by decide +kernel)
  simp only [Prod.mk.injEq] at hobs
  exact ⟨s, hs, hobs.1, hobs.2, in_flight (.exec (.start accepted_idle) hs)⟩

/-! ## What is to be sent -/

/-- The buffers appended from `w` to `w'`. -/
def queuedSince (c : Ptr) (w w' : Worker) : List OwnedBuf := queuedOf c (w'.trace.drop w.trace.length)

/-- What a step does to the batch and the queue. -/
def Conserved (e : Transition Stream TxAction) : Prop :=
  let o := e.before.obj
  let o' := e.after.obj
  match e.action with
  | .append b => o'.queue = o.queue ++ [b]
  | .kick _ =>
    o'.queue = o.queue ∧ (sendsSince e.before.w e.after.w = [] → o'.txInflight = o.txInflight ∧ o'.txq = o.txq)
  | .own (.handle kind _ _ _ _) =>
    o'.queue = o.queue ++ queuedSince e.before.c e.before.w e.after.w ∧
      (kind ≠ .generateResponse → queuedSince e.before.c e.before.w e.after.w = [])
  | .own (.sent _ res _) =>
    if res < 0 then
      o'.queue = o.queue ∧
        (res = -EAGAIN ∨ res = -EWOULDBLOCK → o'.txInflight = [] ∧ o'.txq = o.txInflight ++ o.txq)
    else o.queue = o.txInflight ++ o'.queue

theorem transfers_queue (hb : (w.heap c).Batched) (hb' : (w'.heap c).Batched) (h : Transfers c w w')
    {evs : List Event} (htrace : w'.trace = w.trace ++ evs) :
    (w'.heap c).queue = (w.heap c).queue ++ queuedOf c evs := by
  rw [hb'.queue, hb.queue, h.unsent htrace]

/-- Only a generated response is queued by a branch of the switch. -/
theorem handleConn_queues {kind : Workflow} {cqe : Cqe} (hkind : kind ≠ .generateResponse) (hat : w.At c fd)
    (h : w.handleConn c fd kind cqe = some w') {evs : List Event} (htrace : w'.trace = w.trace ++ evs) :
    queuedOf c evs = [] :=
  (handleConn_quiet PerClientStorage.Batched.txInv hkind hat h).queuedOf_nil id htrace

theorem sendkick_conserved (hat : w.At c fd) (hb : (w.heap c).Batched) (hb' : (w'.heap c).Batched)
    (h : w.sendkick c = some w') : (w'.heap c).queue = (w.heap c).queue ∧
      (sendsSince w w' = [] → (w'.heap c).txInflight = (w.heap c).txInflight ∧ (w'.heap c).txq = (w.heap c).txq) := by
  have htr := sendkick_transfers hat h
  obtain ⟨evs, htrace, hmove⟩ := sendkick_transfers hat h
  have hqueued := Prims.queuedOf_nil (sendkick_prims hat h) (by rintro ⟨⟩) htrace
  have hqueue := transfers_queue hb hb' htr htrace
  rw [hqueued, List.append_nil] at hqueue
  refine ⟨hqueue, fun hnone => ?_⟩
  rw [sendsSince, htrace, List.drop_left] at hnone
  rcases hmove with ⟨hbatch, htxq, -⟩ | ⟨b, -, -, -, hsends⟩
  · rw [hqueued, List.append_nil] at htxq
    exact ⟨by rw [hb'.inflight, hb.inflight, hbatch], htxq⟩
  · rw [hnone] at hsends
    cases hsends

theorem handleConn_conserved {kind : Workflow} {cqe : Cqe} (hkind : kind ≠ .send) (hat : w.At c fd)
    (hb : (w.heap c).Batched) (hb' : (w'.heap c).Batched) (h : w.handleConn c fd kind cqe = some w') :
    (w'.heap c).queue = (w.heap c).queue ++ queuedSince c w w' ∧
      (kind ≠ .generateResponse → queuedSince c w w' = []) := by
  have htr := handleConn_transfers hkind hat h
  obtain ⟨evs, htrace, -⟩ := handleConn_transfers hkind hat h
  rw [queuedSince, htrace, List.drop_left]
  exact ⟨transfers_queue hb hb' htr htrace, fun hgenerate => handleConn_queues hgenerate hat h htrace⟩

/-- A send that would block puts its batch back, and nothing more. -/
theorem handleSend_again {cqe : Cqe} (hres : cqe.res < 0) (hagain : cqe.res = -EAGAIN ∨ cqe.res = -EWOULDBLOCK)
    (hat : w.At c fd) (h : w.handleSend c fd cqe = some w') : KeepsTx (w.heap c).rollback (w'.heap c) := by
  unfold handleSend at h
  rw [if_pos hres, if_pos hagain] at h
  obtain ⟨⟨b, w₁⟩, hpoll, h⟩ := Option.bind_eq_some_iff.mp h
  cases h
  have hat₁ : (w.modify c PerClientStorage.rollback).At c fd := hat.prims rollback_prims
  have hp := ((updatePollout_prims hat₁.obj hpoll).mono Effect.Polls.quietTx).trans (submitLater_prims b)
  simpa using Prims.keepsTx (fun _ _ => id) id hp

theorem handleSend_conserved {cqe : Cqe} (hat : w.At c fd) (hb : (w.heap c).Batched) (hb' : (w'.heap c).Batched)
    (h : w.handleSend c fd cqe = some w') :
    if cqe.res < 0 then
      (w'.heap c).queue = (w.heap c).queue ∧ (cqe.res = -EAGAIN ∨ cqe.res = -EWOULDBLOCK →
        (w'.heap c).txInflight = [] ∧ (w'.heap c).txq = (w.heap c).txInflight ++ (w.heap c).txq)
    else (w.heap c).queue = (w.heap c).txInflight ++ (w'.heap c).queue := by
  obtain ⟨evs, htrace, -⟩ := (handleSend_prims hat h).trace
  have hconn : w.handleConn c fd .send cqe = some w' := h
  have hqueued := handleConn_queues (by decide) hat hconn htrace
  have htr := handleSend_transfers hat h
  split at htr
  · rename_i hneg
    rw [if_pos hneg]
    split at htr
    · rename_i hagain
      have hback := handleSend_again hneg hagain hat h
      have hinflight : (w'.heap c).txInflight = [] := by rw [hback.txInflight]; rfl
      have htxq : (w'.heap c).txq = (w.heap c).txInflight ++ (w.heap c).txq := by
        rw [hback.txq, PerClientStorage.rollback_txq]
      exact ⟨by rw [PerClientStorage.queue, hinflight, htxq]; rfl, fun _ => ⟨hinflight, htxq⟩⟩
    · rename_i hagain
      have hqueue := transfers_queue hb hb' htr htrace
      rw [hqueued, List.append_nil] at hqueue
      exact ⟨hqueue, fun h => absurd h hagain⟩
  · rename_i hneg
    rw [if_neg hneg]
    -- the batch is gone, and what is left is taken from the queue
    have hrest := Transfers.unsent htr htrace
    rw [hqueued, List.append_nil, heap_modify] at hrest
    rw [hb'.queue, hrest, PerClientStorage.unsent, onSendCompleted_batch, onSendCompleted_txq]
    rfl

theorem TxStepped.conserved (h : TxStepped s a s') (hok : s.TxOk) : Conserved ⟨s, a, s'⟩ := by
  have hb := hok.batched
  have hb' := (h.txOk hok).batched
  cases h with
  | append b =>
    have hobj : (s.appendTx b).obj = { s.obj with txq := s.obj.txq ++ [b] } := if_pos rfl
    simp [Conserved, hobj, PerClientStorage.queue]
  | @kick env w' hw =>
    have hat : ({ s.w with env := env } : Worker).At s.c s.fd := ⟨hok.live.table, hok.live.obj⟩
    have hc := sendkick_conserved hat hb hb' hw
    exact hc
  | @handle kind cqe bufPool holds env w' hkind hw =>
    have hat : ({ s.w with bufPool := bufPool, holds := holds, env := env } : Worker).At s.c s.fd :=
      ⟨hok.live.table, hok.live.obj⟩
    have hc := handleConn_conserved hkind hat hb hb' hw
    exact hc
  | @sent i res env iov w' hi hw =>
    have hat : ({ s.w with env := env } : Worker).At s.c s.fd := ⟨hok.live.table, hok.live.obj⟩
    have hc := handleSend_conserved hat hb hb' hw
    exact hc

/-- In every run the batch in flight and the queue behind it change only by a buffer appended and by a send that has
completed; what could not be sent is put back in front. -/
theorem queue_conserved (h0 : Idle s) (h : Run txStep s ts t) : ∀ e ∈ ts, Conserved e :=
  have hstep : ∀ s a s', Reach Idle txStep (fun _ _ => True) s → True → txStep s a = some s' → Conserved ⟨s, a, s'⟩ :=
    fun _ _ _ hr _ h => (txStep_cases h).conserved (txOk_of_reach hr)
  Run.forall_step hstep (.start h0) h fun _ _ => trivial

/-- A flush without a slot, a batch that is sent, a buffer appended to it, and a completion that puts the batch back. -/
def blocked : List TxAction :=
  [.append ⟨ascii "a", false⟩, .append ⟨ascii "b", true⟩, .kick { sqes := [false, true] }, .kick { sqes := [true] },
    .append ⟨ascii "c", true⟩, .own (.sent 0 (-EAGAIN) { sqes := [true] })]

theorem queue_conserved_blocked : ∃ ts t, Run txStep accepted ts t ∧ ts.map (·.action) = blocked ∧
    t.obj.txInflight = [] ∧ t.obj.txq = [⟨ascii "a", false⟩, ⟨ascii "b", true⟩, ⟨ascii "c", true⟩] ∧
    ∀ e ∈ ts, Conserved e := by
  obtain ⟨t, ht, hobs⟩ := Option.map_eq_some_iff.mp (show
    (execAll txStep (fun _ _ => True) blocked accepted).map (fun t => (t.obj.txInflight, t.obj.txq)) =
      some ([], [⟨ascii "a", false⟩, ⟨ascii "b", true⟩, ⟨ascii "c", true⟩]) by decide +kernel)
  simp only [Prod.mk.injEq] at hobs
  obtain ⟨ts, hrun, hactions, -⟩ := Run.exec ht
  exact ⟨ts, t, hrun, hactions, hobs.1, hobs.2, queue_conserved accepted_idle hrun⟩

end Stream

end IOContext
