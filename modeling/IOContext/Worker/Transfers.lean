import IOContext.Base.Sender
import IOContext.Worker.Blocks
import IOContext.Worker.Trace

/-!
# What the handlers do to the queue of a connection

Apart from the completions of sends, a branch appends buffers to `txq` and then at most takes one batch from its front,
which it submits (`handleConn_transfers`). On the side of the abstract sender these are a push and a load
(`Transfers.steps`).
-/

namespace IOContext

namespace Effect

/-- Nothing is queued or sent. -/
def QuietTx : Effect → Prop
  | .submit (.sendmsg _ _) => False
  | .enqueue => False
  | .change o o' => KeepsTx o o'
  | _ => True

theorem Posts.quietTx : ∀ e, Posts e → QuietTx e
  | _, .msg _ _ => trivial

theorem Parses.quietTx : ∀ e, Parses e → QuietTx e
  | _, .msg _ _ => trivial
  | _, .segment | _, .crash => trivial
  | _, .closing _ => ⟨rfl, rfl, rfl⟩

theorem Recvs.quietTx : ∀ e, Recvs e → QuietTx e
  | _, .multishot _ => trivial
  | _, .single _ _ => trivial
  | _, .alloc => trivial
  | _, .armed _ | _, .hold _ _ => ⟨rfl, rfl, rfl⟩

theorem Provides.quietTx : ∀ e, Provides e → QuietTx e
  | _, .provide _ _ => trivial

theorem Closes.quietTx : ∀ e, Closes e → QuietTx e
  | _, .close _ => trivial
  | _, .closing _ => ⟨rfl, rfl, rfl⟩

theorem Polls.quietTx : ∀ e, Polls e → QuietTx e
  | _, .poll _ => trivial
  | _, .armed _ => ⟨rfl, rfl, rfl⟩

end Effect

/-- The batch that is being sent. -/
def PerClientStorage.batch (o : PerClientStorage) : Option (List OwnedBuf) :=
  if o.sendInflight then some o.txInflight else none

/-- What is still to be sent: the batch that is being sent, if there is one, and the queue. -/
def PerClientStorage.unsent (o : PerClientStorage) : List OwnedBuf := o.batch.getD [] ++ o.txq

theorem KeepsTx.batch {o o' : PerClientStorage} (h : KeepsTx o o') : o'.batch = o.batch := by
  unfold PerClientStorage.batch
  rw [h.sendInflight, h.txInflight]

namespace Worker

/-- Buffers are appended to the queue, and a batch is taken from its front and submitted, or not. -/
def Transfers (c : Ptr) (w w' : Worker) : Prop :=
  ∃ evs, w'.trace = w.trace ++ evs ∧
    (((w'.heap c).batch = (w.heap c).batch ∧ (w'.heap c).txq = (w.heap c).txq ++ queuedOf c evs ∧ sendsOf evs = []) ∨
      ∃ b, (w.heap c).batch = none ∧ (w'.heap c).batch = some b ∧
        (w.heap c).txq ++ queuedOf c evs = b ++ (w'.heap c).txq ∧ sendsOf evs = [b.map (·.wb)])

variable {L : Effect → Prop} {c : Ptr} {fd : Fd} {w w' w'' : Worker}

/-- The sender that a connection is, when `done` has been sent. -/
def sender (w : Worker) (c : Ptr) (done : List OwnedBuf) : Sender OwnedBuf where
  queue := (w.heap c).txq
  batch := (w.heap c).batch
  pushed := queuedOf c w.trace
  done := done

theorem Transfers.steps (h : Transfers c w w') (done : List OwnedBuf) :
    Sender.Steps (w.sender c done) (w'.sender c done) := by
  obtain ⟨evs, htrace, ⟨hbatch, htxq, -⟩ | ⟨b, hnone, hbatch, htxq, -⟩⟩ := h
  · have hpush := Sender.Step.push (s := w.sender c done) (queuedOf c evs)
    convert Relation.ReflTransGen.single hpush using 1
    simp [sender, htrace, hbatch, htxq]
  · have hpush := Sender.Step.push (s := w.sender c done) (queuedOf c evs)
    have hload : Sender.Step { w.sender c done with
        queue := (w.sender c done).queue ++ queuedOf c evs, pushed := (w.sender c done).pushed ++ queuedOf c evs } _ :=
      .load hnone htxq
    convert (Relation.ReflTransGen.single hpush).tail hload using 1
    simp [sender, htrace, hbatch]

/-- What is to be sent grows by what is queued. -/
theorem Transfers.unsent (h : Transfers c w w') {evs : List Event} (htrace : w'.trace = w.trace ++ evs) :
    (w'.heap c).unsent = (w.heap c).unsent ++ queuedOf c evs := by
  obtain ⟨evs', htrace', h⟩ := h
  obtain rfl : evs' = evs := List.append_cancel_left (htrace'.symm.trans htrace)
  unfold PerClientStorage.unsent
  rcases h with ⟨hbatch, htxq, -⟩ | ⟨b, hnone, hbatch, htxq, -⟩
  · rw [hbatch, htxq, List.append_assoc]
  · rw [hnone, hbatch]
    exact htxq.symm

theorem Transfers.refl (c : Ptr) (w : Worker) : Transfers c w w :=
  ⟨[], by simp, .inl ⟨rfl, by simp [queuedOf], rfl⟩⟩

theorem Transfers.trans (h : Transfers c w w') (h' : Transfers c w' w'') : Transfers c w w'' := by
  obtain ⟨evs, htrace, h⟩ := h
  obtain ⟨evs', htrace', h'⟩ := h'
  refine ⟨evs ++ evs', by rw [htrace', htrace, List.append_assoc], ?_⟩
  rw [queuedOf_append, sendsOf_append]
  rcases h with ⟨hb, hq, hs⟩ | ⟨b, hn, hb, hq, hs⟩ <;> rcases h' with ⟨hb', hq', hs'⟩ | ⟨b', hn', hb', hq', hs'⟩
  · exact .inl ⟨hb'.trans hb, by rw [hq', hq, List.append_assoc], by rw [hs, hs']; rfl⟩
  · exact .inr ⟨b', by rw [← hb, hn'], hb', by rw [← hq', hq, List.append_assoc], by rw [hs, hs']; rfl⟩
  · refine .inr ⟨b, hn, hb'.trans hb, ?_, by rw [hs, hs']; rfl⟩
    rw [hq', ← List.append_assoc, hq, List.append_assoc]
  · rw [hb] at hn'
    cases hn'

/-- A sequence that queues nothing. -/
theorem Prims.queuedOf_nil (h : Prims L c fd w w') (henqueue : ¬L .enqueue) {evs : List Event}
    (htrace : w'.trace = w.trace ++ evs) : queuedOf c evs = [] := by
  obtain ⟨evs', htrace', hev⟩ := h.trace
  obtain rfl : evs' = evs := List.append_cancel_left (htrace'.symm.trans htrace)
  refine List.filterMap_eq_nil_iff.mpr fun e he => ?_
  cases e with
  | enqueue => exact absurd (hev _ he).1 henqueue
  | sqe | segment | invoke => rfl

/-- A sequence that neither queues nor sends. -/
theorem Prims.transfers (h : Prims Effect.QuietTx c fd w w') : Transfers c w w' := by
  have htx := h.keepsTx (fun _ _ => id) id
  obtain ⟨evs, htrace, hev⟩ := h.trace
  refine ⟨evs, htrace, .inl ⟨htx.batch, ?_, ?_⟩⟩
  · rw [htx.txq, h.queuedOf_nil id htrace, List.append_nil]
  · refine List.filterMap_eq_nil_iff.mpr fun e he => ?_
    have hop := (hev _ (mem_sqesOf.mp he)).1
    split
    · rename_i hsend
      rw [hsend] at hop
      exact hop.elim
    · rfl

/-! ## Flushes -/

mutual

theorem flushTask_transfers : ∀ {sqes : List Bool} {w : Worker}, w.At c fd →
    w.postTask fd .requestFlush sqes = some w' → Transfers c w w'
  | true :: sqes, w, hat, h => by
    simp only [postTask, hat.table, Option.some.injEq] at h
    subst h
    have hp : Prims Effect.QuietTx c fd w _ :=
      (withSqes_prims sqes).tail
        (.submit (show Effect.QuietTx (.submit (.msgRing fd .requestFlush)) from trivial) (.own rfl trivial))
    exact Prims.transfers (hp.tail (.quiet ..))
  | false :: sqes, w, hat, h => by
    simp only [postTask, if_true, hat.table] at h
    exact sendkickInline_transfers hat h

theorem sendkickInline_transfers : ∀ {sqes : List Bool} {w : Worker}, w.At c fd →
    w.sendkickInline c sqes = some w' → Transfers c w w'
  | sqes, w, hat, h => by
    rw [sendkickInline] at h
    split at h
    · cases h
      have hp : Prims Effect.QuietTx c fd w (w.withSqes sqes) := withSqes_prims sqes
      exact hp.transfers
    · rename_i hready
      have hready := PerClientStorage.ready_iff.mpr hready
      have hidle := hready.1
      match sqes, h with
      | true :: sqes, h =>
        cases h
        refine ⟨[.sqe _], rfl, .inr ⟨(w.heap c).takeBatch.txInflight, ?_, ?_, ?_, ?_⟩⟩
        · simp [PerClientStorage.batch, hidle]
        · simp [PerClientStorage.batch, PerClientStorage.takeBatch]
        · simp [PerClientStorage.takeBatch, queuedOf]
        · rw [← PerClientStorage.takeBatch_inflight]
          simp [sendsOf, sqesOf]
      | false :: sqes, h =>
        simp only [heap_modify] at h
        have hback : Prims Effect.Sends c fd w _ := (takeBatch_prims hready).trans rollback_prims
        have hfd : (w.heap c).takeBatch.rollback.fd = fd := hat.obj
        rw [hfd] at h
        -- the batch goes back to where it came from
        have hkeep : Transfers c w ((w.modify c PerClientStorage.takeBatch).modify c PerClientStorage.rollback) := by
          refine ⟨[], (List.append_nil _).symm, .inl ⟨?_, ?_, rfl⟩⟩
          · simp [PerClientStorage.batch, PerClientStorage.rollback, hidle]
          · simp [PerClientStorage.takeBatch, queuedOf]
        exact hkeep.trans (flushTask_transfers (hat.prims hback) h)

end

theorem sendkick_transfers (hat : w.At c fd) (h : w.sendkick c = some w') : Transfers c w w' :=
  sendkickInline_transfers hat h

/-! ## Receives -/

theorem parseAndKick_transfers (hat : w.At c fd) (h : w.parseAndKick c = some w') : Transfers c w w' := by
  obtain ⟨w₁, hparse, h⟩ := Option.bind_eq_some_iff.mp h
  have hp := parseStep_prims hat hparse
  refine (Prims.transfers (hp.mono Effect.Parses.quietTx)).trans ?_
  split at h
  · cases h
    exact .refl ..
  · split at h
    · exact sendkick_transfers (hat.prims hp) h
    · cases h
      exact .refl ..

theorem restartRecv_transfers (hobj : (w.heap c).fd = fd) (h : w.restartRecv c = some w') : Transfers c w w' :=
  Prims.transfers ((restartRecv_prims hobj h).mono Effect.Recvs.quietTx)

theorem closeConn_transfers (hat : w.At c fd) (h : w.closeConn c fd = some w') : Transfers c w w' :=
  Prims.transfers ((closeConn_prims hat h).mono Effect.Closes.quietTx)

/-- A change that keeps what sends depend on. -/
theorem change_prims {f : PerClientStorage → PerClientStorage} (htx : KeepsTx (w.heap c) (f (w.heap c)))
    (hfd : (f (w.heap c)).fd = (w.heap c).fd) (hparser : (f (w.heap c)).parser = (w.heap c).parser)
    (hclosing : (w.heap c).closing = true → (f (w.heap c)).closing = true) :
    Prims Effect.QuietTx c fd w (w.modify c f) := .single (.change f htx hfd hparser hclosing)

theorem recvFailed_transfers {res : Int32} (hat : w.At c fd) (h : w.recvFailed c fd res = some w') :
    Transfers c w w' := by
  have hdisarm : Prims Effect.QuietTx c fd w (w.modify c fun o => { o with msRecvArmed := false }) :=
    change_prims ⟨rfl, rfl, rfl⟩ rfl rfl id
  unfold recvFailed at h
  dsimp only at h
  split at h
  · have hoff := hdisarm.tail (.msRecvOff trivial)
    exact (Prims.transfers hoff).trans (restartRecv_transfers (hat.prims hoff).obj h)
  · exact (Prims.transfers hdisarm).trans (closeConn_transfers (hat.prims hdisarm) h)

theorem recvProvided_transfers {bid : Nat} {cqe : Cqe} (hat : w.At c fd) (h : w.recvProvided c bid cqe = some w') :
    Transfers c w w' := by
  obtain ⟨w₁, w₂, hback, hkick, h⟩ := recvProvided_cases h
  have hpush : Prims Effect.QuietTx c fd w (w.pushSegment c ((w.bufPool bid).take cqe.res.toInt.toNat)) :=
    change_prims ⟨rfl, rfl, rfl⟩ rfl rfl id
  have hp₁ := hpush.trans ((returnBuffer_prims hback).mono Effect.Provides.quietTx)
  have hat₂ := (hat.prims hp₁).prims (parseAndKick_prims (hat.prims hp₁) hkick)
  refine (Prims.transfers hp₁).trans ((parseAndKick_transfers (hat.prims hp₁) hkick).trans ?_)
  obtain ⟨-, rfl⟩ | ⟨-, h⟩ := h
  · exact .refl ..
  · have hdisarm : Prims Effect.QuietTx c fd w₂ (w₂.modify c fun o => { o with msRecvArmed := false }) :=
      change_prims ⟨rfl, rfl, rfl⟩ rfl rfl id
    exact (Prims.transfers hdisarm).trans (restartRecv_transfers (hat₂.prims hdisarm).obj h)

theorem recvHold_transfers {cqe : Cqe} (hat : w.At c fd) (h : w.recvHold c cqe = some w') : Transfers c w w' := by
  obtain ⟨-, rfl⟩ | ⟨hold, w₁, -, hkick, h⟩ := recvHold_cases h
  · exact .refl ..
  · have htake : Prims Effect.QuietTx c fd w (w.modify c fun o => { o with rxHold := none }) :=
      change_prims ⟨rfl, rfl, rfl⟩ rfl rfl id
    have hpush : Prims Effect.QuietTx c fd (w.modify c fun o => { o with rxHold := none })
        ((w.modify c fun o => { o with rxHold := none }).pushSegment c ((w.holds hold).take cqe.res.toInt.toNat)) :=
      change_prims ⟨rfl, rfl, rfl⟩ rfl rfl id
    have hp₁ := htake.trans hpush
    have hat₂ := (hat.prims hp₁).prims (parseAndKick_prims (hat.prims hp₁) hkick)
    refine (Prims.transfers hp₁).trans ((parseAndKick_transfers (hat.prims hp₁) hkick).trans ?_)
    obtain ⟨-, rfl⟩ | ⟨-, h⟩ := h
    · exact .refl ..
    · exact restartRecv_transfers hat₂.obj h

theorem handleRecv_transfers {cqe : Cqe} (hat : w.At c fd) (h : w.handleRecv c fd cqe = some w') :
    Transfers c w w' := by
  obtain ⟨-, h⟩ | ⟨-, bid, -, -, h⟩ | ⟨-, -, h⟩ := handleRecv_cases h
  · exact recvFailed_transfers hat h
  · exact recvProvided_transfers hat h
  · exact recvHold_transfers hat h

/-! ## Responses -/

theorem enqueueAll_transfers (w : Worker) (c : Ptr) (bufs : List OwnedBuf) : Transfers c w (w.enqueueAll c bufs) := by
  obtain ⟨-, htrace, hobj⟩ := enqueueAll_eq w c bufs
  refine ⟨bufs.map (.enqueue c), htrace, .inl ⟨by rw [hobj]; rfl, ?_, ?_⟩⟩
  · rw [hobj]
    simp [queuedOf, List.filterMap_map]
  · simp [sendsOf, sqesOf, List.filterMap_map]

theorem generateResponse_transfers (hat : w.At c fd) (h : w.generateResponse c = some w') : Transfers c w w' := by
  unfold generateResponse at h
  split at h
  · cases h
    exact .refl ..
  · rename_i hd _
    have hinv : Prims Effect.QuietTx c fd w (w.invokeHandler c hd) := .single (.invoke trivial hd _)
    have hqueue : Prims Effect.Responds c fd (w.invokeHandler c hd) _ :=
      enqueueAll_prims .enqueue (PerClientStorage.responseBufs ((w.invokeHandler c hd).heap c).parser.res)
    have hat₁ := (hat.prims hinv).prims hqueue
    unfold post at h
    dsimp only at h
    rw [hat₁.obj] at h
    exact ((Prims.transfers hinv).trans (enqueueAll_transfers ..)).trans (flushTask_transfers hat₁ h)

/-! ## The branches -/

/-- A completion of another kind than `send`. -/
theorem handleConn_transfers {kind : Workflow} {cqe : Cqe} (hkind : kind ≠ .send) (hat : w.At c fd)
    (h : w.handleConn c fd kind cqe = some w') : Transfers c w w' := by
  unfold handleConn at h
  cases kind with
  | recv => exact handleRecv_transfers hat h
  | send => exact absurd rfl hkind
  | pollOut =>
    have hp : Prims Effect.QuietTx c fd w (w.modify c fun o => { o with polloutArmed := false }) :=
      change_prims ⟨rfl, rfl, rfl⟩ rfl rfl id
    exact (Prims.transfers hp).trans (sendkick_transfers (hat.prims hp) h)
  | parse => exact Prims.transfers ((parseStep_prims hat h).mono Effect.Parses.quietTx)
  | findHandler =>
    cases h
    have hp : Prims Effect.QuietTx c fd w (w.modify c fun o => o.findHandler w.routes) := by
      refine change_prims ⟨?_, ?_, ?_⟩ ?_ ?_ ?_ <;> unfold PerClientStorage.findHandler <;> split <;> simp
    exact hp.transfers
  | requestFlush =>
    have hp : Prims Effect.QuietTx c fd w (w.modify c fun o => { o with sendkickPending := false }) :=
      change_prims ⟨rfl, rfl, rfl⟩ rfl rfl id
    exact (Prims.transfers hp).trans (sendkick_transfers (hat.prims hp) h)
  | generateResponse => exact generateResponse_transfers hat h
  | requestClose => exact closeConn_transfers hat h
  | accept | closed | freeBuffer =>
    cases h
    exact .refl ..

/-- A completed send: the batch is done, goes back or stays, and then the next one may be sent. -/
theorem handleSend_transfers {cqe : Cqe} (hat : w.At c fd) (h : w.handleSend c fd cqe = some w') :
    if cqe.res < 0 then
      if cqe.res = -EAGAIN ∨ cqe.res = -EWOULDBLOCK then Transfers c (w.modify c PerClientStorage.rollback) w'
      else Transfers c w w'
    else Transfers c (w.modify c fun _ => (w.heap c).onSendCompleted.2) w' := by
  unfold handleSend at h
  split at h
  · rename_i hneg
    rw [if_pos hneg]
    split at h
    · rename_i hagain
      rw [if_pos hagain]
      obtain ⟨⟨b, w₁⟩, hpoll, h⟩ := Option.bind_eq_some_iff.mp h
      cases h
      have hat₁ : (w.modify c PerClientStorage.rollback).At c fd := hat.prims rollback_prims
      have hpoll := (updatePollout_prims hat₁.obj hpoll).mono Effect.Polls.quietTx
      exact Prims.transfers (hpoll.trans (submitLater_prims b))
    · rename_i hagain
      rw [if_neg hagain]
      exact closeConn_transfers hat h
  · rename_i hneg
    rw [if_neg hneg]
    have hp : Prims (fun _ => True) c fd w (w.modify c fun _ => (w.heap c).onSendCompleted.2) :=
      .single (.change _ trivial (onSendCompleted_fd _) (onSendCompleted_parsed _)
        fun hc => (onSendCompleted_closing _).trans hc)
    dsimp only at h
    split at h
    · exact closeConn_transfers (hat.prims hp) h
    · exact sendkick_transfers (hat.prims hp) h

end Worker

end IOContext
