import IOContext.Routing
import IOContext.Worker.Transfers

/-!
# A wake-up for every queue

A connection with buffers in its queue waits for the completion of a send, for a `PollOut` or for a `RequestFlush` that
it has posted.

- A flush sends, or posts a `RequestFlush` (`sendkick_leaves`); the branches that queue buffers end with one, and the
  others leave what they find (`handleConn_leaves`).
- A send that completes with `EAGAIN` puts its batch back, and then the only wake-up may be the `PollOut` that
  `update_pollout` posts. In a run in which this one gets its slot where it is needed, no queue of a connection that is
  not closing is left without a wake-up (`no_stall`).
-/

namespace IOContext

def Op.IsSend : Op → Prop
  | .sendmsg _ _ => True
  | _ => False

def Op.IsPoll : Op → Prop
  | .pollAdd _ => True
  | _ => False

/-- After its completion `sendkick_inline` may be called again. -/
def Op.Wakes : Op → Prop
  | .sendmsg _ _ | .pollAdd _ => True
  | .msgRing _ kind => kind = .requestFlush
  | _ => False

instance : DecidablePred Op.IsSend
  | .sendmsg _ _ => isTrue trivial
  | .provideBuffers _ _ | .accept _ | .multishotAccept _ | .recvMultishot _ | .recv _ _ | .close _ | .pollAdd _
  | .msgRing _ _ => isFalse id

instance : DecidablePred Op.IsPoll
  | .pollAdd _ => isTrue trivial
  | .provideBuffers _ _ | .accept _ | .multishotAccept _ | .recvMultishot _ | .recv _ _ | .close _ | .sendmsg _ _
  | .msgRing _ _ => isFalse id

instance : DecidablePred Op.Wakes
  | .sendmsg _ _ | .pollAdd _ => isTrue trivial
  | .msgRing _ kind => inferInstanceAs (Decidable (kind = _))
  | .provideBuffers _ _ | .accept _ | .multishotAccept _ | .recvMultishot _ | .recv _ _ | .close _ => isFalse id

namespace Effect

/-- Nothing is queued, and what the sends of the connection depend on is kept. -/
def StillTx : Effect → Prop
  | .enqueue => False
  | .change o o' => KeepsTx o o' ∧ o'.polloutArmed = o.polloutArmed
  | _ => True

theorem Parses.stillTx : ∀ e, Parses e → StillTx e
  | _, .msg _ _ => trivial
  | _, .segment | _, .crash => trivial
  | _, .closing _ => ⟨⟨rfl, rfl, rfl⟩, rfl⟩

theorem Recvs.stillTx : ∀ e, Recvs e → StillTx e
  | _, .multishot _ => trivial
  | _, .single _ _ => trivial
  | _, .alloc => trivial
  | _, .armed _ | _, .hold _ _ => ⟨⟨rfl, rfl, rfl⟩, rfl⟩

theorem Provides.stillTx : ∀ e, Provides e → StillTx e
  | _, .provide _ _ => trivial

theorem Closes.stillTx : ∀ e, Closes e → StillTx e
  | _, .close _ => trivial
  | _, .closing _ => ⟨⟨rfl, rfl, rfl⟩, rfl⟩

end Effect

namespace Worker

variable {L : Effect → Prop} {c q : Ptr} {fd : Fd} {w w' w'' : Worker} {P Q : Prop}

/-- What a branch leaves behind: a send or poll that it marks has been submitted, and so has a wake-up for the queue,
unless `P` holds. -/
structure Leaves (c : Ptr) (P : Prop) (evs : List Event) (o o' : PerClientStorage) : Prop where
  sending : o.sendInflight = true → o'.sendInflight = true
  send : o'.sendInflight = true → o.sendInflight = true ∨ ∃ e ∈ sqesOf evs, e.owner = some c ∧ e.op.IsSend
  poll : o'.polloutArmed = true → o.polloutArmed = true ∨ ∃ e ∈ sqesOf evs, e.owner = some c ∧ e.op.IsPoll
  queue : o'.txq ≠ [] → P ∨ o'.sendInflight = true ∨ ∃ e ∈ sqesOf evs, e.owner = some c ∧ e.op.Wakes

/-- The branch leaves behind what is needed, but for what `P` stands for. -/
def LeavesWakeup (c : Ptr) (P : Prop) (w w' : Worker) : Prop :=
  ∃ evs, w'.trace = w.trace ++ evs ∧ Leaves c P evs (w.heap c) (w'.heap c)

/-- The queue is not empty. -/
def Queued (w : Worker) (c : Ptr) : Prop := (w.heap c).txq ≠ []

theorem LeavesWakeup.mono (h : LeavesWakeup c P w w') (hPQ : P → Q) : LeavesWakeup c Q w w' := by
  obtain ⟨evs, htrace, h⟩ := h
  exact ⟨evs, htrace, h.sending, h.send, h.poll, fun hq => (h.queue hq).imp hPQ id⟩

theorem mem_sqesOf_append {evs evs' : List Event} {p : Sqe → Prop} :
    (∃ e ∈ sqesOf (evs ++ evs'), p e) ↔ (∃ e ∈ sqesOf evs, p e) ∨ ∃ e ∈ sqesOf evs', p e := by
  simp only [sqesOf_append, List.mem_append, or_and_right, exists_or]

/-- One branch after another: a wake-up is missing if neither has left one. -/
theorem LeavesWakeup.trans (h : LeavesWakeup c P w w') (h' : LeavesWakeup c Q w' w'') (hQ : Q → w'.Queued c) :
    LeavesWakeup c (P ∧ Q) w w'' := by
  obtain ⟨evs, htrace, h⟩ := h
  obtain ⟨evs', htrace', h'⟩ := h'
  refine ⟨evs ++ evs', by rw [htrace', htrace, List.append_assoc], fun hs => h'.sending (h.sending hs), fun hs => ?_,
    fun hp => ?_, fun hq => ?_⟩
  · rw [mem_sqesOf_append]
    rcases h'.send hs with hs | hnew
    · exact (h.send hs).imp id .inl
    · exact .inr (.inr hnew)
  · rw [mem_sqesOf_append]
    rcases h'.poll hp with hp | hnew
    · exact (h.poll hp).imp id .inl
    · exact .inr (.inr hnew)
  · rw [mem_sqesOf_append]
    rcases h'.queue hq with hQ' | hs | hnew
    · rcases h.queue (hQ hQ') with hP | hs | hnew
      · exact .inl ⟨hP, hQ'⟩
      · exact .inr (.inl (h'.sending hs))
      · exact .inr (.inr (.inl hnew))
    · exact .inr (.inl hs)
    · exact .inr (.inr (.inr hnew))

/-- A flush makes good what has been queued before it. -/
theorem LeavesWakeup.flush (h : LeavesWakeup c P w w') (h' : LeavesWakeup c False w' w'') :
    LeavesWakeup c False w w'' := (h.trans h' False.elim).mono And.right

/-! ## Branches that queue nothing -/

/-- A sequence that keeps what sends depend on. -/
theorem Prims.leaves (h : Prims Effect.StillTx c fd w w') : LeavesWakeup c (w.Queued c) w w' := by
  obtain ⟨evs, htrace, -⟩ := h.trace
  have htx := h.keepsTx (fun _ _ h => h.1) id
  have hpoll : (w'.heap c).polloutArmed = (w.heap c).polloutArmed :=
    h.lift (R := fun w w' => (w'.heap c).polloutArmed = (w.heap c).polloutArmed) (fun _ => rfl)
      (fun _ _ _ h h' => h'.trans h) fun w w' h => by
        cases h with
        | change f hL => simpa using hL.2
        | enqueue hL => exact hL.elim
        | segment | invoke => simp
        | quiet | crash | alloc | msRecvOff | acceptMode | submit => rfl
  exact ⟨evs, htrace, by rw [htx.sendInflight]; exact id, by rw [htx.sendInflight]; exact .inl,
    by rw [hpoll]; exact .inl,
    by rw [htx.txq]; exact .inl⟩

theorem LeavesWakeup.tail (h : LeavesWakeup c P w w') (h' : Prims Effect.StillTx c fd w' w'') :
    LeavesWakeup c P w w'' := (h.trans h'.leaves id).mono And.left

theorem LeavesWakeup.head (h : Prims Effect.StillTx c fd w w') (h' : LeavesWakeup c (w'.Queued c) w' w'') :
    LeavesWakeup c (w.Queued c) w w'' := (h.leaves.trans h' id).mono And.left

/-! ## Flushes -/

mutual

theorem flushTask_leaves : ∀ {sqes : List Bool} {w : Worker}, w.At c fd →
    w.postTask fd .requestFlush sqes = some w' → LeavesWakeup c False w w'
  | true :: sqes, w, hat, h => by
    simp only [postTask, hat.table, Option.some.injEq] at h
    subst h
    refine ⟨[.sqe _], rfl, id, .inl, .inl, fun _ => .inr (.inr ⟨_, List.mem_singleton.mpr rfl, rfl, rfl⟩)⟩
  | false :: sqes, w, hat, h => by
    simp only [postTask, if_true, hat.table] at h
    exact sendkickInline_leaves hat h

/-- A flush sends, or posts another one. -/
theorem sendkickInline_leaves : ∀ {sqes : List Bool} {w : Worker}, w.At c fd →
    w.sendkickInline c sqes = some w' → LeavesWakeup c False w w'
  | sqes, w, hat, h => by
    rw [sendkickInline] at h
    split at h
    · rename_i hidle
      cases h
      refine ⟨[], (List.append_nil _).symm, id, .inl, .inl, fun hq => .inr (.inl ?_)⟩
      simp only [Bool.or_eq_true, List.isEmpty_iff] at hidle
      exact hidle.resolve_right hq
    · rename_i hready
      have hidle : (w.heap c).sendInflight ≠ true := fun h => hready (by rw [h]; rfl)
      match sqes, h with
      | true :: sqes, h =>
        cases h
        refine ⟨[.sqe _], rfl, fun h => absurd h hidle, fun _ => .inr ⟨_, List.mem_singleton.mpr rfl, rfl, trivial⟩,
          fun hp => .inl ?_, fun _ => .inr (.inl ?_)⟩
        · simpa [PerClientStorage.takeBatch] using hp
        · simp [PerClientStorage.takeBatch]
      | false :: sqes, h =>
        simp only [heap_modify] at h
        have hback : Prims Effect.Sends c fd w _ :=
          (takeBatch_prims (PerClientStorage.ready_iff.mpr hready)).trans rollback_prims
        have hfd : (w.heap c).takeBatch.rollback.fd = fd := hat.obj
        rw [hfd] at h
        -- the batch goes back to where it came from
        have hkeep : LeavesWakeup c (w.Queued c) w
            ((w.modify c PerClientStorage.takeBatch).modify c PerClientStorage.rollback) := by
          refine ⟨[], (List.append_nil _).symm, fun h => absurd h hidle, fun h => ?_, fun hp => .inl ?_,
            fun hq => .inl ?_⟩
          · simp [PerClientStorage.rollback] at h
          · simpa [PerClientStorage.takeBatch, PerClientStorage.rollback] using hp
          · simpa [Queued, PerClientStorage.takeBatch] using hq
        exact hkeep.flush (flushTask_leaves (hat.prims hback) h)

end

theorem sendkick_leaves (hat : w.At c fd) (h : w.sendkick c = some w') : LeavesWakeup c False w w' :=
  sendkickInline_leaves hat h

/-! ## The branches -/

/-- A change that keeps what sends depend on. -/
theorem change_still {f : PerClientStorage → PerClientStorage}
    (htx : KeepsTx (w.heap c) (f (w.heap c)) ∧ (f (w.heap c)).polloutArmed = (w.heap c).polloutArmed)
    (hfd : (f (w.heap c)).fd = (w.heap c).fd) (hparser : (f (w.heap c)).parser = (w.heap c).parser)
    (hclosing : (w.heap c).closing = true → (f (w.heap c)).closing = true) :
    Prims Effect.StillTx c fd w (w.modify c f) := .single (.change f htx hfd hparser hclosing)

theorem parseAndKick_leaves (hat : w.At c fd) (h : w.parseAndKick c = some w') :
    LeavesWakeup c (w.Queued c) w w' := by
  obtain ⟨w₁, hparse, h⟩ := Option.bind_eq_some_iff.mp h
  have hp := (parseStep_prims hat hparse).mono Effect.Parses.stillTx
  split at h
  · cases h
    exact hp.leaves
  · split at h
    · exact .head hp ((sendkick_leaves (hat.prims hp) h).mono False.elim)
    · cases h
      exact hp.leaves

theorem restartRecv_leaves (hobj : (w.heap c).fd = fd) (h : w.restartRecv c = some w') :
    LeavesWakeup c (w.Queued c) w w' := Prims.leaves ((restartRecv_prims hobj h).mono Effect.Recvs.stillTx)

theorem closeConn_leaves (hat : w.At c fd) (h : w.closeConn c fd = some w') : LeavesWakeup c (w.Queued c) w w' :=
  Prims.leaves ((closeConn_prims hat h).mono Effect.Closes.stillTx)

theorem recvFailed_leaves {res : Int32} (hat : w.At c fd) (h : w.recvFailed c fd res = some w') :
    LeavesWakeup c (w.Queued c) w w' := by
  have hdisarm : Prims Effect.StillTx c fd w (w.modify c fun o => { o with msRecvArmed := false }) :=
    change_still ⟨⟨rfl, rfl, rfl⟩, rfl⟩ rfl rfl id
  unfold recvFailed at h
  dsimp only at h
  split at h
  · have hoff := hdisarm.tail (.msRecvOff trivial)
    exact .head hoff (restartRecv_leaves (hat.prims hoff).obj h)
  · exact .head hdisarm (closeConn_leaves (hat.prims hdisarm) h)

theorem recvProvided_leaves {bid : Nat} {cqe : Cqe} (hat : w.At c fd) (h : w.recvProvided c bid cqe = some w') :
    LeavesWakeup c (w.Queued c) w w' := by
  obtain ⟨w₁, w₂, hback, hkick, h⟩ := recvProvided_cases h
  have hpush : Prims Effect.StillTx c fd w (w.pushSegment c ((w.bufPool bid).take cqe.res.toInt.toNat)) :=
    change_still ⟨⟨rfl, rfl, rfl⟩, rfl⟩ rfl rfl id
  have hp₁ := hpush.trans ((returnBuffer_prims hback).mono Effect.Provides.stillTx)
  have hat₂ := (hat.prims hp₁).prims (parseAndKick_prims (hat.prims hp₁) hkick)
  have hkicked := LeavesWakeup.head hp₁ (parseAndKick_leaves (hat.prims hp₁) hkick)
  obtain ⟨-, rfl⟩ | ⟨-, h⟩ := h
  · exact hkicked
  · have hdisarm : Prims Effect.StillTx c fd w₂ (w₂.modify c fun o => { o with msRecvArmed := false }) :=
      change_still ⟨⟨rfl, rfl, rfl⟩, rfl⟩ rfl rfl id
    have hrestart := (restartRecv_prims (hat₂.prims hdisarm).obj h).mono Effect.Recvs.stillTx
    exact hkicked.tail (hdisarm.trans hrestart)

theorem recvHold_leaves {cqe : Cqe} (hat : w.At c fd) (h : w.recvHold c cqe = some w') :
    LeavesWakeup c (w.Queued c) w w' := by
  obtain ⟨-, rfl⟩ | ⟨hold, w₂, -, hkick, h⟩ := recvHold_cases h
  · have hnone : Prims Effect.StillTx c fd w' w' := .refl
    exact hnone.leaves
  · have htake : Prims Effect.StillTx c fd w (w.modify c fun o => { o with rxHold := none }) :=
      change_still ⟨⟨rfl, rfl, rfl⟩, rfl⟩ rfl rfl id
    have hpush : Prims Effect.StillTx c fd (w.modify c fun o => { o with rxHold := none })
        ((w.modify c fun o => { o with rxHold := none }).pushSegment c ((w.holds hold).take cqe.res.toInt.toNat)) :=
      change_still ⟨⟨rfl, rfl, rfl⟩, rfl⟩ rfl rfl id
    have hp₁ := htake.trans hpush
    have hat₂ := (hat.prims hp₁).prims (parseAndKick_prims (hat.prims hp₁) hkick)
    have hkicked := LeavesWakeup.head hp₁ (parseAndKick_leaves (hat.prims hp₁) hkick)
    obtain ⟨-, rfl⟩ | ⟨-, h⟩ := h
    · exact hkicked
    · exact hkicked.tail ((restartRecv_prims hat₂.obj h).mono Effect.Recvs.stillTx)

theorem handleRecv_leaves {cqe : Cqe} (hat : w.At c fd) (h : w.handleRecv c fd cqe = some w') :
    LeavesWakeup c (w.Queued c) w w' := by
  obtain ⟨-, h⟩ | ⟨-, bid, -, -, h⟩ | ⟨-, -, h⟩ := handleRecv_cases h
  · exact recvFailed_leaves hat h
  · exact recvProvided_leaves hat h
  · exact recvHold_leaves hat h

theorem generateResponse_leaves (hat : w.At c fd) (h : w.generateResponse c = some w') :
    LeavesWakeup c (w.Queued c) w w' := by
  unfold generateResponse at h
  split at h
  · cases h
    have hnone : Prims Effect.StillTx c fd w w := .refl
    exact hnone.leaves
  · rename_i hd _
    have hinv : Prims Effect.StillTx c fd w (w.invokeHandler c hd) := .single (.invoke trivial hd _)
    have hat₁ := hat.prims hinv
    unfold post at h
    dsimp only at h
    obtain ⟨-, htrace, hobj⟩ := enqueueAll_eq (w.invokeHandler c hd) c
      (PerClientStorage.responseBufs ((w.invokeHandler c hd).heap c).parser.res)
    have hat₂ := hat₁.prims (enqueueAll_prims (L := fun _ => True) trivial
      (PerClientStorage.responseBufs ((w.invokeHandler c hd).heap c).parser.res))
    rw [hat₂.obj] at h
    -- the buffers are queued, and the flush sees to them
    have hqueue : LeavesWakeup c True (w.invokeHandler c hd) ((w.invokeHandler c hd).enqueueAll c
        (PerClientStorage.responseBufs ((w.invokeHandler c hd).heap c).parser.res)) :=
      ⟨_, htrace, by rw [hobj]; exact id, by rw [hobj]; exact .inl, by rw [hobj]; exact .inl, fun _ => .inl trivial⟩
    exact .head hinv ((hqueue.flush (flushTask_leaves hat₂ h)).mono False.elim)

/-- The branches that are neither a send's nor a poll's. -/
theorem handleConn_leaves {kind : Workflow} {cqe : Cqe} (hsend : kind ≠ .send) (hpoll : kind ≠ .pollOut)
    (hat : w.At c fd) (h : w.handleConn c fd kind cqe = some w') : LeavesWakeup c (w.Queued c) w w' := by
  unfold handleConn at h
  cases kind with
  | recv => exact handleRecv_leaves hat h
  | send => exact absurd rfl hsend
  | pollOut => exact absurd rfl hpoll
  | parse => exact Prims.leaves ((parseStep_prims hat h).mono Effect.Parses.stillTx)
  | findHandler =>
    cases h
    have hp : Prims Effect.StillTx c fd w (w.modify c fun o => o.findHandler w.routes) := by
      refine change_still ⟨⟨?_, ?_, ?_⟩, ?_⟩ ?_ ?_ ?_ <;> unfold PerClientStorage.findHandler <;> split <;> simp
    exact hp.leaves
  | requestFlush =>
    have hp : Prims Effect.StillTx c fd w (w.modify c fun o => { o with sendkickPending := false }) :=
      change_still ⟨⟨rfl, rfl, rfl⟩, rfl⟩ rfl rfl id
    exact .head hp ((sendkick_leaves (hat.prims hp) h).mono False.elim)
  | generateResponse => exact generateResponse_leaves hat h
  | requestClose => exact closeConn_leaves hat h
  | accept | closed | freeBuffer =>
    cases h
    have hnone : Prims Effect.StillTx c fd w w := .refl
    exact hnone.leaves

/-- A flush that has been asked for. -/
theorem requestFlush_leaves {cqe : Cqe} (hat : w.At c fd) (h : w.handleConn c fd .requestFlush cqe = some w') :
    LeavesWakeup c False w w' := by
  have hp : Prims Effect.StillTx c fd w (w.modify c fun o => { o with sendkickPending := false }) :=
    change_still ⟨⟨rfl, rfl, rfl⟩, rfl⟩ rfl rfl id
  exact hp.leaves.flush (sendkick_leaves (hat.prims hp) h)

/-- A poll that completes. -/
theorem pollOut_leaves {cqe : Cqe} (hat : w.At c fd) (h : w.handleConn c fd .pollOut cqe = some w') :
    LeavesWakeup c False (w.modify c fun o => { o with polloutArmed := false }) w' := by
  have hp : Prims (fun _ => True) c fd w (w.modify c fun o => { o with polloutArmed := false }) :=
    .single (.change _ trivial rfl rfl id)
  exact sendkick_leaves (hat.prims hp) h

theorem onSendCompleted_sendInflight (o : PerClientStorage) : o.onSendCompleted.2.sendInflight = false := by
  unfold PerClientStorage.onSendCompleted
  dsimp only
  split <;> rfl

theorem onSendCompleted_polloutArmed (o : PerClientStorage) : o.onSendCompleted.2.polloutArmed = o.polloutArmed := by
  unfold PerClientStorage.onSendCompleted
  dsimp only
  split <;> rfl

/-- After `EAGAIN` the batch is back, and a poll is submitted if none is armed and there is a slot. -/
theorem pollAgain_leaves {b : Bool} (h : w.updatePollout c = some (b, w')) :
    LeavesWakeup c (w.Queued c ∧ ((w.heap c).polloutArmed = true ∨ w.env.sqes.head? ≠ some true)) w w' := by
  unfold updatePollout at h
  split at h
  · rename_i harmed
    cases h
    exact ⟨[], (List.append_nil _).symm, id, .inl, .inl, fun hq => .inl ⟨hq, .inl harmed⟩⟩
  · obtain ⟨⟨b', w₁⟩, hsqe, h⟩ := Option.bind_eq_some_iff.mp h
    obtain ⟨sqes, henv, rfl⟩ := getSqeOrSubmit_eq hsqe
    cases b' with
    | false =>
      cases h
      exact ⟨[], (List.append_nil _).symm, id, .inl, .inl, fun hq => .inl ⟨hq, .inr (by simp [henv])⟩⟩
    | true =>
      cases h
      refine ⟨[.sqe _], rfl, fun hs => ?_, fun hs => .inl ?_,
        fun _ => .inr ⟨_, List.mem_singleton.mpr rfl, rfl, trivial⟩,
        fun _ => .inr (.inr ⟨_, List.mem_singleton.mpr rfl, rfl, trivial⟩)⟩ <;>
      · simpa [withSqes] using hs

/-- A send that completes and does not close the connection. -/
theorem handleSend_leaves {cqe : Cqe} (hat : w.At c fd) (hlive : (w'.heap c).closing = false)
    (h : w.handleSend c fd cqe = some w') :
    (0 ≤ cqe.res ∧ LeavesWakeup c False (w.modify c fun _ => (w.heap c).onSendCompleted.2) w') ∨
    (cqe.res = -EAGAIN ∧ LeavesWakeup c ((w.heap c).queue ≠ [] ∧
        ((w.heap c).polloutArmed = true ∨ w.env.sqes.head? ≠ some true))
        (w.modify c PerClientStorage.rollback) w') := by
  unfold handleSend at h
  split at h
  · split at h
    · rename_i hagain
      obtain ⟨⟨b, w₁⟩, hpoll, h⟩ := Option.bind_eq_some_iff.mp h
      cases h
      have hlater : Prims Effect.StillTx c fd w₁ (w₁.submitLater b) := submitLater_prims b
      have hleaves := (pollAgain_leaves hpoll).tail hlater
      unfold Queued at hleaves
      rw [heap_modify, PerClientStorage.rollback_txq] at hleaves
      exact .inr ⟨hagain.elim id id, hleaves⟩
    · rw [closeConn_closing hat h] at hlive
      cases hlive
  · rename_i hneg
    have hp : Prims (fun _ => True) c fd w (w.modify c fun _ => (w.heap c).onSendCompleted.2) :=
      .single (.change _ trivial (onSendCompleted_fd _) (onSendCompleted_parsed _)
        fun hc => (onSendCompleted_closing _).trans hc)
    dsimp only at h
    split at h
    · rw [closeConn_closing (hat.prims hp) h] at hlive
      cases hlive
    · exact .inl ⟨Int32.not_lt.mp hneg, sendkick_leaves (hat.prims hp) h⟩

end Worker

namespace Sys

open Worker

variable {ok : Sys → Action → Prop} {s s' : Sys} {w w' : Worker} {p : Pending} {cqe : Cqe} {c q : Ptr} {i : Nat}
  {data : Bytes} {env : Env}

/-! ## Outstanding wake-ups -/

/-- The completion belongs to a send, a poll or a `RequestFlush` of `c`. -/
def WakesUp (c : Ptr) (p : Pending) : Prop :=
  p.sqe.owner = some c ∧ p.sqe.op.Wakes ∧ ((∃ fd kind, p.sqe.op = .msgRing fd kind) → p.message = true)

/-- What the connection waits for is outstanding. -/
structure Awake (s : Sys) (c : Ptr) : Prop where
  send : (s.w.heap c).sendInflight = true → ∃ p ∈ s.pending, p.sqe.owner = some c ∧ p.sqe.op.IsSend
  poll : (s.w.heap c).polloutArmed = true → ∃ p ∈ s.pending, p.sqe.owner = some c ∧ p.sqe.op.IsPoll
  queue : (s.w.heap c).txq ≠ [] → ∃ p ∈ s.pending, WakesUp c p

theorem WakesUp.of_send (hown : p.sqe.owner = some c) (hop : p.sqe.op.IsSend) : WakesUp c p := by
  refine ⟨hown, ?_, fun ⟨fd, kind, h⟩ => ?_⟩
  · cases h : p.sqe.op <;> rw [h] at hop <;> first
      | exact hop.elim
      | trivial
  · rw [h] at hop
    exact hop.elim

theorem WakesUp.of_poll (hown : p.sqe.owner = some c) (hop : p.sqe.op.IsPoll) : WakesUp c p := by
  refine ⟨hown, ?_, fun ⟨fd, kind, h⟩ => ?_⟩
  · cases h : p.sqe.op <;> rw [h] at hop <;> first
      | exact hop.elim
      | trivial
  · rw [h] at hop
    exact hop.elim

/-- What is submitted to wake the connection up is owed. -/
theorem wakesUp_owed {e : Sqe} (hown : e.owner = some c) (hop : e.op.Wakes) :
    ∃ p ∈ (Event.sqe e).owed, WakesUp c p := by
  unfold Event.owed
  dsimp only
  split
  · exact ⟨_, List.mem_cons_self, hown, hop, fun _ => rfl⟩
  · rename_i hne
    exact ⟨_, List.mem_singleton.mpr rfl, hown, hop, fun ⟨fd, kind, h⟩ => absurd h (hne fd kind)⟩

/-- The completions that are still owed when the `i`-th has been handled. -/
abbrev rest (s : Sys) (i : Nat) (p : Pending) (cqe : Cqe) : List Pending :=
  if goesOn p cqe then s.pending else s.pending.eraseIdx i

/-- What the other completions and the branch leave behind together. -/
theorem Awake.of_leaves {P : Prop} (htrace : w.trace = s.w.trace) (h : LeavesWakeup c P w w')
    (hsend : (w.heap c).sendInflight = true → ∃ p' ∈ s.rest i p cqe, p'.sqe.owner = some c ∧ p'.sqe.op.IsSend)
    (hpoll : (w.heap c).polloutArmed = true → ∃ p' ∈ s.rest i p cqe, p'.sqe.owner = some c ∧ p'.sqe.op.IsPoll)
    (hqueue : P → (w'.heap c).txq ≠ [] → ∃ p' ∈ s.rest i p cqe, WakesUp c p') : (s.after i p cqe data w').Awake c := by
  obtain ⟨evs, htrace', h⟩ := h
  rw [htrace] at htrace'
  have hmem : ∀ q : Pending, q ∈ (s.after i p cqe data w').pending ↔
      q ∈ s.rest i p cqe ∨ ∃ ev ∈ evs, q ∈ ev.owed := fun q => mem_after htrace'
  have hnew : ∀ {e : Sqe}, e ∈ sqesOf evs → ({ sqe := e } : Pending) ∈ (s.after i p cqe data w').pending := fun he =>
    (hmem _).mpr (.inr ⟨_, mem_sqesOf.mp he, Event.owed_self _⟩)
  have hsent : (w'.heap c).sendInflight = true →
      ∃ p' ∈ (s.after i p cqe data w').pending, p'.sqe.owner = some c ∧ p'.sqe.op.IsSend := fun hs => by
    rcases h.send hs with hs | ⟨e, he, hown, hop⟩
    · obtain ⟨p', hp', hown⟩ := hsend hs
      exact ⟨p', (hmem p').mpr (.inl hp'), hown⟩
    · exact ⟨_, hnew he, hown, hop⟩
  refine ⟨hsent, fun hp => ?_, fun hq => ?_⟩
  · rcases h.poll hp with hp | ⟨e, he, hown, hop⟩
    · obtain ⟨p', hp', hown⟩ := hpoll hp
      exact ⟨p', (hmem p').mpr (.inl hp'), hown⟩
    · exact ⟨_, hnew he, hown, hop⟩
  · rcases h.queue hq with hP | hs | ⟨e, he, hown, hop⟩
    · obtain ⟨p', hp', hwake⟩ := hqueue hP hq
      exact ⟨p', (hmem p').mpr (.inl hp'), hwake⟩
    · obtain ⟨p', hp', hown, hop⟩ := hsent hs
      exact ⟨p', hp', .of_send hown hop⟩
    · obtain ⟨p', hp', hwake⟩ := wakesUp_owed hown hop
      exact ⟨p', (hmem p').mpr (.inr ⟨_, mem_sqesOf.mp he, hp'⟩), hwake⟩

/-- A step in which no wake-up of the connection completes. -/
theorem Awake.other {P : Prop} (h : s.Awake c) (hp : s.pending[i]? = some p) (hno : ¬WakesUp c p)
    (htrace : w.trace = s.w.trace) (hleaves : LeavesWakeup c P w w')
    (hsend : (w.heap c).sendInflight = true → (s.w.heap c).sendInflight = true)
    (hpoll : (w.heap c).polloutArmed = true → (s.w.heap c).polloutArmed = true)
    (hqueue : P → (s.w.heap c).txq ≠ []) : (s.after i p cqe data w').Awake c := by
  have hrest : ∀ p' ∈ s.pending, WakesUp c p' → p' ∈ s.rest i p cqe := fun p' hp' hwake =>
    mem_rest hp hp' fun heq => hno (heq ▸ hwake)
  refine .of_leaves (by exact htrace) hleaves (fun hs => ?_) (fun hs => ?_) fun hP _ => ?_
  · obtain ⟨p', hp', hown, hop⟩ := h.send (hsend hs)
    exact ⟨p', hrest p' hp' (.of_send hown hop), hown, hop⟩
  · obtain ⟨p', hp', hown, hop⟩ := h.poll (hpoll hs)
    exact ⟨p', hrest p' hp' (.of_poll hown hop), hown, hop⟩
  · obtain ⟨p', hp', hwake⟩ := h.queue (hqueue hP)
    exact ⟨p', hrest p' hp' hwake, hwake⟩

/-- A step that leaves the connection alone. -/
theorem Awake.same {evs : List Event} (h : s.Awake c) (hp : s.pending[i]? = some p) (hno : ¬WakesUp c p)
    (htrace : w'.trace = s.w.trace ++ evs) (hheap : w'.heap c = s.w.heap c) : (s.after i p cqe data w').Awake c :=
  h.other (P := s.w.Queued c) hp hno rfl ⟨evs, htrace, by rw [hheap]; exact id, by rw [hheap]; exact .inl,
    by rw [hheap]; exact .inl,
    by rw [hheap]; exact .inl⟩ id id id

/-- The kinds under which wake-ups are posted. -/
theorem WakesUp.posted (h : WakesUp c p) : ∃ fd kind, p.posted = some (fd, kind) ∧
    (kind = .send ∧ p.sqe.op.IsSend ∨ kind = .pollOut ∧ p.sqe.op.IsPoll ∨ kind = .requestFlush) := by
  obtain ⟨-, hop, hmsg⟩ := h
  unfold Pending.posted
  cases hop' : p.sqe.op with
  | sendmsg fd iov => exact ⟨fd, .send, rfl, .inl ⟨rfl, trivial⟩⟩
  | pollAdd fd => exact ⟨fd, .pollOut, rfl, .inr (.inl ⟨rfl, trivial⟩)⟩
  | msgRing fd kind =>
    rw [hop'] at hop
    refine ⟨fd, kind, ?_, .inr (.inr hop)⟩
    simp [hmsg ⟨fd, kind, hop'⟩]
  | _ =>
    rw [hop'] at hop
    exact hop.elim

theorem Unserved.not_wakesUp (h : w.Unserved p) (hc : w.Live c) : ¬WakesUp c p := fun hwake => by
  obtain ⟨fd, kind, hposted, hkind⟩ := hwake.posted
  refine h c hc hwake.1 ⟨fd, kind, hposted, ?_⟩
  obtain ⟨rfl, -⟩ | ⟨rfl, -⟩ | rfl := hkind <;> decide

theorem posted_send (hr : Reachable .tagged ok s) (hp : p ∈ s.pending) {fd : Fd}
    (hposted : p.posted = some (fd, .send)) : p.sqe.op.IsSend := by
  have htask := posted_not_task hr hp hposted id
  unfold Pending.posted at hposted
  cases hop : p.sqe.op with
  | sendmsg => trivial
  | msgRing fd' kind => exact absurd hop (htask fd' kind)
  | _ =>
    simp only [hop] at hposted
    cases hposted

/-! ## The condition -/

/-- When a send completes with `EAGAIN`, then there is nothing to send, a poll is armed or gets its slot, or another
wake-up is outstanding. -/
def Resumes (s : Sys) : Action → Prop
  | .complete i cqe _ env => ∀ p ∈ s.pending[i]?, (0 < cqe.res → p.sqe.op.InRange cqe) ∧
      (p.sqe.op.IsSend → cqe.res = -EAGAIN → ∀ c ∈ p.sqe.owner, s.w.Live c →
        (s.w.heap c).queue = [] ∨ (s.w.heap c).polloutArmed = true ∨ env.sqes.head? = some true ∨
          ∃ p' ∈ s.pending.eraseIdx i, WakesUp c p')
  | _ => True

instance (c : Ptr) (p : Pending) : Decidable (WakesUp c p) :=
  decidable_of_iff
      (p.sqe.owner = some c ∧ p.sqe.op.Wakes ∧ (p.message = true ∨ p.sqe.op.IsSend ∨ p.sqe.op.IsPoll)) <| by
    refine and_congr_right fun _ => and_congr_right fun hop => ?_
    cases hop' : p.sqe.op <;> rw [hop'] at hop <;> first
      | exact hop.elim
      | simp [Op.IsSend, Op.IsPoll]

instance (s : Sys) (a : Action) : Decidable (s.Resumes a) :=
  match a with
  | .complete i cqe _ env => inferInstanceAs (Decidable (∀ p ∈ s.pending[i]?, (0 < cqe.res → p.sqe.op.InRange cqe) ∧
      (p.sqe.op.IsSend → cqe.res = -EAGAIN → ∀ c ∈ p.sqe.owner, s.w.Live c →
        (s.w.heap c).queue = [] ∨ (s.w.heap c).polloutArmed = true ∨ env.sqes.head? = some true ∨
          ∃ p' ∈ s.pending.eraseIdx i, WakesUp c p')))
  | .executeClose _ | .endBatch => isTrue trivial

theorem Resumes.inRange {a : Action} (h : s.Resumes a) : s.InRange a := by
  cases a with
  | complete i cqe data env => exact fun p hp => (h p hp).1
  | executeClose | endBatch => trivial

/-! ## Runs -/

theorem goesOn_not_wakes (hop : p.sqe.op.Wakes) : goesOn p cqe = false := by
  unfold goesOn
  cases hop' : p.sqe.op <;> rw [hop'] at hop <;> first
    | rfl
    | exact hop.elim

/-- The own wake-ups of a connection. -/
theorem Awake.own {fd : Fd} {kind : Workflow} (hr : Reachable .tagged ok s) (h : s.Awake c)
    (hp : s.pending[i]? = some p) (ha : s.Resumes (.complete i cqe data env)) (hown : p.sqe.owner = some c)
    (hposted : p.posted = some (fd, kind)) (hat : (s.arrive p cqe data env).At c fd) (hlive : s.w.Live c)
    (hw : (s.arrive p cqe data env).handleConn c fd kind cqe = some w') (hlive' : (w'.heap c).closing = false) :
    (s.after i p cqe data w').Awake c := by
  have hheap := arrive_heap s p cqe data env
  have htrace := arrive_trace s p cqe data env
  -- what was posted under another kind is another completion
  have hsends : kind ≠ .send → (s.w.heap c).sendInflight = true →
      ∃ p' ∈ s.rest i p cqe, p'.sqe.owner = some c ∧ p'.sqe.op.IsSend := fun hk hs => by
    obtain ⟨p', hp', hown', hop'⟩ := h.send hs
    refine ⟨p', mem_rest hp hp' fun heq => hk ?_, hown', hop'⟩
    subst heq
    cases hop : p'.sqe.op <;> rw [hop] at hop' <;> first
      | exact hop'.elim
      | (rw [Pending.posted, hop] at hposted; cases hposted; rfl)
  have hpolls : kind ≠ .pollOut → (s.w.heap c).polloutArmed = true →
      ∃ p' ∈ s.rest i p cqe, p'.sqe.owner = some c ∧ p'.sqe.op.IsPoll := fun hk hs => by
    obtain ⟨p', hp', hown', hop'⟩ := h.poll hs
    refine ⟨p', mem_rest hp hp' fun heq => hk ?_, hown', hop'⟩
    subst heq
    cases hop : p'.sqe.op <;> rw [hop] at hop' <;> first
      | exact hop'.elim
      | (rw [Pending.posted, hop] at hposted; cases hposted; rfl)
  by_cases hsend : kind = .send
  · subst hsend
    obtain ⟨-, hleaves⟩ | ⟨hagain, hleaves⟩ := handleSend_leaves hat hlive' hw
    · refine .of_leaves (by exact htrace) hleaves (fun hs => ?_) (fun hs => hpolls (by decide) ?_) False.elim
      · rw [heap_modify, onSendCompleted_sendInflight] at hs
        cases hs
      · rwa [heap_modify, onSendCompleted_polloutArmed, hheap] at hs
    · refine .of_leaves (by exact htrace) hleaves (fun hs => ?_) (fun hs => hpolls (by decide) ?_)
        fun hP _ => ?_
      · rw [heap_modify] at hs
        cases hs
      · rwa [heap_modify, hheap] at hs
      · obtain ⟨hq, hP⟩ := hP
        have hop := posted_send hr (List.mem_of_getElem? hp) hposted
        have hrest : s.rest i p cqe = s.pending.eraseIdx i := by
          rw [rest, goesOn_not_wakes (WakesUp.of_send hown hop).2.1]
          exact if_neg Bool.false_ne_true
        rcases (ha p hp).2 hop hagain c hown hlive with hnone | harmed | hslot | hother
        · rw [hheap] at hq
          exact absurd hnone hq
        · obtain ⟨p', hp', hown', hop'⟩ := hpolls (by decide) harmed
          exact ⟨p', hp', .of_poll hown' hop'⟩
        · rcases hP with harmed | hno
          · rw [hheap] at harmed
            obtain ⟨p', hp', hown', hop'⟩ := hpolls (by decide) harmed
            exact ⟨p', hp', .of_poll hown' hop'⟩
          · exact absurd hslot hno
        · rw [hrest]
          exact hother
  · by_cases hpoll : kind = .pollOut
    · subst hpoll
      refine .of_leaves (by exact htrace) (pollOut_leaves hat hw) (fun hs => hsends (by decide) ?_)
        (fun hs => ?_) False.elim
      · rwa [heap_modify, hheap] at hs
      · rw [heap_modify] at hs
        cases hs
    · by_cases hflush : kind = .requestFlush
      · subst hflush
        refine .of_leaves htrace (requestFlush_leaves hat hw) (fun hs => hsends (by decide) ?_)
          (fun hs => hpolls (by decide) ?_) False.elim <;> rwa [hheap] at hs
      · have hno : ¬WakesUp c p := fun hwake => by
          obtain ⟨fd', kind', hposted', hk⟩ := hwake.posted
          rw [hposted] at hposted'
          cases hposted'
          obtain ⟨hk, -⟩ | ⟨hk, -⟩ | hk := hk
          · exact hsend hk
          · exact hpoll hk
          · exact hflush hk
        exact h.other hp hno htrace (handleConn_leaves hsend hpoll hat hw) (by rw [hheap]; exact id)
          (by rw [hheap]; exact id) (by unfold Queued; rw [hheap]; exact id)

/-- A completion that is not served, handled for a connection all the same. -/
theorem Awake.stray {fd : Fd} {kind : Workflow} (h : s.Awake c) (hp : s.pending[i]? = some p) (hno : ¬WakesUp c p)
    (hres : cqe.res = 0) (hat : (s.arrive p cqe data env).At c fd)
    (hw : (s.arrive p cqe data env).handleConn c fd kind cqe = some w') (hlive : (w'.heap c).closing = false) :
    (s.after i p cqe data w').Awake c := by
  have hheap := arrive_heap s p cqe data env
  have htrace := arrive_trace s p cqe data env
  by_cases hsend : kind = .send
  · subst hsend
    obtain ⟨-, hleaves⟩ | ⟨hagain, -⟩ := handleSend_leaves hat hlive hw
    · refine h.other hp hno (by exact htrace) hleaves (fun hs => ?_) (fun hs => ?_) False.elim
      · rw [heap_modify, onSendCompleted_sendInflight] at hs
        cases hs
      · rwa [heap_modify, onSendCompleted_polloutArmed, hheap] at hs
    · rw [hres] at hagain
      exact absurd hagain (by decide)
  · by_cases hpoll : kind = .pollOut
    · subst hpoll
      refine h.other hp hno (by exact htrace) (pollOut_leaves hat hw) (fun hs => ?_) (fun hs => ?_) False.elim
      · rwa [heap_modify, hheap] at hs
      · rw [heap_modify] at hs
        cases hs
    · exact h.other hp hno htrace (handleConn_leaves hsend hpoll hat hw) (by rw [hheap]; exact id)
        (by rw [hheap]; exact id) (by unfold Queued; rw [hheap]; exact id)

theorem Awake.step {a : Action} (hr : Reachable .tagged ok s) (hrouted : s.w.Routed s.openFds)
    (hall : ∀ q, s.w.Live q → s.Awake q) (ha : s.Resumes a) (h : step .tagged s a = some s') (hq : s'.w.Live q) :
    s'.Awake q := by
  cases (step_cases h).2 with
  | endBatch => exact ⟨(hall q hq).send, (hall q hq).poll, (hall q hq).queue⟩
  | executeClose hp hop hex =>
    rename_i i p fd
    obtain ⟨hsend, hpoll, hqueue⟩ := hall q hq
    -- the others are still owed
    have hset : ∀ p' ∈ s.pending, p'.sqe.op ≠ .close fd → p' ∈ s.pending.set i { p with executed := true } :=
      fun p' hp' hne => by
        obtain ⟨j, hj⟩ := List.getElem?_of_mem hp'
        refine List.mem_of_getElem? (i := j) ?_
        rw [List.getElem?_set_ne fun hij => hne ?_, hj]
        rw [← hij, hp] at hj
        cases hj
        exact hop
    refine ⟨fun hs => ?_, fun hs => ?_, fun hs => ?_⟩
    · obtain ⟨p', hp', hown, hop'⟩ := hsend hs
      exact ⟨p', hset p' hp' fun heq => by rw [heq] at hop'; exact hop', hown, hop'⟩
    · obtain ⟨p', hp', hown, hop'⟩ := hpoll hs
      exact ⟨p', hset p' hp' fun heq => by rw [heq] at hop'; exact hop', hown, hop'⟩
    · obtain ⟨p', hp', hwake⟩ := hqueue hs
      exact ⟨p', hset p' hp' fun heq => by have := hwake.2.1; rw [heq] at this; exact this, hwake⟩
  | complete hp hadm hw =>
    rename_i i cqe data env p w'
    have hmem := List.mem_of_getElem? hp
    have htrace := arrive_trace s p cqe data env
    have hheap := arrive_heap s p cqe data env
    have hlive : ∀ {c}, Frame c (s.arrive p cqe data env) w' → s.w.Live q ∧ (s.arrive p cqe data env).Live q :=
      fun hf => ⟨(arrive_live s p cqe data env q).mp (Live.of_frame hq hf), Live.of_frame hq hf⟩
    -- a step for another connection
    have hother : ∀ {L : Effect → Prop} {c fd}, Prims L c fd (s.arrive p cqe data env) w' → q ≠ c → s.w.Live q →
        ¬WakesUp q p → (s.after i p cqe data w').Awake q := fun hprims hqc hq₀ hno => by
      obtain ⟨evs, htrace', -⟩ := Prims.trace hprims
      rw [htrace] at htrace'
      exact (hall q hq₀).same hp hno htrace' (by rw [(Prims.frame hprims).heap q hqc, hheap])
    cases route_cases hr hrouted hmem hadm hw with
    | @own c fd kind hop hown hposted hkind hat h =>
      have hprims := handleConn_prims hat h
      obtain ⟨hq₀, -⟩ := hlive hprims.frame
      by_cases hqc : q = c
      · subst hqc
        exact (hall q hq₀).own hr hp ha hown hposted hat hq₀ h hq.2
      · exact hother hprims hqc hq₀ fun hwake => hqc (Option.some.inj (hwake.1.symm.trans hown))
    | @other c fd kind hop hno hat hzero h =>
      have hprims := handleConn_prims hat h
      obtain ⟨hq₀, hq₁⟩ := hlive hprims.frame
      by_cases hqc : q = c
      · subst hqc
        have hres : cqe.res = 0 := hzero.resolve_right fun hc => by rw [hq₁.2] at hc; cases hc
        exact (hall q hq₀).stray hp (Unserved.not_wakesUp hno hq₁) hres hat h hq.2
      · exact hother hprims hqc hq₀ (Unserved.not_wakesUp hno hq₁)
    | same hop hno h =>
      subst h
      have hq₁ : (s.arrive p cqe data env).Live q := hq
      exact (hall q ((arrive_live ..).mp hq₁)).same hp (Unserved.not_wakesUp hno hq₁)
        (show _ = s.w.trace ++ [] by rw [htrace, List.append_nil]) (by rw [hheap])
    | accept hno hacc h =>
      obtain ⟨-, hlisten⟩ | ⟨hres, b, w₁, hrecv, hlisten⟩ := handleAccept_cases h
      · obtain ⟨hq₀, hq₁⟩ := hlive (hlisten q 0).frame
        exact hother (hlisten (q + 1) 0) (Nat.ne_of_lt (Nat.lt_succ_self q)) hq₀ (Unserved.not_wakesUp hno hq₁)
      · have hok := (table_ok hr).move (arrive_move s p cqe data env)
        have hprims : Prims Effect.Recvs _ cqe.res _ w₁ := startRecv_prims (by rw [addConn_obj]) hrecv
        have hq₀ := ((Live.of_frame hq (hlisten 0 0).frame).of_frame hprims.frame).of_addConn hok
        obtain ⟨evs, htrace₁, -⟩ := hprims.trace
        obtain ⟨evs', htrace', -⟩ := (hlisten 0 0).trace
        have hall' : w'.trace = s.w.trace ++ (evs ++ evs') := by
          rw [htrace', htrace₁, List.append_assoc, ← htrace]
          rfl
        rcases hq₀ with ⟨hne, hq₀⟩ | ⟨rfl, -⟩
        · refine (hall q ((arrive_live ..).mp hq₀)).same hp (Unserved.not_wakesUp hno hq₀) hall' ?_
          rw [(prims_other hlisten).2, hprims.frame.heap q hne, addConn_heap_ne _ _ hne, hheap]
        · -- a new connection waits for nothing
          have htx := (hprims.mono Effect.Recvs.stillTx).leaves
          have hstill : Prims Effect.StillTx (s.arrive p cqe data env).nextPtr 0 w₁ w' :=
            (hlisten _ 0).mono fun e he => by cases he <;> trivial
          have hnew := htx.tail hstill
          refine .of_leaves (by exact htrace) hnew (fun hs => ?_) (fun hs => ?_) fun hs _ => ?_
          · rw [addConn_obj] at hs
            cases hs
          · rw [addConn_obj] at hs
            cases hs
          · unfold Queued at hs
            rw [addConn_obj] at hs
            exact absurd rfl hs

/-- In every run under the condition, a connection of the table that is not closing and has buffers in its queue has a
send, a poll or a flush outstanding, and its completion is handled as such for this connection. -/
theorem no_stall (h : Reachable .tagged Resumes s) (hc : s.w.Live c) (hq : (s.w.heap c).txq ≠ []) :
    ∃ p ∈ s.pending, WakesUp c p ∧ ∃ kind, Dispatch.tagged.read p = some ((s.w.heap c).fd, kind) ∧
      (kind = .send ∨ kind = .pollOut ∨ kind = .requestFlush) := by
  have hrouted : ∀ {s}, Reachable .tagged Resumes s → s.w.Routed s.openFds := routed fun _ _ => Resumes.inRange
  have hall : ∀ q, s.w.Live q → s.Awake q := by
    refine Reach.invariant_of (K := Reachable .tagged Resumes) (I := fun s => ∀ q, s.w.Live q → s.Awake q)
      (fun _ => id) (fun s h q hq => ?_) (fun s a s' hr hall ha h q hq => Awake.step hr (hrouted hr) hall ha h hq) s h
    obtain ⟨_, _, _, _, _, h, -, -⟩ := h
    have htable := hq.1
    rw [(startUp_new h).1] at htable
    cases htable
  obtain ⟨p, hp, hwake⟩ := (hall c hc).queue hq
  obtain ⟨fd, kind, hposted, hkind⟩ := hwake.posted
  have hcode : kind.code < 8 := by obtain ⟨rfl, -⟩ | ⟨rfl, -⟩ | rfl := hkind <;> decide
  obtain ⟨hfd, -, hread⟩ := read_posted h (hrouted h) hp hwake.1 hposted hcode
  refine ⟨p, hp, hwake, kind, by rw [hread, hfd], ?_⟩
  obtain ⟨hk, -⟩ | ⟨hk, -⟩ | hk := hkind
  · exact .inl hk
  · exact .inr (.inl hk)
  · exact .inr (.inr hk)

/-- A response has been queued, and its flush is outstanding. -/
theorem no_stall_queued : ∃ s,
    serve .tagged Resumes (request ++ [.complete 2 { res := 0 } [] { sqes := [true] }]) = some s ∧
      ∃ p ∈ s.pending, WakesUp 0 p ∧ ∃ kind, Dispatch.tagged.read p = some ((s.w.heap 0).fd, kind) ∧
        (kind = .send ∨ kind = .pollOut ∨ kind = .requestFlush) := by
  obtain ⟨s, hs, hobs⟩ := Option.map_eq_some_iff.mp (show
    (serve .tagged Resumes (request ++ [.complete 2 { res := 0 } [] { sqes := [true] }])).map (fun s =>
      (decide (s.w.Live 0), decide ((s.w.heap 0).txq ≠ []))) = some (true, true) by decide +kernel)
  simp only [Prod.mk.injEq] at hobs
  exact ⟨s, hs, no_stall (run_reachable hs) (of_decide_eq_true hobs.1) (of_decide_eq_true hobs.2)⟩

/-- The socket is full when a response is sent, and the ring is full when the poll is to be submitted. -/
theorem response_stalls : ∃ s,
    serve .tagged (fun _ _ => True) (request ++ response ++ [.complete 5 { res := -11 } [] { sqes := [false] }]) =
      some s ∧
      Reachable .tagged (fun _ _ => True) s ∧ s.w.Live 0 ∧ (s.w.heap 0).txq ≠ [] ∧ ∀ p ∈ s.pending, ¬WakesUp 0 p := by
  obtain ⟨s, hs, hobs⟩ := Option.map_eq_some_iff.mp (show
    (serve .tagged (fun _ _ => True)
      (request ++ response ++ [.complete 5 { res := -11 } [] { sqes := [false] }])).map (fun s =>
        (decide (s.w.Live 0), decide ((s.w.heap 0).txq ≠ []), decide (∀ p ∈ s.pending, ¬WakesUp 0 p))) =
      some (true, true, true) by decide +kernel)
  simp only [Prod.mk.injEq] at hobs
  exact ⟨s, hs, run_reachable hs, of_decide_eq_true hobs.1, of_decide_eq_true hobs.2.1, of_decide_eq_true hobs.2.2⟩

end Sys

end IOContext
