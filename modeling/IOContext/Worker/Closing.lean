import IOContext.Worker.Moves

/-!
# What a handler submits for a connection that is closing

- `Transmits` says when the branch of a completion submits a send, a receive or a poll although the connection is
  closing; in all other cases none is submitted (`handleConn_noIo`).
- `ReachesClose` says when the branch submits a close: then exactly one and nothing else (`handleConn_closes`), and
  otherwise none (`handleConn_noClose`).
-/

namespace IOContext

/-- The operations that transfer data, or wait for it. -/
def Op.IsIo : Op → Prop
  | .recvMultishot _ | .recv _ _ | .pollAdd _ | .sendmsg _ _ => True
  | _ => False

def Op.IsClose : Op → Prop
  | .close _ => True
  | _ => False

/-- The kernel reads or writes buffers of the connection until the operation completes. -/
def Op.UsesBuffers : Op → Prop
  | .recv _ _ | .sendmsg _ _ => True
  | _ => False

instance (op : Op) : Decidable op.IsIo := by
  unfold Op.IsIo
  split <;> infer_instance

instance (op : Op) : Decidable op.IsClose := by
  unfold Op.IsClose
  split <;> infer_instance

instance (op : Op) : Decidable op.UsesBuffers := by
  unfold Op.UsesBuffers
  split <;> infer_instance

namespace Effect

def NoIo : Effect → Prop
  | .submit op => ¬op.IsIo
  | _ => True

def NoClose : Effect → Prop
  | .submit op => ¬op.IsClose
  | _ => True

def NoBuffers : Effect → Prop
  | .submit op => ¬op.UsesBuffers
  | _ => True

theorem Posts.noIo : ∀ e, Posts e → NoIo e
  | _, .msg _ _ => id

theorem Parses.noIo : ∀ e, Parses e → NoIo e
  | _, .msg _ _ => id
  | _, .segment | _, .crash => trivial
  | _, .closing _ => trivial

theorem Provides.noIo : ∀ e, Provides e → NoIo e
  | _, .provide _ _ => id

theorem Closes.noIo : ∀ e, Closes e → NoIo e
  | _, .close _ => id
  | _, .closing _ => trivial

theorem Posts.noClose : ∀ e, Posts e → NoClose e
  | _, .msg _ _ => id

theorem Sends.noClose : ∀ e, Sends e → NoClose e
  | _, .flush _ => id
  | _, .send _ _ => id
  | _, .takeBatch _ _ | _, .rollback _ => trivial

theorem Responds.noClose : ∀ e, Responds e → NoClose e
  | _, .sends h => Sends.noClose _ h
  | _, .enqueue => trivial
  | _, .invoke => trivial

theorem Parses.noClose : ∀ e, Parses e → NoClose e
  | _, .msg _ _ => id
  | _, .segment | _, .crash => trivial
  | _, .closing _ => trivial

theorem Recvs.noClose : ∀ e, Recvs e → NoClose e
  | _, .multishot _ => id
  | _, .single _ _ => id
  | _, .alloc => trivial
  | _, .armed _ | _, .hold _ _ => trivial

theorem Provides.noClose : ∀ e, Provides e → NoClose e
  | _, .provide _ _ => id

theorem Receives.noClose : ∀ e, Receives e → NoClose e
  | _, .parses h => Parses.noClose _ h
  | _, .sends h => Sends.noClose _ h
  | _, .recvs h => Recvs.noClose _ h
  | _, .queue _ _ | _, .disarm _ => trivial

theorem Polls.noBuffers : ∀ e, Polls e → NoBuffers e
  | _, .poll _ => id
  | _, .armed _ => trivial

theorem NoIo.noBuffers (e : Effect) (h : NoIo e) : NoBuffers e := by
  cases e with
  | submit op => exact fun huses => h (by cases op <;> trivial)
  | _ => trivial

theorem Polls.noClose : ∀ e, Polls e → NoClose e
  | _, .poll _ => id
  | _, .armed _ => trivial

end Effect

namespace Worker

/-- A `Recv` completion finds the bytes that it announces. -/
def Reads (w : Worker) (c : Ptr) (cqe : Cqe) : Prop :=
  (w.useMsRecv = true ∧ w.haveBufPool = true ∧ cqe.buffer ≠ none) ∨ (w.heap c).rxHold ≠ none

/-- The branch submits a send, a receive or a poll although the connection is closing. -/
def Transmits (w : Worker) (c : Ptr) (kind : Workflow) (cqe : Cqe) : Prop :=
  let o := w.heap c
  match kind with
  | .recv => 0 < cqe.res ∧ w.Reads c cqe ∧ o.Ready
  | .send =>
    if cqe.res < 0 then (cqe.res = -EAGAIN ∨ cqe.res = -EWOULDBLOCK) ∧ o.polloutArmed = false
    else o.onSendCompleted.1 = false ∧ o.txq ≠ []
  | .pollOut | .requestFlush => o.Ready
  | .generateResponse => o.requestHandler.isSome ∧ o.sendInflight = false ∧ w.env.sqes.head? = some false
  | _ => False

/-- The branch submits a send or a receive although the connection is closing. -/
def SendsOrReceives (w : Worker) (c : Ptr) (kind : Workflow) (cqe : Cqe) : Prop :=
  w.Transmits c kind cqe ∧ ¬(kind = .send ∧ cqe.res < 0)

/-- The branch submits a close. -/
def ReachesClose (w : Worker) (c : Ptr) (kind : Workflow) (cqe : Cqe) : Prop :=
  w.env.sqes.head? = some true ∧
  match kind with
  | .recv => cqe.res ≤ 0 ∧ ¬(cqe.res = -EINVAL ∨ cqe.res = -EOPNOTSUPP)
  | .send =>
    if cqe.res < 0 then ¬(cqe.res = -EAGAIN ∨ cqe.res = -EWOULDBLOCK) else (w.heap c).onSendCompleted.1 = true
  | .requestClose => True
  | _ => False

instance (w : Worker) (c : Ptr) (cqe : Cqe) : Decidable (w.Reads c cqe) := inferInstanceAs (Decidable (_ ∨ _))

instance (w : Worker) (c : Ptr) (kind : Workflow) (cqe : Cqe) : Decidable (w.Transmits c kind cqe) := by
  unfold Transmits
  cases kind <;> infer_instance

instance (w : Worker) (c : Ptr) (kind : Workflow) (cqe : Cqe) : Decidable (w.SendsOrReceives c kind cqe) :=
  inferInstanceAs (Decidable (_ ∧ _))

instance (w : Worker) (c : Ptr) (kind : Workflow) (cqe : Cqe) : Decidable (w.ReachesClose c kind cqe) := by
  unfold ReachesClose
  cases kind <;> infer_instance

section

variable {c : Ptr} {fd : Fd} {w w' : Worker}

/-! ## Closing connections -/

/-- A flush that has nothing to send, or has to wait, does nothing. -/
theorem sendkickInline_idle {sqes : List Bool} (hidle : ¬(w.heap c).Ready) (h : w.sendkickInline c sqes = some w') :
    w' = w.withSqes sqes := by
  rw [sendkickInline] at h
  split at h
  · cases h
    rfl
  · rename_i hnot
    simp only [Bool.or_eq_true, List.isEmpty_iff, not_or, Bool.not_eq_true] at hnot
    exact absurd hnot hidle

theorem sendkick_idle {L : Effect → Prop} (hidle : ¬(w.heap c).Ready) (h : w.sendkick c = some w') :
    Prims L c fd w w' := by
  rw [sendkickInline_idle hidle h]
  exact withSqes_prims _

theorem restartRecv_closing (hclosing : (w.heap c).closing = true) (h : w.restartRecv c = some w') : w' = w := by
  unfold restartRecv at h
  rw [if_pos hclosing] at h
  exact (Option.some.inj h).symm

theorem parseStep_ready (hat : w.At c fd) (h : w.parseStep c = some w') : (w'.heap c).Ready ↔ (w.heap c).Ready := by
  have htx := (parseStep_prims hat h).keepsTx (fun _ _ h => by cases h; exact ⟨rfl, rfl, rfl⟩) (fun h => by cases h)
  unfold PerClientStorage.Ready
  rw [htx.sendInflight, htx.txq]

theorem parseAndKick_noIo (hat : w.At c fd) (hidle : ¬(w.heap c).Ready) (h : w.parseAndKick c = some w') :
    Prims Effect.NoIo c fd w w' := by
  obtain ⟨w₁, hparse, h⟩ := Option.bind_eq_some_iff.mp h
  refine ((parseStep_prims hat hparse).mono Effect.Parses.noIo).trans ?_
  split at h
  · cases h
    exact .refl
  · split at h
    · exact sendkick_idle (mt (parseStep_ready hat hparse).mp hidle) h
    · cases h
      exact .refl

theorem closeConn_noIo (hat : w.At c fd) (h : w.closeConn c fd = some w') : Prims Effect.NoIo c fd w w' :=
  (closeConn_prims hat h).mono Effect.Closes.noIo

theorem recvFailed_noIo {res : Int32} (hat : w.At c fd) (hclosing : (w.heap c).closing = true)
    (h : w.recvFailed c fd res = some w') : Prims Effect.NoIo c fd w w' := by
  have hdisarm : Prims Effect.NoIo c fd w (w.modify c fun o => { o with msRecvArmed := false }) :=
    .single (.change _ trivial rfl rfl id)
  unfold recvFailed at h
  dsimp only at h
  split at h
  · rw [restartRecv_closing (by simpa using hclosing) h]
    exact hdisarm.tail (.msRecvOff trivial)
  · exact hdisarm.trans (closeConn_noIo (hat.prims hdisarm) h)

theorem recvProvided_noIo {bid : Nat} {cqe : Cqe} (hat : w.At c fd) (hclosing : (w.heap c).closing = true)
    (hidle : ¬(w.heap c).Ready) (h : w.recvProvided c bid cqe = some w') : Prims Effect.NoIo c fd w w' := by
  obtain ⟨w₁, w₂, hback, hkick, h⟩ := recvProvided_cases h
  have hpush : Prims Effect.NoIo c fd w (w.pushSegment c ((w.bufPool bid).take cqe.res.toInt.toNat)) :=
    .single (.change _ trivial rfl rfl id)
  have hret : Prims Effect.Provides c fd _ _ := returnBuffer_prims hback
  have hp₁ := hpush.trans (hret.mono Effect.Provides.noIo)
  have htx := hret.keepsTx (fun _ _ h => by cases h) (fun h => by cases h)
  have hidle₁ : ¬(w₁.heap c).Ready := by
    unfold PerClientStorage.Ready at hidle ⊢
    rw [htx.sendInflight, htx.txq]
    simpa [pushSegment] using hidle
  have hp₂ := hp₁.trans (parseAndKick_noIo (hat.prims hp₁) hidle₁ hkick)
  refine hp₂.trans ?_
  obtain ⟨-, rfl⟩ | ⟨-, h⟩ := h
  · exact .refl
  · rw [restartRecv_closing (by simpa using (Prims.frame hp₂).closing hclosing) h]
    exact .single (.change _ trivial rfl rfl id)

theorem recvHold_noIo {cqe : Cqe} (hat : w.At c fd) (hclosing : (w.heap c).closing = true)
    (hidle : (w.heap c).rxHold ≠ none → ¬(w.heap c).Ready) (h : w.recvHold c cqe = some w') :
    Prims Effect.NoIo c fd w w' := by
  obtain ⟨-, rfl⟩ | ⟨hold, w₁, hhold, hkick, h⟩ := recvHold_cases h
  · exact .refl
  · have htake : Prims Effect.NoIo c fd w (w.modify c fun o => { o with rxHold := none }) :=
      .single (.change _ trivial rfl rfl id)
    have hp₁ := htake.tail (.change
      (fun o => { o with rxq := o.rxq ++ [⟨(w.holds hold).take cqe.res.toInt.toNat, false⟩] })
      trivial rfl rfl id)
    have hidle₁ := hidle (by rw [hhold]; exact Option.some_ne_none hold)
    have hp₂ := hp₁.trans (parseAndKick_noIo (hat.prims hp₁) (by
      unfold PerClientStorage.Ready at hidle₁ ⊢
      simpa using hidle₁) hkick)
    refine hp₂.trans ?_
    obtain ⟨-, rfl⟩ | ⟨-, h⟩ := h
    · exact .refl
    · rw [restartRecv_closing ((Prims.frame hp₂).closing (by simpa using hclosing)) h]

theorem handleSend_noIo {cqe : Cqe} (hat : w.At c fd) (ht : ¬w.Transmits c .send cqe)
    (h : w.handleSend c fd cqe = some w') : Prims Effect.NoIo c fd w w' := by
  unfold Transmits at ht
  unfold handleSend at h
  split at h
  · rename_i hneg
    simp only [hneg, if_true] at ht
    split at h
    · rename_i hagain
      obtain ⟨⟨b, w₁⟩, hpoll, h⟩ := Option.bind_eq_some_iff.mp h
      cases h
      have harmed : (w.heap c).polloutArmed = true := by
        by_contra hn
        exact ht ⟨hagain, by simpa using hn⟩
      have hback : Prims Effect.NoIo c fd w (w.modify c PerClientStorage.rollback) :=
        .single (.change _ trivial rfl rfl id)
      unfold updatePollout at hpoll
      rw [if_pos (by simpa [PerClientStorage.rollback] using harmed)] at hpoll
      cases hpoll
      exact hback.trans (submitLater_prims _)
    · exact closeConn_noIo hat h
  · rename_i hpos
    simp only [hpos, if_false] at ht
    have hp : Prims Effect.NoIo c fd w (w.modify c fun _ => (w.heap c).onSendCompleted.2) :=
      .single (.change _ trivial (onSendCompleted_fd _) (onSendCompleted_parsed _)
        fun hc => (onSendCompleted_closing _).trans hc)
    refine hp.trans ?_
    dsimp only at h
    split at h
    · exact closeConn_noIo (hat.prims hp) h
    · rename_i hfin
      refine sendkick_idle (fun hready => ht ⟨by simpa using hfin, ?_⟩) h
      rw [heap_modify] at hready
      rw [← onSendCompleted_txq]
      exact hready.2

theorem generateResponse_noIo (hat : w.At c fd) {cqe : Cqe} (ht : ¬w.Transmits c .generateResponse cqe)
    (h : w.generateResponse c = some w') : Prims Effect.NoIo c fd w w' := by
  unfold generateResponse at h
  split at h
  · cases h
    exact .refl
  · rename_i hd hhd
    have hinv : Prims Effect.NoIo c fd w (w.invokeHandler c hd) := .single (.invoke trivial hd _)
    have hp := hinv.trans
      (enqueueAll_prims trivial (PerClientStorage.responseBufs ((w.invokeHandler c hd).heap c).parser.res))
    refine hp.trans ?_
    obtain ⟨henv, -, hobj⟩ := enqueueAll_eq (w.invokeHandler c hd) c
      (PerClientStorage.responseBufs ((w.invokeHandler c hd).heap c).parser.res)
    have hat₁ := hat.prims hp
    have hsqes : w.env.sqes = ((w.invokeHandler c hd).enqueueAll c
        (PerClientStorage.responseBufs ((w.invokeHandler c hd).heap c).parser.res)).env.sqes := by rw [henv]; rfl
    unfold post at h
    dsimp only at h
    rw [hat₁.obj, ← hsqes] at h
    match hs : w.env.sqes, h with
    | true :: sqes, h =>
      simp only [postTask, hat₁.table, Option.some.injEq] at h
      subst h
      exact ((withSqes_prims sqes).tail (.submit (show Effect.NoIo (.submit (.msgRing fd .requestFlush)) from id)
        (.own rfl trivial))).tail (.quiet ..)
    | false :: sqes, h =>
      -- the flush is done inline, but a send is outstanding
      have hbusy : (w.heap c).sendInflight = true := by
        by_contra hn
        exact ht ⟨by simp [hhd], by simpa using hn, by simp [hs]⟩
      simp only [postTask, if_true, hat₁.table] at h
      rw [sendkickInline_idle (fun hready => ?_) h]
      · exact withSqes_prims sqes
      · have := hready.1
        rw [hobj] at this
        simp [invokeHandler, hbusy] at this

/-- A branch that does not transmit submits no send, receive or poll for a closing connection. -/
theorem handleConn_noIo {kind : Workflow} {cqe : Cqe} (hat : w.At c fd) (hclosing : (w.heap c).closing = true)
    (ht : ¬w.Transmits c kind cqe) (h : w.handleConn c fd kind cqe = some w') : Prims Effect.NoIo c fd w w' := by
  unfold handleConn at h
  cases kind with
  | recv =>
    obtain ⟨-, h⟩ | ⟨hpos, bid, hmode, hbid, h⟩ | ⟨hpos, -, h⟩ := handleRecv_cases h
    · exact recvFailed_noIo hat hclosing h
    · rw [Bool.and_eq_true] at hmode
      refine recvProvided_noIo hat hclosing (fun hready => ht ⟨hpos, .inl ⟨hmode.1, hmode.2, ?_⟩, hready⟩) h
      rw [hbid]
      exact Option.some_ne_none bid
    · exact recvHold_noIo hat hclosing (fun hhold hready => ht ⟨hpos, .inr hhold, hready⟩) h
  | send => exact handleSend_noIo hat ht h
  | pollOut =>
    have hp : Prims Effect.NoIo c fd w (w.modify c fun o => { o with polloutArmed := false }) :=
      .single (.change _ trivial rfl rfl id)
    exact hp.trans (sendkick_idle (by rw [heap_modify]; exact ht) h)
  | parse => exact (parseStep_prims hat h).mono Effect.Parses.noIo
  | findHandler =>
    cases h
    refine .single (.change _ trivial ?_ ?_ ?_) <;> unfold PerClientStorage.findHandler <;> split <;> simp
  | requestFlush =>
    have hp : Prims Effect.NoIo c fd w (w.modify c fun o => { o with sendkickPending := false }) :=
      .single (.change _ trivial rfl rfl id)
    exact hp.trans (sendkick_idle (by rw [heap_modify]; exact ht) h)
  | generateResponse => exact generateResponse_noIo hat ht h
  | requestClose => exact closeConn_noIo hat h
  | accept | closed | freeBuffer =>
    cases h
    exact .refl

/-- Of the branches that transmit, the one of a send that has to wait only submits a poll. -/
theorem handleConn_noBuffers {kind : Workflow} {cqe : Cqe} (hat : w.At c fd) (hclosing : (w.heap c).closing = true)
    (ht : ¬w.SendsOrReceives c kind cqe) (h : w.handleConn c fd kind cqe = some w') :
    Prims Effect.NoBuffers c fd w w' := by
  by_cases htr : w.Transmits c kind cqe
  · obtain ⟨rfl, hneg⟩ : kind = .send ∧ cqe.res < 0 := by
      by_contra hn
      exact ht ⟨htr, hn⟩
    unfold Transmits at htr
    dsimp only at htr
    rw [if_pos hneg] at htr
    simp only [handleConn, handleSend, if_pos hneg, if_pos htr.1] at h
    obtain ⟨⟨b, w₁⟩, hpoll, h⟩ := Option.bind_eq_some_iff.mp h
    cases h
    have hp : Prims Effect.NoBuffers c fd w (w.modify c PerClientStorage.rollback) :=
      .single (.change _ trivial rfl rfl id)
    have hpoll := (updatePollout_prims (hat.prims hp).obj hpoll).mono Effect.Polls.noBuffers
    exact (hp.trans hpoll).trans (submitLater_prims b)
  · exact (handleConn_noIo hat hclosing htr h).mono Effect.NoIo.noBuffers

/-! ## Closes -/

/-- `closeConn` submits one close, or none when there is no slot. -/
theorem closeConn_submits (hat : w.At c fd) (h : w.closeConn c fd = some w') :
    if w.env.sqes.head? = some true then ∃ e : Sqe, e.op = .close fd ∧ e.owner = some c ∧
      w'.trace = w.trace ++ [.sqe e]
    else Prims Effect.NoClose c fd w w' := by
  obtain ⟨⟨b, w₁⟩, hclose, h⟩ := Option.bind_eq_some_iff.mp h
  cases h
  obtain ⟨⟨b', w₂⟩, hsqe, hclose⟩ := Option.bind_eq_some_iff.mp hclose
  obtain ⟨sqes, hs, rfl⟩ := getSqeOrSubmit_eq hsqe
  have hs' : w.env.sqes = b' :: sqes := hs
  cases b' with
  | true =>
    cases hclose
    rw [if_pos (by rw [hs']; rfl)]
    exact ⟨_, rfl, hat.table, rfl⟩
  | false =>
    cases hclose
    rw [if_neg (by rw [hs']; simp)]
    have hmark : Prims Effect.NoClose c fd w (w.modify c fun o => { o with closing := true }) :=
      .single (.change _ trivial rfl rfl fun _ => rfl)
    exact (hmark.trans (withSqes_prims sqes)).trans (submitLater_prims _)

theorem recvFailed_submits {res : Int32} (hat : w.At c fd) (h : w.recvFailed c fd res = some w') :
    if w.env.sqes.head? = some true ∧ ¬(res = -EINVAL ∨ res = -EOPNOTSUPP) then
      ∃ e : Sqe, e.op = .close fd ∧ e.owner = some c ∧ w'.trace = w.trace ++ [.sqe e]
    else Prims Effect.NoClose c fd w w' := by
  have hdisarm : Prims Effect.NoClose c fd w (w.modify c fun o => { o with msRecvArmed := false }) :=
    .single (.change _ trivial rfl rfl id)
  unfold recvFailed at h
  dsimp only at h
  split at h
  · rename_i hmode
    rw [if_neg fun hn => hn.2 hmode]
    have hoff := hdisarm.tail (.msRecvOff trivial)
    exact hoff.trans ((restartRecv_prims (hat.prims hoff).obj h).mono Effect.Recvs.noClose)
  · rename_i hmode
    have hsub := closeConn_submits (hat.prims hdisarm) h
    by_cases hs : w.env.sqes.head? = some true
    · rw [if_pos ⟨hs, hmode⟩]
      rwa [if_pos (by exact hs)] at hsub
    · rw [if_neg fun hn => hs hn.1]
      rw [if_neg (by exact hs)] at hsub
      exact hdisarm.trans hsub

theorem onSend_prims : Prims Effect.NoClose c fd w (w.modify c fun _ => (w.heap c).onSendCompleted.2) :=
  .single (.change _ trivial (onSendCompleted_fd _) (onSendCompleted_parsed _)
    fun hc => (onSendCompleted_closing _).trans hc)

/-- A branch that reaches `close_async`, with a slot for it, submits one close and nothing else. -/
theorem handleConn_closes {kind : Workflow} {cqe : Cqe} (hat : w.At c fd) (hr : w.ReachesClose c kind cqe)
    (h : w.handleConn c fd kind cqe = some w') :
    ∃ e : Sqe, e.op = .close fd ∧ e.owner = some c ∧ w'.trace = w.trace ++ [.sqe e] := by
  obtain ⟨hs, hr⟩ := hr
  unfold handleConn at h
  cases kind with
  | recv =>
    simp only [handleRecv, if_pos hr.1] at h
    have hsub := recvFailed_submits hat h
    rwa [if_pos ⟨hs, hr.2⟩] at hsub
  | send =>
    dsimp only at hr
    simp only [handleSend] at h
    split at h
    · rename_i hneg
      rw [if_pos hneg] at hr
      rw [if_neg hr] at h
      have hsub := closeConn_submits hat h
      rwa [if_pos hs] at hsub
    · rename_i hneg
      rw [if_neg hneg] at hr
      rw [if_pos hr] at h
      have hsub := closeConn_submits (hat.prims onSend_prims) h
      rwa [if_pos (by exact hs)] at hsub
  | requestClose =>
    have hsub := closeConn_submits hat h
    rwa [if_pos hs] at hsub
  | accept | parse | findHandler | generateResponse | requestFlush | pollOut | closed | freeBuffer => cases hr

/-- Every other branch submits no close. -/
theorem handleConn_noClose {kind : Workflow} {cqe : Cqe} (hat : w.At c fd) (hr : ¬w.ReachesClose c kind cqe)
    (h : w.handleConn c fd kind cqe = some w') : Prims Effect.NoClose c fd w w' := by
  unfold handleConn at h
  cases kind with
  | recv =>
    obtain ⟨hres, h⟩ | ⟨-, bid, -, -, h⟩ | ⟨-, -, h⟩ := handleRecv_cases h
    · have hsub := recvFailed_submits hat h
      rwa [if_neg fun hn => hr ⟨hn.1, hres, hn.2⟩] at hsub
    · exact (recvProvided_prims hat h).mono fun e he =>
        he.elim (Effect.Provides.noClose e) (Effect.Receives.noClose e)
    · exact (recvHold_prims hat h).mono Effect.Receives.noClose
  | send =>
    unfold ReachesClose at hr
    dsimp only at hr
    simp only [handleSend] at h
    split at h
    · rename_i hneg
      rw [if_pos hneg] at hr
      split at h
      · obtain ⟨⟨b, w₁⟩, hpoll, h⟩ := Option.bind_eq_some_iff.mp h
        cases h
        have hp : Prims Effect.NoClose c fd w _ := (rollback_prims (w := w) (c := c)).mono Effect.Sends.noClose
        have hpoll := (updatePollout_prims (hat.prims hp).obj hpoll).mono Effect.Polls.noClose
        exact (hp.trans hpoll).trans (submitLater_prims b)
      · rename_i hagain
        have hsub := closeConn_submits hat h
        rwa [if_neg fun hn => hr ⟨hn, hagain⟩] at hsub
    · rename_i hneg
      rw [if_neg hneg] at hr
      refine onSend_prims.trans ?_
      have hat₁ := hat.prims (onSend_prims (w := w) (c := c))
      split at h
      · rename_i hfin
        have hsub := closeConn_submits hat₁ h
        rwa [if_neg (by exact fun hn => hr ⟨hn, hfin⟩)] at hsub
      · exact (sendkick_prims hat₁ h).mono Effect.Sends.noClose
  | pollOut =>
    have hp : Prims Effect.NoClose c fd w (w.modify c fun o => { o with polloutArmed := false }) :=
      .single (.change _ trivial rfl rfl id)
    exact hp.trans ((sendkick_prims (hat.prims hp) h).mono Effect.Sends.noClose)
  | parse => exact (parseStep_prims hat h).mono Effect.Parses.noClose
  | findHandler =>
    cases h
    refine .single (.change _ trivial ?_ ?_ ?_) <;> unfold PerClientStorage.findHandler <;> split <;> simp
  | requestFlush =>
    have hp : Prims Effect.NoClose c fd w (w.modify c fun o => { o with sendkickPending := false }) :=
      .single (.change _ trivial rfl rfl id)
    exact hp.trans ((sendkick_prims (hat.prims hp) h).mono Effect.Sends.noClose)
  | generateResponse => exact (generateResponse_prims hat h).mono Effect.Responds.noClose
  | requestClose =>
    have hsub := closeConn_submits hat h
    rwa [if_neg fun hn => hr ⟨hn, trivial⟩] at hsub
  | accept | closed | freeBuffer =>
    cases h
    exact .refl

theorem closeConn_closing (hat : w.At c fd) (h : w.closeConn c fd = some w') : (w'.heap c).closing = true := by
  obtain ⟨⟨b, w₁⟩, hclose, h⟩ := Option.bind_eq_some_iff.mp h
  cases h
  have hmark : Prims Effect.Closes c fd w (w.modify c fun o => { o with closing := true }) :=
    .single (.change _ (.closing _) rfl rfl fun _ => rfl)
  have hp := (closeAsync_prims (hat.prims hmark) hclose).trans (submitLater_prims b)
  exact (Prims.frame hp).closing (by simp)

/-- After a branch that has submitted a close the connection is closing. -/
theorem handleConn_closing {kind : Workflow} {cqe : Cqe} (hat : w.At c fd) (hr : w.ReachesClose c kind cqe)
    (h : w.handleConn c fd kind cqe = some w') : (w'.heap c).closing = true := by
  obtain ⟨-, hr⟩ := hr
  unfold handleConn at h
  cases kind with
  | recv =>
    simp only [handleRecv, if_pos hr.1, recvFailed, if_neg hr.2] at h
    have hdisarm : Prims Effect.NoClose c fd w (w.modify c fun o => { o with msRecvArmed := false }) :=
      .single (.change _ trivial rfl rfl id)
    exact closeConn_closing (hat.prims hdisarm) h
  | send =>
    dsimp only at hr
    simp only [handleSend] at h
    split at h
    · rename_i hneg
      rw [if_pos hneg] at hr
      rw [if_neg hr] at h
      exact closeConn_closing hat h
    · rename_i hneg
      rw [if_neg hneg] at hr
      rw [if_pos hr] at h
      exact closeConn_closing (hat.prims onSend_prims) h
  | requestClose => exact closeConn_closing hat h
  | accept | parse | findHandler | generateResponse | requestFlush | pollOut | closed | freeBuffer => cases hr

end

end Worker

end IOContext
