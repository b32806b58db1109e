import IOContext.Worker.Blocks

/-!
# Invariants of the sending part of a connection

The sending part of a connection is changed in a few ways only: a batch is taken for a flush, put back or done with, and
buffers are queued. What these keep (`TxInv`) every branch of the switch keeps (`handleConn_keeps`).
-/

namespace IOContext

/-- The sending part of a connection is the same. -/
structure SameTx (o o' : PerClientStorage) : Prop where
  txq : o'.txq = o.txq
  txInflight : o'.txInflight = o.txInflight
  sendInflight : o'.sendInflight = o.sendInflight
  inflightEor : o'.inflightEor = o.inflightEor
  batchedSendData : o'.batchedSendData = o.batchedSendData
  served : o'.served = o.served

/-- What a connection keeps while it sends. -/
structure TxInv (I : PerClientStorage → Prop) : Prop where
  same : ∀ {o o'}, SameTx o o' → I o → I o'
  takeBatch : ∀ {o}, o.Ready → I o → I o.takeBatch
  rollback : ∀ {o}, I o → I o.rollback
  completed : ∀ {o}, I o → I o.onSendCompleted.2

namespace Effect

variable {I : PerClientStorage → Prop}

/-- Every change keeps `I`, and no response is generated. -/
def Keeps (I : PerClientStorage → Prop) : Effect → Prop
  | .change o o' => I o → I o'
  | .enqueue | .invoke => False
  | _ => True

theorem Sends.keeps (hI : TxInv I) : ∀ e, Sends e → Keeps I e
  | _, .flush _ | _, .send _ _ => trivial
  | _, .takeBatch _ h => hI.takeBatch h
  | _, .rollback _ => hI.rollback

theorem Parses.keeps (hI : TxInv I) : ∀ e, Parses e → Keeps I e
  | _, .msg _ _ | _, .segment | _, .crash => trivial
  | _, .closing _ => hI.same ⟨rfl, rfl, rfl, rfl, rfl, rfl⟩

theorem Recvs.keeps (hI : TxInv I) : ∀ e, Recvs e → Keeps I e
  | _, .multishot _ | _, .single _ _ | _, .alloc => trivial
  | _, .armed _ | _, .hold _ _ => hI.same ⟨rfl, rfl, rfl, rfl, rfl, rfl⟩

theorem Closes.keeps (hI : TxInv I) : ∀ e, Closes e → Keeps I e
  | _, .close _ => trivial
  | _, .closing _ => hI.same ⟨rfl, rfl, rfl, rfl, rfl, rfl⟩

theorem Polls.keeps (hI : TxInv I) : ∀ e, Polls e → Keeps I e
  | _, .poll _ => trivial
  | _, .armed _ => hI.same ⟨rfl, rfl, rfl, rfl, rfl, rfl⟩

theorem Provides.keeps : ∀ e, Provides e → Keeps I e
  | _, .provide _ _ => trivial

theorem Receives.keeps (hI : TxInv I) : ∀ e, Receives e → Keeps I e
  | _, .parses h => Parses.keeps hI _ h
  | _, .sends h => Sends.keeps hI _ h
  | _, .recvs h => Recvs.keeps hI _ h
  | _, .queue _ _ | _, .disarm _ => hI.same ⟨rfl, rfl, rfl, rfl, rfl, rfl⟩

theorem Fails.keeps (hI : TxInv I) : ∀ e, Fails e → Keeps I e
  | _, .recvs h => Recvs.keeps hI _ h
  | _, .closes h => Closes.keeps hI _ h
  | _, .disarm _ => hI.same ⟨rfl, rfl, rfl, rfl, rfl, rfl⟩
  | _, .msRecvOff => trivial

theorem Completes.keeps (hI : TxInv I) : ∀ e, Completes e → Keeps I e
  | _, .sends h => Sends.keeps hI _ h
  | _, .polls h => Polls.keeps hI _ h
  | _, .closes h => Closes.keeps hI _ h
  | _, .done _ => hI.completed

end Effect

namespace Worker

variable {I : PerClientStorage → Prop} {c : Ptr} {fd : Fd} {w w' : Worker} {cqe : Cqe}

theorem Prims.keeps (h : Prims (Effect.Keeps I) c fd w w') (hI : TxInv I) : I (w.heap c) → I (w'.heap c) := by
  refine h.lift (R := fun w w' => I (w.heap c) → I (w'.heap c)) (fun _ => id) (fun _ _ _ h h' hi => h' (h hi)) ?_
  intro w w' h hi
  cases h with
  | change f hL => simpa using hL hi
  | enqueue hL | invoke hL => exact hL.elim
  | segment => exact hI.same (by constructor <;> simp) hi
  | quiet | crash | alloc | msRecvOff | acceptMode | submit => exact hi

/-- A sequence without a response. -/
theorem handleRecv_quiet (hI : TxInv I) (hat : w.At c fd) (h : w.handleRecv c fd cqe = some w') :
    Prims (Effect.Keeps I) c fd w w' := by
  obtain ⟨-, h⟩ | ⟨-, bid, -, -, h⟩ | ⟨-, -, h⟩ := handleRecv_cases h
  · exact (recvFailed_prims hat h).mono (Effect.Fails.keeps hI)
  · exact (recvProvided_prims hat h).mono fun e he => he.elim (Effect.Provides.keeps e) (Effect.Receives.keeps hI e)
  · exact (recvHold_prims hat h).mono (Effect.Receives.keeps hI)

/-- The branches that generate no response. -/
theorem handleConn_quiet (hI : TxInv I) {kind : Workflow} (hkind : kind ≠ .generateResponse) (hat : w.At c fd)
    (h : w.handleConn c fd kind cqe = some w') : Prims (Effect.Keeps I) c fd w w' := by
  have hflag : ∀ f : PerClientStorage → PerClientStorage, SameTx (w.heap c) (f (w.heap c)) →
      (f (w.heap c)).fd = (w.heap c).fd → (f (w.heap c)).parser = (w.heap c).parser →
      ((w.heap c).closing = true → (f (w.heap c)).closing = true) → Prims (Effect.Keeps I) c fd w (w.modify c f) :=
    fun f hsame hfd hparser hclosing => .single (.change f (hI.same hsame) hfd hparser hclosing)
  unfold handleConn at h
  cases kind with
  | recv => exact handleRecv_quiet hI hat h
  | send => exact (handleSend_prims hat h).mono (Effect.Completes.keeps hI)
  | pollOut =>
    have hp := hflag (fun o => { o with polloutArmed := false }) ⟨rfl, rfl, rfl, rfl, rfl, rfl⟩ rfl rfl id
    exact hp.trans ((sendkick_prims (hat.prims hp) h).mono (Effect.Sends.keeps hI))
  | requestFlush =>
    have hp := hflag (fun o => { o with sendkickPending := false }) ⟨rfl, rfl, rfl, rfl, rfl, rfl⟩ rfl rfl id
    exact hp.trans ((sendkick_prims (hat.prims hp) h).mono (Effect.Sends.keeps hI))
  | parse => exact (parseStep_prims hat h).mono (Effect.Parses.keeps hI)
  | findHandler =>
    cases h
    refine hflag _ ?_ ?_ ?_ ?_ <;> unfold PerClientStorage.findHandler <;> split
    all_goals first | exact ⟨rfl, rfl, rfl, rfl, rfl, rfl⟩ | rfl | exact id
  | generateResponse => exact absurd rfl hkind
  | requestClose => exact (closeConn_prims hat h).mono (Effect.Closes.keeps hI)
  | accept | closed | freeBuffer =>
    cases h
    exact .refl

/-- A response is queued, and what is kept when one of its buffers is appended stays. -/
theorem generateResponse_keeps (hI : TxInv I)
    (happend : ∀ {o : PerClientStorage} {b : OwnedBuf}, b.eor = false → I o → I { o with txq := o.txq ++ [b] })
    (hat : w.At c fd) (h : w.generateResponse c = some w') : I (w.heap c) → I (w'.heap c) := by
  unfold generateResponse at h
  split at h
  · cases h
    exact id
  · rename_i hd _
    dsimp only at h
    generalize hbufs : PerClientStorage.responseBufs ((w.invokeHandler c hd).heap c).parser.res = bufs at h
    have hunmarked : ∀ b ∈ bufs, b.eor = false := by
      rw [← hbufs]
      exact PerClientStorage.responseBufs_eor _
    have hinv : Prims Effect.Responds c fd w (w.invokeHandler c hd) := .single (.invoke .invoke hd _)
    have hat₁ := hat.prims (hinv.trans (enqueueAll_prims .enqueue bufs))
    obtain ⟨-, -, hobj⟩ := enqueueAll_eq (w.invokeHandler c hd) c bufs
    have happendAll : ∀ (bufs : List OwnedBuf) (o : PerClientStorage), (∀ b ∈ bufs, b.eor = false) → I o →
        I { o with txq := o.txq ++ bufs } := by
      intro bufs
      induction bufs with
      | nil => exact fun o _ hi => hI.same ⟨List.append_nil _, rfl, rfl, rfl, rfl, rfl⟩ hi
      | cons b bufs ih =>
        intro o heor hi
        have hrest := ih _ (fun b' hb' => heor b' (List.mem_cons_of_mem _ hb')) (happend (heor b List.mem_cons_self) hi)
        simpa using hrest
    intro hi
    have hi₁ : I ((w.invokeHandler c hd).heap c) := hI.same (by constructor <;> simp [invokeHandler]) hi
    unfold post at h
    rw [hat₁.obj] at h
    refine ((flushTask_prims hat₁ h).mono (Effect.Sends.keeps hI)).keeps hI ?_
    rw [hobj]
    exact happendAll bufs _ hunmarked hi₁

/-- What a connection keeps while it sends and is given responses to send, every branch keeps. -/
theorem handleConn_keeps (hI : TxInv I)
    (happend : ∀ {o : PerClientStorage} {b : OwnedBuf}, b.eor = false → I o → I { o with txq := o.txq ++ [b] })
    {kind : Workflow} (hat : w.At c fd) (h : w.handleConn c fd kind cqe = some w') : I (w.heap c) → I (w'.heap c) := by
  by_cases hkind : kind = .generateResponse
  · subst hkind
    exact generateResponse_keeps hI happend hat h
  · exact (handleConn_quiet hI hkind hat h).keeps hI

end Worker

end IOContext
