import IOContext.Closing
import IOContext.SendStream
import IOContext.Worker.Batches

/-!
# Keep-alive accounting

The runs of one connection among the others of its worker, with the responses that are generated for it and how far its
sends have handed them over.

- No buffer that is queued marks the end of a response, so that no response is counted (`Unmarked`, kept by
  `handleConn_unmarked`); the bytes queued are the responses one after another (`handleConn_answers`).
- What is outstanding follows what sends have completed for (`Inv.outstanding`).
- The connection is accounted for and closed as announced exactly as long as no send hands over the last byte of a
  response (`accounted_iff`).
-/

namespace IOContext

/-! ## Responses -/

/-- The responses that have been generated for `c`, with their requests. -/
def responsesOf (c : Ptr) (evs : List Event) : List (Request × Bytes) :=
  evs.filterMap fun
    | .invoke q h req res =>
      if q = c then some (req, (PerClientStorage.responseBufs (h req res)).flatMap (·.wb)) else none
    | _ => none

@[simp] theorem responsesOf_append (c : Ptr) (evs evs' : List Event) :
    responsesOf c (evs ++ evs') = responsesOf c evs ++ responsesOf c evs' := List.filterMap_append

theorem responsesOf_apart {c : Ptr} {evs : List Event} (h : ∀ ev ∈ evs, ev.Apart c) : responsesOf c evs = [] :=
  List.filterMap_eq_nil_iff.mpr fun ev he => by
    cases ev with
    | invoke q hd req res => exact if_neg (h _ he)
    | sqe | segment | enqueue => rfl

/-- Where each response ends in the bytes queued, the first of them being at `n`. -/
def endings : Nat → List (Request × Bytes) → List (Request × Nat)
  | _, [] => []
  | n, (req, bytes) :: rs => (req, n + bytes.length) :: endings (n + bytes.length) rs

/-- The request carries `Connection: close`. -/
def Request.AsksClose (req : Request) : Prop :=
  (req.headers.get (ascii "Connection")).dropWhile isSpace = ascii "close"

/-- Nothing that the connection is to send marks the end of a response, and none has been counted. -/
structure PerClientStorage.Unmarked (o : PerClientStorage) : Prop where
  txq : ∀ b ∈ o.txq, b.eor = false
  txInflight : ∀ b ∈ o.txInflight, b.eor = false
  inflightEor : o.inflightEor = false
  served : o.served = 0

namespace PerClientStorage

variable {o o' : PerClientStorage}

theorem gather_unmarked : ∀ (n : Nat) {q : List OwnedBuf}, (∀ b ∈ q, b.eor = false) → (gather n q).2 = false
  | 0, _, _ => rfl
  | _ + 1, [], _ => rfl
  | n + 1, b :: q, h => by
    have hb : b.eor = false := h b List.mem_cons_self
    unfold gather
    rw [if_neg (by simp [hb])]
    exact gather_unmarked n fun b' hb' => h b' (List.mem_cons_of_mem _ hb')

theorem Unmarked.takeBatch (h : o.Unmarked) : o.takeBatch.Unmarked :=
  ⟨fun b hb => h.txq b (List.mem_of_mem_drop hb), fun b hb => h.txq b (List.mem_of_mem_take hb),
    gather_unmarked MAX_IOV h.txq, h.served⟩

theorem Unmarked.rollback (h : o.Unmarked) : o.rollback.Unmarked := by
  refine ⟨fun b hb => ?_, fun b hb => absurd hb List.not_mem_nil, rfl, h.served⟩
  rw [rollback_txq] at hb
  exact (List.mem_append.mp hb).elim (h.txInflight b) (h.txq b)

theorem Unmarked.onSendCompleted (h : o.Unmarked) : o.onSendCompleted.1 = false ∧ o.onSendCompleted.2.Unmarked := by
  unfold PerClientStorage.onSendCompleted
  rw [h.inflightEor]
  exact ⟨rfl, h.txq, fun b hb => absurd hb List.not_mem_nil, rfl, h.served⟩

theorem Unmarked.txInv : TxInv Unmarked where
  same h hu := ⟨by rw [h.txq]; exact hu.txq, by rw [h.txInflight]; exact hu.txInflight,
    h.inflightEor.trans hu.inflightEor,
    h.served.trans hu.served⟩
  takeBatch _ := Unmarked.takeBatch
  rollback := Unmarked.rollback
  completed hu := hu.onSendCompleted.2

theorem Unmarked.append {b : OwnedBuf} (hb : b.eor = false) (h : o.Unmarked) :
    { o with txq := o.txq ++ [b] }.Unmarked := by
  refine ⟨fun b' hb' => ?_, h.txInflight, h.inflightEor, h.served⟩
  rcases List.mem_append.mp hb' with hb' | hb'
  · exact h.txq b' hb'
  · exact List.mem_singleton.mp hb' ▸ hb

end PerClientStorage

namespace Worker

variable {c : Ptr} {fd : Fd} {w w' w'' : Worker} {cqe : Cqe}

/-- Buffers are queued only as whole responses. -/
def Answers (c : Ptr) (evs : List Event) : Prop :=
  (queuedOf c evs).flatMap (·.wb) = (responsesOf c evs).flatMap (·.2)

theorem Prims.answers {I : PerClientStorage → Prop} (h : Prims (Effect.Keeps I) c fd w w') :
    ∃ evs, w'.trace = w.trace ++ evs ∧ Answers c evs := by
  obtain ⟨evs, htrace, hev⟩ := h.trace
  have hqueued : queuedOf c evs = [] := h.queuedOf_nil id htrace
  have hresponses : responsesOf c evs = [] := List.filterMap_eq_nil_iff.mpr fun ev he => by
    cases ev with
    | invoke => exact (hev _ he).1.elim
    | sqe | segment | enqueue => rfl
  exact ⟨evs, htrace, by rw [Answers, hqueued, hresponses]; rfl⟩

/-- A response is queued as a whole. -/
theorem generateResponse_answers (hat : w.At c fd) (h : w.generateResponse c = some w') :
    ∃ evs, w'.trace = w.trace ++ evs ∧ Answers c evs := by
  cases hh : (w.heap c).requestHandler with
  | none =>
    simp only [generateResponse, hh, Option.some.injEq] at h
    subst h
    exact ⟨[], (List.append_nil _).symm, rfl⟩
  | some hd =>
    obtain ⟨w₁, sqes, -, hat₁, htrace, -, -, hflush⟩ := generateResponse_eq hat hh h
    generalize hbufs : PerClientStorage.responseBufs (hd (w.heap c).parser.req (w.heap c).parser.res) = bufs at htrace
    obtain ⟨evs, htrace', hevs⟩ :=
      Prims.answers ((flushTask_prims hat₁ hflush).mono (Effect.Sends.keeps PerClientStorage.Unmarked.txInv))
    refine ⟨.invoke c hd (w.heap c).parser.req (w.heap c).parser.res :: (bufs.map (.enqueue c) ++ evs), ?_, ?_⟩
    · rw [htrace', htrace, List.append_assoc, List.cons_append]
    · have hqueued : queuedOf c (bufs.map (.enqueue c)) = bufs := by simp [queuedOf, List.filterMap_map]
      have hnone : responsesOf c (bufs.map (.enqueue c)) = [] := by simp [responsesOf, List.filterMap_map]
      unfold Answers at hevs ⊢
      rw [← List.singleton_append, queuedOf_append, queuedOf_append, responsesOf_append, responsesOf_append, hqueued,
        hnone]
      simp [queuedOf, responsesOf, hbufs] at hevs ⊢
      exact hevs

theorem handleConn_answers {kind : Workflow} (hat : w.At c fd) (h : w.handleConn c fd kind cqe = some w') :
    ∃ evs, w'.trace = w.trace ++ evs ∧ Answers c evs := by
  by_cases hkind : kind = .generateResponse
  · subst hkind
    exact generateResponse_answers hat h
  · exact (handleConn_quiet PerClientStorage.Unmarked.txInv hkind hat h).answers

theorem handleConn_unmarked {kind : Workflow} (hat : w.At c fd) (h : w.handleConn c fd kind cqe = some w') :
    (w.heap c).Unmarked → (w'.heap c).Unmarked :=
  handleConn_keeps PerClientStorage.Unmarked.txInv PerClientStorage.Unmarked.append hat h

end Worker

/-! ## Accounts -/

/-- A connection and what the kernel knows of it, with what has become of its responses. -/
structure Account where
  s : Stream
  /-- The bytes that a send has completed for, taken by the kernel or not. -/
  done : Bytes := []
  /-- The requests whose responses sends have handed over to their last byte. -/
  answered : List Request := []

namespace Account

open Worker

inductive Action
  | own (a : Stream.Action)
  /-- A completion that is handled for another connection or for none. -/
  | other (fd : Fd) (kind : Workflow) (cqe : Cqe) (bufPool holds : Nat → Bytes) (env : Env)

def obj (s : Account) : PerClientStorage := s.s.w.heap s.s.c

/-- The responses that end within the next `n` bytes after those done with. -/
def ending (s : Account) (n : Nat) : List (Request × Nat) :=
  (endings 0 (responsesOf s.s.c s.s.w.trace)).filter fun r => s.done.length < r.2 ∧ r.2 ≤ s.done.length + n

/-- The requests whose responses' last byte the completion hands over. -/
def finished (s : Account) : Action → List Request
  | .own (.sent _ res _) => (s.ending res.toInt.toNat).map Prod.fst
  | _ => []

/-- The bytes that the completion is done with. -/
def batch (s : Account) : Action → Bytes
  | .own (.sent i res _) => if res < 0 then [] else (s.s.outstanding[i]?.getD []).flatten
  | _ => []

def step (s : Account) (a : Action) : Option Account :=
  match a with
  | .own b =>
    (s.s.step b).map fun s' => { s := s', done := s.done ++ s.batch a, answered := s.answered ++ s.finished a }
  | .other fd kind cqe bufPool holds env =>
    if s.s.w.terminated ∨ s.s.w.table fd = some s.s.c then none
    else ({ s.s.w with bufPool := bufPool, holds := holds, env := env }.handle fd kind cqe).map fun w' =>
      { s with s := { s.s with w := w' } }

/-- A connection that nothing has been queued for. -/
structure Init (s : Account) : Prop where
  ok : s.s.w.Ok
  stream : s.s.Init
  txInflight : s.obj.txInflight = []
  inflightEor : s.obj.inflightEor = false
  served : s.obj.served = 0
  responses : responsesOf s.s.c s.s.w.trace = []
  done : s.done = []
  answered : s.answered = []

variable {s s' t : Account} {a : Action} {ts : List (Transition Account Action)}

/-! ## The invariant -/

/-- The outstanding send follows the bytes done with, the bytes queued are the responses, and no response has been
counted. -/
structure Inv (s : Account) : Prop where
  ok : s.s.w.Ok
  live : s.s.w.At s.s.c s.s.fd
  good : Stream.Good s.s.w s.s.c s.s.outstanding s.done
  queued : s.s.queued = (responsesOf s.s.c s.s.w.trace).flatMap (·.2)
  unmarked : s.obj.Unmarked

theorem Init.inv (h : s.Init) : s.Inv := by
  obtain ⟨hat, htxq, hidle, hqueued, hout, -⟩ := h.stream
  refine ⟨h.ok, hat, ⟨⟨[], by simp [h.done], ?_⟩, .inl hout⟩, ?_, ?_⟩
  · simp [Sender.Inv, Worker.sender, htxq, hqueued, PerClientStorage.batch, hidle]
  · simp [Stream.queued, hqueued, h.responses]
  · exact ⟨fun b hb => by simp [obj, htxq] at hb, fun b hb => by simp [h.txInflight] at hb, h.inflightEor, h.served⟩

/-- A step, by the branch that is taken. -/
inductive Stepped (s : Account) : Action → Account → Prop
  | handle {kind : Workflow} {cqe : Cqe} {bufPool holds : Nat → Bytes} {env : Env} {w' : Worker} (hkind : kind ≠ .send)
      (h : { s.s.w with bufPool := bufPool, holds := holds, env := env }.handleConn s.s.c s.s.fd kind cqe = some w') :
      Stepped s (.own (.handle kind cqe bufPool holds env))
        { s with s := { s.s with w := w', outstanding := s.s.outstanding ++ Stream.sendsSince s.s.w w' } }
  | sent {i : Nat} {res : Int32} {env : Env} {iov : List Bytes} {w' : Worker} (hi : s.s.outstanding[i]? = some iov)
      (h : { s.s.w with env := env }.handleConn s.s.c s.s.fd .send { res := res } = some w') :
      Stepped s (.own (.sent i res env))
        { s := { s.s with
            w := w'
            outstanding := s.s.outstanding.eraseIdx i ++ Stream.sendsSince s.s.w w'
            taken := s.s.taken ++ iov.flatten.take res.toInt.toNat }
          done := s.done ++ if res < 0 then [] else iov.flatten
          answered := s.answered ++ s.finished (.own (.sent i res env)) }
  | other {fd : Fd} {kind : Workflow} {cqe : Cqe} {bufPool holds : Nat → Bytes} {env : Env} {w' : Worker}
      (hne : s.s.w.table fd ≠ some s.s.c)
      (h : { s.s.w with bufPool := bufPool, holds := holds, env := env }.handle fd kind cqe = some w') :
      Stepped s (.other fd kind cqe bufPool holds env) { s with s := { s.s with w := w' } }

theorem step_cases (h : s.step a = some s') : Stepped s a s' := by
  cases a with
  | own b =>
    obtain ⟨s₁, hs, rfl⟩ := Option.map_eq_some_iff.mp h
    unfold Stream.step at hs
    split at hs
    · cases hs
    · cases b with
      | handle kind cqe bufPool holds env =>
        dsimp only at hs
        split at hs
        · cases hs
        · rename_i hkind
          obtain ⟨w', hw, hs⟩ := Option.bind_eq_some_iff.mp hs
          cases hs
          simpa only [batch, finished, List.append_nil] using Stepped.handle (s := s) hkind hw
      | sent i res env =>
        obtain ⟨iov, hi, hs⟩ := Option.bind_eq_some_iff.mp hs
        split at hs
        · obtain ⟨w', hw, hs⟩ := Option.bind_eq_some_iff.mp hs
          cases hs
          simpa only [batch, hi, Option.getD_some] using Stepped.sent (s := s) hi hw
        · cases hs
  | other fd kind cqe bufPool holds env =>
    unfold step at h
    dsimp only at h
    split at h
    · cases h
    · rename_i hno
      obtain ⟨w', hw, rfl⟩ := Option.map_eq_some_iff.mp h
      exact .other (fun hc => hno (.inr hc)) hw

/-- The bytes queued stay those of the responses. -/
theorem Inv.answers {w w' : Worker} {evs : List Event} (h : s.Inv) (hstart : w.trace = s.s.w.trace)
    (htrace : w'.trace = w.trace ++ evs) (hevs : Answers s.s.c evs) :
    (queuedOf s.s.c w'.trace).flatMap (·.wb) = (responsesOf s.s.c w'.trace).flatMap (·.2) := by
  rw [htrace, hstart, queuedOf_append, responsesOf_append, List.flatMap_append, List.flatMap_append, hevs]
  exact congrArg (· ++ _) h.queued

theorem Inv.stepped (h : s.Inv) (hs : Stepped s a s') : s'.Inv := by
  have hat : ∀ bufPool holds env,
      ({ s.s.w with bufPool := bufPool, holds := holds, env := env } : Worker).At s.s.c s.s.fd :=
    fun _ _ _ => ⟨h.live.table, h.live.obj⟩
  have hok : ∀ bufPool holds env, ({ s.s.w with bufPool := bufPool, holds := holds, env := env } : Worker).Ok :=
    fun _ _ _ => ⟨h.ok.obj, h.ok.lt⟩
  have hgood : ∀ bufPool holds env, Stream.Good { s.s.w with bufPool := bufPool, holds := holds, env := env } s.s.c
      s.s.outstanding s.done := fun _ _ _ => ⟨h.good.sender, h.good.outstanding⟩
  cases hs with
  | @handle kind cqe bufPool holds env w' hkind hw =>
    have hat := hat bufPool holds env
    have hp := handleConn_prims hat hw
    obtain ⟨evs, htrace, hevs⟩ := handleConn_answers hat hw
    have hqueued := h.answers (by rfl) htrace hevs
    have hunmarked := handleConn_unmarked hat hw h.unmarked
    have hgood' := (hgood bufPool holds env).transfers (handleConn_transfers hkind hat hw)
    exact ⟨(hok ..).frame hp.frame, hat.prims hp, hgood', hqueued, hunmarked⟩
  | @sent i res env iov w' hi hw =>
    have hat := hat s.s.w.bufPool s.s.w.holds env
    have hp := handleConn_prims hat hw
    obtain ⟨evs, htrace, hevs⟩ := handleConn_answers hat hw
    have hqueued := h.answers (by rfl) htrace hevs
    have hunmarked := handleConn_unmarked hat hw h.unmarked
    have hgood' := (hgood s.s.w.bufPool s.s.w.holds env).completed hi hat hw
    exact ⟨(hok ..).frame hp.frame, hat.prims hp, hgood', hqueued, hunmarked⟩
  | @other fd kind cqe bufPool holds env w' hne hw =>
    have hat := hat bufPool holds env
    have hok := hok bufPool holds env
    obtain ⟨hheap, htable⟩ := handle_other hok hw hat.table hne
    obtain ⟨evs, htrace, hev⟩ := handle_apart hok hw hat.table hne
    have hok' := hok.moves (handle_moves hok hw)
    have hqueued := h.answers (by rfl) htrace (by rw [Answers, queuedOf_apart hev, responsesOf_apart hev]; rfl)
    have hunmarked : (w'.heap s.s.c).Unmarked := by
      rw [hheap]
      exact h.unmarked
    have hgood' := (hgood bufPool holds env).apart hheap htrace hev
    exact ⟨hok', ⟨htable, hok'.obj _ _ htable⟩, hgood', hqueued, hunmarked⟩

theorem Inv.run (h : s.Inv) (hrun : Run step s ts t) : t.Inv := by
  induction hrun with
  | nil => exact h
  | cons hstep _ ih => exact ih (h.stepped (step_cases hstep))

/-- What is outstanding follows, in the bytes of the responses, the bytes that sends have completed for. -/
theorem Inv.outstanding (h : s.Inv) {iov : List Bytes} (hiov : iov ∈ s.s.outstanding) :
    s.done ++ iov.flatten <+: (responsesOf s.s.c s.s.w.trace).flatMap (·.2) := by
  obtain ⟨done, hdone, hinv⟩ := h.good.sender
  rw [← h.queued, hdone]
  obtain hnone | ⟨b, hb, hout⟩ := h.good.outstanding
  · rw [hnone] at hiov
    cases hiov
  · rw [hout, List.mem_singleton] at hiov
    unfold Sender.Inv at hinv
    have hbatch : (s.s.w.sender s.s.c done).batch = some b := hb
    rw [hbatch, Option.getD_some] at hinv
    subst hiov
    rw [← List.flatMap_def]
    show _ <+: ((s.s.w.sender s.s.c done).pushed).flatMap (·.wb)
    rw [← hinv]
    simp only [List.flatMap_append]
    exact List.prefix_append ..

/-! ## Accounting -/

/-- The end of the input or an error other than a send that would block. -/
def Fails : Action → Prop
  | .own (.handle kind cqe _ _ _) => kind = .recv ∧ cqe.res ≤ 0 ∨ kind = .requestClose
  | .own (.sent _ res _) => res < 0 ∧ ¬(res = -EAGAIN ∨ res = -EWOULDBLOCK)
  | .other .. => False

/-- The step submits a close for the connection. -/
def Closes (e : Transition Account Action) : Prop :=
  ∃ q ∈ sqesOf (e.after.s.w.trace.drop e.before.s.w.trace.length), q.owner = some e.before.s.c ∧ q.op.IsClose

/-- The step completes a response after which the connection is to be closed. -/
def Due (e : Transition Account Action) : Prop :=
  ∃ req ∈ e.before.finished e.action, e.after.obj.keepaliveLimit.toNat ≤ e.after.obj.served.toNat ∨ req.AsksClose

/-- The responses handed over are counted, and the connection is closed after the last of them, and not before. -/
structure Accounted (e : Transition Account Action) : Prop where
  served : e.after.obj.served.toNat = e.after.answered.length
  close : ¬Fails e.action → (Closes e ↔ Due e)

/-- The completion hands over no response's last byte. -/
def PartOnly (s : Account) : Action → Prop
  | .own (.sent _ res _) => ∀ r ∈ endings 0 (responsesOf s.s.c s.s.w.trace),
      ¬(s.done.length < r.2 ∧ r.2 ≤ s.done.length + res.toInt.toNat)
  | _ => True

instance (s : Account) (a : Action) : Decidable (s.PartOnly a) :=
  match a with
  | .own (.sent _ res _) => inferInstanceAs (Decidable (∀ r ∈ endings 0 (responsesOf s.s.c s.s.w.trace),
      ¬(s.done.length < r.2 ∧ r.2 ≤ s.done.length + res.toInt.toNat)))
  | .own (.handle ..) | .other .. => isTrue trivial

theorem finished_eq_nil : s.finished a = [] ↔ s.PartOnly a := by
  cases a with
  | other => simp [finished, PartOnly]
  | own b =>
    cases b with
    | handle => simp [finished, PartOnly]
    | sent i res env => simp [finished, PartOnly, ending, List.filter_eq_nil_iff]

theorem stepped_answered (hs : Stepped s a s') : s'.answered = s.answered ++ s.finished a := by
  cases hs with
  | handle | other => exact (List.append_nil _).symm
  | sent => rfl

/-- The connection is closed only at the end of the input or because of an error. -/
theorem Inv.no_close (h : s.Inv) (hs : Stepped s a s') (hfails : ¬Fails a) : ¬Closes ⟨s, a, s'⟩ := by
  have hat : ∀ bufPool holds env, ({ s.s.w with bufPool := bufPool, holds := holds, env := env } :
    Worker).At s.s.c s.s.fd :=
    fun _ _ _ => ⟨h.live.table, h.live.obj⟩
  have hnone : ∀ {w' : Worker} {evs : List Event}, w'.trace = s.s.w.trace ++ evs →
      (∀ q ∈ sqesOf evs, ¬(q.owner = some s.s.c ∧ q.op.IsClose)) →
      ¬∃ q ∈ sqesOf (w'.trace.drop s.s.w.trace.length), q.owner = some s.s.c ∧ q.op.IsClose := by
    rintro w' evs htrace hev ⟨q, hq, hclose⟩
    rw [htrace, List.drop_left] at hq
    exact hev q hq hclose
  have hplain : ∀ {w w' : Worker} {kind : Workflow} {cqe : Cqe}, w.At s.s.c s.s.fd → w.trace = s.s.w.trace →
      w.handleConn s.s.c s.s.fd kind cqe = some w' → ¬w.ReachesClose s.s.c kind cqe →
      ¬∃ q ∈ sqesOf (w'.trace.drop s.s.w.trace.length), q.owner = some s.s.c ∧ q.op.IsClose := by
    intro w w' kind cqe hat htrace hw hr
    have hp := handleConn_noClose hat hr hw
    obtain ⟨evs, htrace', -⟩ := hp.trace
    have hsubmits := Prims.submits hp htrace'
    rw [htrace] at htrace'
    exact hnone htrace' fun q hq hclose => hsubmits q hq hclose.2
  cases hs with
  | @handle kind cqe bufPool holds env w' hkind hw =>
    refine hplain (hat bufPool holds env) rfl hw fun hr => ?_
    have hr := hr.2
    cases kind with
    | recv => exact hfails (.inl ⟨rfl, hr.1⟩)
    | requestClose => exact hfails (.inr rfl)
    | send => exact hkind rfl
    | accept | parse | findHandler | generateResponse | requestFlush | pollOut | closed | freeBuffer => exact hr
  | @sent i res env iov w' hi hw =>
    refine hplain (hat s.s.w.bufPool s.s.w.holds env) rfl hw fun hr => ?_
    have hr := hr.2
    dsimp only at hr
    split at hr
    · rename_i hneg
      exact hfails ⟨hneg, hr⟩
    · have hfinished := h.unmarked.onSendCompleted.1
      exact Bool.false_ne_true (hfinished.symm.trans hr)
  | @other fd kind cqe bufPool holds env w' hne hw =>
    have hok : ({ s.s.w with bufPool := bufPool, holds := holds, env := env } : Worker).Ok := ⟨h.ok.obj, h.ok.lt⟩
    obtain ⟨evs, htrace, hev⟩ := handle_apart hok hw (hat bufPool holds env).table hne
    exact hnone htrace fun q hq hclose => hev _ (mem_sqesOf.mp hq) hclose.1

/-- The connection is accounted for, and closed as announced, exactly as long as no send hands over the last byte of a
response. -/
theorem accounted_iff (hinit : s.Init) (h : Run step s ts t) :
    (∀ e ∈ ts, Accounted e) ↔ ∀ e ∈ ts, e.before.PartOnly e.action := by
  have hnil := hinit.answered
  have hinv := hinit.inv
  clear hinit
  induction h with
  | nil => simp
  | @cons s s' t a ts hstep _ ih =>
    have hs := step_cases hstep
    have hinv' := hinv.stepped hs
    have hanswered := stepped_answered hs
    rw [hnil, List.nil_append] at hanswered
    have hserved : s'.obj.served.toNat = 0 := by
      rw [hinv'.unmarked.served]
      rfl
    have hhead : Accounted ⟨s, a, s'⟩ ↔ s.PartOnly a := by
      rw [← finished_eq_nil]
      constructor
      · intro hacc
        have hcount : s'.obj.served.toNat = s'.answered.length := hacc.served
        rw [hserved, hanswered] at hcount
        exact List.length_eq_zero_iff.mp hcount.symm
      · intro hpart
        refine ⟨show s'.obj.served.toNat = s'.answered.length by rw [hserved, hanswered, hpart]; rfl, fun hfails => ?_⟩
        refine iff_of_false (hinv.no_close hs hfails) ?_
        rintro ⟨req, hreq, -⟩
        have hreq : req ∈ s.finished a := hreq
        rw [hpart] at hreq
        cases hreq
    simp only [List.forall_mem_cons, hhead]
    refine and_congr_right fun hpart => ih ?_ hinv'
    rw [hanswered]
    exact finished_eq_nil.mpr hpart

instance (s : Account) : Decidable (∃ req ∈ s.answered, req.AsksClose) :=
  inferInstanceAs (Decidable (∃ req ∈ s.answered,
    (req.headers.get (ascii "Connection")).dropWhile isSpace = ascii "close"))

/-- A connection that has been accepted as 5 and is to be closed after one response. -/
def accepted : Account where
  s := { Stream.accepted with
    w := { Stream.accepted.w with
      heap := fun c => if c = 0 then { fd := 5, hasOwner := true, rxHold := some 0, keepaliveLimit := 1 } else {} } }

theorem accepted_init : accepted.Init where
  ok := by
    have hentry : ∀ fd c, accepted.s.w.table fd = some c → fd = 5 ∧ c = 0 := fun fd c h => by
      change (if fd = 5 then some 0 else none) = some c at h
      split at h
      · exact ⟨‹_›, (Option.some.inj h).symm⟩
      · cases h
    constructor
    · intro fd c h
      obtain ⟨rfl, rfl⟩ := hentry fd c h
      rfl
    · intro fd c h
      obtain ⟨rfl, rfl⟩ := hentry fd c h
      exact Nat.one_pos
  stream := ⟨⟨rfl, rfl⟩, rfl, rfl, rfl, rfl, rfl⟩
  txInflight := rfl
  inflightEor := rfl
  served := rfl
  responses := rfl
  done := rfl
  answered := rfl

/-- A request for the connection to be closed arrives, and a response to it is sent: all but `n` of its bytes. -/
def exchanged (n : Nat) : List Action :=
  [.own (.handle .recv { res := 37 } (fun _ => []) (fun _ => ascii "GET / HTTP/1.1" ++ [CR, LF] ++
      ascii "Connection: close" ++ [CR, LF, CR, LF]) { sqes := [true, true, true] }),
    .own (.handle .findHandler { res := 0 } (fun _ => []) (fun _ => []) {}),
    .own (.handle .generateResponse { res := 0 } (fun _ => []) (fun _ => []) { sqes := [true] }),
    .own (.handle .requestFlush { res := 0 } (fun _ => []) (fun _ => []) { sqes := [true] }),
    .own (.sent 0 (Int32.ofNat (38 - n)) {})]

theorem accounted_iff_part :
    ∃ ts t, Run step accepted ts t ∧ ts.map (·.action) = exchanged 1 ∧ ∀ e ∈ ts, Accounted e := by
  obtain ⟨t, ht, -⟩ := Option.map_eq_some_iff.mp (show
    (execAll step PartOnly (exchanged 1) accepted).map (fun t => decide (t.answered = [])) =
      some true by decide +kernel)
  obtain ⟨ts, hrun, hactions, hpart⟩ := Run.exec ht
  exact ⟨ts, t, hrun, hactions, (accounted_iff accepted_init hrun).mpr hpart⟩

/-- The whole response is sent, on a connection that is to be closed after one response, to a request that asks for
this: nothing is counted and nothing closed. -/
theorem answered_not_counted : ∃ ts t, Init accepted ∧ Run step accepted ts t ∧ ts.map (·.action) = exchanged 0 ∧
    (t.obj.keepaliveLimit = 1 ∧ (∃ req ∈ t.answered, req.AsksClose) ∧ t.answered.length = 1 ∧ t.obj.served = 0 ∧
      ¬t.s.w.CloseSubmitted t.s.c) ∧ ¬∀ e ∈ ts, Accounted e := by
  obtain ⟨t, ht, hobs⟩ := Option.map_eq_some_iff.mp (show
    (execAll step (fun _ _ => True) (exchanged 0) accepted).map (fun t => decide (t.obj.keepaliveLimit = 1 ∧
      (∃ req ∈ t.answered, req.AsksClose) ∧ t.answered.length = 1 ∧ t.obj.served = 0 ∧ ¬t.s.w.CloseSubmitted t.s.c)) =
        some true by decide +kernel)
  obtain ⟨ts, hrun, hactions, -⟩ := Run.exec ht
  have hobs := of_decide_eq_true hobs
  refine ⟨ts, t, accepted_init, hrun, hactions, hobs, fun hacc => ?_⟩
  obtain ⟨e, he, rfl⟩ := hrun.last fun hnil => by
    rw [hnil] at hactions
    cases hactions
  have hserved := (hacc e he).served
  rw [hobs.2.2.1, hobs.2.2.2.1] at hserved
  cases hserved

end Account

end IOContext
