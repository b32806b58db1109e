import IOContext.Closing
import IOContext.Encoding
import IOContext.KeepAlive

/-!
# What is queued, and for which call

Handlers share one response object for each connection, which is never reset, and nothing but `generate_response` writes
to the queue of a connection.

- What a completion queues for a connection are the responses that it has the handler leave (`Replies`,
  `handleConn_replies`), each of them begun from the one before.
- So the buffers queued for any connection of a run are those of its calls, in order (`queued_replies`).
-/

namespace IOContext

/-! ## Calls -/

/-- A call of a handler. -/
structure Call where
  handler : Handler
  req : Request
  res : Response

namespace Call

/-- The response that the call leaves. -/
def left (k : Call) : Response := k.handler k.req k.res

/-- The buffers that it is sent as. -/
def bufs (k : Call) : List OwnedBuf := PerClientStorage.responseBufs k.left

/-- Each call is given what the call before it has left; the first one is given `r`, and the last one leaves `r'`. -/
def Chain : Response → List Call → Response → Prop
  | r, [], r' => r' = r
  | r, k :: ks, r' => k.res = r ∧ Chain k.left ks r'

theorem Chain.append {ks ks' : List Call} : ∀ {r r' r'' : Response}, Chain r ks r' → Chain r' ks' r'' →
    Chain r (ks ++ ks') r'' := by
  induction ks with
  | nil =>
    intro r r' r'' h h'
    cases h
    exact h'
  | cons k ks ih => exact fun ⟨hres, h⟩ h' => ⟨hres, ih h h'⟩

end Call

/-- The calls for `c`, in order. -/
def invocationsOf (c : Ptr) (evs : List Event) : List Call :=
  evs.filterMap fun
    | .invoke q h req res => if q = c then some ⟨h, req, res⟩ else none
    | _ => none

@[simp] theorem invocationsOf_append (c : Ptr) (evs evs' : List Event) :
    invocationsOf c (evs ++ evs') = invocationsOf c evs ++ invocationsOf c evs' := List.filterMap_append

theorem invocationsOf_apart {c : Ptr} {evs : List Event} (h : ∀ ev ∈ evs, ev.Apart c) : invocationsOf c evs = [] :=
  List.filterMap_eq_nil_iff.mpr fun ev he => by
    cases ev with
    | invoke q hd req res => exact if_neg (h _ he)
    | sqe | segment | enqueue => rfl

/-! ## Parsing keeps the response -/

namespace ProcessingMachine

theorem step_res (m : ProcessingMachine) (b : UInt8) : (m.step b).res = m.res := by
  unfold step
  cases m.state <;> simp only [apply_ite res, ite_self]

theorem feed_res (m : ProcessingMachine) (p : Bytes) : (m.feed p).res = m.res := by
  induction p generalizing m with
  | nil => rfl
  | cons b p ih =>
    unfold feed
    rw [apply_ite res, ih, step_res, ite_self]

theorem onSegment_res (m : ProcessingMachine) (p : Bytes) : (m.onSegment p).res = m.res := by
  have hstart : m.start.res = m.res := by
    unfold start
    split <;> rfl
  rw [onSegment, feed_res, hstart]

end ProcessingMachine

namespace Worker

variable {L : Effect → Prop} {c q : Ptr} {fd : Fd} {w w' w'' : Worker} {cqe : Cqe}

/-! ## What a completion queues -/

/-- From `w` to `w'` only responses are queued, each as its handler has left it. -/
def Replies (c : Ptr) (w w' : Worker) : Prop :=
  ∃ evs, w'.trace = w.trace ++ evs ∧ queuedOf c evs = (invocationsOf c evs).flatMap Call.bufs ∧
    Call.Chain (w.heap c).parser.res (invocationsOf c evs) (w'.heap c).parser.res

theorem Replies.trans (h : Replies c w w') (h' : Replies c w' w'') : Replies c w w'' := by
  obtain ⟨evs, htrace, hqueued, hchain⟩ := h
  obtain ⟨evs', htrace', hqueued', hchain'⟩ := h'
  refine ⟨evs ++ evs', by rw [htrace', htrace, List.append_assoc], ?_, ?_⟩
  · rw [queuedOf_append, invocationsOf_append, List.flatMap_append, hqueued, hqueued']
  · rw [invocationsOf_append]
    exact hchain.append hchain'

theorem Prims.res (h : Prims L c fd w w') (hinvoke : ¬L .invoke) :
    (w'.heap c).parser.res = (w.heap c).parser.res :=
  h.lift (R := fun w w' => (w'.heap c).parser.res = (w.heap c).parser.res) (fun _ => rfl)
    (fun _ _ _ h h' => h'.trans h) fun w w' h => by
      cases h with
      | change f _ _ hparser => simp [hparser]
      | segment => simp [ProcessingMachine.onSegment_res]
      | invoke hL => exact absurd hL hinvoke
      | enqueue => simp
      | quiet | crash | alloc | msRecvOff | acceptMode | submit => rfl

/-- Without a call nothing is queued. -/
theorem Prims.replies (h : Prims L c fd w w') (henqueue : ¬L .enqueue) (hinvoke : ¬L .invoke) : Replies c w w' := by
  obtain ⟨evs, htrace, hev⟩ := h.trace
  have hnone : invocationsOf c evs = [] := List.filterMap_eq_nil_iff.mpr fun ev he => by
    cases ev with
    | invoke => exact absurd (hev _ he).1 hinvoke
    | sqe | segment | enqueue => rfl
  refine ⟨evs, htrace, ?_, ?_⟩
  · rw [hnone, h.queuedOf_nil henqueue htrace]
    rfl
  · rw [hnone]
    exact h.res hinvoke

/-- The response of the call is queued, and nothing else. -/
theorem generateResponse_replies (hat : w.At c fd) (h : w.generateResponse c = some w') : Replies c w w' := by
  cases hh : (w.heap c).requestHandler with
  | none =>
    simp only [generateResponse, hh, Option.some.injEq] at h
    subst h
    exact ⟨[], (List.append_nil _).symm, rfl, rfl⟩
  | some hd =>
    unfold generateResponse at h
    rw [hh] at h
    dsimp only at h
    have hat₁ : (w.invokeHandler c hd).At c fd :=
      hat.prims (.single (.invoke (L := fun _ => True) trivial hd _))
    generalize hbufs : PerClientStorage.responseBufs ((w.invokeHandler c hd).heap c).parser.res = bufs at h
    obtain ⟨-, htrace, hobj⟩ := enqueueAll_eq (w.invokeHandler c hd) c bufs
    have hat₂ := hat₁.prims (enqueueAll_prims (L := fun _ => True) trivial bufs)
    have hcall : Replies c w ((w.invokeHandler c hd).enqueueAll c bufs) := by
      refine ⟨.invoke c hd (w.heap c).parser.req (w.heap c).parser.res :: bufs.map (.enqueue c), ?_, ?_, ?_⟩
      · rw [htrace]
        simp [invokeHandler]
      · have hleft : bufs = Call.bufs ⟨hd, (w.heap c).parser.req, (w.heap c).parser.res⟩ := by
          rw [← hbufs]
          simp [invokeHandler, Call.bufs, Call.left]
        rw [hleft]
        simp [queuedOf, invocationsOf, List.filterMap_map]
      · rw [hobj]
        simp [invocationsOf, invokeHandler, Call.Chain, Call.left, List.filterMap_map]
    unfold post at h
    rw [hat₂.obj] at h
    exact hcall.trans (Prims.replies (flushTask_prims hat₂ h) (by rintro ⟨⟩) (by rintro ⟨⟩))

theorem handleConn_replies {kind : Workflow} (hat : w.At c fd) (h : w.handleConn c fd kind cqe = some w') :
    Replies c w w' := by
  by_cases hkind : kind = .generateResponse
  · subst hkind
    exact generateResponse_replies hat h
  · exact Prims.replies (handleConn_quiet PerClientStorage.Batched.txInv hkind hat h) id id

/-! ## The connections of a worker -/

/-- For every connection the responses of its calls have been queued, and nothing else. -/
structure Replied (w : Worker) : Prop where
  queued : ∀ c, queuedOf c w.trace = (invocationsOf c w.trace).flatMap Call.bufs
  chain : ∀ c, Call.Chain {} (invocationsOf c w.trace) (w.heap c).parser.res
  new : ∀ c, w.nextPtr ≤ c → invocationsOf c w.trace = []

theorem Replied.congr (h : w.Replied) (htrace : w'.trace = w.trace)
    (hheap : ∀ c, (w'.heap c).parser.res = (w.heap c).parser.res) (hnext : w'.nextPtr = w.nextPtr) : w'.Replied :=
  ⟨fun c => by rw [htrace]; exact h.queued c, fun c => by rw [htrace, hheap]; exact h.chain c,
    fun c hc => by rw [htrace]; exact h.new c (hnext ▸ hc)⟩

/-- What is done for one connection. -/
theorem Replied.conn (h : w.Replied) (hq : q < w.nextPtr) (hrep : Replies q w w') (hp : Prims L q fd w w') :
    w'.Replied := by
  obtain ⟨evs, htrace, hqueued, hchain⟩ := hrep
  have hother : ∀ c, c ≠ q → queuedOf c evs = [] ∧ invocationsOf c evs = [] := fun c hc => by
    obtain ⟨evs', htrace', hev⟩ := hp.apart (Ne.symm hc)
    obtain rfl : evs' = evs := List.append_cancel_left (htrace'.symm.trans htrace)
    exact ⟨queuedOf_apart hev, invocationsOf_apart hev⟩
  refine ⟨fun c => ?_, fun c => ?_, fun c hc => ?_⟩
  · rw [htrace, queuedOf_append, invocationsOf_append, List.flatMap_append, h.queued c]
    by_cases hcq : c = q
    · rw [hcq, hqueued]
    · rw [(hother c hcq).1, (hother c hcq).2]
      rfl
  · rw [htrace, invocationsOf_append]
    by_cases hcq : c = q
    · rw [hcq]
      exact (h.chain q).append hchain
    · rw [(hother c hcq).2, List.append_nil, hp.frame.heap c hcq]
      exact h.chain c
  · rw [hp.frame.nextPtr] at hc
    rw [htrace, invocationsOf_append, h.new c hc, (hother c (Nat.ne_of_gt (Nat.lt_of_lt_of_le hq hc))).2]
    rfl

/-- What is done for no connection. -/
theorem Replied.listen (h : w.Replied) (hp : ∀ c fd, Prims Effect.Listens c fd w w') : w'.Replied := by
  obtain ⟨-, hheap⟩ := prims_other hp
  obtain ⟨evs, htrace, -⟩ := (hp 0 0).trace
  have hnone : ∀ c, queuedOf c evs = [] ∧ invocationsOf c evs = [] := fun c => by
    obtain ⟨evs', htrace', hev⟩ := (hp (c + 1) 0).apart (Nat.succ_ne_self c)
    obtain rfl : evs' = evs := List.append_cancel_left (htrace'.symm.trans htrace)
    exact ⟨queuedOf_apart hev, invocationsOf_apart hev⟩
  refine ⟨fun c => ?_, fun c => ?_, fun c hc => ?_⟩
  · rw [htrace, queuedOf_append, invocationsOf_append, (hnone c).1, (hnone c).2, List.append_nil, List.append_nil]
    exact h.queued c
  · rw [htrace, invocationsOf_append, (hnone c).2, List.append_nil, hheap]
    exact h.chain c
  · rw [(hp 0 0).frame.nextPtr] at hc
    rw [htrace, invocationsOf_append, (hnone c).2, List.append_nil]
    exact h.new c hc

/-- A new connection begins with a new response. -/
theorem Replied.addConn (h : w.Replied) (cfd : Fd) : (w.addConn cfd).2.Replied := by
  refine ⟨h.queued, fun c => ?_, fun c hc => h.new c (Nat.le_of_succ_le hc)⟩
  show Call.Chain {} (invocationsOf c w.trace) ((w.addConn cfd).2.heap c).parser.res
  by_cases hc : c = w.nextPtr
  · rw [hc, addConn_obj, h.new _ (Nat.le_refl _)]
    rfl
  · rw [addConn_heap_ne w cfd hc]
    exact h.chain c

theorem Replied.handle {kind : Workflow} (hr : w.Replied) (hok : w.Ok) (h : w.handle fd kind cqe = some w') :
    w'.Replied := by
  obtain ⟨c, hc, h⟩ | rfl | ⟨-, h⟩ | ⟨-, rfl⟩ := handle_cases h
  · have hat := hok.at hc
    exact hr.conn (hok.lt fd c hc) (handleConn_replies hat h) (handleConn_prims hat h)
  · exact hr
  · obtain ⟨-, h⟩ | ⟨-, b, w₁, hrecv, h⟩ := handleAccept_cases h
    · exact hr.listen h
    · have hp := startRecv_prims (by rw [addConn_obj]) hrecv
      have hlt : w.nextPtr < (w.addConn cqe.res).2.nextPtr := Nat.lt_succ_self _
      exact ((hr.addConn cqe.res).conn hlt (hp.replies (by rintro ⟨⟩) (by rintro ⟨⟩)) hp).listen h
  · exact hr.congr rfl (fun _ => rfl) rfl

end Worker

namespace Sys

open Worker

variable {d : Dispatch} {ok : Sys → Action → Prop} {s s' : Sys} {a : Action}

theorem Init.replied (h : Init s) : s.w.Replied := by
  obtain ⟨listenFd, cfg, routes, allocated, env, h, -, -⟩ := h
  obtain ⟨-, hheap, hev⟩ := startUp_new h
  have hapart : ∀ c, ∀ ev ∈ s.w.trace, ev.Apart c := fun c ev hmem => by
    obtain ⟨e, rfl, -, howner⟩ := hev ev hmem
    show e.owner ≠ some c
    rw [howner]
    exact Option.some_ne_none c ∘ Eq.symm
  refine ⟨fun c => ?_, fun c => ?_, fun c _ => invocationsOf_apart (hapart c)⟩
  · rw [queuedOf_apart (hapart c), invocationsOf_apart (hapart c)]
    rfl
  · rw [invocationsOf_apart (hapart c), hheap]
    rfl

theorem Step.replied (hok : s.w.Ok) (hr : s.w.Replied) (h : Step d s a s') : s'.w.Replied := by
  cases h with
  | executeClose => exact hr
  | endBatch => exact hr.congr rfl (fun _ => rfl) rfl
  | @complete i cqe data env p w' hp hadm hw =>
    have harr : (s.arrive p cqe data env).Replied := by
      refine hr.congr (arrive_trace ..) (fun _ => by rw [arrive_heap]) ?_
      unfold arrive fillBuffer
      split <;> rfl
    show w'.Replied
    unfold handled at hw
    split at hw
    · exact harr.handle (hok.move (arrive_move ..)) hw
    · cases hw
      exact harr

theorem replied (h : Reachable d ok s) : s.w.Replied :=
  Reach.invariant_of (K := fun s => s.w.Ok) (I := fun s => s.w.Replied) (fun _ => table_ok) (fun _ => Init.replied)
    (fun _ _ _ hok hr _ h => (step_cases h).2.replied hok hr) s h

/-- In every state reached the buffers queued for a connection are, one response after another, what its handlers have
left. Each call was given what the parser of the connection had read until then, and the response that the call before
it had left. -/
theorem queued_replies (h : Reachable d ok s) (c : Ptr) :
    queuedOf c s.w.trace = (invocationsOf c s.w.trace).flatMap Call.bufs ∧
    Call.Chain {} (invocationsOf c s.w.trace) (s.w.heap c).parser.res ∧
    ∀ (n : Nat) (k : Call), s.w.trace[n]? = some (.invoke c k.handler k.req k.res) →
      k.req = (parserOf c (s.w.trace.take n)).req :=
  have hr := replied h
  ⟨hr.queued c, hr.chain c, fun n k hn => (parsed h).invoked n c k.handler k.req k.res hn⟩

/-- Two calls for one client, the second with the response of the first. -/
theorem queued_replies_twice : ∃ s, serve .tagged (fun _ _ => True) twice = some s ∧
    (invocationsOf 0 s.w.trace).length = 2 ∧ (queuedOf 0 s.w.trace).length = 6 ∧
    queuedOf 0 s.w.trace = (invocationsOf 0 s.w.trace).flatMap Call.bufs := by
  obtain ⟨s, hs, hobs⟩ := Option.map_eq_some_iff.mp (show (serve .tagged (fun _ _ => True) twice).map (fun s =>
    ((invocationsOf 0 s.w.trace).length, (queuedOf 0 s.w.trace).length)) = some (2, 6) by decide +kernel)
  simp only [Prod.mk.injEq] at hobs
  exact ⟨s, hs, hobs.1, hobs.2, (queued_replies (run_reachable hs) 0).1⟩

end Sys

end IOContext
