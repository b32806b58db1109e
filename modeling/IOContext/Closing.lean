import IOContext.Isolation
import IOContext.Provenance
import IOContext.Worker.Closing

/-!
# Closing a connection

A close is submitted some time before its completion removes the connection from the table. In the meantime the
handlers still find the connection, and not all of them look at `closing`.

- A connection for which a close has been submitted is closing (`CloseOk`).
- No send, receive or poll follows the close as long as no branch transmits for such a connection (`no_io_after_close`).
- A second close is submitted exactly when a branch that reaches `close_async` is taken for such a connection
  (`close_once_iff`).
- The connection that a `Closed` completion erases has no send and no receive into its own buffer outstanding, as long
  as the kernel completes these before the close (`erased_idle`).
-/

namespace IOContext

namespace Worker

/-- A close has been submitted for the connection. -/
def CloseSubmitted (w : Worker) (c : Ptr) : Prop := ∃ e ∈ sqesOf w.trace, e.owner = some c ∧ e.op.IsClose

instance (w : Worker) (c : Ptr) : Decidable (w.CloseSubmitted c) :=
  inferInstanceAs (Decidable (∃ e ∈ sqesOf w.trace, _))

/-- What is submitted is submitted for objects that exist; those for which a close is are closing. -/
structure CloseOk (w : Worker) : Prop where
  owners : ∀ e ∈ sqesOf w.trace, ∀ c, e.owner = some c → c < w.nextPtr
  closing : ∀ c, w.CloseSubmitted c → (w.heap c).closing = true

/-- What a completion that is handled for no connection of the table does. -/
structure Rest (w w' : Worker) : Prop where
  nextPtr : w.nextPtr ≤ w'.nextPtr
  heap : ∀ q < w.nextPtr, w'.heap q = w.heap q
  submits : ∃ evs, w'.trace = w.trace ++ evs ∧ ∀ e ∈ sqesOf evs, ¬e.op.IsClose ∧
    ∀ c, e.owner = some c → c = w.nextPtr ∧ w.nextPtr < w'.nextPtr

variable {c : Ptr} {fd : Fd} {w w' : Worker}

theorem Rest.refl (w : Worker) : Rest w w :=
  ⟨Nat.le_refl _, fun _ _ => rfl, [], (List.append_nil _).symm, fun _ h => absurd h List.not_mem_nil⟩

/-- What the listener does are submissions that belong to no connection. -/
theorem listen_events (h : ∀ c fd, Prims Effect.Listens c fd w w') :
    ∃ evs, w'.trace = w.trace ++ evs ∧ ∀ ev ∈ evs, ∃ e, ev = .sqe e ∧ ¬e.op.IsClose ∧ e.owner = none := by
  obtain ⟨evs, htrace, hev⟩ := (h 0 0).trace
  refine ⟨evs, htrace, fun ev hmem => ?_⟩
  cases ev with
  | segment | enqueue | invoke => cases (hev _ hmem).1
  | sqe e =>
    refine ⟨e, rfl, ?_⟩
    have h0 := (hev _ hmem).2
    cases hown : e.owner with
    | none =>
      rw [hown] at h0
      refine ⟨fun hc => ?_, rfl⟩
      generalize e.op = op at h0 hc
      cases h0 with
      | buffer => exact hc
      | listen ha => cases op <;> first | exact hc | exact ha
    | some q =>
      obtain ⟨evs', htrace', hev'⟩ := (h (q + 1) 0).trace
      obtain rfl : evs' = evs := List.append_cancel_left (htrace'.symm.trans htrace)
      have h1 := (hev' _ hmem).2
      rw [hown] at h1
      generalize e.op = op at h1
      cases h1

theorem listen_submits (h : ∀ c fd, Prims Effect.Listens c fd w w') :
    ∃ evs, w'.trace = w.trace ++ evs ∧ ∀ e ∈ sqesOf evs, ¬e.op.IsClose ∧ e.owner = none := by
  obtain ⟨evs, htrace, hev⟩ := listen_events h
  refine ⟨evs, htrace, fun e he => ?_⟩
  obtain ⟨_, hsqe, hnew⟩ := hev _ (mem_sqesOf.mp he)
  cases hsqe
  exact hnew

/-- A completion is handled for a connection of the table, or does no more than the listener and a new connection
need. -/
theorem handle_conn_or_rest {kind : Workflow} {cqe : Cqe} (h : w.handle fd kind cqe = some w') :
    (∃ c, w.table fd = some c ∧ w.handleConn c fd kind cqe = some w') ∨ Rest w w' := by
  obtain ⟨c, hc, h⟩ | rfl | ⟨-, h⟩ | ⟨-, rfl⟩ := handle_cases h
  · exact .inl ⟨c, hc, h⟩
  · exact .inr (.refl _)
  · refine .inr ?_
    obtain ⟨-, h⟩ | ⟨-, _, w₁, hrecv, h⟩ := handleAccept_cases h
    · obtain ⟨evs, htrace, hev⟩ := listen_submits h
      obtain ⟨-, hheap⟩ := prims_other h
      refine ⟨(h 0 0).frame.nextPtr.ge, fun q _ => by rw [hheap], evs, htrace, fun e he =>
        ⟨(hev e he).1, fun c hc => ?_⟩⟩
      rw [(hev e he).2] at hc
      cases hc
    · obtain ⟨evs, htrace, hev⟩ := listen_submits h
      obtain ⟨-, hheap⟩ := prims_other h
      have hp := startRecv_prims (by rw [addConn_obj]) hrecv
      obtain ⟨evs₁, htrace₁, hev₁⟩ := hp.trace
      have hnext : w'.nextPtr = w.nextPtr + 1 := ((h 0 0).frame.nextPtr).trans hp.frame.nextPtr
      refine ⟨by rw [hnext]; exact Nat.le_succ _, fun q hq => ?_, evs₁ ++ evs,
        by rw [htrace, htrace₁, List.append_assoc]; rfl, fun e he => ?_⟩
      · rw [hheap, hp.frame.heap q (Nat.ne_of_lt hq), addConn_heap_ne w _ (Nat.ne_of_lt hq)]
      · rw [sqesOf_append, List.mem_append] at he
        rcases he with he | he
        · obtain ⟨hop, hfor⟩ := hev₁ _ (mem_sqesOf.mp he)
          refine ⟨Effect.Recvs.noClose _ hop, fun c hc => ⟨?_, by rw [hnext]; exact Nat.lt_succ_self _⟩⟩
          rw [hc] at hfor
          generalize e.op = op at hfor
          cases hfor
          rfl
        · refine ⟨(hev e he).1, fun c hc => ?_⟩
          rw [(hev e he).2] at hc
          cases hc
  · exact .inr ⟨Nat.le_refl _, fun _ _ => rfl, [], (List.append_nil _).symm, fun _ h => absurd h List.not_mem_nil⟩

/-- What the branch of a connection submits belongs to it, or to none. -/
theorem handleConn_submits {kind : Workflow} {cqe : Cqe} (hat : w.At c fd)
    (h : w.handleConn c fd kind cqe = some w') :
    ∃ evs, w'.trace = w.trace ++ evs ∧ ∀ e ∈ sqesOf evs, ∀ q, e.owner = some q → q = c := by
  obtain ⟨evs, htrace, hev⟩ := (handleConn_prims hat h).trace
  refine ⟨evs, htrace, fun e he q hq => ?_⟩
  have hfor := (hev _ (mem_sqesOf.mp he)).2
  rw [hq] at hfor
  generalize e.op = op at hfor
  cases hfor
  rfl

/-- The effects of a sequence hold of what it submits. -/
theorem Prims.submits {L : Effect → Prop} (h : Prims L c fd w w') {evs : List Event}
    (htrace : w'.trace = w.trace ++ evs) : ∀ e ∈ sqesOf evs, L (.submit e.op) := by
  obtain ⟨evs', htrace', hev⟩ := h.trace
  obtain rfl : evs' = evs := List.append_cancel_left (htrace'.symm.trans htrace)
  exact fun e he => (hev _ (mem_sqesOf.mp he)).1

theorem CloseOk.handle (hok : w.Ok) (hc : w.CloseOk) {kind : Workflow} {cqe : Cqe}
    (h : w.handle fd kind cqe = some w') : w'.CloseOk := by
  obtain ⟨c, hcfd, h⟩ | hrest := handle_conn_or_rest h
  · have hat := hok.at hcfd
    obtain ⟨evs, htrace, hev⟩ := handleConn_submits hat h
    have hframe := (handleConn_prims hat h).frame
    refine ⟨fun e he q hq => ?_, fun q ⟨e, he, hq, hclose⟩ => ?_⟩
    · rw [hframe.nextPtr]
      rw [htrace, sqesOf_append, List.mem_append] at he
      rcases he with he | he
      · exact hc.owners e he q hq
      · rw [hev e he q hq]
        exact hok.lt fd c hcfd
    · have hold : w.CloseSubmitted q → (w'.heap q).closing = true := fun hsub => by
        by_cases hqc : q = c
        · subst hqc
          exact hframe.closing (hc.closing q hsub)
        · rw [hframe.heap q hqc]
          exact hc.closing q hsub
      rw [htrace, sqesOf_append, List.mem_append] at he
      rcases he with he | he
      · exact hold ⟨e, he, hq, hclose⟩
      · by_cases hr : w.ReachesClose c kind cqe
        · rw [hev e he q hq]
          exact handleConn_closing hat hr h
        · exact absurd hclose ((handleConn_noClose hat hr h).submits htrace e he)
  · obtain ⟨hle, hheap, evs, htrace, hev⟩ := hrest
    refine ⟨fun e he q hq => ?_, fun q ⟨e, he, hq, hclose⟩ => ?_⟩
    · rw [htrace, sqesOf_append, List.mem_append] at he
      rcases he with he | he
      · exact Nat.lt_of_lt_of_le (hc.owners e he q hq) hle
      · obtain ⟨rfl, hlt⟩ := (hev e he).2 q hq
        exact hlt
    · rw [htrace, sqesOf_append, List.mem_append] at he
      rcases he with he | he
      · rw [hheap q (hc.owners e he q hq)]
        exact hc.closing q ⟨e, he, hq, hclose⟩
      · exact absurd hclose (hev e he).1

/-- The worker enters its loop without connections, and has submitted nothing for one. -/
theorem startUp_new {listenFd : Fd} {cfg : WorkerConfig} {routes : Routes} {allocated : Bool} {env : Env}
    (h : startUp listenFd cfg routes allocated env = some w) :
    w.table = (fun _ => none) ∧ w.heap = (fun _ => {}) ∧
      ∀ ev ∈ w.trace, ∃ e, ev = .sqe e ∧ ¬e.op.IsClose ∧ e.owner = none := by
  obtain ⟨w₁, hpool, h⟩ := Option.bind_eq_some_iff.mp h
  obtain ⟨⟨n, w₂⟩, hacc, h⟩ := Option.bind_eq_some_iff.mp h
  cases h
  have hlisten : ∀ c fd, Prims Effect.Listens c fd w₁ w₂ := fun _ _ =>
    (postInitialAccepts_prims hacc).mono Accepts.listens
  have hpool : w₁.table = (fun _ => none) ∧ w₁.heap = (fun _ => {}) ∧
      ∀ ev ∈ w₁.trace, ∃ e, ev = .sqe e ∧ ¬e.op.IsClose ∧ e.owner = none := by
    unfold initBufferPool at hpool
    split at hpool
    · obtain ⟨⟨m, w₃⟩, hprov, hpool⟩ := Option.bind_eq_some_iff.mp hpool
      cases hpool
      have hprov : ∀ c fd, Prims Effect.Listens c fd _ w₃ := fun _ _ => (provideAll_prims hprov).mono Provides.listens
      obtain ⟨htable, hheap⟩ := prims_other hprov
      obtain ⟨evs, htrace, hev⟩ := listen_events hprov
      simp only [htrace, List.nil_append]
      exact ⟨htable, hheap, hev⟩
    · cases hpool
      exact ⟨rfl, rfl, fun _ h => absurd h List.not_mem_nil⟩
  obtain ⟨htable, hheap⟩ := prims_other hlisten
  obtain ⟨evs, htrace, hev⟩ := listen_events hlisten
  refine ⟨htable.trans hpool.1, hheap.trans hpool.2.1, fun ev hmem => ?_⟩
  simp only [htrace, List.mem_append] at hmem
  exact hmem.elim (hpool.2.2 ev) (hev ev)

theorem startUp_submits {listenFd : Fd} {cfg : WorkerConfig} {routes : Routes} {allocated : Bool} {env : Env}
    (h : startUp listenFd cfg routes allocated env = some w) :
    ∀ e ∈ sqesOf w.trace, ¬e.op.IsClose ∧ e.owner = none := fun e he => by
  obtain ⟨_, hev, hnew⟩ := (startUp_new h).2.2 _ (mem_sqesOf.mp he)
  cases hev
  exact hnew

/-! ## The order of submissions -/

/-- No operation with `P` is submitted for a connection after a close. -/
def NoneAfterClose (P : Op → Prop) (w : Worker) : Prop :=
  (sqesOf w.trace).Pairwise fun e e' => ∀ c, e.owner = some c → e'.owner = some c → e.op.IsClose → ¬P e'.op

instance (P : Op → Prop) [DecidablePred P] (w : Worker) : Decidable (w.NoneAfterClose P) :=
  decidable_of_iff ((sqesOf w.trace).Pairwise fun e e' =>
      e.owner ≠ none → e'.owner = e.owner → e.op.IsClose → ¬P e'.op) <| by
    refine ⟨List.Pairwise.imp fun h c hc hc' => h (by rw [hc]; exact Option.some_ne_none c) (by rw [hc, hc']),
      List.Pairwise.imp fun {e e'} h hne heq => ?_⟩
    obtain ⟨c, hc⟩ := Option.ne_none_iff_exists'.mp hne
    exact h c hc (heq.trans hc)

/-- Appending submissions: what holds among the old ones, among the new ones, and from old to new. -/
theorem pairwise_sqesOf_append {R : Sqe → Sqe → Prop} {evs : List Event} (htrace : w'.trace = w.trace ++ evs)
    (hold : (sqesOf w.trace).Pairwise R) (hnew : (sqesOf evs).Pairwise R)
    (hcross : ∀ e ∈ sqesOf w.trace, ∀ e' ∈ sqesOf evs, R e e') : (sqesOf w'.trace).Pairwise R := by
  rw [htrace, sqesOf_append]
  exact List.pairwise_append.mpr ⟨hold, hnew, hcross⟩

/-- A branch that submits nothing with `P` once a close has been submitted. -/
theorem NoneAfterClose.handleConn {P : Op → Prop} (hinv : w.NoneAfterClose P) (hok : w.Ok) {kind : Workflow} {cqe : Cqe}
    (hcfd : w.table fd = some c) (h : w.handleConn c fd kind cqe = some w')
    (hP : w.CloseSubmitted c → ∃ L : Effect → Prop, Prims L c fd w w' ∧ ∀ op, L (.submit op) → ¬P op) :
    w'.NoneAfterClose P := by
  have hat := hok.at hcfd
  obtain ⟨evs, htrace, hev⟩ := handleConn_submits hat h
  refine pairwise_sqesOf_append htrace hinv ?_ fun e he e' he' q hq hq' hclose => ?_
  · by_cases hr : w.ReachesClose c kind cqe
    · obtain ⟨e, -, -, htrace'⟩ := handleConn_closes hat hr h
      obtain rfl : evs = [.sqe e] := List.append_cancel_left (htrace.symm.trans htrace')
      exact List.pairwise_singleton ..
    · exact List.pairwise_of_forall_mem_list fun e he e' _ q _ _ hclose =>
        absurd hclose ((handleConn_noClose hat hr h).submits htrace e he)
  · obtain rfl := hev e' he' q hq'
    obtain ⟨L, hp, hL⟩ := hP ⟨e, he, hq, hclose⟩
    exact hL _ (hp.submits htrace e' he')

/-- A completion that is handled for no connection. -/
theorem NoneAfterClose.rest {P : Op → Prop} (hinv : w.NoneAfterClose P) (hc : w.CloseOk) (h : Rest w w') :
    w'.NoneAfterClose P := by
  obtain ⟨-, -, evs, htrace, hev⟩ := h
  refine pairwise_sqesOf_append htrace hinv ?_ fun e he e' he' q hq hq' hclose => ?_
  · exact List.pairwise_of_forall_mem_list fun e he _ _ _ _ _ hclose => absurd hclose (hev e he).1
  · have hlt := hc.owners e he q hq
    rw [((hev e' he').2 q hq').1] at hlt
    exact absurd hlt (Nat.lt_irrefl _)

theorem handle_of_reachesClose {kind : Workflow} {cqe : Cqe} (hcfd : w.table fd = some c)
    (hr : w.ReachesClose c kind cqe) (h : w.handle fd kind cqe = some w') : w.handleConn c fd kind cqe = some w' := by
  obtain ⟨-, hr⟩ := hr
  cases kind <;> first
    | exact hr.elim
    | simpa only [handle, hcfd] using h

/-- A connection for which a second close is submitted. -/
theorem closes_again (hok : w.Ok) {kind : Workflow} {cqe : Cqe} (hcfd : w.table fd = some c)
    (hsub : w.CloseSubmitted c) (hr : w.ReachesClose c kind cqe) (h : w.handleConn c fd kind cqe = some w') :
    ¬w'.NoneAfterClose Op.IsClose := by
  obtain ⟨e', hop, howner, htrace⟩ := handleConn_closes (hok.at hcfd) hr h
  obtain ⟨e, he, hq, hclose⟩ := hsub
  intro honce
  unfold NoneAfterClose at honce
  rw [htrace, sqesOf_append] at honce
  refine (List.pairwise_append.mp honce).2.2 e he e' (List.mem_singleton.mpr rfl) c hq howner hclose ?_
  rw [hop]
  trivial

end Worker

namespace Sys

open Worker

variable {d : Dispatch} {ok : Sys → Action → Prop} {s s' t : Sys} {a : Action} {ts : List (Transition Sys Action)}

/-- The completion is handled for a connection for which a close has been submitted, in a branch with `B`. -/
def Late (B : Worker → Ptr → Workflow → Cqe → Prop) (s : Sys) : Action → Prop
  | .complete i cqe data env => ∃ p ∈ s.pending[i]?, ∃ x ∈ p.posted, ∃ c ∈ s.w.table x.1,
      s.w.CloseSubmitted c ∧ B (s.arrive p cqe data env) c x.2 cqe
  | _ => False

instance (B : Worker → Ptr → Workflow → Cqe → Prop) [∀ w c kind cqe, Decidable (B w c kind cqe)]
    (s : Sys) (a : Action) :
    Decidable (s.Late B a) :=
  match a with
  | .complete i cqe data env => inferInstanceAs (Decidable (∃ p ∈ s.pending[i]?, ∃ x ∈ p.posted, ∃ c ∈ s.w.table x.1,
      s.w.CloseSubmitted c ∧ B (s.arrive p cqe data env) c x.2 cqe))
  | .executeClose _ | .endBatch => isFalse id

/-- A send, a receive or a poll is submitted for a connection for which a close has been submitted. -/
abbrev TransmitsLate : Sys → Action → Prop := Late Transmits

/-- A close is submitted for a connection for which one has been submitted already. -/
abbrev ClosesAgain : Sys → Action → Prop := Late ReachesClose

theorem arrive_nextPtr (s : Sys) (p : Pending) (cqe : Cqe) (data : Bytes) (env : Env) :
    (s.arrive p cqe data env).nextPtr = s.w.nextPtr := by
  unfold arrive fillBuffer
  split <;> rfl

theorem arrive_closeOk (hc : s.w.CloseOk) (p : Pending) (cqe : Cqe) (data : Bytes) (env : Env) :
    (s.arrive p cqe data env).CloseOk := by
  obtain ⟨howners, hclosing⟩ := hc
  refine ⟨?_, fun c hsub => ?_⟩
  · rw [arrive_trace, arrive_nextPtr]
    exact howners
  · rw [arrive_heap]
    unfold CloseSubmitted at hsub
    rw [arrive_trace] at hsub
    exact hclosing c hsub

/-- The branch of a completion, in a run that dispatches by the kinds posted. -/
theorem handled_posted {w w' : Worker} {p : Pending} {cqe : Cqe} (h : handled .posted w p cqe = some w') :
    (∃ x ∈ p.posted, ∃ c ∈ w.table x.1, w.handleConn c x.1 x.2 cqe = some w') ∨ Rest w w' := by
  unfold handled Dispatch.read at h
  cases hp : p.posted with
  | none =>
    simp only [hp] at h
    cases h
    exact .inr (.refl _)
  | some x =>
    simp only [hp] at h
    obtain ⟨c, hc, h⟩ | hrest := handle_conn_or_rest h
    · exact .inl ⟨x, rfl, c, hc, h⟩
    · exact .inr hrest

theorem handled_closeOk {w w' : Worker} {p : Pending} {cqe : Cqe} (hok : w.Ok) (hc : w.CloseOk)
    (h : handled d w p cqe = some w') : w'.CloseOk := by
  unfold handled at h
  split at h
  · exact hc.handle hok h
  · cases h
    exact hc

theorem close_ok (h : Reachable d ok s) : s.w.CloseOk := by
  refine Reach.invariant_of (K := fun s => s.w.Ok) (I := fun s => s.w.CloseOk) (fun _ => table_ok) (fun s h => ?_)
    (fun s a s' hok hc _ h => ?_) s h
  · obtain ⟨_, _, _, _, _, h, -, -⟩ := h
    have hsub := startUp_submits h
    refine ⟨fun e he c hq => ?_, fun c ⟨e, he, _, hclose⟩ => absurd hclose (hsub e he).1⟩
    rw [(hsub e he).2] at hq
    cases hq
  · cases (step_cases h).2 with
    | executeClose | endBatch => exact ⟨hc.owners, hc.closing⟩
    | complete hp hadm hw =>
      exact handled_closeOk (hok.move (arrive_move ..)) (arrive_closeOk hc ..) hw

/-- If the branches without `B` submit nothing with `P` for a closing connection, then nothing with `P` follows a close
in the runs in which no branch with `B` is taken late. -/
theorem none_after_close {P : Op → Prop} {B : Worker → Ptr → Workflow → Cqe → Prop}
    (hB : ∀ {w w' : Worker} {c : Ptr} {fd : Fd} {kind : Workflow} {cqe : Cqe}, w.At c fd → (w.heap c).closing = true →
      ¬B w c kind cqe → w.handleConn c fd kind cqe = some w' →
      ∃ L : Effect → Prop, Prims L c fd w w' ∧ ∀ op, L (.submit op) → ¬P op)
    (h : Reachable .posted (fun s a => ¬s.Late B a) s) : s.w.NoneAfterClose P := by
  refine Reach.invariant_of (K := fun s => s.w.Ok ∧ s.w.CloseOk) (I := fun s => s.w.NoneAfterClose P)
    (fun _ h => ⟨table_ok h, close_ok h⟩) (fun s h => ?_) (fun s a s' ⟨hok, hc⟩ hinv hlate h => ?_) s h
  · obtain ⟨_, _, _, _, _, h, -, -⟩ := h
    exact List.pairwise_of_forall_mem_list fun e he _ _ _ _ _ hclose => absurd hclose (startUp_submits h e he).1
  · cases (step_cases h).2 with
    | executeClose | endBatch => exact hinv
    | complete hp hadm hw =>
      rename_i i cqe data env p w'
      have harr := hok.move (arrive_move s p cqe data env)
      have hcarr := arrive_closeOk hc p cqe data env
      have hinvarr : (s.arrive p cqe data env).NoneAfterClose P := by
        unfold NoneAfterClose
        rw [arrive_trace]
        exact hinv
      obtain ⟨x, hx, c, hcx, hw⟩ | hrest := handled_posted hw
      · refine hinvarr.handleConn harr hcx hw fun hsub => hB (harr.at hcx) (hcarr.closing c hsub) (fun hb => ?_) hw
        rw [Option.mem_def, arrive_table] at hcx
        unfold CloseSubmitted at hsub
        rw [arrive_trace] at hsub
        exact hlate ⟨p, hp, x, hx, c, hcx, hsub, hb⟩
      · exact hinvarr.rest hcarr hrest

/-! ## No transfer after a close -/

/-- In every run in which no branch transmits for a connection whose close has been submitted, no send, receive or poll
is submitted for a connection after its close. -/
theorem no_io_after_close (h : Reachable .posted (fun s a => ¬s.TransmitsLate a) s) : s.w.NoneAfterClose Op.IsIo :=
  none_after_close (B := Transmits)
    (fun hat hclosing ht h => ⟨Effect.NoIo, handleConn_noIo hat hclosing ht h, fun _ => id⟩) h

/-- The response is sent, and then the client closes. -/
def answered : List Action :=
  request ++ response ++ [.complete 5 { res := 10 } [] {}, .complete 3 { res := 0 } [] { sqes := [true] }]

theorem no_io_after_close_answered : ∃ s, serve .posted (fun s a => ¬s.TransmitsLate a) answered = some s ∧
    s.w.CloseSubmitted 0 ∧ s.w.NoneAfterClose Op.IsIo := by
  obtain ⟨s, hs, hsub⟩ := Option.map_eq_some_iff.mp (show (serve .posted (fun s a => ¬s.TransmitsLate a) answered).map
    (fun s => decide (s.w.CloseSubmitted 0)) = some true by decide +kernel)
  exact ⟨s, hs, of_decide_eq_true hsub, no_io_after_close (run_reachable hs)⟩

/-- A client sends a request and closes; then the response is generated. -/
def lateResponse : List Action :=
  request ++ [
    .complete 4 { res := 0 } [] { sqes := [true] },
    .complete 2 { res := 0 } [] { sqes := [true] },
    .complete 4 { res := 0 } [] { sqes := [true] }]

/-- The response is sent after the close. -/
theorem send_after_close : ∃ s, serve .posted (fun _ _ => True) lateResponse = some s ∧
    Reachable .posted (fun _ _ => True) s ∧ ¬s.w.NoneAfterClose Op.IsIo := by
  obtain ⟨s, hs, hnot⟩ := Option.map_eq_some_iff.mp (show (serve .posted (fun _ _ => True) lateResponse).map
    (fun s => decide (s.w.NoneAfterClose Op.IsIo)) = some false by decide +kernel)
  exact ⟨s, hs, run_reachable hs, of_decide_eq_false hnot⟩

/-! ## One close -/

/-- A branch that reaches `close_async` late submits a second close. -/
theorem step_closes_again (hok : s.w.Ok) (hagain : s.ClosesAgain a) (h : step .posted s a = some s') :
    ¬s'.w.NoneAfterClose Op.IsClose := by
  cases (step_cases h).2 with
  | executeClose | endBatch => cases hagain
  | complete hp hadm hw =>
    rename_i i cqe data env p w'
    obtain ⟨q, hq, x, hx, c, hc, hsub, hr⟩ := hagain
    cases hp.symm.trans hq
    have harr := hok.move (arrive_move s p cqe data env)
    have hcx : (s.arrive p cqe data env).table x.1 = some c := by rw [arrive_table]; exact hc
    unfold handled Dispatch.read at hw
    simp only [Option.mem_def.mp hx] at hw
    refine closes_again harr hcx ?_ hr (handle_of_reachesClose hcx hr hw)
    unfold CloseSubmitted
    rwa [arrive_trace]

/-- A run submits at most one close for each connection exactly when no branch that reaches `close_async` is taken for a
connection whose close has been submitted. -/
theorem close_once_iff (h0 : Init s) (h : Run (step .posted) s ts t) :
    t.w.NoneAfterClose Op.IsClose ↔ ∀ e ∈ ts, ¬e.before.ClosesAgain e.action := by
  refine ⟨fun honce e he hagain => ?_, fun hnot => ?_⟩
  · obtain ⟨ts₁, ts₂, h₁, hstep, h₂, rfl⟩ := h.split he
    have hr : Reachable .posted (fun _ _ => True) e.before := Run.reach (.start h0) h₁ fun _ _ => trivial
    obtain ⟨evs, htrace⟩ := run_trace (.next hr trivial hstep) h₂ fun _ _ => trivial
    refine (?_ : ¬e.after.w.NoneAfterClose Op.IsClose) ?_
    · exact step_closes_again (table_ok hr) hagain hstep
    · unfold NoneAfterClose at honce ⊢
      rw [htrace, sqesOf_append] at honce
      exact (List.pairwise_append.mp honce).1
  · refine none_after_close (B := ReachesClose) (fun hat _ hr h => ?_) (Run.reach (.start h0) h hnot)
    exact ⟨Effect.NoClose, handleConn_noClose hat hr h, fun _ => id⟩

theorem close_once_iff_answered : ∃ s ts t, withoutPool [(ascii "/", fun _ res => res)] = some s ∧
    Run (step .posted) s ts t ∧ ts.map (·.action) = answered ∧ t.w.NoneAfterClose Op.IsClose := by
  obtain ⟨t, ht, -⟩ := Option.map_eq_some_iff.mp (show (serve .posted (fun s a => ¬s.ClosesAgain a) answered).map
    (fun _ => ()) = some () by decide +kernel)
  obtain ⟨s, hs, ht⟩ := Option.bind_eq_some_iff.mp ht
  obtain ⟨ts, hrun, hmap, hnot⟩ := Run.exec ht
  exact ⟨s, ts, t, hs, hrun, hmap, (close_once_iff (start_init hs) hrun).mpr hnot⟩

/-- A client closes while the response is being sent, and the send fails. -/
def failedSend : List Action :=
  request ++ response ++ [
    .complete 3 { res := 0 } [] { sqes := [true] },
    .complete 4 { res := -32 } [] { sqes := [true] }]

/-- Both completions close the connection. -/
theorem closes_twice : ∃ s, serve .posted (fun _ _ => True) failedSend = some s ∧
    Reachable .posted (fun _ _ => True) s ∧ ¬s.w.NoneAfterClose Op.IsClose := by
  obtain ⟨s, hs, hnot⟩ := Option.map_eq_some_iff.mp (show (serve .posted (fun _ _ => True) failedSend).map
    (fun s => decide (s.w.NoneAfterClose Op.IsClose)) = some false by decide +kernel)
  exact ⟨s, hs, run_reachable hs, of_decide_eq_false hnot⟩

/-! ## The buffers of a connection that is erased -/

/-- The connection is erased only when no operation that uses its buffers is outstanding. -/
def ErasedIdle (s : Sys) (_a : Action) (s' : Sys) : Prop :=
  ∀ fd c, s.w.table fd = some c → s'.w.table fd ≠ some c →
    ∀ q ∈ s.pending, q.sqe.owner = some c → ¬q.sqe.op.UsesBuffers

/-- The completion of a close finds its own connection, or none, and all sends and receives that were submitted for the
connection before the close have completed. -/
def ClosedLast (s : Sys) : Action → Prop
  | .complete i _ _ _ => ∀ p ∈ s.pending[i]?, p.sqe.op.IsClose → p.OwnEntry s.w ∧
      ∀ q ∈ s.pending, q.sqe.owner = p.sqe.owner → q.sqe.op.UsesBuffers → ¬q.sqe.serial < p.sqe.serial
  | _ => True

instance (s : Sys) (a : Action) : Decidable (s.ClosedLast a) :=
  match a with
  | .complete i _ _ _ => inferInstanceAs (Decidable (∀ p ∈ s.pending[i]?, p.sqe.op.IsClose → p.OwnEntry s.w ∧
      ∀ q ∈ s.pending, q.sqe.owner = p.sqe.owner → q.sqe.op.UsesBuffers → ¬q.sqe.serial < p.sqe.serial))
  | .executeClose _ | .endBatch => isTrue trivial

/-- A close is the last operation on the buffers of its connection. -/
def ClosesInOrder (s : Sys) (a : Action) : Prop := s.ClosedLast a ∧ ¬s.Late SendsOrReceives a

instance (s : Sys) (a : Action) : Decidable (s.ClosesInOrder a) := inferInstanceAs (Decidable (_ ∧ _))

/-- An entry leaves the table only by a completion of kind `closed`. -/
theorem handle_erases {w w' : Worker} {fd : Fd} {kind : Workflow} {cqe : Cqe} (h : w.handle fd kind cqe = some w')
    (hok : w.Ok) {fd' : Fd} {c : Ptr} (hc : w.table fd' = some c) (hgone : w'.table fd' ≠ some c) :
    kind = .closed ∧ fd' = fd := by
  obtain ⟨b, hb, h⟩ | rfl | ⟨-, h⟩ | ⟨rfl, rfl⟩ := handle_cases h
  · rw [(handleConn_prims (hok.at hb) h).frame.table] at hgone
    exact absurd hc hgone
  · exact absurd hc hgone
  · obtain ⟨-, h⟩ | ⟨-, _, w₁, hrecv, h⟩ := handleAccept_cases h
    · rw [(prims_other h).1] at hgone
      exact absurd hc hgone
    · rw [(prims_other h).1, (startRecv_prims (by rw [addConn_obj]) hrecv).frame.table, addConn_table] at hgone
      refine absurd ?_ hgone
      split
      · rename_i hnone
        rwa [Function.update_of_ne fun hfd => by rw [hfd, hnone] at hc; cases hc]
      · exact hc
  · refine ⟨rfl, ?_⟩
    by_contra hfd
    exact hgone ((Function.update_of_ne hfd ..).trans hc)

/-- What is owed under the kind `closed` is owed for a close of a connection. -/
theorem posted_closed (h : Reachable d ok s) {p : Pending} (hp : p ∈ s.pending) {fd : Fd}
    (hposted : p.posted = some (fd, .closed)) : p.sqe.op = .close fd ∧ ∃ c, p.sqe.owner = some c := by
  obtain ⟨c, fd', hfor⟩ := submitted_for h _ (pending_mem h p hp)
  unfold Pending.posted at hposted
  generalize p.sqe.op = op at hposted hfor
  generalize p.sqe.owner = owner at hfor
  cases hfor with
  | own ht ho =>
    refine ⟨?_, c, rfl⟩
    cases op with
    | close =>
      cases hposted
      rfl
    | msgRing =>
      -- no task of kind `closed` is posted
      dsimp only at hposted
      split at hposted
      · cases hposted
        exact ho.elim
      · cases hposted
    | provideBuffers | accept | multishotAccept | recvMultishot | recv | pollAdd | sendmsg => cases hposted
  | buffer => cases hposted
  | listen ha => cases op <;> first | exact ha.elim | cases hposted

theorem step_erasedIdle (hr : Reachable .posted ClosesInOrder s) (hord : s.ClosesInOrder a)
    (h : step .posted s a = some s') : s.ErasedIdle a s' := by
  intro fd c hc hgone q hq hqc huses
  cases (step_cases h).2 with
  | executeClose | endBatch => exact hgone hc
  | complete hp hadm hw =>
    rename_i i cqe data env p w'
    have harr := (table_ok hr).move (arrive_move s p cqe data env)
    have hcarr : (s.arrive p cqe data env).table fd = some c := by rw [arrive_table]; exact hc
    unfold handled Dispatch.read at hw
    cases hposted : p.posted with
    | none =>
      simp only [hposted] at hw
      cases hw
      exact hgone hcarr
    | some x =>
      simp only [hposted] at hw
      obtain ⟨hkind, hfd⟩ := handle_erases hw harr hcarr hgone
      have hpmem := List.mem_of_getElem? hp
      obtain ⟨hop, c', howner⟩ :=
        posted_closed hr hpmem (show p.posted = some (fd, .closed) by rw [hposted, ← hkind, hfd])
      obtain ⟨hentry, hlast⟩ := hord.1 p hp (by rw [hop]; trivial)
      -- the close is the connection's own
      obtain rfl : c' = c := by
        unfold Pending.OwnEntry at hentry
        rw [howner, hposted] at hentry
        dsimp only at hentry
        rw [← hfd, hc] at hentry
        rcases hentry with hentry | hentry
        · cases hentry
        · exact (Option.some.inj hentry).symm
      have hring := ring_ok hr
      have hps := pending_mem hr p hpmem
      have hqs := pending_mem hr q hq
      rcases Nat.lt_trichotomy q.sqe.serial p.sqe.serial with hlt | heq | hgt
      · exact hlast q hq (by rw [hqc, howner]) huses hlt
      · rw [hring.serial_inj hqs hps heq, hop] at huses
        exact huses
      · have hnone : s.w.NoneAfterClose Op.UsesBuffers :=
          none_after_close (B := SendsOrReceives)
            (fun hat hclosing ht h => ⟨_, handleConn_noBuffers hat hclosing ht h, fun _ => id⟩)
            (Reach.mono (fun _ _ h => h.2) hr)
        exact hring.pairwise hnone hps hqs hgt c' howner hqc (by rw [hop]; trivial) huses

/-- In every run in which a close is the last operation on the buffers of its connection, no connection is erased while
a send, or a receive into its own buffer, is outstanding. -/
theorem erased_idle (h0 : Init s) (h : Run (step .posted) s ts t) (hord : ∀ e ∈ ts, e.before.ClosesInOrder e.action) :
    ∀ e ∈ ts, e.before.ErasedIdle e.action e.after :=
  Run.forall_step (fun _ _ _ => step_erasedIdle) (.start h0) h hord

/-- The response is sent, the client closes, and the connection is erased. -/
theorem erased_idle_answered : ∃ s ts t, withoutPool [(ascii "/", fun _ res => res)] = some s ∧
    Run (step .posted) s ts t ∧ ts.map (·.action) = answered ++ [.executeClose 4, .complete 4 { res := 0 } [] {}] ∧
    t.w.table 5 = none ∧ ∀ e ∈ ts, e.before.ErasedIdle e.action e.after := by
  obtain ⟨t, ht, hgone⟩ := Option.map_eq_some_iff.mp (show (serve .posted ClosesInOrder
    (answered ++ [.executeClose 4, .complete 4 { res := 0 } [] {}])).map (fun t => t.w.table 5) = some none by
    decide +kernel)
  obtain ⟨s, hs, ht⟩ := Option.bind_eq_some_iff.mp ht
  obtain ⟨ts, hrun, hmap, hord⟩ := Run.exec ht
  exact ⟨s, ts, t, hs, hrun, hmap, hgone, erased_idle (start_init hs) hrun hord⟩

/-- A client closes while the response is being sent. -/
def earlyClose : List Action :=
  request ++ response ++ [.complete 3 { res := 0 } [] { sqes := [true] }, .executeClose 5]

/-- The connection is erased while its send is outstanding. -/
theorem erased_while_sending : ∃ s s', serve .posted (fun _ _ => True) earlyClose = some s ∧
    Reachable .posted (fun _ _ => True) s ∧ step .posted s (.complete 5 { res := 0 } [] {}) = some s' ∧
    ¬s.ErasedIdle (.complete 5 { res := 0 } [] {}) s' := by
  obtain ⟨s, hs, hobs⟩ := Option.map_eq_some_iff.mp (show (serve .posted (fun _ _ => True) earlyClose).map (fun s =>
    ((s.pending[4]?).map fun p => (p.sqe.owner, decide p.sqe.op.UsesBuffers), s.w.table 5,
      (step .posted s (.complete 5 { res := 0 } [] {})).map fun s' => s'.w.table 5)) =
    some (some (some 0, true), some 0, some none) by decide +kernel)
  simp only [Prod.mk.injEq] at hobs
  obtain ⟨hp, htable, hafter⟩ := hobs
  obtain ⟨p, hp, hobs⟩ := Option.map_eq_some_iff.mp hp
  obtain ⟨howner, huses⟩ := Prod.mk.inj hobs
  obtain ⟨s', hs', hafter⟩ := Option.map_eq_some_iff.mp hafter
  refine ⟨s, s', hs, run_reachable hs, hs', fun hidle => ?_⟩
  exact hidle 5 0 htable (by rw [hafter]; simp) p (List.mem_of_getElem? hp) howner (of_decide_eq_true huses)

end Sys

end IOContext
