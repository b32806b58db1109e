import IOContext.Runs
import Mathlib.Data.List.Nodup

/-!
# The receive buffers

`init_buffer_pool` hands buffers to the kernel; a completion of a multishot receive carries one of them back, and the
`Recv` branch provides it again.

- A completion provides what it carries if its branch comes to return the buffer and gets a slot for it, and nothing
  otherwise (`handle_gives`).
- `Pool` adds to the system what the kernel does with the buffers: which are in its group and which are carried by
  completions that have not been handled yet.
- Every buffer is in one of the two places throughout a run, and each completion that carries a buffer returns it,
  exactly if the branch returns the buffer at each of these completions (`Pool.conserved_iff`).
-/

namespace IOContext

namespace Worker

/-- The buffers of `ids` are provided on the way from `w` to `w'`. -/
def Gives (ids : List (Nat × Nat)) (w w' : Worker) : Prop := providesOf w'.trace = providesOf w.trace ++ ids

/-- Buffer `bid` where it lies in `buf_pool_`. -/
def placed (bid : Nat) : Nat × Nat := (bid * BUF_SZ, bid)

/-- A `Recv` completion comes to return its buffer, and gets a slot for it. -/
structure Returns (w : Worker) (fd : Fd) (kind : Workflow) (cqe : Cqe) : Prop where
  recv : kind = .recv
  conn : w.table fd ≠ none
  res : 0 < cqe.res
  mode : (w.useMsRecv && w.haveBufPool) = true
  slot : w.env.sqes.head? = some true

instance (w : Worker) (fd : Fd) (kind : Workflow) (cqe : Cqe) : Decidable (w.Returns fd kind cqe) :=
  decidable_of_iff (kind = .recv ∧ w.table fd ≠ none ∧ 0 < cqe.res ∧ (w.useMsRecv && w.haveBufPool) = true ∧
    w.env.sqes.head? = some true) ⟨fun ⟨h1, h2, h3, h4, h5⟩ => ⟨h1, h2, h3, h4, h5⟩, fun h => ⟨h.1, h.2, h.3, h.4, h.5⟩⟩

/-- The buffers that are provided while a completion is handled. -/
def returned (w : Worker) (fd : Fd) (kind : Workflow) (cqe : Cqe) : List Nat :=
  if w.Returns fd kind cqe then cqe.buffer.toList else []

variable {L : Effect → Prop} {c : Ptr} {fd : Fd} {w w' w'' : Worker} {ids ids' : List (Nat × Nat)} {cqe : Cqe}

theorem Gives.refl (w : Worker) : Gives [] w w := (List.append_nil _).symm

theorem Gives.trans (h : Gives ids w w') (h' : Gives ids' w' w'') : Gives (ids ++ ids') w w'' := by
  unfold Gives at h h' ⊢
  rw [h', h, List.append_assoc]

/-- A sequence that provides no buffer. -/
theorem Prims.gives (hL : ∀ addr bid, ¬L (.submit (.provideBuffers addr bid))) (h : Prims L c fd w w') :
    Gives [] w w' := by
  obtain ⟨evs, htrace, hev⟩ := h.trace
  unfold Gives
  rw [htrace, providesOf_append]
  congr 1
  refine List.filterMap_eq_nil_iff.mpr fun e he => ?_
  have hop := (hev _ (mem_sqesOf.mp he)).1
  cases hcase : e.op with
  | provideBuffers addr bid =>
    rw [hcase] at hop
    exact absurd hop (hL addr bid)
  | accept | multishotAccept | recvMultishot | recv | close | pollAdd | sendmsg | msgRing => rfl

theorem Prims.givesNone (h : Prims Effect.Works c fd w w') : Gives [] w w' := h.gives fun _ _ => id

theorem accepts_give (h : Prims Effect.Accepts c fd w w') : Gives [] w w' :=
  h.gives fun _ _ h => by
    generalize hop : Op.provideBuffers _ _ = op at h
    cases h with
    | accept ha =>
      rw [← hop] at ha
      exact ha

theorem prep_gives (w : Worker) (bid : Nat) (tag : Option UInt64) :
    Gives [placed bid] w (w.prep (.provideBuffers (bid * BUF_SZ) bid) none tag) := by
  obtain ⟨e, hop, -, -, htrace⟩ := trace_prep w (.provideBuffers (bid * BUF_SZ) bid) none tag
  unfold Gives
  rw [htrace, providesOf_append]
  simp [providesOf, sqesOf, hop, placed]

/-! ## Completions -/

theorem returnBuffer_gives {bid : Nat} (h : w.returnBuffer bid = some w') :
    Gives (if w.env.sqes.head? = some true then [placed bid] else []) w w' := by
  obtain ⟨⟨b, w₁⟩, hsqe, h⟩ := Option.bind_eq_some_iff.mp h
  obtain ⟨sqes, hsqes, rfl⟩ := getSqeOrSubmit_eq hsqe
  rw [hsqes, List.head?_cons]
  cases b with
  | false =>
    cases h
    exact .refl _
  | true =>
    cases h
    rw [if_pos rfl]
    exact prep_gives (w.withSqes sqes) bid (some (packUdAux 0 .freeBuffer (UInt32.ofNat bid)))

theorem recvProvided_gives {bid : Nat} (hat : w.At c fd) (h : w.recvProvided c bid cqe = some w') :
    Gives (if w.env.sqes.head? = some true then [placed bid] else []) w w' := by
  obtain ⟨w₁, w₂, hback, hkick, h⟩ := recvProvided_cases h
  have hpush : Prims Effect.Works c fd w _ := pushSegment_prims ((w.bufPool bid).take cqe.res.toInt.toNat)
  have hat₁ : w₁.At c fd := (hat.prims hpush).prims (returnBuffer_prims hback)
  have hkick := (parseAndKick_prims hat₁ hkick).mono fun e he => he.elim (Parses.works e) (Sends.works e)
  have hrest : Prims Effect.Works c fd w₂ w' := by
    obtain ⟨-, rfl⟩ | ⟨-, h⟩ := h
    · exact .refl
    · have hdisarm : Prims Effect.Works c fd w₂ (w₂.modify c fun o => { o with msRecvArmed := false }) :=
        .single (.change _ trivial rfl rfl id)
      exact hdisarm.trans ((restartRecv_prims ((hat₁.prims hkick).prims hdisarm).obj h).mono Recvs.works)
  have hgive := (hpush.givesNone.trans (returnBuffer_gives hback)).trans (hkick.givesNone.trans hrest.givesNone)
  simp only [List.nil_append, List.append_nil] at hgive
  exact hgive

theorem handleRecv_gives (hat : w.At c fd) (h : w.handleRecv c fd cqe = some w') :
    Gives ((w.returned fd .recv cqe).map placed) w w' := by
  have hkeep : ¬w.Returns fd .recv cqe → Prims Effect.Works c fd w w' →
      Gives ((w.returned fd .recv cqe).map placed) w w' := fun hr hp => by
    rw [returned, if_neg hr]
    exact hp.givesNone
  obtain ⟨hres, h⟩ | ⟨hpos, bid, hmode, hbuf, h⟩ | ⟨-, hbuf, h⟩ := handleRecv_cases h
  · exact hkeep (fun hr => Int32.not_le.mpr hr.res hres) ((recvFailed_prims hat h).mono fun e he =>
      Effect.Tends.works e (Fails.tends e he))
  · have hgive := recvProvided_gives hat h
    split at hgive
    · rename_i hslot
      have hr : w.Returns fd .recv cqe := ⟨rfl, by simp [hat.table], hpos, hmode, hslot⟩
      rw [returned, if_pos hr, hbuf]
      exact hgive
    · rename_i hslot
      rw [returned, if_neg fun hr => hslot hr.slot]
      exact hgive
  · have hnone : w.returned fd .recv cqe = [] := by
      unfold returned
      split
      · rename_i hr
        rw [if_pos hr.mode] at hbuf
        rw [hbuf]
        rfl
      · rfl
    rw [hnone]
    exact ((recvHold_prims hat h).mono Receives.works).givesNone

/-- A completion provides what it carries if its branch returns the buffer, and nothing otherwise. -/
theorem handle_gives {kind : Workflow} (hok : w.Ok) (h : w.handle fd kind cqe = some w') :
    Gives ((w.returned fd kind cqe).map placed) w w' := by
  by_cases hk : kind = .recv
  · subst hk
    unfold handle at h
    dsimp only at h
    split at h
    · rename_i hnone
      cases h
      rw [returned, if_neg fun hr => hr.conn hnone]
      exact .refl w
    · rename_i c hc
      exact handleRecv_gives (hok.at hc) h
  · rw [returned, if_neg fun hr => hk hr.recv]
    obtain ⟨c, hc, hconn⟩ | rfl | ⟨-, hacc⟩ | ⟨-, rfl⟩ := handle_cases h
    · exact (handleConn_works (hok.at hc) hk hconn).givesNone
    · exact .refl w'
    · obtain ⟨-, hp⟩ | ⟨-, b, w₁, hrecv, hp⟩ := handleAccept_accepts hacc
      · exact accepts_give (hp 0 0)
      · have hadd : Gives [] w (w.addConn cqe.res).2 := .refl w
        have hrecv := ((startRecv_prims (by rw [addConn_obj]) hrecv).mono Recvs.works).givesNone
        exact (hadd.trans hrecv).trans (accepts_give (hp 0 0))
    · exact .refl w

/-! ## Start-up -/

theorem provideAll_gives : ∀ {n i j : Nat} {w w' : Worker}, provideAll i n w = some (j, w') →
    ∃ k, Gives ((List.range' i k).map placed) w w'
  | 0, _, _, _, _, h => by
    cases h
    exact ⟨0, .refl _⟩
  | n + 1, i, j, w, w', h => by
    obtain ⟨⟨b, w₁⟩, hsqe, h⟩ := Option.bind_eq_some_iff.mp h
    obtain ⟨sqes, -, rfl⟩ := getSqeOrSubmit_eq hsqe
    cases b with
    | false =>
      cases h
      exact ⟨0, .refl _⟩
    | true =>
      obtain ⟨k, hrest⟩ := provideAll_gives h
      have hprep := prep_gives (w.withSqes sqes) i (some (packUdAux 0 .freeBuffer (UInt32.ofNat i)))
      exact ⟨k + 1, hprep.trans hrest⟩

/-- The buffers provided by `init_buffer_pool` are the first ones. -/
theorem startUp_gives {listenFd : Fd} {cfg : WorkerConfig} {routes : Routes} {allocated : Bool} {env : Env}
    (h : startUp listenFd cfg routes allocated env = some w) : ∃ n, providesOf w.trace = (List.range n).map placed := by
  obtain ⟨w₁, hpool, h⟩ := Option.bind_eq_some_iff.mp h
  obtain ⟨⟨k, w₂⟩, hacc, h⟩ := Option.bind_eq_some_iff.mp h
  cases h
  have hacc : Gives [] w₁ w₂ := accepts_give (postInitialAccepts_prims hacc : Prims _ 0 0 _ _)
  have hpool : ∃ n, providesOf w₁.trace = (List.range n).map placed := by
    unfold initBufferPool at hpool
    split at hpool
    · obtain ⟨⟨m, w₃⟩, hprov, hpool⟩ := Option.bind_eq_some_iff.mp hpool
      cases hpool
      obtain ⟨n, hgive⟩ := provideAll_gives hprov
      refine ⟨n, ?_⟩
      rw [List.range_eq_range']
      exact hgive
    · cases hpool
      exact ⟨0, rfl⟩
  obtain ⟨n, hn⟩ := hpool
  refine ⟨n, ?_⟩
  show providesOf w₂.trace = _
  rw [hacc, hn, List.append_nil]

end Worker

namespace Sys

open Worker

variable {d : Dispatch} {ok : Sys → Action → Prop} {s s' : Sys} {a : Action}

/-- The operation and the buffer of a completion that carries one. -/
def carries (s : Sys) : Action → Option (Sqe × Nat)
  | .complete i cqe _ _ => do
    let p ← s.pending[i]?
    let bid ← cqe.buffer
    some (p.sqe, bid)
  | _ => none

theorem carries_complete {i : Nat} {p : Pending} (hp : s.pending[i]? = some p) (cqe : Cqe) (data : Bytes) (env : Env) :
    s.carries (.complete i cqe data env) = cqe.buffer.map fun bid => (p.sqe, bid) := by
  simp only [carries, hp]
  cases cqe.buffer <;> rfl

/-- A completion that carries a buffer is handled by the branch that returns it, and there is a slot for it. -/
def ReturnsBuffer (d : Dispatch) (s : Sys) : Action → Prop
  | .complete i cqe data env => ∀ p ∈ s.pending[i]?, cqe.buffer ≠ none →
    ∃ r ∈ d.read p, (s.arrive p cqe data env).Returns r.1 r.2 cqe
  | .executeClose _ | .endBatch => True

instance (d : Dispatch) (s : Sys) : ∀ a, Decidable (s.ReturnsBuffer d a)
  | .complete i cqe data env => inferInstanceAs (Decidable (∀ p ∈ s.pending[i]?, cqe.buffer ≠ none →
    ∃ r ∈ d.read p, (s.arrive p cqe data env).Returns r.1 r.2 cqe))
  | .executeClose _ | .endBatch => isTrue trivial

theorem returnsBuffer_of_none (h : s.carries a = none) : s.ReturnsBuffer d a := by
  cases a with
  | executeClose | endBatch => trivial
  | complete i cqe data env =>
    intro p hp hbuf
    rw [carries_complete hp] at h
    exact absurd (Option.map_eq_none_iff.mp h) hbuf

/-- What has been submitted since, of buffers provided. -/
def givenSince (w w' : Worker) : List (Nat × Nat) := providesOf (w'.trace.drop w.trace.length)

theorem Gives.since {ids : List (Nat × Nat)} {w w' : Worker} (h : Gives ids w w')
    (ht : ∃ evs, w'.trace = w.trace ++ evs) :
    givenSince w w' = ids := by
  obtain ⟨evs, ht⟩ := ht
  unfold Gives at h
  rw [ht, providesOf_append] at h
  rw [givenSince, ht, List.drop_left]
  exact List.append_cancel_left h

/-- A step provides the buffer of its completion if the branch returns it, and nothing otherwise. -/
theorem step_gives (hok : s.w.Ok) (h : step d s a = some s') :
    (s.carries a = none → givenSince s.w s'.w = []) ∧
    ∀ e bid, s.carries a = some (e, bid) →
      (s.ReturnsBuffer d a → givenSince s.w s'.w = [placed bid]) ∧
      (¬s.ReturnsBuffer d a → givenSince s.w s'.w = []) := by
  have hsince : ∀ {ids : List (Nat × Nat)}, Gives ids s.w s'.w → givenSince s.w s'.w = ids := fun hg =>
    Gives.since hg ((step_cases h).2.moves hok).trace
  cases (step_cases h).2 with
  | executeClose => exact ⟨fun _ => hsince (.refl _), fun _ _ hc => by cases hc⟩
  | endBatch => exact ⟨fun _ => hsince (.refl _), fun _ _ hc => by cases hc⟩
  | @complete i cqe data env p w' hp hadm hw =>
    have harrive : Gives [] s.w (s.arrive p cqe data env) := by
      unfold arrive fillBuffer
      split <;> exact .refl _
    rw [carries_complete hp]
    unfold handled at hw
    cases hread : d.read p with
    | none =>
      rw [hread] at hw
      cases hw
      have hnil := hsince harrive
      refine ⟨fun _ => hnil, fun e bid hc => ⟨fun hr => ?_, fun _ => hnil⟩⟩
      obtain ⟨_, hbuf, -⟩ := Option.map_eq_some_iff.mp hc
      obtain ⟨r, hr, -⟩ := hr p hp (by rw [hbuf]; exact Option.some_ne_none _)
      rw [hread] at hr
      cases hr
    | some r =>
      obtain ⟨fd, kind⟩ := r
      rw [hread] at hw
      have hgive := hsince (harrive.trans (handle_gives (hok.move (arrive_move s p cqe data env)) hw))
      rw [List.nil_append] at hgive
      refine ⟨fun hc => ?_, fun e bid hc => ?_⟩
      · have hbuf : cqe.buffer = none := Option.map_eq_none_iff.mp hc
        rw [hgive, returned, hbuf]
        split <;> rfl
      · obtain ⟨_, hbuf, hx⟩ := Option.map_eq_some_iff.mp hc
        cases hx
        have hiff : s.ReturnsBuffer d (.complete i cqe data env) ↔ (s.arrive p cqe data env).Returns fd kind cqe := by
          simp [ReturnsBuffer, hp, hbuf, hread]
        rw [hgive, hiff]
        refine ⟨fun hr => ?_, fun hr => ?_⟩
        · rw [returned, if_pos hr, hbuf]
          rfl
        · rw [returned, if_neg hr]
          rfl

end Sys

/-! ## The kernel's side -/

/-- The system, and where the buffers are. -/
structure Pool where
  sys : Sys
  /-- The buffers that the kernel has, from the moment they are submitted. -/
  group : List Nat
  /-- The completions that carry a buffer and have not been handled. -/
  carried : List (Sqe × Nat)

inductive PoolAction
  /-- The kernel takes a buffer from its group for the `i`-th operation, and posts a completion with it. -/
  | select (i bid : Nat)
  | run (a : Action)

namespace Pool

open Sys

def select (s : Pool) (i bid : Nat) : Option Pool := do
  let p ← s.sys.pending[i]?
  match p.sqe.op with
  | .recvMultishot _ =>
    if bid ∈ s.group then some { s with group := s.group.erase bid, carried := s.carried ++ [(p.sqe, bid)] } else none
  | _ => none

def run (d : Dispatch) (s : Pool) (a : Action) : Option Pool := do
  let sys ← Sys.step d s.sys a
  let group := s.group ++ (givenSince s.sys.w sys.w).map Prod.snd
  match s.sys.carries a with
  | none => some { s with sys := sys, group := group }
  | some x => if x ∈ s.carried then some { sys := sys, group := group, carried := s.carried.erase x } else none

def step (d : Dispatch) (s : Pool) : PoolAction → Option Pool
  | .select i bid => s.select i bid
  | .run a => s.run d a

/-- The loop is entered with the buffers of `init_buffer_pool` in the group. -/
def Init (s : Pool) : Prop :=
  Sys.Init s.sys ∧ s.group = (providesOf s.sys.w.trace).map Prod.snd ∧ s.carried = []

/-- The buffers when the loop is entered. -/
def enter (sys : Sys) : Pool where
  sys := sys
  group := (providesOf sys.w.trace).map Prod.snd
  carried := []

theorem enter_init {sys : Sys} (h : Sys.Init sys) : Init (enter sys) := ⟨h, rfl, rfl⟩

/-- The number of places where buffer `bid` is. -/
def places (s : Pool) (bid : Nat) : Nat := s.group.count bid + (s.carried.map Prod.snd).count bid

/-- The condition on an action of the system. -/
def ReturnsBuffer (d : Dispatch) (s : Pool) : PoolAction → Prop
  | .select _ _ => True
  | .run a => s.sys.ReturnsBuffer d a

instance (d : Dispatch) (s : Pool) : ∀ act, Decidable (s.ReturnsBuffer d act)
  | .select _ _ => isTrue trivial
  | .run a => inferInstanceAs (Decidable (s.sys.ReturnsBuffer d a))

/-- The buffers, wherever they are. -/
def buffers (s : Pool) : List Nat := s.group ++ s.carried.map Prod.snd

variable {d : Dispatch} {ok : Pool → PoolAction → Prop} {s s' t : Pool} {a : Action} {act : PoolAction}
  {ts : List (Transition Pool PoolAction)}

theorem places_eq (s : Pool) (bid : Nat) : s.places bid = s.buffers.count bid := List.count_append.symm

/-! ## Steps -/

theorem run_cases (h : s.run d a = some s') :
    Sys.step d s.sys a = some s'.sys ∧ s'.group = s.group ++ (givenSince s.sys.w s'.sys.w).map Prod.snd ∧
      (s.sys.carries a = none ∧ s'.carried = s.carried ∨
        ∃ x, s.sys.carries a = some x ∧ x ∈ s.carried ∧ s'.carried = s.carried.erase x) := by
  obtain ⟨sys, hstep, h⟩ := Option.bind_eq_some_iff.mp h
  dsimp only at h
  split at h
  · rename_i hc
    cases h
    exact ⟨hstep, rfl, .inl ⟨hc, rfl⟩⟩
  · rename_i x hc
    split at h
    · rename_i hmem
      cases h
      exact ⟨hstep, rfl, .inr ⟨x, hc, hmem, rfl⟩⟩
    · cases h

/-- The kernel moves a buffer from one place to the other. -/
theorem select_buffers {i bid : Nat} (h : s.select i bid = some s') : s'.sys = s.sys ∧ s'.buffers.Perm s.buffers := by
  obtain ⟨p, -, h⟩ := Option.bind_eq_some_iff.mp h
  split at h
  · split at h
    · rename_i hmem
      cases h
      refine ⟨rfl, ?_⟩
      unfold buffers
      rw [List.map_append]
      have hfront : (s.group.erase bid ++ (s.carried.map Prod.snd ++ [bid])).Perm
          (bid :: s.group.erase bid ++ s.carried.map Prod.snd) := by
        rw [← List.append_assoc]
        exact List.perm_append_singleton ..
      exact hfront.trans ((List.perm_cons_erase hmem).symm.append_right _)
    · cases h
  · cases h

/-- A step that returns the buffer of its completion keeps all buffers. -/
theorem run_buffers (hok : s.sys.w.Ok) (hret : s.sys.ReturnsBuffer d a) (h : s.run d a = some s') :
    s'.buffers.Perm s.buffers := by
  obtain ⟨hstep, hgroup, ⟨hc, hcarried⟩ | ⟨⟨e, bid⟩, hc, hmem, hcarried⟩⟩ := run_cases h
  · unfold buffers
    rw [hgroup, hcarried, (step_gives hok hstep).1 hc, List.map_nil, List.append_nil]
  · unfold buffers
    rw [hgroup, hcarried, ((step_gives hok hstep).2 e bid hc).1 hret, List.append_assoc]
    have herase : (bid :: (s.carried.erase (e, bid)).map Prod.snd).Perm (s.carried.map Prod.snd) :=
      ((List.perm_cons_erase hmem).map Prod.snd).symm
    exact herase.append_left _

theorem step_buffers (hok : s.sys.w.Ok) (hret : s.ReturnsBuffer d act) (h : s.step d act = some s') :
    s'.buffers.Perm s.buffers := by
  cases act with
  | select i bid => exact (select_buffers h).2
  | run a => exact run_buffers hok hret h

/-- The kernel's steps aside, a run is one of the system. -/
theorem sys_reachable (h : Reach Init (step d) ok s) : Reachable d (fun _ _ => True) s.sys := by
  refine Reach.invariant (I := fun s => Reachable d (fun _ _ => True) s.sys) (fun s h => .start h.1)
    (fun s act s' hs _ h => ?_) s h
  cases act with
  | select i bid =>
    show Reachable d (fun _ _ => True) s'.sys
    rw [(select_buffers h).1]
    exact hs
  | run a => exact .next hs trivial (run_cases h).1

/-! ## Runs -/

theorem init_nodup (h : Init s) : s.group.Nodup := by
  obtain ⟨⟨listenFd, cfg, routes, allocated, env, hstart, -, -⟩, hgroup, -⟩ := h
  obtain ⟨n, hn⟩ := Worker.startUp_gives hstart
  rw [hgroup, hn, List.map_map]
  exact List.Nodup.map (fun _ _ h => h) List.nodup_range

/-- As long as the buffers are returned, none gets lost. -/
theorem run_keeps_buffers (hs : Reach Init (step d) (fun _ _ => True) s) (h : Run (step d) s ts t)
    (hret : ∀ e ∈ ts, e.before.ReturnsBuffer d e.action) : ∀ e ∈ ts, e.after.buffers.Perm s.buffers := by
  induction h with
  | nil => exact fun _ he => absurd he List.not_mem_nil
  | cons hstep _ ih =>
    have h1 := step_buffers (table_ok (sys_reachable hs)) (hret _ List.mem_cons_self) hstep
    intro e he
    rcases List.mem_cons.mp he with rfl | he
    · exact h1
    · exact (ih (.next hs trivial hstep) (fun e he => hret e (List.mem_cons_of_mem _ he)) e he).trans h1

/-- The buffer of a completion is provided, at its address, exactly if the branch returns it. -/
theorem step_returns_iff (hs : Reach Init (step d) ok s) (h : s.step d act = some s') :
    (∀ a sqe bid, act = .run a → s.sys.carries a = some (sqe, bid) →
      givenSince s.sys.w s'.sys.w = [(bid * BUF_SZ, bid)]) ↔ s.ReturnsBuffer d act := by
  cases act with
  | select i bid => exact ⟨fun _ => trivial, fun _ _ _ _ ha => by cases ha⟩
  | run a =>
    obtain ⟨hstep, -, -⟩ := run_cases h
    obtain ⟨-, hgive⟩ := step_gives (table_ok (sys_reachable hs)) hstep
    refine ⟨fun hall => ?_, fun hret a' sqe bid ha hc => ?_⟩
    · by_contra hret
      cases hc : s.sys.carries a with
      | none => exact hret (returnsBuffer_of_none hc)
      | some x =>
        have hnil := (hgive x.1 x.2 hc).2 hret
        rw [hall a x.1 x.2 rfl hc] at hnil
        cases hnil
    · cases ha
      exact (hgive sqe bid hc).1 hret

/-- In a run, each buffer of `init_buffer_pool` is always in exactly one place, the kernel's group or a completion that
has not been handled, and each completion that carries a buffer provides it once more, at its address, exactly if each
of these completions is handled by the branch that returns the buffer, with a slot for it. -/
theorem conserved_iff (h0 : Init s) (h : Run (step d) s ts t) :
    ((∀ bid ∈ s.group, s.places bid = 1) ∧ ∀ e ∈ ts, (∀ bid ∈ s.group, e.after.places bid = 1) ∧
      ∀ a sqe bid, e.action = .run a → e.before.sys.carries a = some (sqe, bid) →
        givenSince e.before.sys.w e.after.sys.w = [(bid * BUF_SZ, bid)]) ↔
      ∀ e ∈ ts, e.before.ReturnsBuffer d e.action := by
  have hs : Reach Init (step d) (fun _ _ => True) s := .start h0
  have hiff := Run.forall_step (fun _ _ _ hr _ hstep => step_returns_iff hr hstep) hs h fun _ _ => trivial
  have h1 : ∀ bid ∈ s.group, s.buffers.count bid = 1 := fun bid hbid => by
    rw [buffers, h0.2.2, List.map_nil, List.append_nil]
    exact List.count_eq_one_of_mem (init_nodup h0) hbid
  refine ⟨fun hall e he => (hiff e he).mp (hall.2 e he).2, fun hret => ⟨fun bid hbid => ?_, fun e he =>
    ⟨fun bid hbid => ?_, (hiff e he).mpr (hret e he)⟩⟩⟩
  · rw [places_eq]
    exact h1 bid hbid
  · rw [places_eq, (run_keeps_buffers hs h hret e he).count_eq]
    exact h1 bid hbid

/-- A client sends into the only buffer of the pool. -/
def provided : List PoolAction :=
  [.run (.complete 1 { res := 5, more := true } [] { sqes := [true] }), .select 2 0,
    .run (.complete 2 { res := 1, more := true, buffer := some 0 } (ascii "G") { sqes := [true] })]

theorem conserved_provided : ∃ sys s t ts, withPool = some sys ∧ s = enter sys ∧ Run (step .tagged) s ts t ∧
    ts.map (·.action) = provided ∧ s.group = [0] ∧ ∀ e ∈ ts, e.after.places 0 = 1 := by
  obtain ⟨sys, hsys, hgroup⟩ := Option.map_eq_some_iff.mp (show
    withPool.map (fun sys => (enter sys).group) = some [0] by
    decide +kernel)
  have hrun : ((withPool.map enter).bind (execAll (step .tagged) (ReturnsBuffer .tagged) provided)).isSome = true := by
    decide +kernel
  rw [hsys] at hrun
  obtain ⟨t, ht⟩ := Option.isSome_iff_exists.mp hrun
  obtain ⟨ts, hts, hacts, hret⟩ :=
    Run.exec (show execAll (step .tagged) (ReturnsBuffer .tagged) provided (enter sys) = some t from ht)
  have hall := (conserved_iff (enter_init (start_init hsys)) hts).mpr hret
  refine ⟨sys, enter sys, t, ts, hsys, rfl, hts, hacts, hgroup, fun e he => (hall.2 e he).1 0 ?_⟩
  rw [hgroup]
  exact List.mem_singleton_self 0

/-- A second client's data is in the buffer when the first one's completion turns multishot mode off: the buffer is
not provided again. -/
def turnedOff : List PoolAction :=
  [.run (.complete 1 { res := 5, more := true } [] { sqes := [true] }),
    .run (.complete 1 { res := 6, more := true } [] { sqes := [true] }), .select 3 0,
    .run (.complete 2 { res := -22 } [] { sqes := [true] }),
    .run (.complete 2 { res := 1, more := true, buffer := some 0 } (ascii "G") { sqes := [true] })]

theorem buffer_lost : ∃ s t, withPool.map enter = some s ∧
    execAll (step .tagged) (fun _ _ => True) turnedOff s = some t ∧ Init s ∧ 0 ∈ s.group ∧ t.places 0 = 0 ∧
    providesOf t.sys.w.trace = providesOf s.sys.w.trace := by
  obtain ⟨sys, hsys, hgroup⟩ := Option.map_eq_some_iff.mp (show
    withPool.map (fun sys => (enter sys).group) = some [0] by
    decide +kernel)
  have hobs : ((withPool.map enter).bind (execAll (step .tagged) (fun _ _ => True) turnedOff)).map (fun t =>
      (t.places 0, providesOf t.sys.w.trace)) =
      some (0, [(0, 0)]) := by decide +kernel
  have hgiven : withPool.map (fun sys => providesOf sys.w.trace) = some [(0, 0)] := by decide +kernel
  rw [hsys] at hobs hgiven
  obtain ⟨t, ht, hobs⟩ := Option.map_eq_some_iff.mp hobs
  obtain ⟨hplaces, hnone⟩ := Prod.mk.inj hobs
  refine ⟨enter sys, t, by rw [hsys]; rfl, ht, enter_init (start_init hsys), ?_, hplaces, ?_⟩
  · rw [hgroup]
    exact List.mem_singleton_self 0
  · rw [hnone]
    exact (Option.some.inj hgiven).symm

end Pool

end IOContext
