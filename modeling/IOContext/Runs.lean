import IOContext.System
import IOContext.Worker.Moves
import IOContext.Worker.Trace

/-!
# Runs of the system

- A step closes a descriptor, delivers a completion or ends a batch (`step_cases`); each moves the worker
  (`Step.moves`), so that an invariant of the moves holds in every state of a run (`worker_invariant`).
- The trace only grows, and what is owed is among what has been submitted (`pending_mem`).
-/

namespace IOContext

/-- The completions owed for an event are those of its submission. -/
theorem Event.mem_owed {ev : Event} {p : Pending} (h : p ∈ ev.owed) : ev = .sqe p.sqe ∧ p.executed = false := by
  cases ev with
  | sqe e =>
    unfold Event.owed at h
    dsimp only at h
    split at h
    · rcases List.mem_cons.mp h with rfl | h
      · exact ⟨rfl, rfl⟩
      · cases List.mem_singleton.mp h
        exact ⟨rfl, rfl⟩
    · cases List.mem_singleton.mp h
      exact ⟨rfl, rfl⟩
  | segment | enqueue | invoke => cases h

/-- A submission owes its own completion. -/
theorem Event.owed_self (e : Sqe) : ({ sqe := e } : Pending) ∈ (Event.sqe e).owed := by
  unfold Event.owed
  dsimp only
  split <;> simp

namespace Worker

variable {w w' : Worker}

theorem Move.trace (h : Move w w') : ∃ evs, w'.trace = w.trace ++ evs := by
  cases h with
  | conn _ h =>
    obtain ⟨evs, h, -⟩ := h.trace
    exact ⟨evs, h⟩
  | listen h =>
    obtain ⟨evs, h, -⟩ := (h 0 0).trace
    exact ⟨evs, h⟩
  | accept cfd h =>
    obtain ⟨evs, h, -⟩ := h.trace
    exact ⟨evs, h⟩
  | erase => exact ⟨[], (List.append_nil _).symm⟩
  | outside => exact ⟨[], (List.append_nil _).symm⟩

theorem Moves.trace (h : Moves w w') : ∃ evs, w'.trace = w.trace ++ evs := by
  induction h with
  | refl => exact ⟨[], (List.append_nil _).symm⟩
  | tail _ h ih =>
    obtain ⟨evs, ih⟩ := ih
    obtain ⟨evs', h⟩ := h.trace
    exact ⟨evs ++ evs', by rw [h, ih, List.append_assoc]⟩

end Worker

namespace Sys

open Worker

variable {d : Dispatch} {ok : Sys → Action → Prop} {s s' : Sys} {a : Action} {p : Pending}

/-! ## Steps -/

/-- The steps, by their actions. -/
inductive Step (d : Dispatch) (s : Sys) : Action → Sys → Prop
  | executeClose {i : Nat} {p : Pending} {fd : Fd} (hp : s.pending[i]? = some p) (hop : p.sqe.op = .close fd)
      (hex : p.executed = false) : Step d s (.executeClose i)
        { s with
          pending := s.pending.set i { p with executed := true }
          openFds := Function.update s.openFds fd false }
  | complete {i : Nat} {cqe : Cqe} {data : Bytes} {env : Env} {p : Pending} {w' : Worker}
      (hp : s.pending[i]? = some p) (hadm : s.Admissible p cqe data)
      (hw : handled d (s.arrive p cqe data env) p cqe = some w') :
      Step d s (.complete i cqe data env) (s.after i p cqe data w')
  | endBatch : Step d s .endBatch { s with w := s.w.endBatch }

theorem step_cases (h : step d s a = some s') : s.w.terminated = false ∧ Step d s a s' := by
  unfold step at h
  split at h
  · cases h
  · rename_i ht
    refine ⟨by simpa using ht, ?_⟩
    cases a with
    | executeClose i =>
      obtain ⟨p, hp, h⟩ := Option.bind_eq_some_iff.mp h
      split at h
      · rename_i hop hex
        cases h
        exact .executeClose hp hop hex
      · cases h
    | complete i cqe data env =>
      obtain ⟨p, hp, h⟩ := Option.bind_eq_some_iff.mp h
      split at h
      · rename_i hadm
        obtain ⟨w', hw, h⟩ := Option.bind_eq_some_iff.mp h
        cases h
        exact .complete hp hadm hw
      · cases h
    | endBatch =>
      cases h
      exact .endBatch

theorem arrive_trace (s : Sys) (p : Pending) (cqe : Cqe) (data : Bytes) (env : Env) :
    (s.arrive p cqe data env).trace = s.w.trace := by
  unfold arrive fillBuffer
  split <;> rfl

theorem arrive_table (s : Sys) (p : Pending) (cqe : Cqe) (data : Bytes) (env : Env) :
    (s.arrive p cqe data env).table = s.w.table := by
  unfold arrive fillBuffer
  split <;> rfl

theorem arrive_heap (s : Sys) (p : Pending) (cqe : Cqe) (data : Bytes) (env : Env) :
    (s.arrive p cqe data env).heap = s.w.heap := by
  unfold arrive fillBuffer
  split <;> rfl

theorem arrive_move (s : Sys) (p : Pending) (cqe : Cqe) (data : Bytes) (env : Env) :
    Move s.w (s.arrive p cqe data env) := by
  unfold arrive fillBuffer
  split <;> exact .outside ..

theorem handled_moves {w w' : Worker} {cqe : Cqe} (hok : w.Ok) (h : handled d w p cqe = some w') : Moves w w' := by
  unfold handled at h
  split at h
  · exact handle_moves hok h
  · cases h
    exact .refl

/-- A step moves the worker. -/
theorem Step.moves (hok : s.w.Ok) (h : Step d s a s') : Moves s.w s'.w := by
  cases h with
  | executeClose => exact .refl
  | complete hp hadm hw =>
    exact .head (arrive_move ..) (handled_moves (hok.move (arrive_move ..)) hw)
  | endBatch => exact .single (.outside ..)

/-! ## Invariants of the worker -/

theorem Init.moves (h : Init s) : ∃ listenFd cfg routes env,
    Moves { listenFd := listenFd, cfg := cfg, routes := routes, env := env } s.w := by
  obtain ⟨listenFd, cfg, routes, allocated, env, h, -, -⟩ := h
  exact ⟨listenFd, cfg, routes, env, startUp_moves h⟩

theorem table_ok (h : Reachable d ok s) : s.w.Ok := by
  refine Reach.invariant (I := fun s => s.w.Ok) (fun s h => ?_) (fun s a s' hs _ h => ?_) s h
  · obtain ⟨listenFd, cfg, routes, env, h⟩ := h.moves
    exact Ok.moves ⟨fun _ _ h => (by cases h), fun _ _ h => (by cases h)⟩ h
  · exact hs.moves ((step_cases h).2.moves hs)

/-- What the moves preserve holds of the worker in every state of a run. -/
theorem worker_invariant {I : Worker → Prop}
    (h0 : ∀ listenFd cfg routes env, I { listenFd := listenFd, cfg := cfg, routes := routes, env := env })
    (h1 : ∀ w w', w.Ok → I w → Move w w' → I w') (h : Reachable d ok s) : I s.w := by
  have hmoves : ∀ {w w' : Worker}, w.Ok → I w → Moves w w' → I w' := fun hok hI h => by
    induction h with
    | refl => exact hI
    | tail hm h ih => exact h1 _ _ (hok.moves hm) ih h
  refine Reach.invariant_of (K := fun s => s.w.Ok) (I := fun s => I s.w) (fun _ => table_ok) (fun s h => ?_)
    (fun s a s' hs hI _ h => ?_) s h
  · obtain ⟨listenFd, cfg, routes, env, h⟩ := h.moves
    exact hmoves ⟨fun _ _ h => (by cases h), fun _ _ h => (by cases h)⟩ (h0 ..) h
  · exact hmoves hs hI ((step_cases h).2.moves hs)

/-- A worker without a buffer pool that listens on descriptor 3. -/
def withoutPool (routes : Routes) : Option Sys := start 3 {} routes false { sqes := [true] } fun fd => fd == 3

/-- A worker whose pool has one buffer. -/
def withPool : Option Sys := start 3 {} [] true { sqes := [true, false, true] } fun fd => fd == 3

/-- A client connects as 5 and sends `GET / HTTP/1.1`; the handler is found. -/
def request : List Action :=
  [.complete 0 { res := 5, more := true } [] { sqes := [true] },
    .complete 1 { res := 18 } (ascii "GET / HTTP/1.1" ++ [CR, LF, CR, LF]) { sqes := [true, true, true] },
    .complete 1 { res := 0 } [] {}]

/-- The response is generated, and a send of it submitted. -/
def response : List Action :=
  [.complete 2 { res := 0 } [] { sqes := [true] }, .complete 4 { res := 0 } [] { sqes := [true] }]

/-- A list of actions, executed from where the loop is entered. -/
theorem run_reachable [∀ s a, Decidable (ok s a)] {listenFd : Fd} {cfg : WorkerConfig} {routes : Routes}
    {allocated : Bool} {env : Env} {openFds : Fd → Bool} {as : List Action}
    (h : (start listenFd cfg routes allocated env openFds).bind (execAll (step d) ok as) = some s) :
    Reachable d ok s := by
  obtain ⟨s₀, h₀, h⟩ := Option.bind_eq_some_iff.mp h
  exact Reach.exec (.start (start_init h₀)) h

/-- Along a run the trace only grows. -/
theorem run_trace {t : Sys} {ts : List (Transition Sys Action)} (hs : Reach Init (step d) ok s)
    (h : Run (step d) s ts t) (hok : ∀ e ∈ ts, ok e.before e.action) : ∃ evs, t.w.trace = s.w.trace ++ evs := by
  induction h with
  | nil => exact ⟨[], (List.append_nil _).symm⟩
  | cons hstep _ ih =>
    have h1 := hok _ List.mem_cons_self
    obtain ⟨evs, hevs⟩ := ((step_cases hstep).2.moves (table_ok hs)).trace
    obtain ⟨evs', hevs'⟩ := ih (.next hs h1 hstep) fun e he => hok e (List.mem_cons_of_mem _ he)
    exact ⟨evs ++ evs', by rw [hevs', hevs, List.append_assoc]⟩

/-- A server without a buffer pool that has a handler for `/`, which leaves the response as it is. -/
def serve (d : Dispatch) (ok : Sys → Action → Prop) [∀ s a, Decidable (ok s a)] (as : List Action) : Option Sys :=
  (withoutPool [(ascii "/", fun _ res => res)]).bind (execAll (step d) ok as)

/-! ## Completions owed -/

theorem filter_eraseIdx {α : Type*} {f : α → Bool} : ∀ {l : List α} {i : Nat} {a : α}, l[i]? = some a →
    ∃ l₁ l₂, l.filter f = l₁ ++ [a].filter f ++ l₂ ∧ (l.eraseIdx i).filter f = l₁ ++ l₂
  | [], _, _, h => by simp at h
  | x :: l, 0, a, h => by
    cases h
    exact ⟨[], l.filter f, by rw [List.nil_append, ← List.filter_append]; rfl, rfl⟩
  | x :: l, i + 1, a, h => by
    obtain ⟨l₁, l₂, hl, he⟩ := filter_eraseIdx (f := f) (l := l) (i := i) (by simpa using h)
    refine ⟨[x].filter f ++ l₁, l₂, ?_, ?_⟩
    · rw [← List.singleton_append, List.filter_append, hl]
      simp only [List.append_assoc]
    · rw [List.eraseIdx_cons_succ, ← List.singleton_append, List.filter_append, he, List.append_assoc]

/-- The only element with a property, removed. -/
theorem filter_eraseIdx_only {α : Type*} {f : α → Bool} {l : List α} {i : Nat} {a b : α} (h : l.filter f = [b])
    (ha : l[i]? = some a) (hf : f a = true) : b = a ∧ (l.eraseIdx i).filter f = [] := by
  obtain ⟨l₁, l₂, hl, he⟩ := filter_eraseIdx (f := f) ha
  rw [List.filter_cons, if_pos hf, List.filter_nil, h] at hl
  have hlen := congrArg List.length hl
  simp only [List.length_append, List.length_singleton] at hlen
  obtain rfl : l₁ = [] := List.eq_nil_of_length_eq_zero (by omega)
  obtain rfl : l₂ = [] := List.eq_nil_of_length_eq_zero (by omega)
  exact ⟨List.singleton_inj.mp hl, he⟩

theorem filter_set {α : Type*} {f : α → Bool} : ∀ {l : List α} {i : Nat} {a b : α}, l[i]? = some a → f a = false →
    f b = false → (l.set i b).filter f = l.filter f
  | [], _, _, _, h, _, _ => by simp at h
  | x :: l, 0, a, b, h, ha, hb => by
    cases h
    simp [ha, hb]
  | x :: l, i + 1, a, b, h, ha, hb => by
    rw [List.set_cons_succ, List.filter_cons, List.filter_cons, filter_set (by simpa using h) ha hb]

/-- What is owed after a step was owed before, possibly with the close not yet executed, or is owed for an event that
the step has added to the trace. -/
theorem Step.pending (hok : s.w.Ok) (h : Step d s a s') :
    ∃ evs, s'.w.trace = s.w.trace ++ evs ∧ ∀ p ∈ s'.pending,
      (∃ q ∈ s.pending, p.sqe = q.sqe ∧ p.message = q.message) ∨ ∃ ev ∈ evs, p ∈ ev.owed := by
  obtain ⟨evs, htrace⟩ := (h.moves hok).trace
  refine ⟨evs, htrace, fun p hp => ?_⟩
  cases h with
  | executeClose hq hop hex =>
    rcases List.mem_or_eq_of_mem_set hp with hp | rfl
    · exact .inl ⟨p, hp, rfl, rfl⟩
    · exact .inl ⟨_, List.mem_of_getElem? hq, rfl, rfl⟩
  | complete hq hadm hw =>
    rcases List.mem_append.mp hp with hp | hp
    · refine .inl ⟨p, ?_, rfl, rfl⟩
      split at hp
      · exact hp
      · exact List.mem_of_mem_eraseIdx hp
    · obtain ⟨ev, hev, hp⟩ := List.mem_flatMap.mp hp
      refine .inr ⟨ev, ?_, hp⟩
      have htr : (s.after _ _ _ _ _).w.trace = s.w.trace ++ evs := htrace
      simp only [after] at htr
      rwa [htr, List.drop_left] at hev
  | endBatch => exact .inl ⟨p, hp, rfl, rfl⟩

/-- What is owed has been submitted. -/
theorem pending_mem (h : Reachable d ok s) : ∀ p ∈ s.pending, p.sqe ∈ sqesOf s.w.trace := by
  refine Reach.invariant_of (K := fun s => s.w.Ok) (I := fun s => ∀ p ∈ s.pending, p.sqe ∈ sqesOf s.w.trace)
    (fun _ => table_ok) (fun s h p hp => ?_) (fun s a s' hok hI _ h p hp => ?_) s h
  · obtain ⟨_, _, _, _, _, _, hpend, -⟩ := h
    rw [hpend] at hp
    obtain ⟨ev, hev, hp⟩ := List.mem_flatMap.mp hp
    rw [(Event.mem_owed hp).1] at hev
    exact mem_sqesOf.mpr hev
  · obtain ⟨evs, htrace, hpend⟩ := (step_cases h).2.pending hok
    rw [htrace, sqesOf_append, List.mem_append]
    rcases hpend p hp with ⟨q, hq, hsqe, -⟩ | ⟨ev, hev, hp⟩
    · exact .inl (hsqe ▸ hI q hq)
    · rw [(Event.mem_owed hp).1] at hev
      exact .inr (mem_sqesOf.mpr hev)

/-- What is owed after a completion was owed before, or is owed for what it has submitted. -/
theorem mem_after {i : Nat} {cqe : Cqe} {data : Bytes} {w' : Worker} {evs : List Event} {q : Pending}
    (htrace : w'.trace = s.w.trace ++ evs) :
    q ∈ (s.after i p cqe data w').pending ↔
      q ∈ (if goesOn p cqe then s.pending else s.pending.eraseIdx i) ∨ ∃ ev ∈ evs, q ∈ ev.owed := by
  simp only [after, owedSince, htrace, List.drop_left, List.mem_append, List.mem_flatMap]

/-- The other completions are still owed. -/
theorem mem_rest {i : Nat} {cqe : Cqe} {q : Pending} (hp : s.pending[i]? = some p) (hq : q ∈ s.pending) (hne : q ≠ p) :
    q ∈ (if goesOn p cqe then s.pending else s.pending.eraseIdx i) := by
  split
  · exact hq
  · obtain ⟨j, hj⟩ := List.getElem?_of_mem hq
    refine List.mem_eraseIdx_iff_getElem?.mpr ⟨j, fun hji => hne ?_, hj⟩
    rw [hji, hp] at hj
    exact (Option.some.inj hj).symm

theorem mem_of_mem_rest {i : Nat} {cqe : Cqe} {q : Pending}
    (hq : q ∈ (if goesOn p cqe then s.pending else s.pending.eraseIdx i)) : q ∈ s.pending := by
  split at hq
  · exact hq
  · exact List.mem_of_mem_eraseIdx hq

/-- Every submission is made for a connection, or for the listener or the pool. -/
theorem submitted_for (h : Reachable d ok s) : ∀ e ∈ sqesOf s.w.trace, ∃ c fd, e.op.For c fd e.owner := by
  refine worker_invariant (I := fun w => ∀ e ∈ sqesOf w.trace, ∃ c fd, e.op.For c fd e.owner)
    (fun _ _ _ _ _ h => by cases h) (fun w w' _ hI hm => ?_) h
  have hprims : ∀ {L : Effect → Prop} {c : Ptr} {fd : Fd} (w₀ : Worker), w₀.trace = w.trace → Prims L c fd w₀ w' →
      ∀ e ∈ sqesOf w'.trace, ∃ c fd, e.op.For c fd e.owner := fun w₀ h₀ hp e he => by
    obtain ⟨evs, htrace, hev⟩ := hp.trace
    rw [htrace, h₀, sqesOf_append, List.mem_append] at he
    exact he.elim (hI e) fun he => ⟨_, _, (hev _ (mem_sqesOf.mp he)).2⟩
  cases hm with
  | conn _ hp => exact hprims w rfl hp
  | listen hp => exact hprims w rfl (hp 0 0)
  | accept cfd hp => exact hprims (w.addConn cfd).2 rfl hp
  | erase => exact hI
  | outside => exact hI

end Sys

end IOContext
