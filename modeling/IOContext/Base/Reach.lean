import Mathlib.Data.Option.Basic

/-!
# Reachable states

A system has initial states and a partial `step` on actions. `Reach init step ok` are the states of the runs all of
whose steps meet the condition `ok`, which may depend on the state before the step and on the action; `Run` lists the
transitions of a run.

- An invariant is proved once for the initial states and once for a step (`Reach.invariant`); the step may use what is
  already known of every state reached (`Reach.invariant_of`).
- What a step from a state reached does, every transition of a run does (`Run.forall_step`); a run can be cut at a
  transition (`Run.split`).
- A run under a condition is a run under a weaker one (`Reach.mono`).
- A list of actions that can be executed gives a state reached (`Reach.exec`).
-/

variable {σ α : Type*}

/-- The states of the runs whose steps all meet `ok`. -/
inductive Reach (init : σ → Prop) (step : σ → α → Option σ) (ok : σ → α → Prop) : σ → Prop
  | start {s : σ} : init s → Reach init step ok s
  | next {s s' : σ} {a : α} : Reach init step ok s → ok s a → step s a = some s' → Reach init step ok s'

namespace Reach

variable {init : σ → Prop} {step : σ → α → Option σ} {ok : σ → α → Prop}

/-- An invariant of the steps, given one that is known already. -/
theorem invariant_of {K I : σ → Prop} (hK : ∀ s, Reach init step ok s → K s) (h0 : ∀ s, init s → I s)
    (h1 : ∀ s a s', K s → I s → ok s a → step s a = some s' → I s') : ∀ s, Reach init step ok s → I s := by
  intro s h
  induction h with
  | start hs => exact h0 _ hs
  | next hr hok hs ih => exact h1 _ _ _ (hK _ hr) ih hok hs

/-- An invariant of the steps. -/
theorem invariant {I : σ → Prop} (h0 : ∀ s, init s → I s)
    (h1 : ∀ s a s', I s → ok s a → step s a = some s' → I s') : ∀ s, Reach init step ok s → I s :=
  invariant_of (K := fun _ => True) (fun _ _ => trivial) h0 fun s a s' _ => h1 s a s'

theorem mono {ok' : σ → α → Prop} (h : ∀ s a, ok s a → ok' s a) {s : σ} (hs : Reach init step ok s) :
    Reach init step ok' s :=
  invariant (fun _ => .start) (fun s a _ hr hok => .next hr (h s a hok)) s hs

end Reach

/-! ## Runs -/

/-- One step of a run. -/
structure Transition (σ α : Type*) where
  before : σ
  action : α
  after : σ

/-- A run with its transitions, in order. -/
inductive Run (step : σ → α → Option σ) : σ → List (Transition σ α) → σ → Prop
  | nil (s : σ) : Run step s [] s
  | cons {s t u : σ} {a : α} {ts : List (Transition σ α)} :
      step s a = some t → Run step t ts u → Run step s (⟨s, a, t⟩ :: ts) u

namespace Run

variable {init : σ → Prop} {step : σ → α → Option σ} {ok : σ → α → Prop} {s t : σ} {ts : List (Transition σ α)}

theorem reach (hs : Reach init step ok s) (h : Run step s ts t) (hok : ∀ e ∈ ts, ok e.before e.action) :
    Reach init step ok t := by
  induction h with
  | nil => exact hs
  | cons hstep _ ih =>
    exact ih (.next hs (hok _ List.mem_cons_self) hstep) fun e he => hok e (List.mem_cons_of_mem _ he)

/-- A property of the steps from the states reached is one of the transitions of every run. -/
theorem forall_step {Q : σ → α → σ → Prop}
    (hQ : ∀ s a s', Reach init step ok s → ok s a → step s a = some s' → Q s a s') (hs : Reach init step ok s)
    (h : Run step s ts t) (hok : ∀ e ∈ ts, ok e.before e.action) : ∀ e ∈ ts, Q e.before e.action e.after := by
  induction h with
  | nil => exact fun _ he => absurd he List.not_mem_nil
  | cons hstep _ ih =>
    have h1 := hok _ List.mem_cons_self
    intro e he
    rcases List.mem_cons.mp he with rfl | he
    · exact hQ _ _ _ hs h1 hstep
    · exact ih (.next hs h1 hstep) (fun e he => hok e (List.mem_cons_of_mem _ he)) e he

/-- A run ends with its last transition. -/
theorem last (h : Run step s ts t) (hne : ts ≠ []) : ∃ e ∈ ts, e.after = t := by
  induction h with
  | nil => exact absurd rfl hne
  | cons hstep hrun ih =>
    cases hrun with
    | nil => exact ⟨_, List.mem_cons_self, rfl⟩
    | cons =>
      obtain ⟨e, he, hlast⟩ := ih (List.cons_ne_nil _ _)
      exact ⟨e, List.mem_cons_of_mem _ he, hlast⟩

/-- A run up to one of its transitions, and from there on. -/
theorem split {e : Transition σ α} (h : Run step s ts t) (he : e ∈ ts) :
    ∃ ts₁ ts₂, Run step s ts₁ e.before ∧ step e.before e.action = some e.after ∧ Run step e.after ts₂ t ∧
      ts = ts₁ ++ e :: ts₂ := by
  induction h with
  | nil => exact absurd he List.not_mem_nil
  | cons hstep hrun ih =>
    rcases List.mem_cons.mp he with rfl | he
    · exact ⟨[], _, .nil _, hstep, hrun, rfl⟩
    · obtain ⟨ts₁, ts₂, h1, h2, h3, rfl⟩ := ih he
      exact ⟨_ :: ts₁, ts₂, .cons hstep h1, h2, h3, rfl⟩

end Run

/-! ## Executions -/

/-- Execute a list of actions, as long as each step meets the condition. -/
def execAll (step : σ → α → Option σ) (ok : σ → α → Prop) [∀ s a, Decidable (ok s a)] : List α → σ → Option σ
  | [], s => some s
  | a :: as, s => if ok s a then (step s a).bind (execAll step ok as) else none

theorem Reach.exec {init : σ → Prop} {step : σ → α → Option σ} {ok : σ → α → Prop} [∀ s a, Decidable (ok s a)]
    {as : List α} {s s' : σ} (hs : Reach init step ok s) (h : execAll step ok as s = some s') :
    Reach init step ok s' := by
  induction as generalizing s with
  | nil =>
    cases h
    exact hs
  | cons a as ih =>
    unfold execAll at h
    split at h
    · rename_i hok
      obtain ⟨t, ht, h⟩ := Option.bind_eq_some_iff.mp h
      exact ih (.next hs hok ht) h
    · cases h

/-- The run of an execution. -/
theorem Run.exec {step : σ → α → Option σ} {ok : σ → α → Prop} [∀ s a, Decidable (ok s a)] {as : List α} {s s' : σ}
    (h : execAll step ok as s = some s') :
    ∃ ts, Run step s ts s' ∧ ts.map (·.action) = as ∧ ∀ e ∈ ts, ok e.before e.action := by
  induction as generalizing s with
  | nil =>
    cases h
    exact ⟨[], .nil _, rfl, fun _ he => absurd he List.not_mem_nil⟩
  | cons a as ih =>
    unfold execAll at h
    split at h
    · rename_i hok
      obtain ⟨t, ht, h⟩ := Option.bind_eq_some_iff.mp h
      obtain ⟨ts, hrun, hmap, hts⟩ := ih h
      exact ⟨_, .cons ht hrun, by rw [List.map_cons, hmap], by simpa [hok] using hts⟩
    · cases h
