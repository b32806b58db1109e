import IOContext.Worker.Transfers

/-!
# A ring that stays full

`sendkick_inline` without a slot posts a flush, and `post_task` without a slot flushes inline: the two call each other
until `get_sqe_or_submit` returns a slot.

- While no slot is returned there is no end of it (`sendkickInline_stuck`), with the first slot there is
  (`sendkickInline_slot`).
- So a flush returns, with the queue intact, exactly if some call returns a slot (`sendkick_returns_iff`).
-/

namespace IOContext

namespace Worker

variable {c : Ptr} {fd : Fd} {w w' : Worker} {sqes : List Bool}

/-- A connection that a flush would send for, before and after a batch has been taken and put back. -/
theorem putBack_ready (hat : w.At c fd) (hready : (w.heap c).Ready) :
    let w₁ := (w.modify c PerClientStorage.takeBatch).modify c PerClientStorage.rollback
    w₁.At c fd ∧ (w₁.heap c).Ready := by
  refine ⟨hat.prims ((takeBatch_prims hready).trans rollback_prims), by simp [PerClientStorage.rollback], ?_⟩
  simpa [PerClientStorage.takeBatch] using hready.2

/-- Without a slot the flush comes back to itself. -/
theorem sendkickInline_null (hat : w.At c fd) (hready : (w.heap c).Ready) :
    w.sendkickInline c (false :: sqes) =
      ((w.modify c PerClientStorage.takeBatch).modify c PerClientStorage.rollback).postTask fd .requestFlush sqes := by
  have hfd : (w.heap c).takeBatch.rollback.fd = fd := hat.obj
  rw [sendkickInline, if_neg (PerClientStorage.ready_iff.mp hready)]
  simp [hfd]

theorem postTask_null (hat : w.At c fd) : w.postTask fd .requestFlush (false :: sqes) = w.sendkickInline c sqes := by
  simp [postTask, hat.table]

mutual

/-- While no slot is returned the flush has not come to its end. -/
theorem sendkickInline_stuck : ∀ {sqes : List Bool} {w : Worker}, w.At c fd → (w.heap c).Ready →
    (∀ b ∈ sqes, b = false) → w.sendkickInline c sqes = none
  | [], w, _, hready, _ => by rw [sendkickInline, if_neg (PerClientStorage.ready_iff.mp hready)]
  | b :: sqes, w, hat, hready, hnull => by
    obtain rfl := hnull b List.mem_cons_self
    obtain ⟨hat', hready'⟩ := putBack_ready hat hready
    rw [sendkickInline_null hat hready]
    exact flushTask_stuck hat' hready' fun b hb => hnull b (List.mem_cons_of_mem _ hb)

theorem flushTask_stuck : ∀ {sqes : List Bool} {w : Worker}, w.At c fd → (w.heap c).Ready →
    (∀ b ∈ sqes, b = false) → w.postTask fd .requestFlush sqes = none
  | [], w, _, _, _ => by rw [postTask]
  | b :: sqes, w, hat, hready, hnull => by
    obtain rfl := hnull b List.mem_cons_self
    rw [postTask_null hat]
    exact sendkickInline_stuck hat hready fun b hb => hnull b (List.mem_cons_of_mem _ hb)

end

mutual

/-- With the first slot the flush comes to its end. -/
theorem sendkickInline_slot : ∀ {sqes : List Bool} {w : Worker}, w.At c fd → true ∈ sqes →
    ∃ w', w.sendkickInline c sqes = some w'
  | b :: sqes, w, hat, hslot => by
    by_cases hready : (w.heap c).Ready
    · cases b with
      | true =>
        rw [sendkickInline, if_neg (PerClientStorage.ready_iff.mp hready)]
        exact ⟨_, rfl⟩
      | false =>
        rw [sendkickInline_null hat hready]
        exact flushTask_slot (putBack_ready hat hready).1 ((List.mem_cons.mp hslot).resolve_left (by decide))
    · rw [sendkickInline, if_pos (not_not.mp (PerClientStorage.ready_iff.not.mp hready))]
      exact ⟨_, rfl⟩

theorem flushTask_slot : ∀ {sqes : List Bool} {w : Worker}, w.At c fd → true ∈ sqes →
    ∃ w', w.postTask fd .requestFlush sqes = some w'
  | true :: sqes, w, _, _ => by
    rw [postTask]
    exact ⟨_, rfl⟩
  | false :: sqes, w, hat, hslot => by
    rw [postTask_null hat]
    exact sendkickInline_slot hat ((List.mem_cons.mp hslot).resolve_left (by decide))

end

/-- A flush that returns leaves what is to be sent as it was. -/
theorem sendkickInline_unsent (hat : w.At c fd) (h : w.sendkickInline c sqes = some w') :
    (w'.heap c).unsent = (w.heap c).unsent := by
  obtain ⟨evs, htrace, -⟩ := (sendkickInline_prims hat h).trace
  have hqueued := (sendkickInline_prims hat h).queuedOf_nil (by rintro ⟨⟩) htrace
  rw [(sendkickInline_transfers hat h).unsent htrace, hqueued, List.append_nil]

/-- The first `n` outcomes. -/
def outcomes (σ : Nat → Bool) (n : Nat) : List Bool := (List.range n).map σ

/-- For a connection with something to send a flush returns, with the queue intact, exactly if a send is being waited
for or some call of `get_sqe_or_submit` returns a slot. -/
theorem sendkick_returns_iff (hat : w.At c fd) (hq : (w.heap c).txq ≠ []) (σ : Nat → Bool) :
    (∃ n w', w.sendkickInline c (outcomes σ n) = some w' ∧ (w'.heap c).unsent = (w.heap c).unsent) ↔
      (w.heap c).sendInflight = true ∨ ∃ k, σ k = true := by
  constructor
  · rintro ⟨n, w', h, -⟩
    by_contra hno
    rw [not_or, Bool.not_eq_true, not_exists] at hno
    have hnull : ∀ b ∈ outcomes σ n, b = false := fun b hb => by
      obtain ⟨k, -, rfl⟩ := List.mem_map.mp hb
      exact eq_false_of_ne_true (hno.2 k)
    rw [sendkickInline_stuck hat ⟨hno.1, hq⟩ hnull] at h
    cases h
  · rintro (hbusy | ⟨k, hk⟩)
    · refine ⟨0, w.withSqes [], ?_, rfl⟩
      rw [sendkickInline, if_pos (by rw [hbusy]; rfl)]
      rfl
    · have hslot : true ∈ outcomes σ (k + 1) := List.mem_map.mpr ⟨k, List.mem_range.mpr (Nat.lt_succ_self k), hk⟩
      obtain ⟨w', h⟩ := sendkickInline_slot hat hslot
      exact ⟨k + 1, w', h, sendkickInline_unsent hat h⟩

/-- A connection with a buffer to send. -/
def pendingFlush : Worker where
  listenFd := 3
  cfg := {}
  routes := []
  table := fun fd => if fd = 5 then some 0 else none
  heap := fun c => if c = 0 then { fd := 5, hasOwner := true, txq := [⟨ascii "ok", true⟩] } else {}
  nextPtr := 1

theorem pendingFlush_at : pendingFlush.At 0 5 := ⟨rfl, rfl⟩

theorem sendkick_returns_late : ∃ n w', pendingFlush.sendkickInline 0 (outcomes (fun k => decide (k = 4)) n) = some w' ∧
    (w'.heap 0).unsent = (pendingFlush.heap 0).unsent :=
  (sendkick_returns_iff pendingFlush_at (by decide) _).mpr (.inr ⟨4, rfl⟩)

/-- A ring that stays full: no number of calls is enough. -/
theorem flush_never_returns : pendingFlush.At 0 5 ∧ (pendingFlush.heap 0).txq ≠ [] ∧
    ∀ n, pendingFlush.sendkickInline 0 (outcomes (fun _ => false) n) = none := by
  refine ⟨pendingFlush_at, by decide, fun n => sendkickInline_stuck pendingFlush_at (by decide) fun b hb => ?_⟩
  obtain ⟨k, -, rfl⟩ := List.mem_map.mp hb
  rfl

end Worker

end IOContext
