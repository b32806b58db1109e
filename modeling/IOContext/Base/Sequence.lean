import Mathlib.Data.List.Forall2

/-!
# Items one after another

`readAll read` applies `read`, which returns an item and what follows it, until the input is used up. What a reader
makes of an item in front of anything, it makes of each item of a sequence (`readAll_flatMap`).
-/

variable {α β γ : Type*}

/-- Items until the input is used up. -/
def readAll (read : List β → Option (α × List β)) : Nat → List β → Option (List α)
  | _, [] => some []
  | 0, _ :: _ => none
  | fuel + 1, b :: s => (read (b :: s)).bind fun xr => (readAll read fuel xr.2).map (xr.1 :: ·)

/-- If every item has bytes and is read back as `R` says, whatever follows it, then so is a sequence of items. -/
theorem readAll_flatMap {read : List β → Option (α × List β)} {write : γ → List β} {R : γ → α → Prop} {ys : List γ}
    (hne : ∀ y ∈ ys, write y ≠ []) (h : ∀ y ∈ ys, ∀ t, ∃ x, read (write y ++ t) = some (x, t) ∧ R y x) :
    ∃ xs, readAll read (ys.flatMap write).length (ys.flatMap write) = some xs ∧ List.Forall₂ R ys xs := by
  -- any fuel that is enough for the bytes
  suffices hfuel : ∀ (ys : List γ) (fuel : Nat), (∀ y ∈ ys, write y ≠ []) →
      (∀ y ∈ ys, ∀ t, ∃ x, read (write y ++ t) = some (x, t) ∧ R y x) → (ys.flatMap write).length ≤ fuel →
      ∃ xs, readAll read fuel (ys.flatMap write) = some xs ∧ List.Forall₂ R ys xs from
    hfuel ys _ hne h (Nat.le_refl _)
  intro ys
  induction ys with
  | nil =>
    intro fuel _ _ _
    exact ⟨[], by cases fuel <;> rfl, .nil⟩
  | cons y ys ih =>
    intro fuel hne h hlen
    obtain ⟨b, s, hbytes⟩ := List.exists_cons_of_ne_nil (hne y List.mem_cons_self)
    rw [List.flatMap_cons] at hlen ⊢
    cases fuel with
    | zero => simp [hbytes] at hlen
    | succ fuel =>
      have hshort : (ys.flatMap write).length ≤ fuel := by
        rw [List.length_append, hbytes, List.length_cons] at hlen
        omega
      obtain ⟨xs, hxs, hall⟩ := ih fuel (fun z hz => hne z (List.mem_cons_of_mem _ hz))
        (fun z hz => h z (List.mem_cons_of_mem _ hz)) hshort
      obtain ⟨x, hx, hR⟩ := h y List.mem_cons_self (ys.flatMap write)
      refine ⟨x :: xs, ?_, .cons hR hall⟩
      rw [hbytes, List.cons_append] at hx ⊢
      rw [readAll, hx, Option.bind_some, hxs, Option.map_some]
