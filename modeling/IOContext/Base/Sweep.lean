import Mathlib.Data.List.Basic
import Mathlib.Data.List.Perm.Basic

/-!
# A pass over a vector that closes its gaps from the end

`sweep f` goes through a vector from an index on. Each item is handed to `f`, which keeps it, perhaps changed, or has it
removed, when the last item takes its place and is the next one; and which may append items.

- What does not depend on the order of the items and holds over each call of `f`, holds over the pass
  (`sweep_invariant`); what stands before the index stays there and does not matter (`sweep_cons`).
- The pass is a fold of `f` over the items in some order, each of them once (`sweep_eq_foldl`); so that what only one of
  the items concerns, has that item handled and no more, whatever the order is (`foldl_once`, `foldl_apart`).
-/

namespace Sweep

variable {σ α : Type*} {f : σ → α → σ × Option α × List α} {s : σ} {a : α} {xs ys : List α} {i n : Nat}

/-- The last item is moved to `i`, and the vector ends before it. -/
def swapRemove (i : Nat) (xs : List α) : List α :=
  let last := xs.length - 1
  if i ≠ last then
    match xs[last]? with
    | some a => (xs.set i a).dropLast
    | none => xs.dropLast
  else xs.dropLast

/-- The pass, of `n` calls of `f` at most. -/
def sweep (f : σ → α → σ × Option α × List α) : Nat → Nat → σ → List α → σ × List α
  | 0, _, s, xs => (s, xs)
  | n + 1, i, s, xs =>
    match xs[i]? with
    | none => (s, xs)
    | some a =>
      match f s a with
      | (s, some b, new) => sweep f n (i + 1) s (xs.set i b ++ new)
      | (s, none, new) => sweep f n i s (swapRemove i (xs ++ new))

/-! ## Removing -/

theorem take_swapRemove (h : i < xs.length) : (swapRemove i xs).take i = xs.take i := by
  have hle : i ≤ xs.length - 1 := by omega
  have hlast : ∀ ys : List α, ys.length = xs.length → ys.dropLast.take i = ys.take i := by
    intro ys hys
    rw [List.dropLast_eq_take, List.take_take, hys, Nat.min_eq_left hle]
  unfold swapRemove
  dsimp only
  split
  · split
    · rw [hlast _ List.length_set, List.take_set_of_le (Nat.le_refl i)]
    · exact hlast xs rfl
  · exact hlast xs rfl

/-- Of what stands from `i` on, the item at `i` is gone. -/
theorem swapRemove_perm (h : xs[i]? = some a) : (a :: (swapRemove i xs).drop i).Perm (xs.drop i) := by
  obtain ⟨hlt, rfl⟩ := List.getElem?_eq_some_iff.mp h
  have hne : xs ≠ [] := List.ne_nil_of_length_pos (by omega)
  obtain ⟨init, last, rfl⟩ := List.eq_nil_or_concat' xs |>.resolve_left hne
  have hlen : (init ++ [last]).length - 1 = init.length := by simp
  have hget : (init ++ [last])[init.length]? = some last := by simp
  unfold swapRemove
  dsimp only
  rw [hlen, hget]
  split
  · rename_i hmid
    have hlt : i < init.length := by
      rw [List.length_append, List.length_singleton] at hlt
      omega
    dsimp only
    rw [List.set_append_left _ _ hlt, List.dropLast_concat, List.getElem_append_left hlt,
      List.drop_append_of_le_length (Nat.le_of_lt hlt), List.drop_eq_getElem_cons (by rwa [List.length_set]),
      List.getElem_set_self, List.drop_set_of_lt (Nat.lt_succ_self i), List.drop_eq_getElem_cons hlt]
    exact List.Perm.cons _ (List.perm_append_singleton ..).symm
  · rename_i hend
    obtain rfl : i = init.length := not_not.mp hend
    simp

/-! ## What a pass keeps -/

theorem perm_of_drop (htake : ys.take i = xs.take i) (hdrop : (a :: ys.drop i).Perm (xs.drop i)) :
    (a :: ys).Perm xs := by
  have hys := List.take_append_drop i ys
  rw [← List.take_append_drop i xs, ← hys, htake]
  exact List.perm_middle.symm.trans (List.Perm.append_left _ hdrop)

/-- What holds whatever the order is, and over each call, holds over a pass. -/
theorem sweep_invariant {I : σ → List α → Prop} (hperm : ∀ s xs ys, xs.Perm ys → I s xs → I s ys)
    (hstep : ∀ s a rest, I s (a :: rest) → I (f s a).1 ((f s a).2.1.toList ++ rest ++ (f s a).2.2)) :
    ∀ (n i : Nat) {s : σ} {xs : List α}, I s xs → I (sweep f n i s xs).1 (sweep f n i s xs).2
  | 0, _, _, _, h => h
  | n + 1, i, s, xs, h => by
    unfold sweep
    split
    · exact h
    · rename_i a hget
      obtain ⟨hlt, rfl⟩ := List.getElem?_eq_some_iff.mp hget
      have hsplit : xs.Perm (xs[i] :: (xs.take i ++ xs.drop (i + 1))) := by
        nth_rewrite 1 [← List.take_append_drop i xs, List.drop_eq_getElem_cons hlt]
        exact List.perm_middle
      have hnext := hstep s xs[i] _ (hperm s _ _ hsplit h)
      split
      · rename_i s' b new heq
        rw [heq] at hnext
        refine sweep_invariant hperm hstep n (i + 1)
          (hperm s' (b :: (xs.take i ++ xs.drop (i + 1)) ++ new) _ ?_ hnext)
        rw [List.set_eq_take_append_cons_drop, if_pos hlt]
        exact List.Perm.append_right new List.perm_middle.symm
      · rename_i s' new heq
        rw [heq] at hnext
        refine sweep_invariant hperm hstep n i (hperm s' (xs.take i ++ xs.drop (i + 1) ++ new) _ ?_ hnext)
        have hget' : (xs ++ new)[i]? = some xs[i] := by rw [List.getElem?_append_left hlt, hget]
        have hlt' : i < (xs ++ new).length := by
          rw [List.length_append]
          omega
        have hremoved := perm_of_drop (take_swapRemove hlt') (swapRemove_perm hget')
        refine List.Perm.symm ((List.perm_cons xs[i]).mp (hremoved.trans ?_))
        exact List.Perm.append_right new hsplit

theorem swapRemove_cons (h : i < xs.length) (a : α) : swapRemove (i + 1) (a :: xs) = a :: swapRemove i xs := by
  have hne : xs ≠ [] := List.ne_nil_of_length_pos (by omega)
  have hlast : (a :: xs).length - 1 = xs.length - 1 + 1 := by
    rw [List.length_cons]
    omega
  unfold swapRemove
  dsimp only
  rw [hlast, List.getElem?_cons_succ]
  by_cases hend : i = xs.length - 1
  · rw [if_neg (not_not.mpr (congrArg (· + 1) hend)), if_neg (not_not.mpr hend), List.dropLast_cons_of_ne_nil hne]
  · have hend' : i + 1 ≠ xs.length - 1 + 1 := fun h => hend (Nat.succ.inj h)
    rw [if_pos hend', if_pos hend]
    split
    · rw [List.set_cons_succ, List.dropLast_cons_of_ne_nil]
      exact List.ne_nil_of_length_pos (by rw [List.length_set]; omega)
    · exact List.dropLast_cons_of_ne_nil hne

/-- What stands before the index does not matter. -/
theorem sweep_cons (a : α) : ∀ (n i : Nat) (s : σ) (xs : List α),
    sweep f n (i + 1) s (a :: xs) = ((sweep f n i s xs).1, a :: (sweep f n i s xs).2)
  | 0, _, _, _ => rfl
  | n + 1, i, s, xs => by
    unfold sweep
    rw [List.getElem?_cons_succ]
    split
    · rfl
    · rename_i b hget
      obtain ⟨hlt, -⟩ := List.getElem?_eq_some_iff.mp hget
      split
      · exact sweep_cons a n (i + 1) _ _
      · rw [List.cons_append, swapRemove_cons (by rw [List.length_append]; omega)]
        exact sweep_cons a n i _ _

/-! ## The order of a pass -/

/-- With calls enough for all items, those that are appended included, a pass is a fold over them in some order. `m`
bounds how many are appended. -/
theorem sweep_eq_foldl {m : σ → Nat} (hm : ∀ s a, m (f s a).1 + (f s a).2.2.length ≤ m s) :
    ∀ (n : Nat) {i : Nat} {s : σ} {xs : List α}, xs.length - i + m s ≤ n → ∃ order new : List α,
      order.Perm (xs.drop i ++ new) ∧ (∀ a ∈ new, ∃ s b, a ∈ (f s b).2.2) ∧
      (sweep f n i s xs).1 = order.foldl (fun s a => (f s a).1) s
  | 0, i, s, xs, hn => ⟨[], [], by rw [List.drop_of_length_le (by omega)]; rfl, fun _ h => (by cases h), rfl⟩
  | n + 1, i, s, xs, hn => by
    unfold sweep
    split
    · rename_i hget
      rw [List.getElem?_eq_none_iff] at hget
      exact ⟨[], [], by rw [List.drop_of_length_le hget]; rfl, fun _ h => (by cases h), rfl⟩
    · rename_i a hget
      obtain ⟨hlt, rfl⟩ := List.getElem?_eq_some_iff.mp hget
      have happend := hm s xs[i]
      have hdrop := List.drop_eq_getElem_cons hlt
      split
      · rename_i s' b new heq
        rw [heq] at happend
        dsimp only at happend
        have hrest : (xs.set i b ++ new).drop (i + 1) = xs.drop (i + 1) ++ new := by
          rw [List.drop_append_of_le_length (by rw [List.length_set]; omega),
            List.drop_set_of_lt (Nat.lt_succ_self i)]
        have hlen : (xs.set i b ++ new).length - (i + 1) + m s' ≤ n := by
          rw [List.length_append, List.length_set]
          omega
        obtain ⟨order, more, horder, hnew, hfold⟩ := sweep_eq_foldl hm n hlen
        refine ⟨xs[i] :: order, new ++ more, ?_, ?_, ?_⟩
        · rw [hdrop, ← List.append_assoc, List.cons_append, ← hrest]
          exact List.Perm.cons _ horder
        · intro a ha
          rcases List.mem_append.mp ha with ha | ha
          · exact ⟨s, xs[i], by rwa [heq]⟩
          · exact hnew a ha
        · rw [List.foldl_cons, heq]
          exact hfold
      · rename_i s' new heq
        rw [heq] at happend
        dsimp only at happend
        have hget' : (xs ++ new)[i]? = some xs[i] := by rw [List.getElem?_append_left hlt, hget]
        have hremoved := swapRemove_perm hget'
        rw [List.drop_append_of_le_length (Nat.le_of_lt hlt)] at hremoved
        have hlen : (swapRemove i (xs ++ new)).length - i + m s' ≤ n := by
          have hlen := hremoved.length_eq
          rw [List.length_cons, List.length_drop, List.length_append, List.length_drop] at hlen
          omega
        obtain ⟨order, more, horder, hnew, hfold⟩ := sweep_eq_foldl hm n hlen
        refine ⟨xs[i] :: order, new ++ more, ?_, ?_, ?_⟩
        · rw [← List.append_assoc]
          exact (List.Perm.cons _ horder).trans (List.Perm.append_right more hremoved)
        · intro a ha
          rcases List.mem_append.mp ha with ha | ha
          · exact ⟨s, xs[i], by rwa [heq]⟩
          · exact hnew a ha
        · rw [List.foldl_cons, heq]
          exact hfold

/-! ## What concerns one item -/

section Keys

variable {κ : Type*} {g : σ → α → σ} {key : α → Option κ} {k : κ} {P Q : σ → Prop}

/-- What no item concerns. -/
theorem foldl_apart (hapart : ∀ s a, key a ≠ some k → P s → P (g s a)) (hk : k ∉ xs.filterMap key) (h : P s) :
    P (xs.foldl g s) := by
  induction xs generalizing s with
  | nil => exact h
  | cons a xs ih =>
    have ha : key a ≠ some k := fun ha => hk (List.mem_filterMap.mpr ⟨a, List.mem_cons_self, ha⟩)
    refine ih (fun hxs => hk ?_) (hapart s a ha h)
    obtain ⟨b, hb, hbk⟩ := List.mem_filterMap.mp hxs
    exact List.mem_filterMap.mpr ⟨b, List.mem_cons_of_mem _ hb, hbk⟩

/-- What `a` concerns and no other item. -/
theorem foldl_once (hP : ∀ s a, key a ≠ some k → P s → P (g s a)) (hQ : ∀ s a, key a ≠ some k → Q s → Q (g s a))
    (hat : ∀ s, P s → Q (g s a)) (hone : (xs.filterMap key).Nodup) (ha : a ∈ xs) (hk : key a = some k) (h : P s) :
    Q (xs.foldl g s) := by
  obtain ⟨before, after, rfl⟩ := List.append_of_mem ha
  rw [List.filterMap_append, List.filterMap_cons_some hk] at hone
  have hbefore : k ∉ before.filterMap key := by
    intro hmem
    exact (List.nodup_append.mp hone).2.2 k hmem k List.mem_cons_self rfl
  have hafter : k ∉ after.filterMap key := (List.nodup_cons.mp (List.nodup_append.mp hone).2.1).1
  rw [List.foldl_append, List.foldl_cons]
  exact foldl_apart hQ hafter (hat _ (foldl_apart hP hbefore h))

end Keys

end Sweep
