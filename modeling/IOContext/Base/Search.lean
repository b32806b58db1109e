import Mathlib.Data.List.Basic
import Mathlib.Data.List.Infix
import Mathlib.Data.Nat.Find

/-!
# Searching a delimiter

`find pat s` is where the first occurrence of `pat` in `s` begins.

- What is found stays the first occurrence when more is appended (`find_append`).
- Symbols that cannot begin an occurrence are skipped (`find_skip`).
- A word cannot be repeated after a delimiter in itself and a part that does not hold the delimiter
  (`ne_delimited_append`).
-/

namespace Search

variable {α : Type*} [DecidableEq α] {pat p s t u v : List α} {k : Nat}

/-- Where the first occurrence of `pat` begins. -/
def find (pat s : List α) : Option Nat := (s.dropInfix? pat).map fun ps => ps.1.length

theorem find_eq_some_iff :
    find pat s = some k ↔ (∃ u v, s = u ++ pat ++ v ∧ u.length = k) ∧ ∀ u v, s = u ++ pat ++ v → k ≤ u.length := by
  simp only [find, Option.map_eq_some_iff, Prod.exists, List.dropInfix?_eq_some_iff, beq_iff_eq]
  constructor
  · rintro ⟨u, v, ⟨⟨_, hs, rfl⟩, hfirst⟩, rfl⟩
    exact ⟨⟨u, v, hs, rfl⟩, fun u' v' hs' => hfirst u' _ v' hs' rfl⟩
  · rintro ⟨⟨u, v, hs, rfl⟩, hfirst⟩
    exact ⟨u, v, ⟨⟨pat, hs, rfl⟩, by rintro u' _ v' hs' rfl; exact hfirst u' v' hs'⟩, rfl⟩

theorem find_of_append (hs : s = u ++ pat ++ v) : ∃ k, find pat s = some k ∧ k ≤ u.length := by
  classical
  have hex : ∃ k, ∃ u v, s = u ++ pat ++ v ∧ u.length = k := ⟨_, u, v, hs, rfl⟩
  refine ⟨Nat.find hex, find_eq_some_iff.mpr ⟨Nat.find_spec hex, fun u' v' hs' => ?_⟩,
    Nat.find_min' hex ⟨u, v, hs, rfl⟩⟩
  exact Nat.find_min' hex ⟨u', v', hs', rfl⟩

theorem find_eq_none_iff : find pat s = none ↔ ¬pat <:+: s := by
  constructor
  · rintro h ⟨u, v, hs⟩
    obtain ⟨k, hk, -⟩ := find_of_append hs.symm
    rw [h] at hk
    cases hk
  · intro h
    cases hk : find pat s with
    | none => rfl
    | some k =>
      obtain ⟨⟨u, v, hs, -⟩, -⟩ := find_eq_some_iff.mp hk
      exact absurd ⟨u, v, hs.symm⟩ h

/-- What stands before and after the first occurrence. -/
theorem find_split (h : find pat s = some k) : s = s.take k ++ pat ++ s.drop (k + pat.length) := by
  obtain ⟨⟨u, v, rfl, rfl⟩, -⟩ := find_eq_some_iff.mp h
  simp

theorem find_le (h : find pat s = some k) : k + pat.length ≤ s.length := by
  obtain ⟨⟨u, v, rfl, rfl⟩, -⟩ := find_eq_some_iff.mp h
  simp only [List.length_append]
  omega

/-- What is found stays the first occurrence when more comes. -/
theorem find_append (h : find pat s = some k) (t : List α) : find pat (s ++ t) = some k := by
  obtain ⟨⟨u, v, hs, hu⟩, hfirst⟩ := find_eq_some_iff.mp h
  refine find_eq_some_iff.mpr ⟨⟨u, v ++ t, by simp [hs], hu⟩, fun u' v' hs' => ?_⟩
  by_contra hlt
  have hlen := find_le h
  have hpre : u' ++ pat <+: s := by
    refine List.prefix_of_prefix_length_le ⟨v', hs'.symm⟩ (List.prefix_append s t) ?_
    rw [List.length_append]
    omega
  obtain ⟨w, hw⟩ := hpre
  exact hlt (hfirst u' w hw.symm)

theorem find_self (pat t : List α) : find pat (pat ++ t) = some 0 :=
  find_eq_some_iff.mpr ⟨⟨[], t, rfl, rfl⟩, fun _ _ _ => Nat.zero_le _⟩

theorem find_cons (hb : ∀ v, s ≠ pat ++ v) {b : α} {s' : List α} (hs : s = b :: s') :
    find pat s = (find pat s').map (· + 1) := by
  have hsplit : ∀ u v, s = u ++ pat ++ v → ∃ u', u = b :: u' ∧ s' = u' ++ pat ++ v := by
    rintro (_ | ⟨c, u'⟩) v h
    · exact absurd h (hb v)
    · rw [hs, List.append_assoc, List.cons_append] at h
      obtain ⟨rfl, hs'⟩ := List.cons.inj h
      exact ⟨u', rfl, by rw [hs', List.append_assoc]⟩
  cases h : find pat s' with
  | none =>
    rw [find_eq_none_iff] at h
    refine find_eq_none_iff.mpr ?_
    rintro ⟨u, v, huv⟩
    obtain ⟨u', -, hu'⟩ := hsplit u v huv.symm
    exact h ⟨u', v, hu'.symm⟩
  | some k =>
    obtain ⟨⟨u, v, hu, rfl⟩, hfirst⟩ := find_eq_some_iff.mp h
    refine find_eq_some_iff.mpr ⟨⟨b :: u, v, by simp [hs, hu], rfl⟩, fun u' v' huv => ?_⟩
    obtain ⟨u'', rfl, hu''⟩ := hsplit u' v' huv
    exact Nat.succ_le_succ (hfirst u'' v' hu'')

/-- Symbols that cannot begin an occurrence are skipped. -/
theorem find_skip {c : α} (hp : ∀ b ∈ p, b ≠ c) (t : List α) :
    find (c :: pat) (p ++ t) = (find (c :: pat) t).map (· + p.length) := by
  induction p with
  | nil => simp
  | cons b p ih =>
    have hb : ∀ v, b :: p ++ t ≠ c :: pat ++ v := fun v h => hp b List.mem_cons_self (List.cons.inj h).1
    rw [find_cons hb (List.cons_append ..), ih fun b hb => hp b (List.mem_cons_of_mem _ hb), Option.map_map]
    rfl

/-- The first occurrence, after symbols that cannot begin one. -/
theorem find_first {c : α} (hp : ∀ b ∈ p, b ≠ c) (t : List α) :
    find (c :: pat) (p ++ (c :: pat ++ t)) = some p.length := by
  rw [find_skip hp, find_self, Option.map_some, Nat.zero_add]

theorem find_none {c : α} (hp : ∀ b ∈ p, b ≠ c) : find (c :: pat) p = none := by
  refine find_eq_none_iff.mpr ?_
  rintro ⟨u, v, rfl⟩
  exact hp c (by simp) rfl

omit [DecidableEq α] in
/-- A word does not come again behind a delimiter in itself and a part `c :: p` that neither holds the delimiter nor
begins with one of its symbols. -/
theorem ne_delimited_append {c : α} (hc : c ∉ pat) (hp : ¬pat <:+: c :: p) :
    ∀ (n : Nat) {w z : List α}, w.length ≤ n → w ++ c :: p ≠ z ++ pat ++ w
  | n, w, z, hn, h => by
    rcases Nat.lt_or_ge w.length (z.length + pat.length) with hlt | hge
    · obtain ⟨x, hx⟩ : w <+: z ++ pat :=
        List.prefix_of_prefix_length_le ⟨_, h⟩ ⟨w, rfl⟩ (by rw [List.length_append]; omega)
      have hx' : c :: p = x ++ w := by
        rw [← hx, List.append_assoc] at h
        exact List.append_cancel_left h
      rcases List.append_eq_append_iff.mp hx with ⟨y, rfl, hy⟩ | ⟨y, rfl, hy⟩
      · -- the delimiter begins in the part
        exact hp ⟨y, w, by rw [hx', hy]⟩
      · -- the part begins in the delimiter
        cases x with
        | nil =>
          rw [hy, List.append_nil, List.length_append] at hlt
          exact absurd hlt (Nat.lt_irrefl _)
        | cons d x =>
          obtain ⟨rfl, -⟩ := List.cons.inj hx'
          exact hc (by rw [hy]; simp)
    · obtain ⟨x, rfl⟩ : z ++ pat <+: w :=
        List.prefix_of_prefix_length_le ⟨_, h.symm⟩ ⟨c :: p, rfl⟩ (by rw [List.length_append]; omega)
      have hx : x ++ c :: p = z ++ pat ++ x := by
        rw [List.append_assoc] at h
        exact List.append_cancel_left h
      cases n with
      | zero =>
        have := congrArg List.length hx
        simp only [List.length_append, List.length_cons] at this hn
        omega
      | succ n =>
        refine ne_delimited_append hc hp n ?_ hx
        have := congrArg List.length hx
        simp only [List.length_append, List.length_cons] at this hn ⊢
        omega

end Search
