import Mathlib.Data.List.TakeWhile

/-!
# Words

`strtok` takes the next word off a string, as the C function does with one separator. What successive calls return are
the parts between separators that are not empty (`words`).
-/

namespace Tokens

variable {α : Type*} [DecidableEq α] {sep b : α} {s t rest : List α}

/-- The next word, and what is left behind the separator after it. -/
def strtok (sep : α) (s : List α) : Option (List α × List α) :=
  match s.dropWhile (· == sep) with
  | [] => none
  | b :: s => some ((b :: s).takeWhile (· != sep), ((b :: s).dropWhile (· != sep)).tail)

def words (sep : α) (s : List α) : List (List α) := (s.splitOn sep).filter (· ≠ [])

@[simp] theorem words_nil : words sep [] = [] := by simp [words]

theorem words_sep (s : List α) : words sep (sep :: s) = words sep s := by
  rw [words, List.splitOn_cons_eq_if_modifyHead, if_pos (beq_self_eq_true sep), List.filter_cons_of_neg (by simp)]
  rfl

theorem words_of_notMem (h : sep ∉ t) (hne : t ≠ []) : words sep t = [t] := by
  rw [words, List.splitOn_eq_singleton h, List.filter_cons_of_pos (by simpa using hne), List.filter_nil]

theorem words_append (h : sep ∉ t) (hne : t ≠ []) (s : List α) : words sep (t ++ sep :: s) = t :: words sep s := by
  rw [words, List.splitOn_append_cons_self_of_not_mem h, List.filter_cons_of_pos (by simpa using hne)]
  rfl

/-- Leading separators do not count. -/
theorem words_dropWhile (s : List α) : words sep (s.dropWhile (· == sep)) = words sep s := by
  induction s with
  | nil => rfl
  | cons b s ih =>
    by_cases hb : b = sep
    · rw [List.dropWhile_cons_of_pos (by simpa using hb), ih, hb, words_sep]
    · rw [List.dropWhile_cons_of_neg (by simpa using hb)]

omit [DecidableEq α] in
theorem of_dropWhile {p : α → Bool} (h : s.dropWhile p = b :: rest) : p b = false := by
  have hne : s.dropWhile p ≠ [] := by
    rw [h]
    exact List.cons_ne_nil _ _
  have hhead := List.head_dropWhile_not p hne
  simpa [h] using hhead

theorem notMem_takeWhile (s : List α) : sep ∉ s.takeWhile (· != sep) := by
  intro h
  have hne := List.mem_takeWhile_imp h
  simp at hne

/-- What does not begin with a separator begins with a word. -/
theorem words_cons (hb : b ≠ sep) (s : List α) : words sep (b :: s) =
    (b :: s).takeWhile (· != sep) :: words sep ((b :: s).dropWhile (· != sep)).tail := by
  have hne : (b :: s).takeWhile (· != sep) ≠ [] := by
    rw [List.takeWhile_cons_of_pos (by simpa using hb)]
    exact List.cons_ne_nil _ _
  have hfree : sep ∉ (b :: s).takeWhile (· != sep) := notMem_takeWhile _
  have hsplit : words sep (b :: s) =
      words sep ((b :: s).takeWhile (· != sep) ++ (b :: s).dropWhile (· != sep)) := by
    rw [List.takeWhile_append_dropWhile]
  rw [hsplit]
  cases hrest : (b :: s).dropWhile (· != sep) with
  | nil => rw [List.append_nil, words_of_notMem hfree hne, List.tail_nil, words_nil]
  | cons c rest =>
    have hc : c = sep := by simpa using of_dropWhile hrest
    rw [hc, words_append hfree hne, List.tail_cons]

theorem strtok_eq_none_iff : strtok sep s = none ↔ words sep s = [] := by
  unfold strtok
  cases hs : s.dropWhile (· == sep) with
  | nil =>
    rw [← words_dropWhile, hs]
    simp
  | cons b s' =>
    have hb : b ≠ sep := by simpa using of_dropWhile hs
    rw [← words_dropWhile, hs, words_cons hb]
    simp

theorem words_of_strtok (h : strtok sep s = some (t, rest)) : words sep s = t :: words sep rest := by
  unfold strtok at h
  cases hs : s.dropWhile (· == sep) with
  | nil =>
    rw [hs] at h
    cases h
  | cons b s' =>
    rw [hs] at h
    cases h
    have hb : b ≠ sep := by simpa using of_dropWhile hs
    rw [← words_dropWhile, hs, words_cons hb]

theorem fst_strtok : (strtok sep s).map Prod.fst = (words sep s).head? := by
  cases hs : strtok sep s with
  | none =>
    rw [strtok_eq_none_iff.mp hs]
    rfl
  | some x =>
    obtain ⟨t, rest⟩ := x
    rw [words_of_strtok hs]
    rfl

end Tokens
