import Mathlib.Data.List.Infix
import Mathlib.Logic.Relation

/-!
# Sending a queue in batches

A `Sender` moves the front of its queue into a batch, which is then either done or put back. Whatever the order of
these steps, what is done, the batch and the queue together are what was pushed (`Inv`, kept by `Steps.inv`), so that
what is done is a prefix of what was pushed (`Inv.prefix`).
-/

structure Sender (α : Type*) where
  queue : List α
  batch : Option (List α)
  /-- All that was ever pushed. -/
  pushed : List α
  /-- All that has left, in order. -/
  done : List α

namespace Sender

variable {α β : Type*} {s s' : Sender α}

inductive Step : Sender α → Sender α → Prop
  | push {s : Sender α} (xs : List α) : Step s { s with queue := s.queue ++ xs, pushed := s.pushed ++ xs }
  | load {s : Sender α} {b rest : List α} (hb : s.batch = none) (hq : s.queue = b ++ rest) :
      Step s { s with queue := rest, batch := some b }
  | unload {s : Sender α} {b : List α} (hb : s.batch = some b) : Step s { s with queue := b ++ s.queue, batch := none }
  | finish {s : Sender α} {b : List α} (hb : s.batch = some b) : Step s { s with done := s.done ++ b, batch := none }

abbrev Steps : Sender α → Sender α → Prop := Relation.ReflTransGen Step

/-- Nothing is lost, repeated or reordered. -/
def Inv (s : Sender α) : Prop := s.done ++ s.batch.getD [] ++ s.queue = s.pushed

theorem Step.inv (h : Step s s') (hs : s.Inv) : s'.Inv := by
  unfold Inv at hs ⊢
  cases h with
  | push xs => simp [← hs]
  | load hb hq => simpa [hb, hq] using hs
  | unload hb => simpa [hb] using hs
  | finish hb => simpa [hb] using hs

theorem Steps.inv (h : Steps s s') (hs : s.Inv) : s'.Inv := by
  induction h with
  | refl => exact hs
  | tail _ h ih => exact h.inv ih

/-- What is done is a prefix of what was pushed, also item by item. -/
theorem Inv.prefix (hs : s.Inv) (f : α → List β) : s.done.flatMap f <+: s.pushed.flatMap f := by
  unfold Inv at hs
  rw [← hs, List.append_assoc, List.flatMap_append]
  exact List.prefix_append ..

end Sender
