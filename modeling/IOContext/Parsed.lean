import IOContext.Runs

/-!
# What the parsers have read

The response plays no part in parsing (`onSegment_clearRes`). In every state reached the parser of a connection is a new
parser that has been given the segments of the connection, and every call of a handler saw such a parser (`Parsed`).
-/

namespace IOContext

namespace ProcessingMachine

/-- The parser without the response, which the handlers write to. -/
def clearRes (m : ProcessingMachine) : ProcessingMachine := { m with res := {} }

theorem step_clearRes (m : ProcessingMachine) (c : UInt8) : (m.step c).clearRes = m.clearRes.step c := by
  have hstate : m.clearRes.state = m.state := rfl
  unfold step
  rw [hstate]
  -- no condition looks at the response, and no branch writes to it
  cases m.state <;> simp only [apply_ite clearRes] <;> rfl

theorem feed_clearRes (m : ProcessingMachine) (p : Bytes) : (m.feed p).clearRes = m.clearRes.feed p := by
  induction p generalizing m with
  | nil => rfl
  | cons c p ih =>
    unfold feed
    rw [← step_clearRes]
    split
    · rename_i h
      rw [if_pos (show m.clearRes.state = .errorState from h)]
    · rename_i h
      rw [if_neg (show ¬m.clearRes.state = .errorState from h)]
      exact ih _

/-- The response plays no part in parsing. -/
theorem onSegment_clearRes (m : ProcessingMachine) (p : Bytes) :
    (m.onSegment p).clearRes = m.clearRes.onSegment p := by
  unfold onSegment
  rw [feed_clearRes]
  congr 1
  unfold start
  split
  · rename_i h
    rw [if_pos (show m.clearRes.state = .notStarted from h)]
    rfl
  · rename_i h
    rw [if_neg (show ¬m.clearRes.state = .notStarted from h)]

end ProcessingMachine

namespace Worker

/-- The parsers are what the trace makes of them, and so they were when a handler was called. -/
structure Parsed (w : Worker) : Prop where
  parser : ∀ c, (w.heap c).parser.clearRes = parserOf c w.trace
  invoked : ∀ k c h req res, w.trace[k]? = some (.invoke c h req res) → req = (parserOf c (w.trace.take k)).req
  new : ∀ c, w.nextPtr ≤ c → parserOf c w.trace = {}

variable {L : Effect → Prop} {c : Ptr} {fd : Fd} {w w' : Worker}

theorem Parsed.congr (h : w.Parsed) (hheap : ∀ q, (w'.heap q).parser.clearRes = (w.heap q).parser.clearRes)
    (htrace : w'.trace = w.trace) (hnext : w.nextPtr ≤ w'.nextPtr) : w'.Parsed := by
  refine ⟨fun q => ?_, ?_, fun q hq => ?_⟩
  · rw [hheap, htrace]
    exact h.parser q
  · rw [htrace]
    exact h.invoked
  · rw [htrace]
    exact h.new q (Nat.le_trans hnext hq)

/-- One event more. -/
theorem Parsed.append (h : w.Parsed) {e : Event} (htrace : w'.trace = w.trace ++ [e]) (hnext : w'.nextPtr = w.nextPtr)
    (hparser : ∀ q, (w'.heap q).parser.clearRes = e.parse q (w.heap q).parser.clearRes)
    (hnew : ∀ q, w.nextPtr ≤ q → e.parse q {} = {})
    (hinvoke : ∀ c hd req res, e = .invoke c hd req res → req = (w.heap c).parser.req) : w'.Parsed := by
  refine ⟨fun q => ?_, fun k c hd req res hk => ?_, fun q hq => ?_⟩
  · rw [hparser, htrace, parserOf_append, h.parser]
  · rw [htrace] at hk ⊢
    rcases Nat.lt_or_ge k w.trace.length with hlt | hge
    · rw [List.getElem?_append_left hlt] at hk
      rw [List.take_append_of_le_length (Nat.le_of_lt hlt)]
      exact h.invoked k c hd req res hk
    · rw [List.getElem?_append_right hge] at hk
      obtain hlen : k - w.trace.length = 0 := by
        by_contra hne
        rw [List.getElem?_eq_none (by simp; omega)] at hk
        cases hk
      rw [hlen] at hk
      have hkl : k = w.trace.length := by omega
      rw [hkl, List.take_left', hinvoke c hd req res (Option.some.inj hk), ← h.parser c]
      · rfl
      · rfl
  · rw [htrace, parserOf_append, h.new q (hnext ▸ hq), hnew q (hnext ▸ hq)]

theorem Parsed.prim (hc : L .segment → c < w.nextPtr) (h : w.Parsed) (hp : Prim L c fd w w') : w'.Parsed := by
  cases hp with
  | quiet | crash | alloc | msRecvOff | acceptMode => exact h.congr (fun _ => rfl) rfl (Nat.le_refl _)
  | change f _ _ hparser _ =>
    refine h.congr (fun q => ?_) rfl (Nat.le_refl _)
    by_cases hq : q = c
    · rw [hq, heap_modify, hparser]
    · rw [heap_modify_ne w hq]
  | @segment b rest hL hrxq =>
    have hother : ∀ q, w.nextPtr ≤ q → c ≠ q := fun q hq heq => absurd (hc hL) (Nat.not_lt.mpr (heq ▸ hq))
    refine h.append (e := .segment c b.wb) rfl rfl (fun q => ?_) (fun q hq => if_neg (hother q hq))
      (fun _ _ _ _ h => by cases h)
    by_cases hq : q = c
    · rw [hq, heap_log, heap_modify, Event.parse, if_pos rfl]
      exact ProcessingMachine.onSegment_clearRes ..
    · rw [heap_log, heap_modify_ne w hq, Event.parse, if_neg fun heq => hq heq.symm]
  | enqueue _ b =>
    refine h.append (e := .enqueue c b) rfl rfl (fun q => ?_) (fun _ _ => rfl) (fun _ _ _ _ h => by cases h)
    by_cases hq : q = c
    · rw [hq, heap_log, heap_modify]
      rfl
    · rw [heap_log, heap_modify_ne w hq]
      rfl
  | invoke _ hd res =>
    refine h.append (e := .invoke c hd (w.heap c).parser.req (w.heap c).parser.res) rfl rfl (fun q => ?_)
      (fun _ _ => rfl) (fun _ _ _ _ h => by cases h; rfl)
    by_cases hq : q = c
    · rw [hq, heap_log, heap_modify]
      rfl
    · rw [heap_log, heap_modify_ne w hq]
      rfl
  | submit =>
    exact h.append (e := .sqe _) rfl rfl (fun _ => rfl) (fun _ _ => rfl) (fun _ _ _ _ h => by cases h)

theorem Parsed.prims (hc : L .segment → c < w.nextPtr) (h : w.Parsed) (hp : Prims L c fd w w') : w'.Parsed :=
  (hp.lift (R := fun w w' => (L .segment → c < w.nextPtr) ∧ w.Parsed → (L .segment → c < w'.nextPtr) ∧ w'.Parsed)
    (fun _ => id) (fun _ _ _ h h' => h' ∘ h)
    (fun _ _ hp ⟨hc, h⟩ => ⟨by rw [hp.frame.nextPtr]; exact hc, h.prim hc hp⟩) ⟨hc, h⟩).2

theorem Parsed.addConn (h : w.Parsed) (cfd : Fd) : (w.addConn cfd).2.Parsed := by
  refine h.congr (fun q => ?_) rfl (Nat.le_succ _)
  by_cases hq : q = w.nextPtr
  · rw [hq, addConn_obj, h.parser, h.new _ (Nat.le_refl _)]
    rfl
  · rw [addConn_heap_ne w cfd hq]

theorem Parsed.move (hok : w.Ok) (h : w.Parsed) (hm : Move w w') : w'.Parsed := by
  cases hm with
  | conn hat hp => exact h.prims (fun _ => hok.lt _ _ hat.table) hp
  | listen hp => exact h.prims (fun hL => by cases hL) (hp 0 0)
  | accept cfd hp => exact (h.addConn cfd).prims (fun _ => Nat.lt_succ_self _) hp
  | erase fd => exact h.congr (fun _ => rfl) rfl (Nat.le_refl _)
  | outside => exact h.congr (fun _ => rfl) rfl (Nat.le_refl _)

end Worker

namespace Sys

open Worker

variable {d : Dispatch} {ok : Sys → Action → Prop} {s : Sys}

theorem parsed (h : Reachable d ok s) : s.w.Parsed :=
  worker_invariant (I := Parsed) (fun _ _ _ _ => ⟨fun _ => rfl, fun _ _ _ _ _ h => by simp at h, fun _ _ => rfl⟩)
    (fun _ _ hok h hm => h.move hok hm) h

end Sys

end IOContext
