import IOContext.Runs

/-!
# Where the tag of a completion comes from

Every operation but a `MSG_RING` has its tag written into the slot in which it is submitted; a `MSG_RING` leaves in
its slot the tag of the slot's last user.

- `RingOk`: what each slot and each submission carries; a submission keeps it (`RingOk.prep`), and so do all moves.
- A completion carries a tag that was written for it exactly when it is not the one that a `MSG_RING` owes for itself
  (`tag_written_iff`); that one carries zero or the tag of an earlier submission.
-/

namespace IOContext

/-- The tag of a `MSG_RING` was written for an earlier submission or for none. -/
def Stale (evs : List Event) (e : Sqe) : Prop :=
  (e.tagOf = none ∧ e.userData = 0) ∨
  ∃ e' ∈ sqesOf evs, e.tagOf = some e'.serial ∧ e'.serial < e.serial ∧ e'.op.tag = some e.userData

theorem Stale.append {evs evs' : List Event} {e : Sqe} (h : Stale evs e) : Stale (evs ++ evs') e := by
  rcases h with h | ⟨e', he', h⟩
  · exact .inl h
  · exact .inr ⟨e', by rw [sqesOf_append]; exact List.mem_append_left _ he', h⟩

namespace Worker

/-- Submissions are numbered as they come; what a slot holds was written for one of them. -/
structure RingOk (w : Worker) : Prop where
  serials : (sqesOf w.trace).map Sqe.serial = List.range w.ring.tail
  slots : ∀ i n, w.ring.tagOf i = some n → ∃ e ∈ sqesOf w.trace, e.serial = n ∧ e.op.tag = some (w.ring.userData i)
  blank : ∀ i, w.ring.tagOf i = none → w.ring.userData i = 0
  tags : ∀ e ∈ sqesOf w.trace, match e.op.tag with
    | some u => e.tagOf = some e.serial ∧ e.userData = u
    | none => Stale w.trace e

variable {L : Effect → Prop} {c : Ptr} {fd : Fd} {w w' : Worker}

theorem RingOk.serial_lt (h : w.RingOk) {e : Sqe} (he : e ∈ sqesOf w.trace) : e.serial < w.ring.tail := by
  have hmem := List.mem_map_of_mem (f := Sqe.serial) he
  rw [h.serials] at hmem
  exact List.mem_range.mp hmem

/-- A submission stands at the place of its number. -/
theorem RingOk.getElem_serial (h : w.RingOk) {i : Nat} (hi : i < (sqesOf w.trace).length) :
    (sqesOf w.trace)[i].serial = i := by
  have hlen : (sqesOf w.trace).length = w.ring.tail := by simpa using congrArg List.length h.serials
  have := congrArg (fun l => l[i]?) h.serials
  simpa [hi, hlen ▸ hi] using this

theorem RingOk.serial_inj (h : w.RingOk) {e e' : Sqe} (he : e ∈ sqesOf w.trace) (he' : e' ∈ sqesOf w.trace)
    (heq : e.serial = e'.serial) : e = e' := by
  obtain ⟨i, hi, rfl⟩ := List.getElem_of_mem he
  obtain ⟨j, hj, rfl⟩ := List.getElem_of_mem he'
  rw [h.getElem_serial hi, h.getElem_serial hj] at heq
  subst heq
  rfl

/-- What holds of submissions in their order holds of those with increasing numbers. -/
theorem RingOk.pairwise {R : Sqe → Sqe → Prop} (h : w.RingOk) (hR : (sqesOf w.trace).Pairwise R) {e e' : Sqe}
    (he : e ∈ sqesOf w.trace) (he' : e' ∈ sqesOf w.trace) (hlt : e.serial < e'.serial) : R e e' := by
  obtain ⟨i, hi, rfl⟩ := List.getElem_of_mem he
  obtain ⟨j, hj, rfl⟩ := List.getElem_of_mem he'
  rw [h.getElem_serial hi, h.getElem_serial hj] at hlt
  exact List.pairwise_iff_getElem.mp hR i j hi hj hlt

/-- Only the submissions and the ring matter. -/
theorem RingOk.congr (h : w.RingOk) (hring : w'.ring = w.ring) (hsqes : sqesOf w'.trace = sqesOf w.trace) :
    w'.RingOk := by
  obtain ⟨hserials, hslots, hblank, htags⟩ := h
  refine ⟨by rw [hsqes, hring, hserials], by rw [hsqes, hring]; exact hslots, by rw [hring]; exact hblank, ?_⟩
  rw [hsqes]
  intro e he
  have h := htags e he
  split at h
  · exact h
  · simpa only [Stale, hsqes] using h

theorem sqesOf_prep (w : Worker) (op : Op) (owner : Option Ptr) (tag : Option UInt64) :
    sqesOf (w.prep op owner tag).trace = sqesOf w.trace ++ [⟨w.ring.tail, op,
      (w.prep op owner tag).ring.userData (w.ring.tail % SQ_ENTRIES),
      (w.prep op owner tag).ring.tagOf (w.ring.tail % SQ_ENTRIES), owner⟩] := by
  rw [show (w.prep op owner tag).trace = w.trace ++ [.sqe _] from rfl, sqesOf_append]
  rfl

theorem tail_prep (w : Worker) (op : Op) (owner : Option Ptr) (tag : Option UInt64) :
    (w.prep op owner tag).ring.tail = w.ring.tail + 1 := by
  cases tag <;> rfl

/-- A submission that writes its tag, where it has one. -/
theorem RingOk.prep (h : w.RingOk) (op : Op) (owner : Option Ptr) : (w.prep op owner op.tag).RingOk := by
  have hold : ∀ e ∈ sqesOf w.trace, e ∈ sqesOf (w.prep op owner op.tag).trace := fun e he => by
    rw [sqesOf_prep]
    exact List.mem_append_left _ he
  have hnew := sqesOf_prep w op owner op.tag
  refine ⟨?_, fun i n hn => ?_, fun i hi => ?_, fun e he => ?_⟩
  · rw [hnew, tail_prep, List.range_succ, List.map_append, h.serials]
    rfl
  · cases htag : op.tag with
    | none =>
      simp only [htag] at hn hold ⊢
      obtain ⟨e, he, hserial, hdata⟩ := h.slots i n hn
      exact ⟨e, hold e he, hserial, hdata⟩
    | some u =>
      simp only [htag] at hn hold hnew ⊢
      by_cases hi : i = w.ring.tail % SQ_ENTRIES
      · subst hi
        have : n = w.ring.tail := by simpa [Worker.prep, log] using hn.symm
        refine ⟨_, hnew ▸ List.mem_append_right _ (List.mem_singleton.mpr rfl), this.symm, ?_⟩
        simpa [Worker.prep, log] using htag
      · have hn' : w.ring.tagOf i = some n := by
          simpa [Worker.prep, log, Function.update_of_ne hi] using hn
        obtain ⟨e, he, hserial, hdata⟩ := h.slots i n hn'
        refine ⟨e, hold e he, hserial, ?_⟩
        simpa [Worker.prep, log, Function.update_of_ne hi] using hdata
  · cases htag : op.tag with
    | none =>
      simp only [htag] at hi ⊢
      exact h.blank i hi
    | some u =>
      simp only [htag] at hi ⊢
      by_cases hslot : i = w.ring.tail % SQ_ENTRIES
      · subst hslot
        simp [Worker.prep, log] at hi
      · have hi' : w.ring.tagOf i = none := by
          simpa [Worker.prep, log, Function.update_of_ne hslot] using hi
        simpa [Worker.prep, log, Function.update_of_ne hslot] using h.blank i hi'
  · rw [hnew, List.mem_append, List.mem_singleton] at he
    rcases he with he | rfl
    · have htags := h.tags e he
      split at htags
      · exact htags
      · rw [show (w.prep op owner op.tag).trace = w.trace ++ [.sqe _] from rfl]
        exact Stale.append htags
    · cases htag : op.tag with
      | some u => simp [Worker.prep, log]
      | none =>
        simp only [htag] at hold ⊢
        show Stale _ ⟨w.ring.tail, op, w.ring.userData _, w.ring.tagOf _, owner⟩
        cases hslot : w.ring.tagOf (w.ring.tail % SQ_ENTRIES) with
        | none => exact .inl ⟨rfl, h.blank _ hslot⟩
        | some n =>
          obtain ⟨e', he', rfl, hdata⟩ := h.slots _ n hslot
          exact .inr ⟨e', hold e' he', rfl, h.serial_lt he', hdata⟩

/-- A primitive step either submits or leaves the ring and the submissions alone. -/
theorem Prim.ring (h : Prim L c fd w w') :
    (w'.ring = w.ring ∧ sqesOf w'.trace = sqesOf w.trace) ∨ ∃ op owner, w' = w.prep op owner op.tag := by
  cases h with
  | submit => exact .inr ⟨_, _, rfl⟩
  | segment _ _ => exact .inl ⟨rfl, by simp [sqesOf]⟩
  | enqueue _ b => exact .inl ⟨rfl, by simp [sqesOf]⟩
  | invoke _ h res => exact .inl ⟨rfl, by simp [sqesOf]⟩
  | quiet | crash | change | alloc | msRecvOff | acceptMode => exact .inl ⟨rfl, rfl⟩

theorem RingOk.prims (h : w.RingOk) (hp : Prims L c fd w w') : w'.RingOk :=
  hp.lift (R := fun w w' => w.RingOk → w'.RingOk) (fun _ => id) (fun _ _ _ h h' => h' ∘ h) (fun _ _ hp h => by
    obtain ⟨hring, hsqes⟩ | ⟨op, owner, rfl⟩ := hp.ring
    · exact h.congr hring hsqes
    · exact h.prep op owner) h

theorem RingOk.move (h : w.RingOk) (hm : Move w w') : w'.RingOk := by
  cases hm with
  | conn _ hp => exact h.prims hp
  | listen hp => exact h.prims (hp 0 0)
  | accept cfd hp =>
    have hadd : (w.addConn cfd).2.RingOk := h.congr rfl rfl
    exact hadd.prims hp
  | erase => exact h.congr rfl rfl
  | outside => exact h.congr rfl rfl

end Worker

namespace Sys

open Worker

variable {d : Dispatch} {ok : Sys → Action → Prop} {s : Sys}

theorem ring_ok (h : Reachable d ok s) : s.w.RingOk :=
  worker_invariant (fun _ _ _ _ => ⟨rfl, fun _ _ h => (by cases h), fun _ _ => rfl, fun _ h => (by cases h)⟩)
    (fun _ _ _ => RingOk.move) h

/-! ## Completions -/

/-- The completion carries a tag that was written for it: with the message, or into the slot for this submission. -/
def TagWritten (p : Pending) : Prop := p.message = true ∨ p.sqe.tagOf = some p.sqe.serial

/-- The completion that a `MSG_RING` owes for itself. -/
def OwnOfTask (p : Pending) : Prop := p.message = false ∧ ∃ fd kind, p.sqe.op = .msgRing fd kind

instance (p : Pending) : Decidable (TagWritten p) := inferInstanceAs (Decidable (_ ∨ _))

/-- A completion whose tag was written for its operation carries this tag. -/
theorem pending_tag (hr : Reachable d ok s) {p : Pending} (hp : p ∈ s.pending) {u : UInt64}
    (hu : p.sqe.op.tag = some u) :
    p.tag = u := by
  have htags := (ring_ok hr).tags p.sqe (pending_mem hr p hp)
  rw [hu] at htags
  unfold Pending.tag
  split
  · rename_i hop _
    rw [hop] at hu
    cases hu
  · exact htags.2

theorem tag_eq_none_iff {op : Op} : op.tag = none ↔ ∃ fd kind, op = .msgRing fd kind := by
  cases op <;> simp [Op.tag]

/-- In every run, a completion that the loop may dispatch carries a tag written for it exactly when it is not the one
that a `MSG_RING` owes for itself; that one is dispatched by a tag written for an earlier operation, or by zero. -/
theorem tag_written_iff (h : Reachable d ok s) {i : Nat} {p : Pending} (hp : s.pending[i]? = some p) :
    (TagWritten p ↔ ¬OwnOfTask p) ∧ (OwnOfTask p → Stale s.w.trace p.sqe) := by
  have htags := (ring_ok h).tags p.sqe (pending_mem h p (List.mem_of_getElem? hp))
  cases htag : p.sqe.op.tag with
  | some u =>
    have hop : ¬OwnOfTask p := fun ⟨_, hop⟩ => by rw [tag_eq_none_iff.mpr hop] at htag; cases htag
    rw [htag] at htags
    exact ⟨⟨fun _ => hop, fun _ => .inr htags.1⟩, fun h => absurd h hop⟩
  | none =>
    rw [htag] at htags
    refine ⟨⟨?_, fun hown => ?_⟩, fun _ => htags⟩
    · rintro (hmsg | hserial) ⟨hown, -⟩
      · rw [hmsg] at hown
        cases hown
      · rcases htags with ⟨hnone, -⟩ | ⟨e, -, he, hlt, -⟩
        · rw [hnone] at hserial
          cases hserial
        · rw [he] at hserial
          exact absurd (Option.some.inj hserial) (Nat.ne_of_lt hlt)
    · cases hmsg : p.message with
      | true => exact .inl hmsg
      | false => exact absurd ⟨hmsg, tag_eq_none_iff.mp htag⟩ hown

/-- A client sends a single carriage return: the `MSG_RING` of the `RequestClose` task owes a completion for itself. -/
def taskRun : Option Sys :=
  (withoutPool []).bind (execAll (step .tagged) (fun _ _ => True) [
    .complete 0 { res := 5, more := true } [] { sqes := [true] },
    .complete 1 { res := 1 } [CR] { sqes := [true] }])

theorem tag_written_iff_message : ∃ s, taskRun = some s ∧ ∃ p, s.pending[1]? = some p ∧ TagWritten p := by
  obtain ⟨s, hs, hobs⟩ := Option.map_eq_some_iff.mp (show taskRun.map (fun s =>
    (s.pending[1]?).map fun p => p.message) = some (some true) by decide +kernel)
  obtain ⟨p, hp, hmsg⟩ := Option.map_eq_some_iff.mp hobs
  refine ⟨s, hs, p, hp, (tag_written_iff (run_reachable hs) hp).1.mpr fun hown => ?_⟩
  rw [hown.1] at hmsg
  cases hmsg

/-- The completion that the `MSG_RING` of a task owes for itself carries a tag that nobody wrote, and is dispatched as
an accept. -/
theorem task_completion_untagged : ∃ s, taskRun = some s ∧ Reachable .tagged (fun _ _ => True) s ∧
    ∃ p, s.pending[2]? = some p ∧ ¬TagWritten p ∧ Dispatch.tagged.read p = some (0, .accept) := by
  obtain ⟨s, hs, hobs⟩ := Option.map_eq_some_iff.mp (show taskRun.map (fun s =>
    (s.pending[2]?).map fun p => (decide (TagWritten p), Dispatch.tagged.read p)) =
      some (some (false, some (0, .accept))) by decide +kernel)
  obtain ⟨p, hp, hread⟩ := Option.map_eq_some_iff.mp hobs
  obtain ⟨htag, hread⟩ := Prod.mk.inj hread
  exact ⟨s, hs, run_reachable hs, p, hp, of_decide_eq_false htag, hread⟩

end Sys

end IOContext
