import IOContext.Closing

/-!
# Accepting a connection

`ConnTable::add` returns the object that it has created, but the map keeps an entry that it already has for the number.

- The handler changes nothing of the new object but what `start_recv` does to it (`startRecv_obj`).
- The table has the new object exactly when it had no entry for the number (`fresh_on_accept_iff`).
-/

namespace IOContext

namespace Worker

variable {c : Ptr} {w w' : Worker}

/-- `start_recv` arms the connection or allocates its buffer. -/
theorem startRecv_obj {b : Bool} (h : w.startRecv c = some (b, w')) :
    ∃ armed hold, w'.heap c = { w.heap c with msRecvArmed := armed, rxHold := hold } := by
  unfold startRecv at h
  split at h
  · split at h
    · cases h
      exact ⟨_, _, rfl⟩
    · obtain ⟨⟨b', w₁⟩, hsqe, h⟩ := Option.bind_eq_some_iff.mp h
      obtain ⟨sqes, -, rfl⟩ := getSqeOrSubmit_eq hsqe
      cases b' with
      | false =>
        cases h
        exact ⟨_, _, rfl⟩
      | true =>
        cases h
        exact ⟨true, _, heap_modify ..⟩
  · obtain ⟨⟨b', w₁⟩, hsqe, h⟩ := Option.bind_eq_some_iff.mp h
    obtain ⟨sqes, -, rfl⟩ := getSqeOrSubmit_eq hsqe
    cases b' with
    | false =>
      cases h
      exact ⟨(w.heap c).msRecvArmed, none, by simp⟩
    | true =>
      cases h
      exact ⟨(w.heap c).msRecvArmed, some w.nextHold, by simp⟩

/-- After an accept that returned `cfd`: the table has under `cfd` the object that `add` has created and returned,
initialised for this connection and otherwise as constructed, and `start_recv` has been applied to it. -/
structure FreshOnAccept (w w' : Worker) (cfd : Fd) : Prop where
  entry : w'.table cfd = some w.nextPtr
  obj : ∃ armed hold, w'.heap w.nextPtr =
    { fd := cfd, keepaliveLimit := w.cfg.maxKeepaliveRequests, hasOwner := true, msRecvArmed := armed, rxHold := hold }
  started : ∃ b w₁, (w.addConn cfd).2.startRecv w.nextPtr = some (b, w₁) ∧
    w'.heap w.nextPtr = w₁.heap w.nextPtr

theorem freshOnAccept_iff (hok : w.Ok) {cqe : Cqe} (hres : 0 < cqe.res) (h : w.handleAccept cqe = some w') :
    w.FreshOnAccept w' cqe.res ↔ w.table cqe.res = none := by
  obtain ⟨hle, -⟩ | ⟨-, b, w₁, hrecv, h⟩ := handleAccept_cases h
  · exact absurd hres (Int32.not_lt.mpr hle)
  · obtain ⟨htable, hheap⟩ := prims_other h
    have hframe := (startRecv_prims (by rw [addConn_obj]) hrecv).frame
    have htable' : w'.table = (w.addConn cqe.res).2.table := htable.trans hframe.table
    refine ⟨fun hfresh => ?_, fun hnone => ⟨?_, ?_, b, w₁, hrecv, by rw [hheap]⟩⟩
    · by_contra hsome
      have hentry := hfresh.entry
      rw [htable', addConn_table, if_neg hsome] at hentry
      exact absurd (hok.lt _ _ hentry) (Nat.lt_irrefl _)
    · rw [htable', addConn_table, if_pos hnone, Function.update_self]
    · obtain ⟨armed, hold, hobj⟩ := startRecv_obj hrecv
      exact ⟨armed, hold, by rw [hheap, hobj, addConn_obj]⟩

end Worker

namespace Sys

open Worker

variable {d : Dispatch} {ok : Sys → Action → Prop} {s s' : Sys}

/-- In every state reached, an accept that returns a number gives the table a fresh object for it exactly when the table
has no entry for the number. -/
theorem fresh_on_accept_iff (h : Reachable d ok s) {i : Nat} {cqe : Cqe} {data : Bytes} {env : Env}
    (hstep : step d s (.complete i cqe data env) = some s') {p : Pending} (hp : s.pending[i]? = some p) {fd : Fd}
    (hread : d.read p = some (fd, .accept)) (hres : 0 < cqe.res) :
    (s.arrive p cqe data env).FreshOnAccept s'.w cqe.res ↔ s.w.table cqe.res = none := by
  cases (step_cases hstep).2 with
  | complete hq hadm hw =>
    cases hp.symm.trans hq
    unfold handled at hw
    simp only [hread] at hw
    rw [← arrive_table s p cqe data env]
    exact freshOnAccept_iff ((table_ok h).move (arrive_move ..)) hres hw

/-- A client is accepted as 5. -/
theorem fresh_on_accept_iff_first : ∃ s s' p, withoutPool [] = some s ∧ s.pending[0]? = some p ∧
    step .tagged s (.complete 0 { res := 5, more := true } [] { sqes := [true] }) = some s' ∧
    (s.arrive p { res := 5, more := true } [] { sqes := [true] }).FreshOnAccept s'.w 5 := by
  obtain ⟨s, hs, hobs⟩ := Option.map_eq_some_iff.mp (show (withoutPool []).map (fun s =>
    ((s.pending[0]?).bind Dispatch.tagged.read, s.w.table 5,
      (step .tagged s (.complete 0 { res := 5, more := true } [] { sqes := [true] })).map fun _ => ())) =
    some (some (3, .accept), none, some ()) by decide +kernel)
  simp only [Prod.mk.injEq] at hobs
  obtain ⟨hp, htable, hstep⟩ := hobs
  obtain ⟨p, hp, hread⟩ := Option.bind_eq_some_iff.mp hp
  obtain ⟨s', hs', -⟩ := Option.map_eq_some_iff.mp hstep
  exact ⟨s, s', p, hs, hp, hs', (fresh_on_accept_iff (.start (start_init hs) : Reachable .tagged (fun _ _ => True) s)
    hs' hp hread (by decide)).mpr htable⟩

/-- A client closes, and its number is returned again before the completion of the close. -/
def earlyReuse : List Action :=
  [.complete 0 { res := 5, more := true } [] { sqes := [true] },
    .complete 1 { res := 0 } [] { sqes := [true] },
    .executeClose 1]

/-- The table keeps the first client's object. -/
theorem accept_not_fresh : ∃ s s' p, serve .tagged (fun _ _ => True) earlyReuse = some s ∧
    Reachable .tagged (fun _ _ => True) s ∧ s.pending[0]? = some p ∧ Dispatch.tagged.read p = some (3, .accept) ∧
    step .tagged s (.complete 0 { res := 5, more := true } [] { sqes := [true] }) = some s' ∧
    ¬(s.arrive p { res := 5, more := true } [] { sqes := [true] }).FreshOnAccept s'.w 5 := by
  obtain ⟨s, hs, hobs⟩ := Option.map_eq_some_iff.mp (show (serve .tagged (fun _ _ => True) earlyReuse).map (fun s =>
    ((s.pending[0]?).bind Dispatch.tagged.read, s.w.nextPtr,
      (step .tagged s (.complete 0 { res := 5, more := true } [] { sqes := [true] })).map fun s' => s'.w.table 5)) =
    some (some (3, .accept), 1, some (some 0)) by decide +kernel)
  simp only [Prod.mk.injEq] at hobs
  obtain ⟨hp, hnext, hstep⟩ := hobs
  obtain ⟨p, hp, hread⟩ := Option.bind_eq_some_iff.mp hp
  obtain ⟨s', hs', htable⟩ := Option.map_eq_some_iff.mp hstep
  refine ⟨s, s', p, hs, run_reachable hs, hp, hread, hs', fun hfresh => ?_⟩
  have hentry := hfresh.entry
  rw [htable, arrive_nextPtr, hnext] at hentry
  cases hentry

end Sys

end IOContext
