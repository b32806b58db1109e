import IOContext.Runs

/-!
# Connections that share a number

The handlers look a connection up by its number. When the kernel has given the number of a closed connection to another
one, a completion that the first is still owed is handled for the second.

- A completion changes no entry of the table but the one of its number, and no object but the entry's
  (`handle_other`), and what it does is not done for another connection (`handle_apart`).
- In a run in which every completion finds its own connection's entry, or none, no completion of a connection changes
  another (`run_isolated`).
-/

namespace IOContext

/-- Under the number of the completion the table has the connection that it is owed to, or none. -/
def Pending.OwnEntry (p : Pending) (w : Worker) : Prop :=
  match p.sqe.owner, p.posted with
  | some c, some (fd, _) => w.table fd = none ∨ w.table fd = some c
  | _, _ => True

instance (p : Pending) (w : Worker) : Decidable (p.OwnEntry w) := by
  unfold Pending.OwnEntry
  split <;> infer_instance

namespace Worker

variable {w w' : Worker} {fd : Fd}

/-- Submissions alone leave the table and the objects alone. -/
theorem prims_other (h : ∀ c fd, Prims Effect.Listens c fd w w') :
    w'.table = w.table ∧ w'.heap = w.heap := by
  refine ⟨(h 0 0).frame.table, funext fun q => ?_⟩
  exact (h (q + 1) 0).frame.heap q (Nat.ne_of_lt (Nat.lt_succ_self q))

/-- A connection that a completion is not handled for is not changed by it. -/
theorem handle_other {kind : Workflow} {cqe : Cqe} (hok : w.Ok) (h : w.handle fd kind cqe = some w')
    {fd' : Fd} {b : Ptr}
    (hb : w.table fd' = some b) (hne : w.table fd ≠ some b) : w'.heap b = w.heap b ∧ w'.table fd' = some b := by
  obtain ⟨c, hc, h⟩ | rfl | ⟨-, h⟩ | ⟨-, rfl⟩ := handle_cases h
  · have hframe := (handleConn_prims (hok.at hc) h).frame
    exact ⟨hframe.heap b fun hbc => hne (hbc ▸ hc), by rw [hframe.table, hb]⟩
  · exact ⟨rfl, hb⟩
  · obtain ⟨-, h⟩ | ⟨-, _, w₁, hrecv, h⟩ := handleAccept_cases h
    · obtain ⟨htable, hheap⟩ := prims_other h
      exact ⟨by rw [hheap], by rw [htable, hb]⟩
    · obtain ⟨htable, hheap⟩ := prims_other h
      have hframe := (startRecv_prims (by rw [addConn_obj]) hrecv).frame
      have hbn : b ≠ w.nextPtr := Nat.ne_of_lt (hok.lt fd' b hb)
      refine ⟨by rw [hheap, hframe.heap b hbn, addConn_heap_ne w _ hbn], ?_⟩
      rw [htable, hframe.table, addConn_table]
      split
      · rename_i hnone
        rw [Function.update_of_ne (fun hfd => by rw [hfd, hnone] at hb; cases hb), hb]
      · exact hb
  · refine ⟨rfl, ?_⟩
    have hfd : fd' ≠ fd := fun hfd => hne (hfd ▸ hb)
    exact (Function.update_of_ne hfd ..).trans hb

/-- What is done for a connection is not done for another. -/
theorem Prims.apart {L : Effect → Prop} {q c : Ptr} (h : Prims L q fd w w') (hq : q ≠ c) :
    ∃ evs, w'.trace = w.trace ++ evs ∧ ∀ ev ∈ evs, ev.Apart c := by
  obtain ⟨evs, htrace, hev⟩ := h.trace
  refine ⟨evs, htrace, fun ev he => ?_⟩
  have hallowed := hev ev he
  cases ev with
  | sqe e =>
    intro hown
    have hfor := hallowed.2
    rw [hown] at hfor
    generalize e.op = op at hfor
    cases hfor
    exact hq rfl
  | segment | enqueue | invoke => exact fun hc => hq (hallowed.2.symm.trans hc)

/-- What a completion does is not done for a connection that it is not handled for. -/
theorem handle_apart {kind : Workflow} {cqe : Cqe} (hok : w.Ok) (h : w.handle fd kind cqe = some w')
    {fd' : Fd} {b : Ptr}
    (hb : w.table fd' = some b) (hne : w.table fd ≠ some b) :
    ∃ evs, w'.trace = w.trace ++ evs ∧ ∀ ev ∈ evs, ev.Apart b := by
  have hnone : ∃ evs, w.trace = w.trace ++ evs ∧ ∀ ev ∈ evs, ev.Apart b :=
    ⟨[], (List.append_nil _).symm, fun _ h => absurd h List.not_mem_nil⟩
  obtain ⟨c, hc, h⟩ | rfl | ⟨-, h⟩ | ⟨-, rfl⟩ := handle_cases h
  · exact (handleConn_prims (hok.at hc) h).apart fun hcb => hne (hcb ▸ hc)
  · exact hnone
  · obtain ⟨-, h⟩ | ⟨-, _, w₁, hrecv, h⟩ := handleAccept_cases h
    · exact (h (b + 1) 0).apart (Nat.succ_ne_self b)
    · obtain ⟨evs, htrace, hev⟩ := (startRecv_prims (by rw [addConn_obj]) hrecv).apart (Nat.ne_of_gt (hok.lt fd' b hb))
      obtain ⟨evs', htrace', hev'⟩ := (h (b + 1) 0).apart (Nat.succ_ne_self b)
      exact ⟨evs ++ evs', by rw [htrace', htrace, List.append_assoc]; rfl,
        fun ev he => (List.mem_append.mp he).elim (hev ev) (hev' ev)⟩
  · exact hnone

end Worker

namespace Sys

open Worker

variable {s s' t : Sys} {a : Action} {ts : List (Transition Sys Action)}

/-- A completion is delivered only while its number is not another connection's. -/
def OwnEntry (s : Sys) : Action → Prop
  | .complete i _ _ _ => ∀ p ∈ s.pending[i]?, p.OwnEntry s.w
  | _ => True

instance (s : Sys) (a : Action) : Decidable (s.OwnEntry a) := by
  unfold OwnEntry
  split <;> infer_instance

/-- A completion of one connection leaves the other connections of the table as they are, and in the table. -/
def Isolated (s : Sys) (a : Action) (s' : Sys) : Prop :=
  match a with
  | .complete i _ _ _ => ∀ p ∈ s.pending[i]?, ∀ c ∈ p.sqe.owner, ∀ fd b, s.w.table fd = some b → b ≠ c →
      s'.w.heap b = s.w.heap b ∧ s'.w.table fd = some b
  | _ => True

theorem step_isolated (hok : s.w.Ok) (hown : s.OwnEntry a) (h : step .posted s a = some s') : s.Isolated a s' := by
  cases (step_cases h).2 with
  | executeClose | endBatch => trivial
  | complete hp hadm hw =>
    rename_i i cqe data env p w'
    intro q hq c hc fd b hb hbc
    cases (hp.symm.trans hq)
    have hentry := hown p hp
    unfold Pending.OwnEntry at hentry
    rw [Option.mem_def.mp hc] at hentry
    have harr := hok.move (arrive_move s p cqe data env)
    unfold handled Dispatch.read at hw
    cases hposted : p.posted with
    | none =>
      simp only [hposted] at hw
      cases hw
      exact ⟨by rw [after, arrive_heap], by rw [after, arrive_table, hb]⟩
    | some x =>
      simp only [hposted] at hw hentry
      have hne : (s.arrive p cqe data env).table x.1 ≠ some b := by
        rw [arrive_table]
        intro hx
        rcases hentry with hentry | hentry
        · rw [hx] at hentry; cases hentry
        · rw [hx] at hentry; exact hbc (Option.some.inj hentry)
      have hother := handle_other harr hw (by rw [arrive_table]; exact hb) hne
      rwa [arrive_heap] at hother

/-- In every run in which completions are delivered only while their number is not another connection's, a completion
of one connection never changes another. -/
theorem run_isolated (h0 : Init s) (h : Run (step .posted) s ts t) (hown : ∀ e ∈ ts, e.before.OwnEntry e.action) :
    ∀ e ∈ ts, e.before.Isolated e.action e.after :=
  Run.forall_step (fun _ _ _ hr hown hs => step_isolated (table_ok hr) hown hs) (.start h0) h hown

/-- A connection that sends a request while another one is open. -/
theorem run_isolated_two : ∃ s t ts, withoutPool [] = some s ∧ Run (step .posted) s ts t ∧ ts.length = 3 ∧
    ∀ e ∈ ts, e.before.Isolated e.action e.after := by
  obtain ⟨t, ht, -⟩ := Option.map_eq_some_iff.mp (show ((withoutPool []).bind (execAll (step .posted) OwnEntry [
    .complete 0 { res := 5, more := true } [] { sqes := [true] },
    .complete 0 { res := 6, more := true } [] { sqes := [true] },
    .complete 1 { res := 1 } [CR] { sqes := [true] }])).map (fun s => s.pending.length) = some 4 by decide +kernel)
  obtain ⟨s, hs, ht⟩ := Option.bind_eq_some_iff.mp ht
  obtain ⟨ts, hrun, hmap, hown⟩ := Run.exec ht
  exact ⟨s, t, ts, hs, hrun, by simpa using congrArg List.length hmap, run_isolated (start_init hs) hrun hown⟩

/-- A client closes while the response is being sent, and its number goes to another client. -/
def reuse : List Action :=
  request ++ response ++ [
    .complete 3 { res := 0 } [] { sqes := [true] },
    .executeClose 5,
    .complete 5 { res := 0 } [] {},
    .complete 0 { res := 5, more := true } [] { sqes := [true] }]

/-- The send of the first connection fails, and the second one is closed for it. -/
theorem send_closes_other : ∃ s s', serve .posted (fun _ _ => True) reuse = some s ∧
    Reachable .posted (fun _ _ => True) s ∧
    step .posted s (.complete 4 { res := -32 } [] { sqes := [true] }) = some s' ∧
    ¬s.Isolated (.complete 4 { res := -32 } [] { sqes := [true] }) s' := by
  obtain ⟨s, hs, hobs⟩ := Option.map_eq_some_iff.mp (show (serve .posted (fun _ _ => True) reuse).map (fun s =>
    ((s.pending[4]?).map fun p => p.sqe.owner, s.w.table 5, (s.w.heap 1).closing,
      (step .posted s (.complete 4 { res := -32 } [] { sqes := [true] })).map fun s' => (s'.w.heap 1).closing)) =
    some (some (some 0), some 1, false, some true) by decide +kernel)
  simp only [Prod.mk.injEq] at hobs
  obtain ⟨hp, htable, hbefore, hafter⟩ := hobs
  obtain ⟨p, hp, howner⟩ := Option.map_eq_some_iff.mp hp
  obtain ⟨s', hs', hafter⟩ := Option.map_eq_some_iff.mp hafter
  refine ⟨s, s', hs, run_reachable hs, hs', fun hiso => ?_⟩
  have h := (hiso p hp 0 howner 5 1 htable (by decide)).1
  rw [h, hbefore] at hafter
  cases hafter

end Sys

end IOContext
