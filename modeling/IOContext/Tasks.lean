import IOContext.Runs

/-!
# Posted tasks

`post_task` needs a slot of the ring for its message. If it gets none, a flush is carried out inline (`flush_inline`);
any other task is dropped. So a task is queued or carried out exactly if there is a slot, it is a flush, or its handler
would do nothing, now and behind the tasks that are queued already (`task_delivered_iff`). A response whose lookup is
queued is not such a task: there may be no handler yet, and still be one when its turn comes.
-/

namespace IOContext

namespace Worker

variable {w w' : Worker} {c : Ptr} {fd : Fd} {kind : Workflow} {queued : List Workflow} {sqes : List Bool}

/-- What the handler of a task does. The branch of `RequestFlush` also clears `sendkick_pending`, which nothing sets and
nothing reads. -/
def runTask (w : Worker) (c : Ptr) (fd : Fd) : Workflow → Option Worker
  | .requestFlush => w.sendkick c
  | kind => w.handleConn c fd kind { res := 0 }

/-- The worker when the turn of a task has come that is behind the tasks `queued` of its connection: the handler has
been looked up. The others leave the path and the handler alone. -/
def inTurn (w : Worker) (c : Ptr) (queued : List Workflow) : Worker :=
  if .findHandler ∈ queued then w.modify c fun o => o.findHandler w.routes else w

/-- After `post_task` has read the outcome of its `get_sqe_or_submit`, the message of the task has been queued, or its
handler carried out, to the same effect as in its turn behind the tasks `queued`. -/
def Delivered (w : Worker) (c : Ptr) (fd : Fd) (kind : Workflow) (queued : List Workflow) (sqes : List Bool)
    (w' : Worker) : Prop :=
  (∃ e : Sqe, w'.trace = w.trace ++ [.sqe e] ∧ e.op = .msgRing fd kind) ∨
  ((w.withSqes sqes.tail).runTask c fd kind = some w' ∧
    ((w.withSqes sqes.tail).inTurn c queued).runTask c fd kind = some (w'.inTurn c queued))

/-- The handler of the task would do nothing, now and in its turn: there is no handler to be found but the one that is
known, or there is none to respond with, and none that a lookup in front of it will find. -/
def NothingToDo (w : Worker) (c : Ptr) (queued : List Workflow) : Workflow → Prop
  | .findHandler => ∀ h, w.routes.lookup (w.heap c).parser.req.path = some h → (w.heap c).requestHandler = some h
  | .generateResponse => (w.heap c).requestHandler = none ∧
      (.findHandler ∈ queued → w.routes.lookup (w.heap c).parser.req.path = none)
  | _ => False

/-! ## The flush -/

mutual

theorem postTask_withSqes (r : List Bool) : ∀ (sqes : List Bool) (w : Worker) (fd : Fd) (kind : Workflow),
    (w.withSqes r).postTask fd kind sqes = w.postTask fd kind sqes
  | [], _, _, _ => by simp only [postTask]
  | true :: sqes, w, _, _ => by
    simp only [postTask]
    rfl
  | false :: sqes, w, fd, kind => by
    have htable : (w.withSqes r).table fd = w.table fd := rfl
    simp only [postTask, htable]
    cases w.table fd with
    | none => rfl
    | some c =>
      dsimp only
      rw [sendkickInline_withSqes r sqes w c]
      rfl

theorem sendkickInline_withSqes (r : List Bool) : ∀ (sqes : List Bool) (w : Worker) (c : Ptr),
    (w.withSqes r).sendkickInline c sqes = w.sendkickInline c sqes
  | sqes, w, c => by
    rw [sendkickInline, sendkickInline, heap_withSqes]
    split
    · rfl
    · match sqes with
      | [] => rfl
      | true :: sqes => rfl
      | false :: sqes =>
        exact postTask_withSqes r sqes
          ((w.modify c PerClientStorage.takeBatch).modify c PerClientStorage.rollback) _ .requestFlush

end

section Lookup

variable (routes : Routes)

theorem findHandler_takeBatch (o : PerClientStorage) :
    (o.findHandler routes).takeBatch = o.takeBatch.findHandler routes := by
  have hpath : o.takeBatch.parser = o.parser := rfl
  unfold PerClientStorage.findHandler
  rw [hpath]
  split <;> rfl

theorem findHandler_rollback (o : PerClientStorage) :
    (o.findHandler routes).rollback = o.rollback.findHandler routes := by
  have hpath : o.rollback.parser = o.parser := rfl
  unfold PerClientStorage.findHandler
  rw [hpath]
  split <;> rfl

/-- What a flush reads is left alone by a lookup. -/
theorem findHandler_keeps (o : PerClientStorage) : (o.findHandler routes).fd = o.fd ∧
    (o.findHandler routes).sendInflight = o.sendInflight ∧ (o.findHandler routes).txq = o.txq ∧
    (o.findHandler routes).batchedSendData = o.batchedSendData := by
  unfold PerClientStorage.findHandler
  split <;> exact ⟨rfl, rfl, rfl, rfl⟩

/-- The handler is looked up. -/
abbrev lookUp (w : Worker) (c : Ptr) : Worker := w.modify c fun o => o.findHandler routes

theorem modify_lookUp {f : PerClientStorage → PerClientStorage}
    (hf : ∀ o : PerClientStorage, f (o.findHandler routes) = (f o).findHandler routes) (w : Worker) (c : Ptr) :
    (w.lookUp routes c).modify c f = (w.modify c f).lookUp routes c := by
  simp only [lookUp, modify, Function.update_self, Function.update_idem, hf]

mutual

/-- It does not matter if the handler is looked up before a flush or after it. -/
theorem postTask_lookUp : ∀ (sqes : List Bool) {w : Worker}, w.At c fd →
    (w.lookUp routes c).postTask fd .requestFlush sqes =
      (w.postTask fd .requestFlush sqes).map fun w => w.lookUp routes c
  | [], _, _ => by simp only [postTask, Option.map_none]
  | true :: sqes, w, _ => by
    simp only [postTask]
    rfl
  | false :: sqes, w, hat => by
    have htable : (w.lookUp routes c).table fd = some c := hat.table
    simp only [postTask, if_true, htable, hat.table]
    exact sendkickInline_lookUp sqes hat

theorem sendkickInline_lookUp : ∀ (sqes : List Bool) {w : Worker}, w.At c fd →
    (w.lookUp routes c).sendkickInline c sqes = (w.sendkickInline c sqes).map fun w => w.lookUp routes c
  | sqes, w, hat => by
    obtain ⟨-, hflag, htxq, -⟩ := findHandler_keeps routes (w.heap c)
    rw [sendkickInline, sendkickInline, modify_lookUp routes (findHandler_takeBatch routes), heap_modify, hflag, htxq]
    split
    · rfl
    · match sqes with
      | [] => rfl
      | true :: sqes =>
        obtain ⟨hfd, -, -, hdata⟩ := findHandler_keeps routes (w.heap c).takeBatch
        simp only [heap_modify, hfd, hdata]
        rfl
      | false :: sqes =>
        have hat' : ((w.modify c PerClientStorage.takeBatch).modify c PerClientStorage.rollback).At c fd :=
          ⟨hat.table, by rw [heap_modify, heap_modify]; exact hat.obj⟩
        simp only [modify_lookUp routes (findHandler_rollback routes)]
        obtain ⟨hfd, -⟩ := findHandler_keeps routes (w.heap c).takeBatch.rollback
        have hobj : (w.heap c).takeBatch.rollback.fd = fd := hat.obj
        simp only [heap_modify, hfd, hobj]
        exact postTask_lookUp sqes hat'

end

end Lookup

/-- Without a slot a flush is carried out inline, to the same effect as in its turn. -/
theorem flush_inline (hat : w.At c fd) (h : w.postTask fd .requestFlush (false :: sqes) = some w') :
    (w.withSqes sqes).runTask c fd .requestFlush = some w' ∧
      ((w.withSqes sqes).inTurn c queued).runTask c fd .requestFlush = some (w'.inTurn c queued) := by
  have hroutes : w'.routes = w.routes := (flushTask_prims hat h).frame.routes
  simp only [postTask, if_true, hat.table] at h
  have hnow : (w.withSqes sqes).sendkickInline c sqes = some w' := by rw [sendkickInline_withSqes, h]
  refine ⟨hnow, ?_⟩
  unfold inTurn
  split
  · have hlater := sendkickInline_lookUp w.routes sqes (w := w.withSqes sqes) ⟨hat.table, hat.obj⟩
    rw [hnow] at hlater
    rw [hroutes]
    exact hlater
  · exact hnow

/-! ## The other tasks -/

/-- Without a slot any other task is dropped. -/
theorem task_dropped (hk : kind ≠ .requestFlush) (h : w.postTask fd kind (false :: sqes) = some w') :
    w' = w.withSqes sqes := by
  simp only [postTask, if_neg hk, Option.some.injEq] at h
  exact h.symm

theorem closeConn_outcome (h : w.closeConn c fd = some w') : ∃ b, w.env.sqes = b :: w'.env.sqes := by
  obtain ⟨⟨b, w₁⟩, hclose, h⟩ := Option.bind_eq_some_iff.mp h
  cases h
  have hlater : (w₁.submitLater b).env = w₁.env := by
    unfold submitLater
    split <;> rfl
  rw [hlater]
  obtain ⟨⟨b', w₂⟩, hsqe, hclose⟩ := Option.bind_eq_some_iff.mp hclose
  obtain ⟨sqes, henv, rfl⟩ := getSqeOrSubmit_eq hsqe
  refine ⟨b', ?_⟩
  cases b' <;> cases hclose <;> exact henv

/-- A handler that is called leaves its mark on the trace. -/
theorem generateResponse_invokes (hat : w.At c fd) {h : Handler} (hh : (w.heap c).requestHandler = some h)
    (hg : w.generateResponse c = some w') :
    ∃ evs, w'.trace = w.trace ++ (.invoke c h (w.heap c).parser.req (w.heap c).parser.res) :: evs := by
  obtain ⟨w₁, sqes, -, hat₁, htrace, -, -, hflush⟩ := generateResponse_eq hat hh hg
  obtain ⟨evs, htrace', -⟩ := (flushTask_prims hat₁ hflush).trace
  exact ⟨_, by rw [htrace', htrace, List.append_assoc, List.cons_append]⟩

/-- A handler that changes nothing has nothing to do now. -/
theorem nothingToDo_of_runTask (hat : w.At c fd) (ht : kind.IsTask) (hk : kind ≠ .requestFlush)
    (h : w.runTask c fd kind = some w) : w.NothingToDo c [] kind := by
  cases kind with
  | findHandler =>
    intro hd hlookup
    have hheap := congrArg (fun w : Worker => (w.heap c).requestHandler) (Option.some.inj h)
    simpa [PerClientStorage.findHandler, hlookup] using hheap.symm
  | generateResponse =>
    cases hh : (w.heap c).requestHandler with
    | none => exact ⟨hh, fun hmem => absurd hmem List.not_mem_nil⟩
    | some hd =>
      obtain ⟨evs, htrace⟩ := generateResponse_invokes hat hh h
      have hlen := congrArg List.length htrace
      simp only [List.length_append, List.length_cons] at hlen
      omega
  | requestClose =>
    obtain ⟨b, hb⟩ := closeConn_outcome h
    have hlen := congrArg List.length hb
    simp at hlen
  | requestFlush => exact absurd rfl hk
  | accept | recv | parse | pollOut | send | closed | freeBuffer => exact ht.elim

theorem runTask_of_nothingToDo (h : w.NothingToDo c [] kind) : w.runTask c fd kind = some w := by
  cases kind with
  | findHandler =>
    have hsame : (w.heap c).findHandler w.routes = w.heap c := by
      unfold PerClientStorage.findHandler
      split
      · rename_i hd hlookup
        rw [← h hd hlookup]
      · rfl
    show some (w.modify c fun o => o.findHandler w.routes) = some w
    rw [modify, hsame, Function.update_eq_self]
  | generateResponse =>
    have hnone : (w.heap c).requestHandler = none := h.1
    show w.generateResponse c = some w
    simp [generateResponse, hnone]
  | _ => exact h.elim

theorem requestHandler_findHandler (o : PerClientStorage) (routes : Routes) :
    (o.findHandler routes).parser = o.parser ∧
      (o.findHandler routes).requestHandler = (routes.lookup o.parser.req.path).or o.requestHandler := by
  unfold PerClientStorage.findHandler
  cases routes.lookup o.parser.req.path <;> exact ⟨rfl, rfl⟩

/-- A handler has nothing to do now, and nothing in its turn. -/
theorem nothingToDo_iff :
    w.NothingToDo c queued kind ↔ w.NothingToDo c [] kind ∧ (w.inTurn c queued).NothingToDo c [] kind := by
  obtain ⟨hparser, hhandler⟩ := requestHandler_findHandler (w.heap c) w.routes
  have hroutes : (w.lookUp w.routes c).routes = w.routes := rfl
  unfold inTurn
  split
  · rename_i hmem
    cases kind with
    | findHandler =>
      refine ⟨fun h => ⟨h, fun hd hlookup => ?_⟩, And.left⟩
      rw [heap_modify, hparser, hroutes] at hlookup
      rw [heap_modify, hhandler, hlookup]
      rfl
    | generateResponse =>
      simp only [NothingToDo, hmem, true_implies, List.not_mem_nil, false_implies, and_true, heap_modify, hhandler]
      refine and_congr_right fun hnone => ?_
      rw [hnone, Option.or_none]
    | _ => exact ⟨False.elim, fun h => h.1⟩
  · rename_i hmem
    cases kind with
    | findHandler => exact and_self_iff.symm
    | generateResponse => simp [NothingToDo, hmem]
    | _ => exact ⟨False.elim, fun h => h.1⟩

/-- A task of a connection is queued or carried out exactly if there is a slot for its message, it is a flush, or its
handler would do nothing, now and in its turn. -/
theorem task_delivered_iff (hat : w.At c fd) (ht : kind.IsTask) (h : w.postTask fd kind sqes = some w') :
    w.Delivered c fd kind queued sqes w' ↔
      sqes.head? = some true ∨ kind = .requestFlush ∨ w.NothingToDo c queued kind := by
  match sqes, h with
  | true :: sqes, h =>
    simp only [postTask, Option.some.injEq] at h
    subst h
    simp only [List.head?_cons, true_or, iff_true]
    exact .inl ⟨_, rfl, rfl⟩
  | false :: sqes, h =>
    by_cases hk : kind = .requestFlush
    · subst hk
      simp only [true_or, or_true, iff_true]
      exact .inr (flush_inline hat h)
    · obtain rfl := task_dropped hk h
      have hat' : (w.withSqes sqes).At c fd := hat.prims (withSqes_prims (L := fun _ => True) sqes)
      have hturn : ((w.withSqes sqes).inTurn c queued).At c fd := by
        unfold inTurn
        split
        · exact ⟨hat.table, by rw [heap_modify]; exact (findHandler_keeps _ _).1.trans hat.obj⟩
        · exact hat'
      constructor
      · rintro (⟨e, htrace, -⟩ | ⟨hnow, hlater⟩)
        · have hlen := congrArg List.length htrace
          simp [withSqes] at hlen
        · have hnothing : (w.withSqes sqes).NothingToDo c queued kind := nothingToDo_iff.mpr
            ⟨nothingToDo_of_runTask hat' ht hk hnow, nothingToDo_of_runTask hturn ht hk hlater⟩
          exact .inr (.inr hnothing)
      · rintro (hhead | hflush | hnothing)
        · cases hhead
        · exact absurd hflush hk
        · have hnothing : (w.withSqes sqes).NothingToDo c queued kind := hnothing
          obtain ⟨hnow, hlater⟩ := nothingToDo_iff.mp hnothing
          exact .inr ⟨runTask_of_nothingToDo hnow, runTask_of_nothingToDo hlater⟩

/-- A worker that has accepted 5. -/
def accepted : Worker := (({ listenFd := 3, cfg := {}, routes := [] } : Worker).addConn 5).2

theorem accepted_at : accepted.At 0 5 := ⟨by simp [accepted, addConn_table], addConn_obj _ _ ▸ rfl⟩

theorem task_delivered_iff_queued : ∃ w', accepted.postTask 5 .requestClose [true] = some w' ∧
    accepted.Delivered 0 5 .requestClose [.findHandler] [true] w' :=
  ⟨_, rfl, (task_delivered_iff accepted_at (by exact trivial) rfl).mpr (.inl rfl)⟩

end Worker

namespace Sys

open Worker

/-- A client connects as 5 and sends a byte that no request begins with, when the ring is full. -/
def malformed : List Action :=
  [.complete 0 { res := 5, more := true } [] { sqes := [true] }, .complete 1 { res := 1 } [LF] { sqes := [false] }]

/-- A client asks for `/`, and there is room for the lookup of the handler, but not for the response. -/
def unanswered : List Action :=
  [.complete 0 { res := 5, more := true } [] { sqes := [true] },
    .complete 1 { res := 18 } (ascii "GET / HTTP/1.1" ++ [CR, LF, CR, LF]) { sqes := [true, false, true] },
    .complete 1 { res := 0 } [] {}, .complete 1 { res := 0 } [] {}]

/-- The close of a malformed connection is lost: the connection stays in the table, and only the accept is owed. The
response to a request is lost: its handler is found, and is never called; only the accept and the next receive are
owed. -/
theorem task_lost :
    (¬∀ (w w' : Worker) (c : Ptr) (fd : Fd) (kind : Workflow) (queued : List Workflow) (sqes : List Bool), w.At c fd →
      kind.IsTask → w.postTask fd kind sqes = some w' → w.Delivered c fd kind queued sqes w') ∧
    (∃ s, serve .tagged (fun _ _ => True) malformed = some s ∧ Reachable .tagged (fun _ _ => True) s ∧
      s.w.table 5 = some 0 ∧ (s.w.heap 0).parser.state = .errorState ∧
      (sqesOf s.w.trace).map (·.op) = [.multishotAccept 3, .recv 5 0] ∧
      s.pending.map (·.sqe.op) = [.multishotAccept 3]) ∧
    ∃ s, serve .tagged (fun _ _ => True) unanswered = some s ∧ Reachable .tagged (fun _ _ => True) s ∧
      (s.w.heap 0).parser.state = .body ∧ (s.w.heap 0).requestHandler.isSome = true ∧ (s.w.heap 0).txq = [] ∧
      (sqesOf s.w.trace).map (·.op) = [.multishotAccept 3, .recv 5 0, .msgRing 5 .findHandler, .recv 5 1] ∧
      s.pending.map (·.sqe.op) = [.multishotAccept 3, .recv 5 1] := by
  refine ⟨fun h => ?_, ?_, ?_⟩
  · rcases h accepted _ 0 5 .requestClose [] [false] accepted_at (by exact trivial) rfl with ⟨e, htrace, -⟩ | ⟨hrun, -⟩
    · cases htrace
    · obtain ⟨b, hb⟩ := closeConn_outcome hrun
      cases hb
  · obtain ⟨s, hs, hobs⟩ := Option.map_eq_some_iff.mp (show
      (serve .tagged (fun _ _ => True) malformed).map (fun s =>
        (s.w.table 5, decide ((s.w.heap 0).parser.state = .errorState), (sqesOf s.w.trace).map (·.op),
          s.pending.map (·.sqe.op))) =
        some (some 0, true, [.multishotAccept 3, .recv 5 0], [.multishotAccept 3]) by decide +kernel)
    simp only [Prod.mk.injEq] at hobs
    exact ⟨s, hs, run_reachable hs, hobs.1, of_decide_eq_true hobs.2.1, hobs.2.2.1, hobs.2.2.2⟩
  · obtain ⟨s, hs, hobs⟩ := Option.map_eq_some_iff.mp (show
      (serve .tagged (fun _ _ => True) unanswered).map (fun s =>
        (decide ((s.w.heap 0).parser.state = .body), (s.w.heap 0).requestHandler.isSome, (s.w.heap 0).txq,
          (sqesOf s.w.trace).map (·.op), s.pending.map (·.sqe.op))) =
        some (true, true, [], [.multishotAccept 3, .recv 5 0, .msgRing 5 .findHandler, .recv 5 1],
          [.multishotAccept 3, .recv 5 1]) by decide +kernel)
    simp only [Prod.mk.injEq] at hobs
    exact ⟨s, hs, run_reachable hs, of_decide_eq_true hobs.1, hobs.2.1, hobs.2.2.1, hobs.2.2.2.1, hobs.2.2.2.2⟩

end Sys

end IOContext
