import IOContext.Strides
import IOContext.Worker.Closing

/-!
# Malformed requests

A parser that has read an error stays there, and one that has read a head stays in the body. So a connection whose
parser is ever in error is never asked for a response (`error_excludes_response`).

The task that is posted instead never closes it: its kind comes back from the tag as an accept
(`request_close_accepted`).
-/

namespace IOContext

namespace ProcessingMachine

variable {p : Bytes}

/-- The body is not left. -/
theorem body_append (h : (({} : ProcessingMachine).onSegment p).state = .body) (q : Bytes) :
    (({} : ProcessingMachine).onSegment (p ++ q)).state = .body := by
  rw [← onSegment_onSegment, onSegment_body h]
  exact h

/-- The error state is not left. -/
theorem error_append (h : (({} : ProcessingMachine).onSegment p).state = .errorState) (q : Bytes) :
    (({} : ProcessingMachine).onSegment (p ++ q)).state = .errorState := by
  rw [← onSegment_onSegment, onSegment_error h]
  exact h

end ProcessingMachine

namespace Worker

variable {w : Worker} {c : Ptr} {evs : List Event}

/-- Where the parser is in error, what it has been fed is. -/
theorem Parsed.error_iff (h : w.Parsed) (c : Ptr) : (w.heap c).parser.state = .errorState ↔
    (({} : ProcessingMachine).onSegment (fed c w.trace)).state = .errorState := by
  have hparser : (w.heap c).parser.state = (parserOf c w.trace).state := by rw [← h.parser c]; rfl
  rw [hparser]
  rcases parserOf_eq c w.trace with ⟨hfresh, hnil⟩ | hread
  · rw [hfresh, hnil]
    exact ⟨(fun h => by cases h), fun h => (by cases h)⟩
  · rw [hread]

theorem Justified.not_generate (h : (({} : ProcessingMachine).onSegment (fed c evs)).state = .errorState) :
    ¬Justified evs c .generateResponse := by
  rintro ⟨p, q, hfed, hbody, -⟩
  rw [hfed, ProcessingMachine.body_append hbody q] at h
  cases h

theorem TasksJustified.justified (h : TasksJustified evs) {kind : Workflow} (hk : kind ≠ .requestFlush)
    (hmem : kind ∈ tasksOf c evs) : Justified evs c kind := by
  obtain ⟨e, he, htask⟩ := List.mem_filterMap.mp hmem
  unfold Sqe.task at htask
  split at htask
  · rename_i fd kind' hop
    split at htask
    · rename_i hown
      cases htask
      obtain ⟨c', hown', hj⟩ := h e he fd kind hop hk
      rw [hown] at hown'
      cases hown'
      exact hj
    · cases htask
  · cases htask

end Worker

namespace Sys

open Worker

variable {d : Dispatch} {s s' t : Sys} {ts : List (Transition Sys Action)} {c : Ptr}

/-- In every run, once the parser of a connection is in error it stays so, and the connection has not been and will not
be asked for a response. -/
theorem error_excludes_response (hs : Reachable d (fun _ _ => True) s) (hrun : Run (step d) s ts t)
    (herr : (s.w.heap c).parser.state = .errorState) :
    (t.w.heap c).parser.state = .errorState ∧ .generateResponse ∉ tasksOf c t.w.trace := by
  have ht : Reachable d (fun _ _ => True) t := Run.reach hs hrun fun _ _ => trivial
  obtain ⟨evs, htrace⟩ := run_trace hs hrun fun _ _ => trivial
  have hread := (parsed hs).error_iff c |>.mp herr
  have hread' : (({} : ProcessingMachine).onSegment (fed c t.w.trace)).state = .errorState := by
    rw [htrace, fed_append]
    exact ProcessingMachine.error_append hread _
  refine ⟨((parsed ht).error_iff c).mpr hread', fun hmem => ?_⟩
  exact Justified.not_generate hread' ((tasks_justified ht).justified (by decide) hmem)

/-- Into the provided buffer a client sends a byte that no request begins with. -/
def provoked : List Action :=
  [.complete 1 { res := 5, more := true } [] { sqes := [true] },
    .complete 2 { res := 1, more := true, buffer := some 0 } [CR] { sqes := [true, true] }]

/-- Its receive goes on, and a request comes twice. -/
def persisted : List Action :=
  List.replicate 2 (.complete 2 { res := 18, more := true, buffer := some 0 }
    (ascii "GET / HTTP/1.1" ++ [CR, LF, CR, LF]) { sqes := [true, true] })

theorem error_excludes_response_refused : ∃ s t ts, Reachable .tagged (fun _ _ => True) s ∧
    (s.w.heap 0).parser.state = .errorState ∧ Run (step .tagged) s ts t ∧ ts.map (·.action) = persisted ∧
    (fed 0 t.w.trace).length = 37 ∧ (t.w.heap 0).parser.state = .errorState ∧
    .generateResponse ∉ tasksOf 0 t.w.trace := by
  obtain ⟨s, hs, hobs⟩ := Option.map_eq_some_iff.mp (show
    (withPool.bind (execAll (step .tagged) (fun _ _ => True) provoked)).map (fun s =>
      (decide ((s.w.heap 0).parser.state = .errorState),
        (execAll (step .tagged) (fun _ _ => True) persisted s).map fun t => (fed 0 t.w.trace).length)) =
      some (true, some 37) by decide +kernel)
  simp only [Prod.mk.injEq] at hobs
  obtain ⟨t, ht, hfed⟩ := Option.map_eq_some_iff.mp hobs.2
  obtain ⟨ts, hrun, hactions, -⟩ := Run.exec ht
  have hr : Reachable .tagged (fun _ _ => True) s := run_reachable hs
  have herr := of_decide_eq_true hobs.1
  exact ⟨s, t, ts, hr, herr, hrun, hactions, hfed, error_excludes_response hr hrun herr⟩

/-! ## The close that is asked for -/

/-- The connection is closing, and a close of its descriptor is submitted. -/
def Dropped (s s' : Sys) (c : Ptr) (fd : Fd) : Prop :=
  (s'.w.heap c).closing = true ∧ ∃ e, Event.sqe e ∈ s'.w.trace.drop s.w.trace.length ∧ e.op = .close fd

/-- What comes back of a task that asks for a close belongs to a connection whose parser is in error, and never closes
it: its tag reads as an accept. -/
theorem request_close_accepted (h : Reachable .tagged (fun _ _ => True) s) {i : Nat} {p : Pending}
    (hp : s.pending[i]? = some p) (hmsg : p.message = true) {fd : Fd} (hop : p.sqe.op = .msgRing fd .requestClose)
    {cqe : Cqe} {data : Bytes} {env : Env} (hstep : step .tagged s (.complete i cqe data env) = some s') :
    ∃ c, p.sqe.owner = some c ∧ (s.w.heap c).parser.state = .errorState ∧ ¬Dropped s s' c fd := by
  obtain ⟨c, hown, q, q', hfed, herr⟩ := tasks_justified h p.sqe (pending_mem h p (List.mem_of_getElem? hp)) fd
    .requestClose hop (by decide)
  refine ⟨c, hown, ?_, ?_⟩
  · rw [(parsed h).error_iff c, hfed]
    exact ProcessingMachine.error_append herr q'
  · rintro ⟨-, e, hmem, hclose⟩
    obtain ⟨-, hcases⟩ := step_cases hstep
    cases hcases with
    | @complete _ _ _ _ p' w' hp' hadm hw =>
      cases hp.symm.trans hp'
      have htag : p.tag = packUd fd .requestClose := by
        unfold Pending.tag
        rw [hop, hmsg]
      have hkind : (unpackUd p.tag).2.1 = .accept := by
        rw [htag, packUd_eq]
        exact (unpack_wrapped_kind fd 0).1
      have hres : cqe.res = 0 := by
        unfold Admissible at hadm
        rw [hop] at hadm
        exact hadm
      unfold handled Dispatch.read at hw
      simp only [hkind] at hw
      obtain ⟨-, haccepts⟩ | ⟨hpos, -⟩ := handleAccept_accepts hw
      · obtain ⟨evs, htrace, hev⟩ := (haccepts 0 0).trace
        have hnew : w'.trace.drop s.w.trace.length = evs := by rw [htrace, arrive_trace, List.drop_left]
        have hmem : Event.sqe e ∈ w'.trace.drop s.w.trace.length := hmem
        rw [hnew] at hmem
        obtain ⟨hop', -⟩ := hev _ hmem
        rw [hclose] at hop'
        obtain ⟨⟨⟩⟩ := hop'
      · rw [hres] at hpos
        exact absurd hpos (by decide)

/-- A client connects as 5 and sends a byte that no request begins with. -/
def refused : List Action :=
  [.complete 0 { res := 5, more := true } [] { sqes := [true] }, .complete 1 { res := 1 } [CR] { sqes := [true] }]

/-- What comes back to the client that has been refused. -/
theorem refused_message : ∃ s s' p, Reachable .tagged (fun _ _ => True) s ∧ s.pending[1]? = some p ∧ p.message = true ∧
    p.sqe.op = .msgRing 5 .requestClose ∧ p.sqe.owner = some 0 ∧ (s.w.heap 0).parser.state = .errorState ∧
    step .tagged s (.complete 1 { res := 0 } [] { sqes := [true] }) = some s' ∧
    (sqesOf (s'.w.trace.drop s.w.trace.length)).all (fun e => decide ¬e.op.IsClose) = true := by
  obtain ⟨s, hs, hobs⟩ := Option.map_eq_some_iff.mp (show (serve .tagged (fun _ _ => True) refused).map (fun s =>
    ((s.pending[1]?).map fun p => (p.message, decide (p.sqe.op = .msgRing 5 .requestClose), p.sqe.owner),
      decide ((s.w.heap 0).parser.state = .errorState),
      (step .tagged s (.complete 1 { res := 0 } [] { sqes := [true] })).map fun s' =>
        (sqesOf (s'.w.trace.drop s.w.trace.length)).all (fun e => decide ¬e.op.IsClose))) =
    some (some (true, true, some 0), true, some true) by decide +kernel)
  simp only [Prod.mk.injEq] at hobs
  obtain ⟨hp, herr, hafter⟩ := hobs
  obtain ⟨p, hp, hpobs⟩ := Option.map_eq_some_iff.mp hp
  simp only [Prod.mk.injEq] at hpobs
  obtain ⟨s', hs', hafter⟩ := Option.map_eq_some_iff.mp hafter
  exact ⟨s, s', p, run_reachable hs, hp, hpobs.1, of_decide_eq_true hpobs.2.1, hpobs.2.2, of_decide_eq_true herr, hs',
    hafter⟩

theorem request_close_accepted_refused : ∃ s s' p, s.pending[1]? = some p ∧
    step .tagged s (.complete 1 { res := 0 } [] { sqes := [true] }) = some s' ∧
    ∃ c, p.sqe.owner = some c ∧ (s.w.heap c).parser.state = .errorState ∧ ¬Dropped s s' c 5 := by
  obtain ⟨s, s', p, hr, hp, hmsg, hop, -, -, hs', -⟩ := refused_message
  exact ⟨s, s', p, hp, hs', request_close_accepted hr hp hmsg hop hs'⟩

/-- The connection stays open: its message arrives with a slot available, and no close is submitted. -/
theorem refused_not_dropped : ∃ s s' p, Reachable .tagged (fun _ _ => True) s ∧ s.pending[1]? = some p ∧
    p.message = true ∧ p.sqe.op = .msgRing 5 .requestClose ∧ p.sqe.owner = some 0 ∧
    (s.w.heap 0).parser.state = .errorState ∧
    step .tagged s (.complete 1 { res := 0 } [] { sqes := [true] }) = some s' ∧ ¬Dropped s s' 0 5 := by
  obtain ⟨s, s', p, hr, hp, hmsg, hop, hown, herr, hs', hall⟩ := refused_message
  refine ⟨s, s', p, hr, hp, hmsg, hop, hown, herr, hs', ?_⟩
  rintro ⟨-, e, hmem, hclose⟩
  have hnot := of_decide_eq_true (List.all_eq_true.mp hall e (mem_sqesOf.mpr hmem))
  rw [hclose] at hnot
  exact hnot trivial

end Sys

end IOContext
