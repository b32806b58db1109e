import IOContext.Closing
import IOContext.Tasks
import IOContext.Worker.Receives

/-!
# The receive queue is drained

`parse_step` bounds its passes by their number and by the time, and nothing posts a `Parse` for what it leaves behind.

- A pass takes up to `PROC_MAX_SEGMENTS` segments, and the bounds are looked at only after it: a queue of that length is
  read in the first one, whatever the clock says (`parseStep_consumes`).
- A segment that is put into a queue is taken from it by the same completion (`handleRecv_empties`), so that all queues
  are empty between completions (`noBacklog`), and what a receive brings has been parsed when the loop goes on
  (`handleRecv_feeds`).
-/

namespace IOContext

namespace Worker

/-- From `w` to `w'` the parser of `c` reads `segs`, which it takes from the front of the queue, and nothing else. -/
structure Consumes (c : Ptr) (segs : List OwnedBuf) (w w' : Worker) : Prop where
  rxq : (w.heap c).rxq = segs ++ (w'.heap c).rxq
  parser : (w'.heap c).parser = segs.foldl (fun m b => m.onSegment b.wb) (w.heap c).parser
  trace : ∃ evs, w'.trace = w.trace ++ evs ∧ segmentsOf c evs = segs.map (·.wb)

/-- `parse_step` returns early: the parser has erred, or an exception has left the worker. -/
def Stops (w : Worker) (c : Ptr) : Prop := (w.heap c).parser.state = .errorState ∨ w.terminated = true

/-- No segment is left in a queue. -/
def NoBacklog (w : Worker) : Prop := ∀ c, (w.heap c).rxq = []

variable {L : Effect → Prop} {c : Ptr} {fd : Fd} {segs segs' : List OwnedBuf} {w w' w'' : Worker} {cqe : Cqe}

theorem Consumes.of_eq (hrxq : (w'.heap c).rxq = (w.heap c).rxq) (hparser : (w'.heap c).parser = (w.heap c).parser)
    (htrace : w'.trace = w.trace) : Consumes c [] w w' :=
  ⟨hrxq.symm, hparser, [], by rw [htrace, List.append_nil], rfl⟩

theorem Consumes.refl (c : Ptr) (w : Worker) : Consumes c [] w w := .of_eq rfl rfl rfl

theorem Consumes.trans (h : Consumes c segs w w') (h' : Consumes c segs' w' w'') :
    Consumes c (segs ++ segs') w w'' := by
  obtain ⟨evs, htrace, hsegs⟩ := h.trace
  obtain ⟨evs', htrace', hsegs'⟩ := h'.trace
  refine ⟨?_, ?_, evs ++ evs', ?_, ?_⟩
  · rw [h.rxq, h'.rxq, List.append_assoc]
  · rw [h'.parser, h.parser, List.foldl_append]
  · rw [htrace', htrace, List.append_assoc]
  · rw [segmentsOf_append, hsegs, hsegs', List.map_append]

/-! ## Passes -/

/-- Tasks leave the parser and its queue alone. -/
theorem post_consumes {kind : Workflow} (hk : kind ≠ .requestFlush) (h : w.post c kind = some w') :
    Consumes c [] w w' := by
  unfold post at h
  match w.env.sqes, h with
  | true :: sqes, h =>
    simp only [postTask, Option.some.injEq] at h
    subst h
    obtain ⟨e, -, -, -, htrace⟩ :=
      trace_prep (w.withSqes sqes) (.msgRing (w.heap c).fd kind) (w.table (w.heap c).fd) none
    exact ⟨rfl, rfl, [.sqe e], htrace, rfl⟩
  | false :: sqes, h =>
    obtain rfl := task_dropped hk h
    exact .of_eq rfl rfl rfl

theorem postFindHandler_consumes (h : w.postFindHandler c = some w') : Consumes c [] w w' := by
  unfold postFindHandler at h
  split at h
  · exact post_consumes (by decide) h
  · cases h
    exact .refl c w

theorem postGenerateResponse_consumes (h : w.postGenerateResponse c = some w') : Consumes c [] w w' := by
  unfold postGenerateResponse at h
  dsimp only at h
  split at h
  · split at h
    · split at h
      · split at h
        · exact post_consumes (by decide) h
        · cases h
          exact .refl c w
      · -- the exception of `std::stoull`
        cases h
        exact .of_eq rfl rfl rfl
    · exact post_consumes (by decide) h
  · cases h
    exact .refl c w

theorem postParsed_consumes (h : w.postParsed c = some w') : Consumes c [] w w' := by
  obtain ⟨w₁, hfind, h⟩ := Option.bind_eq_some_iff.mp h
  exact (postFindHandler_consumes hfind).trans (postGenerateResponse_consumes h)

/-- The first segment is taken, and read. -/
theorem parseSegment_consumes {seg : OwnedBuf} {rest : List OwnedBuf} {stop : Bool}
    (hrxq : (w.heap c).rxq = seg :: rest) (h : w.parseSegment c = some (stop, w')) :
    Consumes c [seg] w w' ∧ (stop = true → w'.Stops c) := by
  unfold parseSegment at h
  simp only [hrxq] at h
  have hread : Consumes c [seg] w ((w.modify c fun o => { o with rxq := rest, parser := o.parser.onSegment seg.wb }).log
      (.segment c seg.wb)) := ⟨by simp [hrxq], by simp, [.segment c seg.wb], rfl, by simp [segmentsOf]⟩
  generalize (w.modify c fun o => { o with rxq := rest, parser := o.parser.onSegment seg.wb }).log
    (.segment c seg.wb) = w₁ at h hread
  split at h
  · rename_i herr
    obtain ⟨w₂, hpost, h⟩ := Option.bind_eq_some_iff.mp h
    cases h
    have hclosing : Consumes c [] w₁ (w₁.modify c fun o => { o with closing := true }) :=
      .of_eq (by simp) (by simp) rfl
    have hrest := hclosing.trans (post_consumes (by decide) hpost)
    exact ⟨hread.trans hrest, fun _ => .inl ((congrArg (·.state) hrest.parser).trans herr)⟩
  · obtain ⟨w₂, hparsed, h⟩ := Option.bind_eq_some_iff.mp h
    cases h
    exact ⟨hread.trans (postParsed_consumes hparsed), fun hterm => .inr hterm⟩

/-- As many segments are read as are asked for, unless the pass stops. -/
theorem parseSegments_consumes {n : Nat} {stop : Bool} (hn : n ≤ (w.heap c).rxq.length)
    (h : parseSegments c n w = some (stop, w')) :
    ∃ segs, Consumes c segs w w' ∧ (stop = true ∧ w'.Stops c ∨ stop = false ∧ segs.length = n) := by
  induction n generalizing w with
  | zero =>
    cases h
    exact ⟨[], .refl .., .inr ⟨rfl, rfl⟩⟩
  | succ n ih =>
    obtain ⟨⟨stop₁, w₁⟩, hseg, h⟩ := Option.bind_eq_some_iff.mp h
    match hrxq : (w.heap c).rxq, hn with
    | seg :: rest, hn =>
      obtain ⟨hread, hstops⟩ := parseSegment_consumes hrxq hseg
      dsimp only at h
      split at h
      · rename_i hstop
        cases h
        exact ⟨[seg], hread, .inl ⟨rfl, hstops hstop⟩⟩
      · have hrest : rest = (w₁.heap c).rxq := by simpa [hrxq] using hread.rxq
        obtain ⟨segs, hsegs, hend⟩ := ih (by rw [← hrest]; simpa using hn) h
        exact ⟨seg :: segs, hread.trans hsegs, hend.imp id fun ⟨hgo, hlen⟩ => ⟨hgo, by rw [List.length_cons, hlen]⟩⟩

/-- A queue that fits into one pass is read in the first one. -/
theorem parsePasses_consumes {n k : Nat} (hlen : (w.heap c).rxq.length ≤ PROC_MAX_SEGMENTS)
    (h : parsePasses c (n + 1) k w = some w') :
    ∃ segs, Consumes c segs w w' ∧ (w'.Stops c ∨ (w'.heap c).rxq = []) := by
  by_cases hempty : (w.heap c).rxq = []
  · rw [parsePasses_nil hempty] at h
    cases h
    exact ⟨[], .refl c w, .inr hempty⟩
  · obtain ⟨⟨last, w₁⟩, hpass, h⟩ := Option.bind_eq_some_iff.mp h
    unfold parsePass at hpass
    rw [if_neg (by simpa using hempty), passLength_eq hlen] at hpass
    obtain ⟨segs, hsegs, ⟨rfl, hstops⟩ | ⟨rfl, hall⟩⟩ := parseSegments_consumes (Nat.le_refl _) hpass
    · cases h
      exact ⟨segs, hsegs, .inl hstops⟩
    · have hempty₁ : (w₁.heap c).rxq = [] := by
        have hlen := congrArg List.length hsegs.rxq
        rw [List.length_append, hall] at hlen
        exact List.eq_nil_of_length_eq_zero (by omega)
      -- the clock decides only whether the queue is looked at again
      have heq : w₁ = w' := by
        dsimp only at h
        rw [if_neg (by decide), parsePasses_nil hempty₁, ite_self] at h
        exact Option.some.inj h
      exact ⟨segs, heq ▸ hsegs, .inr (heq ▸ hempty₁)⟩

theorem parseStep_consumes (hlen : (w.heap c).rxq.length ≤ PROC_MAX_SEGMENTS) (h : w.parseStep c = some w') :
    ∃ segs, Consumes c segs w w' ∧ (w'.Stops c ∨ (w'.heap c).rxq = []) :=
  parsePasses_consumes (n := PROC_MAX_SEGMENTS - 1) (k := 0) hlen h

/-- `parse_step` reads the whole queue, unless it meets an error. -/
theorem parseStep_consumes_all (hlen : (w.heap c).rxq.length ≤ PROC_MAX_SEGMENTS) (h : w.parseStep c = some w')
    (hterm : w'.terminated = false) (herr : (w.heap c).rxq = [] ∨ (w'.heap c).parser.state ≠ .errorState) :
    Consumes c (w.heap c).rxq w w' ∧ (w'.heap c).rxq = [] := by
  obtain ⟨segs, hsegs, hend⟩ := parseStep_consumes hlen h
  have hempty : (w'.heap c).rxq = [] := by
    rcases herr with hnil | hstate
    · exact (List.append_eq_nil_iff.mp (hsegs.rxq.symm.trans hnil)).2
    · refine hend.resolve_left fun hstops => hstops.elim hstate fun hterm' => ?_
      rw [hterm] at hterm'
      cases hterm'
  have hall : (w.heap c).rxq = segs := by rw [hsegs.rxq, hempty, List.append_nil]
  exact ⟨hall ▸ hsegs, hempty⟩

/-! ## Completions -/

theorem recvProvided_empties {bid : Nat} (hat : w.At c fd) (hempty : (w.heap c).rxq = [])
    (h : w.recvProvided c bid cqe = some w') : (w'.heap c).rxq = [] := by
  obtain ⟨w₁, w₂, hback, hkick, h⟩ := recvProvided_cases h
  have hprov : Prims Effect.Provides c fd _ w₁ := returnBuffer_prims hback
  obtain ⟨hat₂, hempty₂⟩ := pushSegment_empties hat hempty hprov hkick
  obtain ⟨-, rfl⟩ | ⟨-, h⟩ := h
  · exact hempty₂
  · have hdisarm : Prims Effect.KeepsRxq c fd w₂ (w₂.modify c fun o => { o with msRecvArmed := false }) :=
      .single (.change _ rfl rfl rfl id)
    have hrestart := (restartRecv_prims (hat₂.prims hdisarm).obj h).mono Effect.Recvs.keepsRxq
    exact hrestart.rxq_nil (hdisarm.rxq_nil hempty₂)

theorem recvHold_empties (hat : w.At c fd) (hempty : (w.heap c).rxq = []) (h : w.recvHold c cqe = some w') :
    (w'.heap c).rxq = [] := by
  obtain ⟨-, rfl⟩ | ⟨hold, w₁, -, hkick, h⟩ := recvHold_cases h
  · exact hempty
  · have htake : Prims Effect.Works c fd w (w.modify c fun o => { o with rxHold := none }) :=
      .single (.change _ trivial rfl rfl id)
    obtain ⟨hat₁, hempty₁⟩ := pushSegment_empties (hat.prims htake) (by simpa using hempty) .refl hkick
    obtain ⟨-, rfl⟩ | ⟨-, h⟩ := h
    · exact hempty₁
    · exact ((restartRecv_prims hat₁.obj h).mono Effect.Recvs.keepsRxq).rxq_nil hempty₁

/-- A segment that a completion puts into the queue is taken from it by the same completion. -/
theorem handleRecv_empties (hat : w.At c fd) (hempty : (w.heap c).rxq = []) (h : w.handleRecv c fd cqe = some w') :
    (w'.heap c).rxq = [] := by
  obtain ⟨-, h⟩ | ⟨-, bid, -, -, h⟩ | ⟨-, -, h⟩ := handleRecv_cases h
  · exact (recvFailed_keepsRxq hat h).1.rxq_nil hempty
  · exact recvProvided_empties hat hempty h
  · exact recvHold_empties hat hempty h

/-! ## Between completions -/

/-- Of the other connections nothing changes. -/
theorem NoBacklog.conn (h : w.NoBacklog) (hp : Prims L c fd w w') (hempty : (w'.heap c).rxq = []) : w'.NoBacklog :=
    fun q => by
  by_cases hq : q = c
  · rw [hq]
    exact hempty
  · rw [hp.frame.heap q hq]
    exact h q

theorem NoBacklog.prims (h : w.NoBacklog) (hp : Prims Effect.KeepsRxq c fd w w') : w'.NoBacklog :=
  h.conn hp (hp.rxq_nil (h c))

theorem NoBacklog.addConn (h : w.NoBacklog) (cfd : Fd) : (w.addConn cfd).2.NoBacklog := fun q => by
  by_cases hq : q = w.nextPtr
  · rw [hq, addConn_obj]
  · rw [addConn_heap_ne w cfd hq]
    exact h q

theorem NoBacklog.handleConn {kind : Workflow} (h0 : w.NoBacklog) (hat : w.At c fd)
    (h : w.handleConn c fd kind cqe = some w') : w'.NoBacklog := by
  by_cases hk : kind = .recv
  · subst hk
    exact h0.conn (handleConn_prims hat h) (handleRecv_empties hat (h0 c) h)
  · exact h0.prims ((handleConn_quietRx hat (fun hrecv => absurd hrecv hk) h).mono Effect.QuietRx.keepsRxq)

theorem NoBacklog.handle {kind : Workflow} (h0 : w.NoBacklog) (hok : w.Ok) (h : w.handle fd kind cqe = some w') :
    w'.NoBacklog := by
  obtain ⟨c, hc, h⟩ | rfl | ⟨-, h⟩ | ⟨-, rfl⟩ := handle_cases h
  · exact h0.handleConn (hok.at hc) h
  · exact h0
  · obtain ⟨-, h⟩ | ⟨-, b, w₁, hrecv, h⟩ := handleAccept_cases h
    · exact h0.prims ((h 0 0).mono Effect.Listens.keepsRxq)
    · have hobj : ((w.addConn cqe.res).2.heap w.nextPtr).fd = cqe.res := by simp
      have hfirst := (h0.addConn cqe.res).prims ((startRecv_prims hobj hrecv).mono Effect.Recvs.keepsRxq)
      exact hfirst.prims ((h 0 0).mono Effect.Listens.keepsRxq)
  · exact h0

/-! ## What is received is parsed -/

theorem recvHold_got (hat : w.At c fd) (hd : w.Drained c) (h : w.recvHold c cqe = some w') :
    w'.got c = w.got c ++ ((w.heap c).rxHold.map fun hold => (w.holds hold).take cqe.res.toInt.toNat).getD [] := by
  cases hhold : (w.heap c).rxHold with
  | none =>
    simp only [recvHold, hhold] at h
    cases h
    exact (List.append_nil _).symm
  | some hold => exact (recvHold_receives hat hd hhold h).got

/-- A completion of the receive brings what the branch finds in its buffer, if there is one. -/
theorem handleRecv_got (hat : w.At c fd) (hd : w.Drained c) (h : w.handleRecv c fd cqe = some w') :
    w'.got c = w.got c ++ if 0 < cqe.res then (w.taken c cqe).getD [] else [] := by
  obtain ⟨hres, h⟩ | ⟨hpos, bid, hmode, hbuf, h⟩ | ⟨hpos, hbuf, h⟩ := handleRecv_cases h
  · rw [if_neg (Int32.not_lt.mpr hres)]
    exact (recvFailed_receives hat hd h).got
  · rw [if_pos hpos, taken, if_pos hmode, hbuf]
    exact (recvProvided_receives hat hd h).1.got
  · rw [if_pos hpos, taken_hold hbuf]
    exact recvHold_got hat hd h

/-- Where nothing was waiting, a completion of the receive has what it brings parsed. -/
theorem handleRecv_feeds (hat : w.At c fd) (hempty : (w.heap c).rxq = []) (h : w.handleRecv c fd cqe = some w') :
    fed c w'.trace = fed c w.trace ++ if 0 < cqe.res then (w.taken c cqe).getD [] else [] := by
  have hempty' := handleRecv_empties hat hempty h
  simpa [got, hempty, hempty'] using handleRecv_got hat (.inr hempty) h

end Worker

namespace Sys

open Worker

variable {d : Dispatch} {ok : Sys → Action → Prop} {s : Sys}

/-- Between completions no segment is left in a queue. -/
theorem noBacklog (h : Reachable d ok s) : s.w.NoBacklog := by
  refine Reach.invariant_of (K := fun s => s.w.Ok) (I := fun s => s.w.NoBacklog) (fun _ => table_ok) (fun s h c => ?_)
    (fun s a s' hok h0 _ h => ?_) s h
  · obtain ⟨_, _, _, _, _, h, -, -⟩ := h
    rw [(startUp_new h).2.1]
  · cases (step_cases h).2 with
    | executeClose | endBatch => exact h0
    | complete hp hadm hw =>
      rename_i i cqe data env p w' _
      have h0' : (s.arrive p cqe data env).NoBacklog := fun c => by
        rw [arrive_heap]
        exact h0 c
      unfold handled at hw
      split at hw
      · exact h0'.handle (hok.move (arrive_move ..)) hw
      · cases hw
        exact h0'

/-- What a completion brings that is handled as a receive is parsed before the next one. -/
theorem recv_feeds {s' : Sys} {i : Nat} {cqe : Cqe} {data : Bytes} {env : Env} {p : Pending} {fd : Fd} {c : Ptr}
    (hr : Reachable d ok s) (h : step d s (.complete i cqe data env) = some s') (hp : s.pending[i]? = some p)
    (hread : d.read p = some (fd, .recv)) (hc : s.w.table fd = some c) :
    fed c s'.w.trace =
      fed c s.w.trace ++ if 0 < cqe.res then ((s.arrive p cqe data env).taken c cqe).getD [] else [] := by
  cases (step_cases h).2 with
  | @complete _ _ _ _ q w' hq hadm hw =>
    obtain rfl : p = q := Option.some.inj (hp.symm.trans hq)
    have hc' : (s.arrive p cqe data env).table fd = some c := by rw [arrive_table, hc]
    simp only [handled, hread, handle, hc'] at hw
    have hat : (s.arrive p cqe data env).At c fd := ((table_ok hr).move (arrive_move ..)).at hc'
    have hempty : ((s.arrive p cqe data env).heap c).rxq = [] := by rw [arrive_heap, noBacklog hr]
    rw [← arrive_trace s p cqe data env]
    exact handleRecv_feeds hat hempty hw

/-- The bounds of `parse_step` strand nothing: a queue that fits into one pass is read whole and in order, at whatever
times the clock of `w.env` is read, unless there is an error; and between completions no queue holds anything, as what
is received is parsed by the completion that brings it. -/
theorem budget_strands_nothing :
    (∀ (w w' : Worker) (c : Ptr), (w.heap c).rxq.length ≤ PROC_MAX_SEGMENTS → w.parseStep c = some w' →
      w'.terminated = false → (w.heap c).rxq = [] ∨ (w'.heap c).parser.state ≠ .errorState →
      Consumes c (w.heap c).rxq w w' ∧ (w'.heap c).rxq = []) ∧
    ∀ (d : Dispatch) (s : Sys), Reachable d (fun _ _ => True) s →
      (∀ c, (s.w.heap c).rxq = []) ∧
      ∀ (i : Nat) (cqe : Cqe) (data : Bytes) (env : Env) (s' : Sys) (p : Pending) (fd : Fd) (c : Ptr),
        step d s (.complete i cqe data env) = some s' → s.pending[i]? = some p → d.read p = some (fd, .recv) →
        s.w.table fd = some c →
        fed c s'.w.trace =
          fed c s.w.trace ++ if 0 < cqe.res then ((s.arrive p cqe data env).taken c cqe).getD [] else [] :=
  ⟨fun _ _ _ hlen h hterm herr => parseStep_consumes_all hlen h hterm herr,
    fun _ _ hr => ⟨noBacklog hr, fun _ _ _ _ _ _ _ _ h hp hread hc => recv_feeds hr h hp hread hc⟩⟩

/-- A request in two segments, with a clock that has always run out. -/
def halves : Worker :=
  (({ listenFd := 3, cfg := {}, routes := [],
      env := { sqes := [true, true, true], clock := fun k => k * PROC_TIME_BUDGET } } : Worker).addConn 5).2.modify 0
    fun o => { o with rxq := [⟨ascii "GET / HTT", false⟩, ⟨ascii "P/1.1" ++ [CR, LF, CR, LF], false⟩] }

theorem budget_strands_nothing_halves :
    (∃ w', halves.parseStep 0 = some w' ∧ Consumes 0 (halves.heap 0).rxq halves w' ∧ (w'.heap 0).rxq = []) ∧
    ∃ s s', serve .tagged (fun _ _ => True) (request.take 1) = some s ∧ (∀ c, (s.w.heap c).rxq = []) ∧
      step .tagged s (.complete 1 { res := 3 } (ascii "GET") { sqes := [true] }) = some s' ∧
      fed 0 s'.w.trace = fed 0 s.w.trace ++ ascii "GET" := by
  obtain ⟨w', hw, hobs⟩ := Option.map_eq_some_iff.mp (show
    (halves.parseStep 0).map (fun w => (w.terminated, (w.heap 0).parser.state)) = some (false, .body) by
      decide +kernel)
  simp only [Prod.mk.injEq] at hobs
  obtain ⟨s, hs, hobs'⟩ := Option.map_eq_some_iff.mp (show
    (serve .tagged (fun _ _ => True) (request.take 1)).map (fun s => (s.w.table 5,
      s.pending[1]?.map fun p => decide (Dispatch.tagged.read p = some (5, .recv) ∧
        (s.arrive p { res := 3 } (ascii "GET") { sqes := [true] }).taken 0 { res := 3 } = some (ascii "GET")),
      (step .tagged s (.complete 1 { res := 3 } (ascii "GET") { sqes := [true] })).isSome)) =
    some (some 0, some true, true) by decide +kernel)
  simp only [Prod.mk.injEq] at hobs'
  obtain ⟨htable, hpend, hstep⟩ := hobs'
  obtain ⟨p, hp, hrecv⟩ := Option.map_eq_some_iff.mp hpend
  obtain ⟨hread, htaken⟩ := of_decide_eq_true hrecv
  obtain ⟨s', hs'⟩ := Option.isSome_iff_exists.mp hstep
  obtain ⟨hempty, hfeeds⟩ := budget_strands_nothing.2 .tagged s (run_reachable hs)
  refine ⟨⟨w', hw, budget_strands_nothing.1 halves w' 0 (by decide) hw hobs.1 (.inr (by rw [hobs.2]; decide))⟩,
    s, s', hs, hempty, hs', ?_⟩
  rw [hfeeds 1 _ _ _ s' p 5 0 hs' hp hread htable, if_pos (by decide), htaken, Option.getD_some]

end Sys

end IOContext
