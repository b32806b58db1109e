import IOContext.Http.Fields
import IOContext.Strides

/-!
# The handler of a request

`find_handler` runs some time after it was posted, on a parser that has been fed further. But it is posted only once the
request line has been read up to the end of the path (`lineRead_feed`), and from then on the path stays
(`requestPath_read`).

So in every run in which a lookup is carried out only for the connection that has asked for it, the handler of a
connection is none or the one for the path of its request, and no lookup reads a part of a path (`lookups_complete`).
-/

namespace IOContext

/-- The bytes begin with a method and the path, up to the blank after it. -/
def RequestPath (s path : Bytes) : Prop :=
  ∃ method rest, (∀ b ∈ method, b ≠ SP ∧ b ≠ CR ∧ b ≠ LF) ∧ (∀ b ∈ path, b ≠ SP ∧ b ≠ CR ∧ b ≠ LF) ∧
    s = method ++ [SP] ++ (path ++ [SP]) ++ rest

theorem RequestPath.append {s path : Bytes} (h : RequestPath s path) (q : Bytes) : RequestPath (s ++ q) path := by
  obtain ⟨method, rest, hmethod, hpath, rfl⟩ := h
  exact ⟨method, rest ++ q, hmethod, hpath, List.append_assoc ..⟩

namespace ProcessingMachine

variable {m : ProcessingMachine} {s path : Bytes}

/-! ## Reading the path -/

/-- Whatever follows it, the path is read. -/
theorem requestPath_read (h : RequestPath s path) : (({} : ProcessingMachine).onSegment s).req.path = path := by
  obtain ⟨method, rest, hmethod, hpath, rfl⟩ := h
  have hstart : ({} : ProcessingMachine).start = { state := .method } := rfl
  rw [onSegment, hstart, feed_append, feed_methodPath rfl rfl hmethod hpath]
  exact ((feed_stable _ rest).path ⟨by simp, by simp, by simp⟩).2

/-- What the bytes read so far are to the parser. -/
def LineRead (s : Bytes) (m : ProcessingMachine) : Prop :=
  match m.state with
  | .notStarted => False
  | .method => s = m.tmpBuf0 ∧ ∀ b ∈ s, b ≠ SP ∧ b ≠ CR ∧ b ≠ LF
  | .path => ∃ method, (∀ b ∈ method, b ≠ SP ∧ b ≠ CR ∧ b ≠ LF) ∧ (∀ b ∈ m.tmpBuf0, b ≠ SP ∧ b ≠ CR ∧ b ≠ LF) ∧
    s = method ++ [SP] ++ m.tmpBuf0
  | .errorState => True
  | _ => RequestPath s m.req.path

theorem LineRead.of_pastPath (h : m.PastPath) (hread : m.state ≠ .errorState → RequestPath s m.req.path) :
    LineRead s m := by
  obtain ⟨h0, h1, h2⟩ := h
  unfold LineRead
  split
  · rename_i heq
    exact h0 heq
  · rename_i heq
    exact absurd heq h1
  · rename_i heq
    exact absurd heq h2
  · trivial
  · rename_i herr
    exact hread herr

theorem LineRead.requestPath (h : LineRead s m) (hpast : m.PastPath) (herr : m.state ≠ .errorState) :
    RequestPath s m.req.path := by
  obtain ⟨h0, h1, h2⟩ := hpast
  unfold LineRead at h
  split at h
  · exact h.elim
  · rename_i heq
    exact absurd heq h1
  · rename_i heq
    exact absurd heq h2
  · rename_i heq
    exact absurd heq herr
  · exact h

theorem free_append {t : Bytes} {c : UInt8} (ht : ∀ b ∈ t, b ≠ SP ∧ b ≠ CR ∧ b ≠ LF) (hsp : c ≠ SP)
    (hend : ¬(c = CR ∨ c = LF)) : ∀ b ∈ t ++ [c], b ≠ SP ∧ b ≠ CR ∧ b ≠ LF := fun b hb => by
  rcases List.mem_append.mp hb with hb | hb
  · exact ht b hb
  · rw [List.mem_singleton.mp hb]
    exact ⟨hsp, fun h => hend (.inl h), fun h => hend (.inr h)⟩

/-- One byte. -/
theorem LineRead.step (h : LineRead s m) (herr : m.state ≠ .errorState) (c : UInt8) :
    LineRead (s ++ [c]) (m.step c) := by
  by_cases hpast : m.PastPath
  · obtain ⟨hpast', hpath⟩ := (step_stable m c).path hpast
    exact .of_pastPath hpast' fun _ => hpath ▸ (h.requestPath hpast herr).append [c]
  · cases hm : m.state with
    | method =>
      simp only [LineRead, hm] at h
      obtain ⟨rfl, hfree⟩ := h
      simp only [ProcessingMachine.step, hm]
      split
      · rename_i hsp
        exact ⟨m.tmpBuf0, hfree, fun _ hb => absurd hb List.not_mem_nil, by simp [hsp]⟩
      · rename_i hsp
        split
        · trivial
        · rename_i hend
          simp only [LineRead]
          exact ⟨trivial, free_append hfree hsp hend⟩
    | path =>
      simp only [LineRead, hm] at h
      obtain ⟨method, hmethod, hfree, rfl⟩ := h
      simp only [ProcessingMachine.step, hm]
      split
      · rename_i hsp
        exact ⟨method, [], hmethod, hfree, by simp [hsp]⟩
      · rename_i hsp
        split
        · trivial
        · rename_i hend
          simp only [LineRead]
          exact ⟨method, hmethod, free_append hfree hsp hend, by simp⟩
    | notStarted =>
      simp only [LineRead, hm] at h
    | _ => exact absurd ⟨by simp [hm], by simp [hm], by simp [hm]⟩ hpast

theorem LineRead.feed (h : LineRead s m) (p : Bytes) :
    LineRead (s ++ p) (m.feed p) ∨ (m.feed p).state = .errorState := by
  induction p generalizing s m with
  | nil =>
    rw [List.append_nil]
    exact .inl h
  | cons c p ih =>
    by_cases he : m.state = .errorState
    · rw [feed_error he]
      exact .inr he
    · rw [feed_cons he, List.append_cons]
      exact ih (h.step he c)

/-- A lookup is posted only once the path has been read. -/
theorem requestPath_of_posts (h : (({} : ProcessingMachine).onSegment s).Posts .findHandler) :
    RequestPath s (({} : ProcessingMachine).onSegment s).req.path := by
  obtain ⟨herr, hcode⟩ := h
  unfold onSegment at herr hcode ⊢
  have hread : LineRead [] ({} : ProcessingMachine).start := ⟨rfl, fun _ hb => absurd hb List.not_mem_nil⟩
  have hline := (hread.feed s).resolve_right herr
  refine hline.requestPath ⟨?_, ?_, ?_⟩ herr
  · exact feed_ne_notStarted (start_ne_notStarted _) s
  · intro hmethod
    rw [hmethod] at hcode
    exact absurd hcode (by decide)
  · intro hpath
    rw [hpath] at hcode
    exact absurd hcode (by decide)

end ProcessingMachine

/-- Where the completion is handled as a lookup for a connection, it is that of a lookup that the connection has
posted. -/
def Pending.OwnLookup (d : Dispatch) (p : Pending) (w : Worker) : Prop :=
  match d.read p with
  | some (fd, .findHandler) => ∀ c ∈ w.table fd, p.sqe.op = .msgRing fd .findHandler ∧ p.sqe.owner = some c
  | _ => True

instance (d : Dispatch) (p : Pending) (w : Worker) : Decidable (p.OwnLookup d w) := by
  unfold Pending.OwnLookup
  split <;> infer_instance

namespace Worker

variable {w w' : Worker} {c : Ptr}

/-- The handler of the connection is none, or the one for the path of its request. -/
def Matched (w : Worker) (c : Ptr) : Prop :=
  (w.heap c).requestHandler = none ∨
    ∃ path, RequestPath (fed c w.trace) path ∧ (w.heap c).requestHandler = w.routes.lookup path

theorem Matched.grow {evs : List Event} (h : w.Matched c) (htrace : w'.trace = w.trace ++ evs)
    (hroutes : w'.routes = w.routes) (hhandler : (w'.heap c).requestHandler = (w.heap c).requestHandler ∨
      (w'.heap c).requestHandler = none) : w'.Matched c := by
  rcases hhandler with heq | hnone
  · rcases h with hnone | ⟨path, hpath, hlookup⟩
    · exact .inl (heq.trans hnone)
    · refine .inr ⟨path, ?_, by rw [heq, hlookup, hroutes]⟩
      rw [htrace, fed_append]
      exact hpath.append _
  · exact .inl hnone

/-- A lookup that was posted for a connection reads a complete path. -/
theorem Justified.requestPath (hj : Justified w.trace c .findHandler) (hp : w.Parsed) :
    RequestPath (fed c w.trace) (w.heap c).parser.req.path := by
  obtain ⟨p, q, hfed, hposts⟩ := hj
  have hpath := (ProcessingMachine.requestPath_of_posts hposts).append q
  rw [← hfed] at hpath
  have hread : (w.heap c).parser.req.path = (parserOf c w.trace).req.path := by
    rw [← hp.parser c]
    rfl
  rcases parserOf_eq c w.trace with ⟨-, hnil⟩ | hparser
  · obtain ⟨method, rest, -, -, hbytes⟩ := hpath
    have hlen := congrArg List.length (hnil.symm.trans hbytes)
    simp at hlen
  · rw [hread, hparser, ProcessingMachine.requestPath_read hpath]
    exact hpath

/-- A lookup that reads a complete path finds the handler for it. -/
theorem findHandler_matched (h : w.Matched c) (hpath : RequestPath (fed c w.trace) (w.heap c).parser.req.path) :
    (w.modify c fun o => o.findHandler w.routes).Matched c := by
  unfold Matched
  rw [heap_modify]
  unfold PerClientStorage.findHandler
  split
  · rename_i hd hlookup
    exact .inr ⟨_, hpath, hlookup.symm⟩
  · exact h

end Worker

namespace Sys

open Worker

variable {d : Dispatch} {s s' t : Sys} {a : Action} {ts : List (Transition Sys Action)}

/-- A lookup is carried out only for the connection that has posted it. -/
def OwnLookups (d : Dispatch) (s : Sys) : Action → Prop
  | .complete i _ _ _ => ∀ p ∈ s.pending[i]?, p.OwnLookup d s.w
  | _ => True

instance (s : Sys) : DecidablePred (OwnLookups d s)
  | .complete i _ _ _ => inferInstanceAs (Decidable (∀ p ∈ s.pending[i]?, p.OwnLookup d s.w))
  | .executeClose _ | .endBatch => isTrue trivial

/-- The lookup that a completion stands for reads the complete path of the request. -/
def CompletePath (d : Dispatch) (s : Sys) : Action → Prop
  | .complete i _ _ _ => ∀ p ∈ s.pending[i]?, ∀ fd c, d.read p = some (fd, .findHandler) → s.w.table fd = some c →
    RequestPath (fed c s.w.trace) (s.w.heap c).parser.req.path
  | _ => True

theorem completePath_of_own {ok : Sys → Action → Prop} (hr : Reachable d ok s) (hown : OwnLookups d s a) :
    CompletePath d s a := by
  cases a with
  | complete i cqe data env =>
    intro p hp fd c hread hc
    have howner := hown p hp
    unfold Pending.OwnLookup at howner
    simp only [hread] at howner
    obtain ⟨hop, howner⟩ := howner c hc
    obtain ⟨c', hc', hj⟩ := tasks_justified hr p.sqe (pending_mem hr p (List.mem_of_getElem? hp)) fd .findHandler hop
      (by decide)
    cases howner.symm.trans hc'
    exact hj.requestPath (parsed hr)
  | executeClose i | endBatch => trivial

theorem step_matched (hr : Reachable d (OwnLookups d) s) (hown : OwnLookups d s a) (h : step d s a = some s')
    (hall : ∀ c, s.w.Matched c) (c : Ptr) : s'.w.Matched c := by
  have hok := table_ok hr
  have hcase := (step_cases h).2
  have hmoves := hcase.moves hok
  obtain ⟨evs, htrace⟩ := hmoves.trace
  by_cases hfinds : ∃ i cqe data env p fd, a = .complete i cqe data env ∧ s.pending[i]? = some p ∧
      d.read p = some (fd, .findHandler)
  · obtain ⟨i, cqe, data, env, p, fd, rfl, hp, hread⟩ := hfinds
    have hpath := completePath_of_own hr hown p hp fd
    cases hcase with
    | @complete _ _ _ _ p' w' hp' _ hw =>
      cases hp.symm.trans hp'
      unfold handled at hw
      simp only [hread] at hw
      have harr : (s.arrive p cqe data env).Matched c := by
        have harrive : (s.arrive p cqe data env).trace = s.w.trace ++ [] := by rw [arrive_trace, List.append_nil]
        refine (hall c).grow harrive ?_ (.inl ?_)
        · exact (arrive_move s p cqe data env).routes
        · rw [arrive_heap]
      obtain ⟨q, hq, hw⟩ | rfl | ⟨hkind, -⟩ | ⟨hkind, -⟩ := handle_cases hw
      · cases hw
        rw [arrive_table] at hq
        by_cases hqc : q = c
        · subst hqc
          refine findHandler_matched harr ?_
          rw [arrive_trace, arrive_heap]
          exact hpath q hread hq
        · have hsame :
              ((s.arrive p cqe data env).modify q fun o => o.findHandler (s.arrive p cqe data env).routes).trace =
              (s.arrive p cqe data env).trace ++ [] := (List.append_nil _).symm
          refine harr.grow hsame rfl (.inl ?_)
          show (((s.arrive p cqe data env).modify q fun o => o.findHandler (s.arrive p cqe data env).routes).heap
            c).requestHandler = _
          rw [heap_modify_ne _ (Ne.symm hqc)]
      · exact harr
      · cases hkind
      · cases hkind
  · exact (hall c).grow htrace hmoves.routes ((hcase.strides hok (parsed hr)).handler hfinds c)

/-- In every run in which lookups are carried out only for the connection that has posted them, the handler of a
connection is none or the one that the routes have for the complete path of its request, and every lookup reads that
path. -/
theorem lookups_complete (h0 : Init s) (hrun : Run (step d) s ts t) (hown : ∀ e ∈ ts, OwnLookups d e.before e.action) :
    (∀ c, t.w.Matched c) ∧ ∀ e ∈ ts, CompletePath d e.before e.action := by
  have hr : Reachable d (OwnLookups d) t := Run.reach (.start h0) hrun hown
  refine ⟨?_, Run.forall_step (Q := fun s a _ => CompletePath d s a)
    (fun s a s' hr hown _ => completePath_of_own hr hown) (.start h0) hrun hown⟩
  have hinit : ∀ s, Init s → ∀ c, s.w.Matched c := fun s h c => by
    obtain ⟨listenFd, cfg, routes, allocated, env, h, -, -⟩ := h
    refine .inl ?_
    have hplain : Plain False _ s.w := startUp_plain h
    rcases hplain.handler id c with heq | hnone
    · exact heq
    · exact hnone
  have hall : ∀ s, Reachable d (OwnLookups d) s → ∀ c, s.w.Matched c := by
    intro s hr
    induction hr with
    | start h => exact hinit _ h
    | next hr hown hstep ih => exact fun c => step_matched hr hown hstep ih c
  exact hall t hr

/-- A request arrives in two parts, with a lookup posted for each; both are carried out. -/
def lookedUpTwice : List Action :=
  [.complete 0 { res := 5, more := true } [] { sqes := [true] },
    .complete 1 { res := 9 } (ascii "GET / HTT") { sqes := [true, true] },
    .complete 3 { res := 9 } (ascii "P/1.1" ++ [CR, LF, CR, LF]) { sqes := [true, true, true] },
    .complete 1 { res := 0 } [] {},
    .complete 2 { res := 0 } [] {}]

theorem lookups_complete_twice : ∃ s t ts, withoutPool [(ascii "/", fun _ res => res)] = some s ∧
    Run (step .tagged) s ts t ∧ ts.length = 5 ∧ (t.w.heap 0).requestHandler.isSome = true ∧ (∀ c, t.w.Matched c) ∧
    ∀ e ∈ ts, CompletePath .tagged e.before e.action := by
  obtain ⟨t, ht, hobs⟩ := Option.map_eq_some_iff.mp (show (serve .tagged (OwnLookups .tagged) lookedUpTwice).map
    (fun t =>
    (t.w.heap 0).requestHandler.isSome) = some true by decide +kernel)
  obtain ⟨s, hs, ht⟩ := Option.bind_eq_some_iff.mp ht
  obtain ⟨ts, hrun, hactions, hown⟩ := Run.exec ht
  obtain ⟨hmatched, hcomplete⟩ := lookups_complete (start_init hs) hrun hown
  exact ⟨s, t, ts, hs, hrun, by simpa [lookedUpTwice] using congrArg List.length hactions, hobs, hmatched, hcomplete⟩

end Sys

end IOContext
