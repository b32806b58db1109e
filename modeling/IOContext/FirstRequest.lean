import IOContext.Http.Framing
import IOContext.Isolation
import IOContext.Worker.Receives

/-!
# The first request of a connection

- A segment posts the tasks of the parser that has read it (`handleRecv_reads`): the handler is looked up, and the
  response generated once the request is complete. The other completions of the connection post only flushes
  (`handle_bystander`), and a response calls the handler (`generateResponse_calls`).
- A connection that receives one framed request and nothing else is asked for one response (`first_request_once`).
-/

namespace IOContext

/-- The tasks that are posted after a segment. -/
def ProcessingMachine.tasks (m : ProcessingMachine) : List Workflow :=
  (if ProcessingState.path.code < m.state.code then [.findHandler] else []) ++
    if m.Complete then [.generateResponse] else []

namespace Worker

/-- On the way from `w` to `w'` the connection is posted the tasks `ks`, and called no handler for; its parser, its
segments and its handler are as they were. -/
structure Minds (c : Ptr) (ks : List Workflow) (w w' : Worker) : Prop where
  parser : (w'.heap c).parser = (w.heap c).parser
  rxq : (w'.heap c).rxq = (w.heap c).rxq
  handler : (w'.heap c).requestHandler = (w.heap c).requestHandler
  trace : ∃ evs, w'.trace = w.trace ++ evs ∧ tasksOf c evs = ks ∧ callsOf c evs = []

/-- Only flushes are posted. -/
def Flushes (ks : List Workflow) : Prop := ∀ k ∈ ks, k = .requestFlush

/-- `get_sqe_or_submit` returns a slot. -/
def Slots (w : Worker) : Prop := ∀ b ∈ w.env.sqes, b = true

variable {L : Effect → Prop} {c q : Ptr} {fd : Fd} {ks ks' : List Workflow} {w w' w'' : Worker} {cqe : Cqe}

theorem Minds.refl (c : Ptr) (w : Worker) : Minds c [] w w :=
  ⟨rfl, rfl, rfl, [], (List.append_nil _).symm, rfl, rfl⟩

theorem Minds.trans (h : Minds c ks w w') (h' : Minds c ks' w' w'') : Minds c (ks ++ ks') w w'' := by
  obtain ⟨evs, htrace, htasks, hcalls⟩ := h.trace
  obtain ⟨evs', htrace', htasks', hcalls'⟩ := h'.trace
  refine ⟨h'.parser.trans h.parser, h'.rxq.trans h.rxq, h'.handler.trans h.handler, evs ++ evs', ?_, ?_, ?_⟩
  · rw [htrace', htrace, List.append_assoc]
  · rw [tasksOf_append, htasks, htasks']
  · rw [callsOf_append, hcalls, hcalls']
    rfl

/-- Two workers that differ in what no connection is about. -/
theorem Minds.of_eq (hheap : w'.heap c = w.heap c) (htrace : w'.trace = w.trace) : Minds c [] w w' :=
  ⟨by rw [hheap], by rw [hheap], by rw [hheap], [], by rw [htrace, List.append_nil], rfl, rfl⟩

/-- What is not done for the connection posts no task for it. -/
theorem Minds.of_apart {evs : List Event} (hheap : w'.heap c = w.heap c) (htrace : w'.trace = w.trace ++ evs)
    (hev : ∀ ev ∈ evs, ev.Apart c) : Minds c [] w w' :=
  ⟨by rw [hheap], by rw [hheap], by rw [hheap], evs, htrace, tasksOf_apart hev, callsOf_apart hev⟩

theorem Flushes.nil : Flushes [] := fun _ h => absurd h List.not_mem_nil

theorem Flushes.not_mem (h : Flushes ks) : .generateResponse ∉ ks := fun hmem => by cases h _ hmem

theorem Flushes.append (h : Flushes ks) (h' : Flushes ks') : Flushes (ks ++ ks') :=
  fun k hk => (List.mem_append.mp hk).elim (h k) (h' k)

/-- What is done for the connection besides parsing and responding posts no task but flushes. -/
theorem Prims.minds (h : Prims Effect.Tends c fd w w') : ∃ ks, Flushes ks ∧ Minds c ks w w' := by
  refine h.lift (R := fun w w' => ∃ ks, Flushes ks ∧ Minds c ks w w') (fun w => ⟨[], .nil, .refl c w⟩) ?_ ?_
  · rintro w w' w'' ⟨ks, hks, h⟩ ⟨ks', hks', h'⟩
    exact ⟨ks ++ ks', hks.append hks', h.trans h'⟩
  · intro w w' h
    cases h with
    | change f hL _ hparser _ =>
      exact ⟨[], .nil, by simpa using hparser, by simpa using hL.1, by simpa using hL.2,
        [], by simp, rfl, rfl⟩
    | segment hL | enqueue hL | invoke hL | acceptMode hL | crash hL => exact hL.elim
    | quiet | alloc | msRecvOff => exact ⟨[], .nil, .of_eq rfl rfl⟩
    | @submit op owner hL hop =>
      obtain ⟨e, hop', hown, -, htrace⟩ := trace_prep w op owner op.tag
      refine ⟨tasksOf c [.sqe e], fun k hk => ?_, rfl, rfl, rfl, _, htrace, rfl, rfl⟩
      obtain ⟨e', he', htask⟩ := List.mem_filterMap.mp hk
      obtain rfl : e' = e := by simpa [sqesOf] using he'
      unfold Sqe.task at htask
      rw [hop'] at htask
      cases op with
      | msgRing fd' kind =>
        dsimp only at htask
        split at htask
        · cases htask
          exact hL
        · cases htask
      | _ => cases htask

/-! ## Parsing -/

/-- A task that is posted with a slot. -/
theorem post_minds {kind : Workflow} (hat : w.At c fd) (hslots : w.Slots) (h : w.post c kind = some w') :
    Minds c [kind] w w' ∧ w'.Slots := by
  unfold post at h
  unfold Slots at hslots
  match hs : w.env.sqes, h with
  | true :: sqes, h =>
    simp only [postTask, hat.obj, hat.table, Option.some.injEq] at h
    subst h
    obtain ⟨e, hop, hown, -, htrace⟩ := trace_prep (w.withSqes sqes) (.msgRing fd kind) (some c) none
    refine ⟨⟨rfl, rfl, rfl, _, htrace, ?_, rfl⟩, fun b hb => hslots b ?_⟩
    · simp [tasksOf, sqesOf, Sqe.task, hop, hown]
    · rw [hs]
      exact List.mem_cons_of_mem _ hb
  | false :: sqes, _ => exact absurd (hslots false (by rw [hs]; exact List.mem_cons_self)) (by decide)

theorem postParsed_minds (hat : w.At c fd) (hslots : w.Slots)
    (hnum : (w.heap c).parser.state = .body → (w.heap c).parser.Numeric) (h : w.postParsed c = some w') :
    Minds c (w.heap c).parser.tasks w w' := by
  obtain ⟨w₁, hfind, h⟩ := Option.bind_eq_some_iff.mp h
  have hfind' : Minds c (if ProcessingState.path.code < (w.heap c).parser.state.code then [.findHandler] else []) w w₁ ∧
      w₁.Slots ∧ w₁.At c fd := by
    have hat₁ := hat.prims (postFindHandler_prims hat hfind)
    unfold postFindHandler at hfind
    split at hfind
    · rename_i hpath
      obtain ⟨hm, hs⟩ := post_minds hat hslots hfind
      rw [if_pos hpath]
      exact ⟨hm, hs, hat₁⟩
    · rename_i hpath
      cases hfind
      rw [if_neg hpath]
      exact ⟨.refl c w, hslots, hat⟩
  obtain ⟨hm, hslots₁, hat₁⟩ := hfind'
  have hgen : Minds c (if (w.heap c).parser.Complete then [.generateResponse] else []) w₁ w' := by
    rw [← hm.parser] at hnum ⊢
    unfold postGenerateResponse at h
    dsimp only at h
    split at h
    · rename_i hbody
      split at h
      · rename_i hcl
        split at h
        · rename_i len hread
          split at h
          · rename_i hlen
            rw [if_pos ⟨hbody, fun _ => by rw [hread, hlen]; rfl⟩]
            exact (post_minds hat₁ hslots₁ h).1
          · rename_i hlen
            cases h
            rw [if_neg]
            · exact .refl c _
            · rintro ⟨-, hc⟩
              have hc := hc hcl
              rw [hread] at hc
              exact hlen (Option.some.inj hc).symm
        · rename_i hread
          exact absurd hread (hnum hbody hcl)
      · rename_i hcl
        rw [if_pos ⟨hbody, fun h => absurd h hcl⟩]
        exact (post_minds hat₁ hslots₁ h).1
    · rename_i hbody
      cases h
      rw [if_neg fun hc => hbody hc.1]
      exact .refl c _
  exact hm.trans hgen

/-- On the way from `w` to `w'` the connection's parser reads `seg`, and the connection is posted the tasks `ks`. -/
structure ReadsSegment (c : Ptr) (seg : Bytes) (ks : List Workflow) (w w' : Worker) : Prop where
  parser : (w'.heap c).parser = (w.heap c).parser.onSegment seg
  rxq : (w'.heap c).rxq = []
  handler : (w'.heap c).requestHandler = (w.heap c).requestHandler
  trace : ∃ evs, w'.trace = w.trace ++ evs ∧ tasksOf c evs = ks ∧ callsOf c evs = []

theorem ReadsSegment.tail {seg : Bytes} (h : ReadsSegment c seg ks w w') (h' : Minds c ks' w' w'') :
    ReadsSegment c seg (ks ++ ks') w w'' := by
  obtain ⟨evs, htrace, htasks, hcalls⟩ := h.trace
  obtain ⟨evs', htrace', htasks', hcalls'⟩ := h'.trace
  refine ⟨h'.parser.trans h.parser, h'.rxq.trans h.rxq, h'.handler.trans h.handler, evs ++ evs', ?_, ?_, ?_⟩
  · rw [htrace', htrace, List.append_assoc]
  · rw [tasksOf_append, htasks, htasks']
  · rw [callsOf_append, hcalls, hcalls']
    rfl

/-- The parser of the connection takes the segment for neither an error nor an announcement that is no number. -/
structure Takes (w : Worker) (c : Ptr) (seg : Bytes) : Prop where
  error : ((w.heap c).parser.onSegment seg).state ≠ .errorState
  numeric : ((w.heap c).parser.onSegment seg).state = .body → ((w.heap c).parser.onSegment seg).Numeric

variable {seg : OwnedBuf}

theorem parseSegment_reads {b : Bool} (hat : w.At c fd) (hslots : w.Slots)
    (htakes : w.Takes c seg.wb) (hrxq : (w.heap c).rxq = [seg]) (h : w.parseSegment c = some (b, w')) :
    ReadsSegment c seg.wb ((w.heap c).parser.onSegment seg.wb).tasks w w' := by
  have hat₁ := hat.prims (.single (.segment (L := fun _ => True) trivial hrxq))
  unfold parseSegment at h
  simp only [hrxq, heap_log, heap_modify] at h
  rw [if_neg htakes.error] at h
  obtain ⟨w₁, hpost, h⟩ := Option.bind_eq_some_iff.mp h
  cases h
  have hnum := htakes.numeric
  have hm := postParsed_minds hat₁ hslots (by simpa using hnum) hpost
  refine ⟨?_, ?_, ?_, ?_⟩
  · simpa using hm.parser
  · simpa using hm.rxq
  · simpa using hm.handler
  · obtain ⟨evs, htrace, htasks, hcalls⟩ := hm.trace
    exact ⟨.segment c seg.wb :: evs, by rw [htrace]; simp, by simpa [tasksOf, sqesOf] using htasks,
      by simpa [callsOf] using hcalls⟩

theorem parseStep_reads (hat : w.At c fd) (hslots : w.Slots) (htakes : w.Takes c seg.wb)
    (hrxq : (w.heap c).rxq = [seg]) (h : w.parseStep c = some w') :
    ReadsSegment c seg.wb ((w.heap c).parser.onSegment seg.wb).tasks w w' := by
  rw [parseStep_single hat hrxq] at h
  obtain ⟨⟨b, w₁⟩, hseg, rfl⟩ := Option.map_eq_some_iff.mp h
  exact parseSegment_reads hat hslots htakes hrxq hseg

/-! ## Receiving -/

theorem parseAndKick_reads (hat : w.At c fd) (hslots : w.Slots) (htakes : w.Takes c seg.wb)
    (hrxq : (w.heap c).rxq = [seg]) (h : w.parseAndKick c = some w') :
    ∃ ks, Flushes ks ∧ ReadsSegment c seg.wb (((w.heap c).parser.onSegment seg.wb).tasks ++ ks) w w' := by
  obtain ⟨w₁, hparse, h⟩ := Option.bind_eq_some_iff.mp h
  have hreads := parseStep_reads hat hslots htakes hrxq hparse
  have hat₁ := hat.prims (parseStep_prims hat hparse)
  have hkick : Prims Effect.Tends c fd w₁ w' := by
    split at h
    · cases h
      exact .refl
    · split at h
      · exact (sendkick_prims hat₁ h).mono Sends.tends
      · cases h
        exact .refl
  obtain ⟨ks, hks, hm⟩ := hkick.minds
  exact ⟨ks, hks, hreads.tail hm⟩

/-- The worker `w₁` is `w` with the data in the queue of the connection. -/
structure Queues (c : Ptr) (data : Bytes) (w w₁ : Worker) : Prop where
  parser : (w₁.heap c).parser = (w.heap c).parser
  rxq : (w₁.heap c).rxq = [⟨data, false⟩]
  handler : (w₁.heap c).requestHandler = (w.heap c).requestHandler
  trace : ∃ evs, w₁.trace = w.trace ++ evs ∧ tasksOf c evs = [] ∧ callsOf c evs = []
  slots : w₁.Slots

theorem returnBuffer_queues {bid : Nat} {data : Bytes} (hq : Queues c data w w') (h : w'.returnBuffer bid = some w'') :
    Queues c data w w'' := by
  obtain ⟨⟨b, w₁⟩, hsqe, h⟩ := Option.bind_eq_some_iff.mp h
  obtain ⟨sqes, hsqes, rfl⟩ := getSqeOrSubmit_eq hsqe
  have hslots : (w'.withSqes sqes).Slots := fun b hb => hq.slots b (by rw [hsqes]; exact List.mem_cons_of_mem _ hb)
  cases b with
  | false =>
    cases h
    exact ⟨hq.parser, hq.rxq, hq.handler, hq.trace, hslots⟩
  | true =>
    cases h
    obtain ⟨e, hop, -, -, htrace⟩ := trace_prep (w'.withSqes sqes) (.provideBuffers (bid * BUF_SZ) bid) none
      (some (packUdAux 0 .freeBuffer (UInt32.ofNat bid)))
    obtain ⟨evs, htrace₁, htasks, hcalls⟩ := hq.trace
    refine ⟨hq.parser, hq.rxq, hq.handler, ⟨evs ++ [.sqe e], ?_, ?_, ?_⟩, hslots⟩
    · rw [← List.append_assoc, ← htrace₁]
      exact htrace
    · rw [tasksOf_append, htasks]
      simp [tasksOf, sqesOf, Sqe.task, hop]
    · rw [callsOf_append, hcalls]
      rfl

/-- What is in the queue is read, and the rest of the branch posts no task but flushes. -/
theorem Queues.reads {data : Bytes} (hq : Queues c data w w') (hat : w'.At c fd) (htakes : w.Takes c data)
    (h : w'.parseAndKick c = some w'')
    {w₃ : Worker} (hrest : Prims Effect.Tends c fd w'' w₃) :
    ∃ ks, Flushes ks ∧ ReadsSegment c data (((w.heap c).parser.onSegment data).tasks ++ ks) w w₃ := by
  have htakes' : w'.Takes c data := ⟨by rw [hq.parser]; exact htakes.error, by rw [hq.parser]; exact htakes.numeric⟩
  obtain ⟨ks, hks, hreads⟩ := parseAndKick_reads hat hq.slots (show w'.Takes c (OwnedBuf.mk data false).wb from htakes')
    hq.rxq h
  obtain ⟨ks', hks', hm⟩ := hrest.minds
  have hreads := hreads.tail hm
  obtain ⟨evs, htrace, htasks, hcalls⟩ := hq.trace
  obtain ⟨evs', htrace', htasks', hcalls'⟩ := hreads.trace
  refine ⟨ks ++ ks', hks.append hks', ?_, hreads.rxq, hreads.handler.trans hq.handler, evs ++ evs', ?_, ?_, ?_⟩
  · rw [hreads.parser, hq.parser]
  · rw [htrace', htrace, List.append_assoc]
  · rw [tasksOf_append, htasks, htasks', hq.parser, List.nil_append, List.append_assoc]
  · rw [callsOf_append, hcalls, hcalls']
    rfl

theorem handleRecv_reads {data : Bytes} (hat : w.At c fd) (hslots : w.Slots)
    (htakes : w.Takes c data) (hrxq : (w.heap c).rxq = []) (hres : 0 < cqe.res) (hdata : w.taken c cqe = some data)
    (h : w.handleRecv c fd cqe = some w') :
    ∃ ks, Flushes ks ∧ ReadsSegment c data (((w.heap c).parser.onSegment data).tasks ++ ks) w w' := by
  obtain ⟨hle, -⟩ | ⟨-, bid, hmode, hbuf, h⟩ | ⟨-, hbuf, h⟩ := handleRecv_cases h
  · exact absurd hres (Int32.not_lt.mpr hle)
  · rw [taken, if_pos hmode, hbuf] at hdata
    have hdata := Option.some.inj hdata
    obtain ⟨w₁, hback, h⟩ := Option.bind_eq_some_iff.mp h
    obtain ⟨w₂, hkick, h⟩ := Option.bind_eq_some_iff.mp h
    rw [hdata] at hback
    have hat₁ := (hat.prims (pushSegment_prims data)).prims (returnBuffer_prims hback)
    have hq : Queues c data w (w.pushSegment c data) := by
      refine ⟨?_, ?_, ?_, ⟨[], by simp [pushSegment], rfl, rfl⟩, hslots⟩ <;> simp [pushSegment, hrxq]
    refine (returnBuffer_queues hq hback).reads hat₁ htakes hkick ?_
    split at h
    · cases h
      exact .refl
    · have hat₂ := hat₁.prims (parseAndKick_prims hat₁ hkick)
      have hdisarm : Prims Effect.Tends c fd w₂ (w₂.modify c fun o => { o with msRecvArmed := false }) :=
        .single (.change _ ⟨rfl, rfl⟩ rfl rfl id)
      exact hdisarm.trans ((restartRecv_prims (hat₂.prims hdisarm).obj h).mono Recvs.tends)
  · rw [taken_hold hbuf] at hdata
    obtain ⟨hold, hh, hd⟩ := Option.map_eq_some_iff.mp hdata
    unfold recvHold at h
    rw [hh] at h
    obtain ⟨w₂, hkick, h⟩ := Option.bind_eq_some_iff.mp h
    have hkick : ((w.modify c fun o => { o with rxHold := none }).pushSegment c
      ((w.holds hold).take cqe.res.toInt.toNat)).parseAndKick c = some w₂ := hkick
    rw [hd] at hkick
    have htake : Prims Effect.Works c fd w (w.modify c fun o => { o with rxHold := none }) :=
      .single (.change _ trivial rfl rfl id)
    have hp := htake.trans (pushSegment_prims data)
    have hat₁ := hat.prims hp
    have hq : Queues c data w ((w.modify c fun o => { o with rxHold := none }).pushSegment c data) := by
      refine ⟨?_, ?_, ?_, ⟨[], by simp [pushSegment], rfl, rfl⟩, hslots⟩ <;> simp [pushSegment, hrxq]
    refine hq.reads hat₁ htakes hkick ?_
    split at h
    · cases h
      exact .refl
    · exact (restartRecv_prims (hat₁.prims (parseAndKick_prims hat₁ hkick)).obj h).mono Recvs.tends

/-! ## Responding -/

/-- The handler is called on the request, and no task posted but flushes. -/
structure Calls (c : Ptr) (hd : Handler) (w w' : Worker) : Prop where
  req : (w'.heap c).parser.req = (w.heap c).parser.req
  rxq : (w'.heap c).rxq = (w.heap c).rxq
  trace : ∃ evs, w'.trace = w.trace ++ evs ∧ Flushes (tasksOf c evs) ∧ callsOf c evs = [(hd, (w.heap c).parser.req)]

theorem generateResponse_calls {hd : Handler} (hat : w.At c fd) (hh : (w.heap c).requestHandler = some hd)
    (h : w.generateResponse c = some w') : Calls c hd w w' := by
  obtain ⟨w₁, sqes, -, hat₁, htrace, hreq, hrxq, hflush⟩ := generateResponse_eq hat hh h
  obtain ⟨ks, hks, hm⟩ := ((flushTask_prims hat₁ hflush).mono Sends.tends).minds
  obtain ⟨evs, htrace', htasks, hcalls⟩ := hm.trace
  refine ⟨by rw [hm.parser, hreq], by rw [hm.rxq, hrxq], ?_⟩
  generalize PerClientStorage.responseBufs (hd (w.heap c).parser.req (w.heap c).parser.res) = bufs at htrace
  have hnone : tasksOf c (bufs.map (.enqueue c)) = [] ∧ callsOf c (bufs.map (.enqueue c)) = [] := by
    simp [tasksOf, sqesOf, callsOf, List.filterMap_map]
  refine ⟨.invoke c hd (w.heap c).parser.req (w.heap c).parser.res :: (bufs.map (.enqueue c) ++ evs), ?_, ?_, ?_⟩
  · rw [htrace', htrace, List.append_assoc, List.cons_append]
  · have hflush : tasksOf c (.invoke c hd (w.heap c).parser.req (w.heap c).parser.res ::
        (bufs.map (.enqueue c) ++ evs)) = ks := by
      rw [← List.singleton_append, tasksOf_append, tasksOf_append, hnone.1, htasks]
      rfl
    rw [hflush]
    exact hks
  · rw [← List.singleton_append, callsOf_append, callsOf_append, hnone.2, hcalls]
    simp [callsOf]

/-! ## Completions of others -/

/-- The completion is not handled for the connection, or it neither feeds the parser nor ends the connection. -/
def Bystander (w : Worker) (c : Ptr) (fd : Fd) (kind : Workflow) (cqe : Cqe) : Prop :=
  w.table fd ≠ some c ∨ kind = .send ∨ kind = .pollOut ∨ kind = .recv ∧ cqe.res ≤ 0

instance (w : Worker) (c : Ptr) (fd : Fd) (kind : Workflow) (cqe : Cqe) : Decidable (w.Bystander c fd kind cqe) :=
  inferInstanceAs (Decidable (_ ∨ _ ∨ _ ∨ _ ∧ _))

theorem handleConn_minds {kind : Workflow} (hat : w.At c fd)
    (hkind : kind = .send ∨ kind = .pollOut ∨ kind = .requestFlush ∨
    kind = .recv ∧ cqe.res ≤ 0) (h : w.handleConn c fd kind cqe = some w') : Prims Effect.Tends c fd w w' := by
  have hflag : ∀ f : PerClientStorage → PerClientStorage, (f (w.heap c)).rxq = (w.heap c).rxq →
      (f (w.heap c)).requestHandler = (w.heap c).requestHandler → (f (w.heap c)).fd = (w.heap c).fd →
      (f (w.heap c)).parser = (w.heap c).parser → ((w.heap c).closing = true → (f (w.heap c)).closing = true) →
      (w.modify c f).sendkick c = some w' → Prims Effect.Tends c fd w w' := fun f h1 h2 h3 h4 h5 h => by
    have hp : Prims Effect.Tends c fd w (w.modify c f) := .single (.change f ⟨h1, h2⟩ h3 h4 h5)
    exact hp.trans ((sendkick_prims (hat.prims hp) h).mono Sends.tends)
  obtain rfl | rfl | rfl | ⟨rfl, hres⟩ := hkind
  · exact (handleSend_prims hat h).mono Completes.tends
  · exact hflag _ rfl rfl rfl rfl id h
  · exact hflag _ rfl rfl rfl rfl id h
  · have h : w.handleRecv c fd cqe = some w' := h
    unfold handleRecv at h
    rw [if_pos hres] at h
    exact (recvFailed_prims hat h).mono Fails.tends

theorem handle_bystander {fd' : Fd} {kind : Workflow} (hok : w.Ok) (hat : w.At c fd) (hb : w.Bystander c fd' kind cqe)
    (h : w.handle fd' kind cqe = some w') : (∃ ks, Flushes ks ∧ Minds c ks w w') ∧ w'.table fd = some c := by
  by_cases hc : w.table fd' = some c
  · have hkind := hb.resolve_left fun hne => hne hc
    obtain rfl : fd' = fd := hok.inj hc hat.table
    have hconn : w.handleConn c fd' kind cqe = some w' := by
      obtain rfl | rfl | ⟨rfl, -⟩ := hkind <;> simpa [handle, hc] using h
    have hp := handleConn_minds hat (hkind.imp_right fun h => h.imp_right .inr) hconn
    exact ⟨hp.minds, by rw [hp.frame.table, hc]⟩
  · obtain ⟨hheap, htable⟩ := handle_other hok h hat.table hc
    obtain ⟨evs, htrace, hev⟩ := handle_apart hok h hat.table hc
    exact ⟨⟨[], .nil, .of_apart hheap htrace hev⟩, htable⟩

/-! ## Enough slots -/

/-- At least `n` more calls of `get_sqe_or_submit` return a slot. -/
structure Supply (n : Nat) (w : Worker) : Prop where
  slots : w.Slots
  le : n ≤ w.env.sqes.length

theorem Supply.take {n : Nat} (h : Supply (n + 1) w) :
    ∃ sqes, w.env.sqes = true :: sqes ∧ Supply n (w.withSqes sqes) := by
  cases hs : w.env.sqes with
  | nil =>
    have hle := h.le
    rw [hs] at hle
    cases hle
  | cons b sqes =>
    have hslots := h.slots
    have hle := h.le
    rw [Slots, hs] at hslots
    rw [hs] at hle
    obtain rfl := hslots b List.mem_cons_self
    exact ⟨sqes, rfl, fun b hb => hslots b (List.mem_cons_of_mem _ hb), Nat.le_of_succ_le_succ hle⟩

theorem Supply.mono {n m : Nat} (h : Supply m w) (hle : n ≤ m) : Supply n w := ⟨h.slots, Nat.le_trans hle h.le⟩

theorem Supply.of_env {n : Nat} (h : Supply n w) (henv : w'.env = w.env) : Supply n w' :=
  ⟨by rw [Slots, henv]; exact h.slots, by rw [henv]; exact h.le⟩

theorem post_supply {n : Nat} {kind : Workflow} (h : Supply (n + 1) w) :
    ∃ w', w.post c kind = some w' ∧ Supply n w' := by
  obtain ⟨sqes, hs, hrest⟩ := h.take
  rw [post, hs, postTask]
  exact ⟨_, rfl, hrest.of_env rfl⟩

theorem sendkick_supply {n : Nat} (h : Supply (n + 1) w) : ∃ w', w.sendkick c = some w' ∧ Supply n w' := by
  obtain ⟨sqes, hs, hrest⟩ := h.take
  rw [sendkick, hs, sendkickInline]
  split
  · exact ⟨_, rfl, (h.mono (Nat.le_succ n)).of_env (by rw [withSqes, ← hs])⟩
  · exact ⟨_, rfl, hrest.of_env rfl⟩

theorem postParsed_supply {n : Nat} (h : Supply (n + 2) w) : ∃ w', w.postParsed c = some w' ∧ Supply n w' := by
  have hfind : ∃ w₁, w.postFindHandler c = some w₁ ∧ Supply (n + 1) w₁ := by
    unfold postFindHandler
    split
    · exact post_supply h
    · exact ⟨w, rfl, h.mono (Nat.le_succ _)⟩
  obtain ⟨w₁, hfind, h₁⟩ := hfind
  have hgen : ∃ w', w₁.postGenerateResponse c = some w' ∧ Supply n w' := by
    unfold postGenerateResponse
    dsimp only
    split
    · split
      · split
        · split
          · exact post_supply h₁
          · exact ⟨w₁, rfl, h₁.mono (Nat.le_succ _)⟩
        · exact ⟨_, rfl, (h₁.mono (Nat.le_succ _)).of_env rfl⟩
      · exact post_supply h₁
    · exact ⟨w₁, rfl, h₁.mono (Nat.le_succ _)⟩
  obtain ⟨w', hgen, h'⟩ := hgen
  exact ⟨w', by rw [postParsed, hfind]; exact hgen, h'⟩

/-- A call with enough slots, and what follows it. -/
theorem bind_supply {α : Type} {n : Nat} {x : Option Worker} {f : Worker → Option α} {P : α → Prop}
    (hx : ∃ w₁, x = some w₁ ∧ Supply n w₁) (hf : ∀ w₁, Supply n w₁ → ∃ y, f w₁ = some y ∧ P y) :
    ∃ y, x >>= f = some y ∧ P y := by
  obtain ⟨w₁, rfl, h₁⟩ := hx
  exact hf w₁ h₁

theorem parseSegment_supply {n : Nat} {rest : List OwnedBuf} (hrxq : (w.heap c).rxq = seg :: rest)
    (h : Supply (n + 2) w) :
    ∃ r, w.parseSegment c = some r ∧ Supply n r.2 := by
  unfold parseSegment
  rw [hrxq]
  dsimp only
  split
  · exact bind_supply (post_supply (n := n + 1) (h.of_env rfl)) fun w₁ h₁ => ⟨_, rfl, h₁.mono (Nat.le_succ n)⟩
  · exact bind_supply (postParsed_supply (n := n) (h.of_env rfl)) fun w₁ h₁ => ⟨_, rfl, h₁⟩

theorem parseAndKick_supply {n : Nat} (hat : w.At c fd) (hrxq : (w.heap c).rxq = [seg]) (h : Supply (n + 3) w) :
    ∃ w', w.parseAndKick c = some w' ∧ Supply n w' := by
  have hparse : ∃ w₁, w.parseStep c = some w₁ ∧ Supply (n + 1) w₁ := by
    obtain ⟨r, hseg, h₁⟩ := parseSegment_supply (n := n + 1) hrxq h
    exact ⟨r.2, by rw [parseStep_single hat hrxq, hseg]; rfl, h₁⟩
  refine bind_supply hparse fun w₁ h₁ => ?_
  split
  · exact ⟨w₁, rfl, h₁.mono (Nat.le_succ n)⟩
  · split
    · exact sendkick_supply h₁
    · exact ⟨w₁, rfl, h₁.mono (Nat.le_succ n)⟩

theorem restartRecv_supply (h : Supply 1 w) : ∃ w', w.restartRecv c = some w' := by
  obtain ⟨sqes, hs, -⟩ := h.take
  unfold restartRecv startRecv getSqeOrSubmit
  split
  · exact ⟨w, rfl⟩
  · split
    · split
      · exact ⟨_, rfl⟩
      · rw [hs]
        exact ⟨_, rfl⟩
    · simp only [modify, hs]
      exact ⟨_, rfl⟩

theorem returnBuffer_supply {n bid : Nat} (h : Supply (n + 1) w) :
    ∃ w', w.returnBuffer bid = some w' ∧ Supply n w' := by
  obtain ⟨sqes, hs, hrest⟩ := h.take
  simp only [returnBuffer, getSqeOrSubmit, hs]
  exact ⟨_, rfl, hrest.of_env rfl⟩

/-- With five slots the `Recv` branch comes to its end. -/
theorem handleRecv_supply {data : Bytes} (hat : w.At c fd) (hrxq : (w.heap c).rxq = []) (hres : 0 < cqe.res)
    (hdata : w.taken c cqe = some data) (h : Supply 5 w) : ∃ w', w.handleRecv c fd cqe = some w' := by
  have hrest : ∀ w₁ : Worker, w₁.At c fd → (∃ seg, (w₁.heap c).rxq = [seg]) → Supply 4 w₁ →
      ∀ f : Worker → Option Worker,
      (∀ w₂, Supply 1 w₂ → ∃ w', f w₂ = some w') → ∃ w', w₁.parseAndKick c >>= f = some w' := by
    rintro w₁ hat₁ ⟨seg, hq⟩ h₁ f hf
    obtain ⟨w', hw', -⟩ := bind_supply (P := fun _ => True) (parseAndKick_supply (n := 1) hat₁ hq h₁) fun w₂ h₂ => by
      obtain ⟨w', hw'⟩ := hf w₂ h₂
      exact ⟨w', hw', trivial⟩
    exact ⟨w', hw'⟩
  have hhold : ∀ hold, (w.heap c).rxHold = some hold → ∃ w', w.recvHold c cqe = some w' := fun hold hh => by
    have htake : Prims Effect.Works c fd w (w.modify c fun o => { o with rxHold := none }) :=
      .single (.change _ trivial rfl rfl id)
    have hq : ∀ seg,
        (((w.modify c fun o => { o with rxHold := none }).pushSegment c seg).heap c).rxq = [⟨seg, false⟩] :=
      fun seg => by simp [pushSegment, hrxq]
    unfold recvHold
    rw [hh]
    refine hrest _ (hat.prims (htake.trans (pushSegment_prims _))) ⟨_, hq _⟩
      ((h.mono (Nat.le_succ 4)).of_env rfl) _ fun w₂ h₂ => ?_
    split
    · exact ⟨w₂, rfl⟩
    · exact restartRecv_supply h₂
  rw [handleRecv_eq hres]
  cases hbuf : if w.useMsRecv && w.haveBufPool then cqe.buffer else none with
  | some bid =>
    have hsupply : Supply (4 + 1) (w.pushSegment c ((w.bufPool bid).take cqe.res.toInt.toNat)) := h.of_env rfl
    obtain ⟨w₁, hback, h₁⟩ : ∃ w₁, Worker.returnBuffer _ bid = some w₁ ∧ Supply 4 w₁ := returnBuffer_supply hsupply
    have hprov : Prims Effect.Provides c fd _ w₁ := returnBuffer_prims hback
    have hq : (w₁.heap c).rxq = [⟨(w.bufPool bid).take cqe.res.toInt.toNat, false⟩] := by
      rw [pushSegment_rxq hprov, hrxq, List.nil_append]
    simp only [recvProvided]
    rw [hback]
    refine hrest w₁ ((hat.prims (pushSegment_prims _)).prims hprov) ⟨_, hq⟩ h₁ _ fun w₂ h₂ => ?_
    split
    · exact ⟨w₂, rfl⟩
    · exact restartRecv_supply (h₂.of_env rfl)
  | none =>
    rw [taken_hold hbuf] at hdata
    obtain ⟨hold, hh, -⟩ := Option.map_eq_some_iff.mp hdata
    exact hhold hold hh

theorem generateResponse_supply (h : Supply 1 w) : ∃ w', w.generateResponse c = some w' := by
  unfold generateResponse
  split
  · exact ⟨w, rfl⟩
  · rename_i hd _
    obtain ⟨henv, -, -⟩ := enqueueAll_eq (w.invokeHandler c hd) c
      (PerClientStorage.responseBufs ((w.invokeHandler c hd).heap c).parser.res)
    obtain ⟨w', hpost, -⟩ : ∃ w', Worker.post _ c .requestFlush = some w' ∧ Supply 0 w' := post_supply (h.of_env henv)
    exact ⟨w', hpost⟩

end Worker

/-! ## Exchanges -/

/-- What the kernel has done when a completion is read: the contents of the buffers, the slots, the clock. -/
structure Outside where
  bufPool : Nat → Bytes := fun _ => []
  holds : Nat → Bytes := fun _ => []
  env : Env := {}

/-- The completion that the worker handles next. -/
inductive Turn
  /-- The connection receives `data`. -/
  | segment (data : Bytes) (cqe : Cqe) (k : Outside)
  /-- The oldest task of the connection completes. -/
  | task (k : Outside)
  /-- A completion that is not the connection's, or one of its sends, polls and failed receives. -/
  | other (fd : Fd) (kind : Workflow) (cqe : Cqe) (k : Outside)

/-- The worker, and the tasks of a connection that are posted and have not completed, oldest first. -/
structure Exchange where
  w : Worker
  tasks : List Workflow := []

namespace Turn

def outside : Turn → Outside
  | segment _ _ k | task k | other _ _ _ k => k

/-- The bytes that are received. -/
def data : Turn → List Bytes
  | segment data _ _ => [data]
  | task _ | other _ _ _ _ => []

/-- `get_sqe_or_submit` returns a slot. -/
def Slots (a : Turn) : Prop := ∀ b ∈ a.outside.env.sqes, b = true

instance (a : Turn) : Decidable a.Slots := inferInstanceAs (Decidable (∀ b ∈ a.outside.env.sqes, b = true))

end Turn

namespace Exchange

open Worker

/-- The tasks that have been posted for `c` since. -/
def tasksSince (c : Ptr) (w w' : Worker) : List Workflow := tasksOf c (w'.trace.drop w.trace.length)

/-- The worker when it reads the completion. -/
def arrive (w : Worker) (k : Outside) : Worker := { w with bufPool := k.bufPool, holds := k.holds, env := k.env }

/-- The tasks that are left, and those that have been posted. -/
def next (c : Ptr) (s : Exchange) (tasks : List Workflow) (w' : Worker) : Exchange where
  w := w'
  tasks := tasks ++ tasksSince c s.w w'

/-- One completion is handled. -/
def step (c : Ptr) (fd : Fd) (s : Exchange) (a : Turn) : Option Exchange :=
  if s.w.terminated then none
  else match a with
    | .segment data cqe k =>
      if 0 < cqe.res ∧ (arrive s.w k).taken c cqe = some data then
        ((arrive s.w k).handle fd .recv cqe).map (s.next c s.tasks)
      else none
    | .task k => match s.tasks with
      | kind :: tasks => ((arrive s.w k).handle fd kind { res := 0 }).map (s.next c tasks)
      | [] => none
    | .other fd' kind cqe k =>
      if (arrive s.w k).Bystander c fd' kind cqe then ((arrive s.w k).handle fd' kind cqe).map (s.next c s.tasks)
      else none

variable {c : Ptr} {fd : Fd} {routes : Routes} {s s' t : Exchange} {a : Turn}

/-- The connection is in the table, and what it has received has been read. -/
structure Ready (c : Ptr) (fd : Fd) (routes : Routes) (s : Exchange) : Prop where
  ok : s.w.Ok
  live : s.w.At c fd
  rxq : (s.w.heap c).rxq = []
  routes : s.w.routes = routes
  tasks : ∀ k ∈ s.tasks, k = .findHandler ∨ k = .generateResponse ∨ k = .requestFlush

/-- What a turn does for the connection. -/
inductive Outcome (c : Ptr) (routes : Routes) (s s' : Exchange) : Turn → Prop
  | reads {data : Bytes} {cqe : Cqe} {k : Outside} {ks : List Workflow} (hks : Flushes ks)
      (h : ReadsSegment c data (((s.w.heap c).parser.onSegment data).tasks ++ ks) s.w s'.w)
      (ht : s'.tasks = s.tasks ++ (((s.w.heap c).parser.onSegment data).tasks ++ ks)) :
      Outcome c routes s s' (.segment data cqe k)
  | finds {k : Outside} (ht : s.tasks = .findHandler :: s'.tasks) (hparser : (s'.w.heap c).parser = (s.w.heap c).parser)
      (hrxq : (s'.w.heap c).rxq = (s.w.heap c).rxq)
      (hh : (s'.w.heap c).requestHandler =
        (routes.lookup (s.w.heap c).parser.req.path).or (s.w.heap c).requestHandler)
      (htrace : s'.w.trace = s.w.trace) : Outcome c routes s s' (.task k)
  | responds {k : Outside} {hd : Handler} {ks rest : List Workflow} (hks : Flushes ks)
      (ht : s.tasks = .generateResponse :: rest) (ht' : s'.tasks = rest ++ ks)
      (hh : (s.w.heap c).requestHandler = some hd) (h : Calls c hd s.w s'.w) : Outcome c routes s s' (.task k)
  | quiet {a : Turn} {ks rest : List Workflow} (ha : a.data = []) (hks : Flushes ks) (h : Minds c ks s.w s'.w)
      (ht' : s'.tasks = rest ++ ks) (ht : s.tasks = rest ∨ s.tasks = .requestFlush :: rest ∨
        s.tasks = .generateResponse :: rest ∧ (s.w.heap c).requestHandler = none) : Outcome c routes s s' a

theorem tasksSince_eq {evs : List Event} {w w' : Worker} (h : w'.trace = w.trace ++ evs) :
    tasksSince c w w' = tasksOf c evs := by
  unfold tasksSince
  rw [h, List.drop_left]

theorem next_tasks {w' : Worker} {evs : List Event} {tasks ks : List Workflow} (h : w'.trace = s.w.trace ++ evs)
    (hks : tasksOf c evs = ks) : (s.next c tasks w').tasks = tasks ++ ks := by
  rw [next, tasksSince_eq h, hks]

theorem arrive_minds (w : Worker) (k : Outside) : Minds c [] w (arrive w k) := .of_eq rfl rfl

/-- A task of the connection. -/
theorem task_outcome {k : Outside} {kind : Workflow} {tasks : List Workflow} {w' : Worker} (hr : s.Ready c fd routes)
    (hkind : s.tasks = kind :: tasks) (hw : (arrive s.w k).handle fd kind { res := 0 } = some w') :
    Outcome c routes s (s.next c tasks w') (.task k) ∧ w'.At c fd := by
  have hat : (arrive s.w k).At c fd := ⟨hr.live.table, hr.live.obj⟩
  have htable := hat.table
  obtain rfl | rfl | rfl := hr.tasks kind (by rw [hkind]; exact List.mem_cons_self)
  · simp only [handle, htable, handleConn, Option.some.injEq] at hw
    subst hw
    have hfind : ∀ o : PerClientStorage, o.findHandler s.w.routes =
        { o with requestHandler := (routes.lookup o.parser.req.path).or o.requestHandler } := fun o => by
      unfold PerClientStorage.findHandler
      rw [hr.routes]
      cases routes.lookup o.parser.req.path <;> rfl
    have htrace : ((arrive s.w k).modify c fun o => o.findHandler (arrive s.w k).routes).trace = s.w.trace ++ [] :=
      (List.append_nil _).symm
    refine ⟨.finds ?_ ?_ ?_ ?_ rfl, ?_⟩
    · rw [hkind, show (s.next c tasks _).tasks = tasks ++ [] from next_tasks htrace rfl, List.append_nil]
    · simp [next, hfind, arrive]
    · simp [next, hfind, arrive]
    · simp [next, hfind, arrive]
    · refine hat.prims (.single (.change (L := fun _ => True) _ trivial ?_ ?_ ?_)) <;> simp [hfind, arrive]
  · simp only [handle, htable, handleConn] at hw
    cases hh : (s.w.heap c).requestHandler with
    | none =>
      have hnone : ((arrive s.w k).heap c).requestHandler = none := hh
      simp only [generateResponse, hnone, Option.some.injEq] at hw
      subst hw
      exact ⟨.quiet rfl .nil (arrive_minds s.w k) (next_tasks (List.append_nil _).symm rfl) (.inr (.inr ⟨hkind, hh⟩)),
        hat⟩
    | some hd =>
      have hcalls := generateResponse_calls hat hh hw
      have hcalls : Calls c hd s.w w' := ⟨hcalls.req, hcalls.rxq, hcalls.trace⟩
      obtain ⟨evs, htrace, hks, -⟩ := hcalls.trace
      exact ⟨.responds hks hkind (next_tasks htrace rfl) hh hcalls, hat.prims (generateResponse_prims hat hw)⟩
  · have hconn : (arrive s.w k).handleConn c fd .requestFlush { res := 0 } = some w' := by
      simpa only [handle, htable] using hw
    have hp := handleConn_minds hat (.inr (.inr (.inl rfl))) hconn
    obtain ⟨ks, hks, hm⟩ := hp.minds
    have hm := (arrive_minds s.w k).trans hm
    obtain ⟨evs, htrace, htasks, -⟩ := hm.trace
    exact ⟨.quiet rfl hks hm (next_tasks htrace htasks) (.inr (.inl hkind)), hat.prims hp⟩

/-- One turn. -/
theorem step_outcome (hr : s.Ready c fd routes) (hslots : a.Slots) (htakes : ∀ data ∈ a.data, s.w.Takes c data)
    (h : s.step c fd a = some s') : Outcome c routes s s' a ∧ s'.w.Ok ∧ s'.w.At c fd ∧ s'.w.routes = routes := by
  have hok : ∀ k, (arrive s.w k).Ok := fun _ => hr.ok.move (.outside ..)
  have hat : ∀ k, (arrive s.w k).At c fd := fun _ => ⟨hr.live.table, hr.live.obj⟩
  have hready : ∀ (k : Outside) (fd' : Fd) (kind : Workflow) (cqe : Cqe) (w' : Worker),
      (arrive s.w k).handle fd' kind cqe = some w' → w'.Ok ∧ w'.routes = routes := fun k _ _ _ _ h =>
    ⟨(hok k).moves (handle_moves (hok k) h), (Moves.routes (handle_moves (hok k) h)).trans hr.routes⟩
  unfold step at h
  split at h
  · cases h
  · rename_i hterm
    cases a with
    | segment data cqe k =>
      dsimp only at h
      split at h
      · rename_i hcond
        obtain ⟨w', hw, rfl⟩ := Option.map_eq_some_iff.mp h
        obtain ⟨hok', hroutes'⟩ := hready _ _ _ _ _ hw
        have hconn : (arrive s.w k).handleRecv c fd cqe = some w' := by
          simpa only [handle, (hat k).table, handleConn] using hw
        have ht := htakes data (List.mem_singleton_self data)
        obtain ⟨ks, hks, hreads⟩ := handleRecv_reads (hat k) hslots ⟨ht.error, ht.numeric⟩ hr.rxq hcond.1 hcond.2 hconn
        have hreads : ReadsSegment c data (((s.w.heap c).parser.onSegment data).tasks ++ ks) s.w w' :=
          ⟨hreads.parser, hreads.rxq, hreads.handler, hreads.trace⟩
        obtain ⟨evs, htrace, htasks, -⟩ := hreads.trace
        exact ⟨.reads hks hreads (next_tasks htrace htasks), hok', (hat k).prims (handleRecv_prims (hat k) hconn),
          hroutes'⟩
      · cases h
    | task k =>
      dsimp only at h
      split at h
      · rename_i kind tasks hkind
        obtain ⟨w', hw, rfl⟩ := Option.map_eq_some_iff.mp h
        obtain ⟨hout, hat'⟩ := task_outcome hr hkind hw
        obtain ⟨hok', hroutes'⟩ := hready _ _ _ _ _ hw
        exact ⟨hout, hok', hat', hroutes'⟩
      · cases h
    | other fd' kind cqe k =>
      dsimp only at h
      split at h
      · rename_i hby
        obtain ⟨w', hw, rfl⟩ := Option.map_eq_some_iff.mp h
        obtain ⟨hok', hroutes'⟩ := hready _ _ _ _ _ hw
        obtain ⟨⟨ks, hks, hm⟩, htable⟩ := handle_bystander (hok k) (hat k) hby hw
        have hm := (arrive_minds s.w k).trans hm
        obtain ⟨evs, htrace, htasks, -⟩ := hm.trace
        exact ⟨.quiet rfl hks hm (next_tasks htrace htasks) (.inl rfl), hok', ⟨htable, hok'.obj fd c htable⟩, hroutes'⟩
      · cases h

/-- With slots, what the connection receives can be handled, and its tasks can complete. -/
theorem Ready.possible (hr : s.Ready c fd routes) (hterm : s.w.terminated = false) (k : Outside)
    (hk : Supply 5 (arrive s.w k)) :
    (∀ data cqe, 0 < cqe.res → (arrive s.w k).taken c cqe = some data →
      ∃ s', s.step c fd (.segment data cqe k) = some s') ∧
    (s.tasks ≠ [] → ∃ s', s.step c fd (.task k) = some s') := by
  have hat : (arrive s.w k).At c fd := ⟨hr.live.table, hr.live.obj⟩
  constructor
  · intro data cqe hres hdata
    obtain ⟨w', hw⟩ := handleRecv_supply hat hr.rxq hres hdata hk
    refine ⟨s.next c s.tasks w', ?_⟩
    simp [step, hterm, hres, hdata, handle, hat.table, handleConn, hw]
  · intro hne
    obtain ⟨kind, tasks, hkind⟩ := List.exists_cons_of_ne_nil hne
    have hw : ∃ w', (arrive s.w k).handle fd kind { res := 0 } = some w' := by
      obtain rfl | rfl | rfl := hr.tasks kind (by rw [hkind]; exact List.mem_cons_self)
      · simp [handle, hat.table, handleConn]
      · obtain ⟨w', hw⟩ := generateResponse_supply (c := c) (hk.mono (by decide))
        exact ⟨w', by simp [handle, hat.table, handleConn, hw]⟩
      · have hkick : Supply 1 ((arrive s.w k).modify c fun o => { o with sendkickPending := false }) :=
          (hk.mono (by decide)).of_env rfl
        obtain ⟨w', hw, -⟩ := sendkick_supply (n := 0) (c := c) hkick
        exact ⟨w', by simp [handle, hat.table, handleConn, hw]⟩
    obtain ⟨w', hw⟩ := hw
    exact ⟨s.next c tasks w', by simp [step, hterm, hkind, hw]⟩

theorem mem_tasks {m : ProcessingMachine} {k : Workflow} (h : k ∈ m.tasks) :
    k = .findHandler ∨ k = .generateResponse := by
  unfold ProcessingMachine.tasks at h
  rcases List.mem_append.mp h with h | h <;> split at h <;> simp at h <;> simp [h]

theorem Ready.step (hr : s.Ready c fd routes) (hslots : a.Slots) (htakes : ∀ data ∈ a.data, s.w.Takes c data)
    (hstep : s.step c fd a = some s') : s'.Ready c fd routes := by
  obtain ⟨hout, hok, hat, hroutes⟩ := step_outcome hr hslots htakes hstep
  have hflush : ∀ {ks : List Workflow}, Flushes ks →
      ∀ k ∈ ks, k = .findHandler ∨ k = .generateResponse ∨ k = .requestFlush :=
    fun hks k hk => .inr (.inr (hks k hk))
  suffices hrest : (s'.w.heap c).rxq = [] ∧
      ∀ k ∈ s'.tasks, k = .findHandler ∨ k = .generateResponse ∨ k = .requestFlush from
    ⟨hok, hat, hrest.1, hroutes, hrest.2⟩
  cases hout with
  | reads hks h ht =>
    refine ⟨h.rxq, fun k hk => ?_⟩
    rw [ht] at hk
    rcases List.mem_append.mp hk with hk | hk
    · exact hr.tasks k hk
    · exact (List.mem_append.mp hk).elim (fun hk => (mem_tasks hk).imp_right .inl) (hflush hks k)
  | finds ht _ hrxq =>
    exact ⟨hrxq.trans hr.rxq, fun k hk => hr.tasks k (by rw [ht]; exact List.mem_cons_of_mem _ hk)⟩
  | responds hks ht ht' _ h =>
    refine ⟨h.rxq.trans hr.rxq, fun k hk => ?_⟩
    rw [ht'] at hk
    exact (List.mem_append.mp hk).elim (fun hk => hr.tasks k (by rw [ht]; exact List.mem_cons_of_mem _ hk))
      (hflush hks k)
  | quiet _ hks h ht' ht =>
    refine ⟨h.rxq.trans hr.rxq, fun k hk => ?_⟩
    rw [ht'] at hk
    refine (List.mem_append.mp hk).elim (fun hk => hr.tasks k ?_) (hflush hks k)
    obtain ht | ht | ⟨ht, -⟩ := ht <;> rw [ht] <;> simp [hk]

/-! ## The first request -/

variable {r : WireRequest} {hd : Handler}

/-- How far the request has got; the index is what has not been received of it. -/
inductive Phase (r : WireRequest) (hd : Handler) (c : Ptr) (s : Exchange) : Bytes → Prop
  | reading {p q : Bytes} (hrender : r.render = p ++ q) (hq : q ≠ [])
      (hparser : ∀ data, (s.w.heap c).parser.onSegment data = ({} : ProcessingMachine).onSegment (p ++ data))
      (htasks : .generateResponse ∉ s.tasks) (hcalls : callsOf c s.w.trace = []) : Phase r hd c s q
  | waiting {l l' : List Workflow} (hreq : (s.w.heap c).parser.req = r.toRequest)
      (htasks : s.tasks = l ++ .generateResponse :: l') (hl : .generateResponse ∉ l) (hl' : .generateResponse ∉ l')
      (hfind : .findHandler ∈ l ∨ (s.w.heap c).requestHandler = some hd) (hcalls : callsOf c s.w.trace = []) :
      Phase r hd c s []
  | answered (htasks : .generateResponse ∉ s.tasks) (hcalls : callsOf c s.w.trace = [(hd, r.toRequest)]) :
      Phase r hd c s []

/-- A turn without data does not ask for a response. -/
theorem Outcome.since (hout : Outcome c routes s s' a) (ha : a.data = []) :
    .generateResponse ∉ tasksSince c s.w s'.w := by
  cases hout with
  | reads => cases ha
  | finds _ _ _ _ htrace =>
    have hnone : s'.w.trace = s.w.trace ++ [] := by rw [htrace, List.append_nil]
    rw [tasksSince_eq hnone]
    exact List.not_mem_nil
  | responds _ _ _ _ h =>
    obtain ⟨evs, htrace, hks, -⟩ := h.trace
    rw [tasksSince_eq htrace]
    exact hks.not_mem
  | quiet _ hks h =>
    obtain ⟨evs, htrace, htasks, -⟩ := h.trace
    rw [tasksSince_eq htrace, htasks]
    exact hks.not_mem

theorem calls_minds {ks : List Workflow} {w w' : Worker} (h : Minds c ks w w') :
    callsOf c w'.trace = callsOf c w.trace := by
  obtain ⟨evs, htrace, -, hcalls⟩ := h.trace
  rw [htrace, callsOf_append, hcalls, List.append_nil]

/-- Where no response has been asked for, a turn without data changes neither the parser nor the calls. -/
theorem Outcome.silent (hout : Outcome c routes s s' a) (ha : a.data = []) (htasks : .generateResponse ∉ s.tasks) :
    .generateResponse ∉ s'.tasks ∧ (s'.w.heap c).parser = (s.w.heap c).parser ∧
      callsOf c s'.w.trace = callsOf c s.w.trace := by
  cases hout with
  | reads => cases ha
  | finds ht hparser _ _ htrace =>
    exact ⟨fun h => htasks (by rw [ht]; exact List.mem_cons_of_mem _ h), hparser, by rw [htrace]⟩
  | responds _ ht => exact absurd (by rw [ht]; exact List.mem_cons_self) htasks
  | quiet _ hks h ht' ht =>
    refine ⟨fun hmem => ?_, h.parser, calls_minds h⟩
    rw [ht'] at hmem
    refine (List.mem_append.mp hmem).elim (fun hmem => htasks ?_) hks.not_mem
    obtain ht | ht | ⟨ht, -⟩ := ht <;> rw [ht] <;> simp [hmem]

/-- While nothing is received, the phase changes only when the response is generated. -/
theorem Phase.outcome {q : Bytes} (hroute : routes.lookup r.path = some hd) (hphase : Phase r hd c s q)
    (ha : a.data = [])
    (hout : Outcome c routes s s' a) : Phase r hd c s' q := by
  cases hphase with
  | reading hrender hq hparser htasks hcalls =>
    obtain ⟨htasks', hparser', hcalls'⟩ := hout.silent ha htasks
    exact .reading hrender hq (by rw [hparser']; exact hparser) htasks' (hcalls'.trans hcalls)
  | answered htasks hcalls =>
    obtain ⟨htasks', -, hcalls'⟩ := hout.silent ha htasks
    exact .answered htasks' (hcalls'.trans hcalls)
  | @waiting l l' hreq htasks hl hl' hfind hcalls =>
    cases hout with
    | reads => cases ha
    | finds ht hparser _ hh htrace =>
      have hpath : (s.w.heap c).parser.req.path = r.path := by rw [hreq]; rfl
      rw [hpath, hroute] at hh
      rw [htasks] at ht
      cases l with
      | nil => cases ht
      | cons k l =>
        refine .waiting (by rw [hparser, hreq]) (List.cons.inj ht).2.symm (fun h => hl (List.mem_cons_of_mem _ h)) hl'
          (.inr hh) (by rw [htrace, hcalls])
    | @responds _ hd' ks rest hks ht ht' hh h =>
      cases l with
      | nil =>
        rw [htasks] at ht
        obtain rfl := (List.cons.inj ht).2
        obtain rfl : hd' = hd := by
          rw [hh] at hfind
          exact Option.some.inj (hfind.resolve_left List.not_mem_nil)
        obtain ⟨evs, htrace, -, hcall⟩ := h.trace
        refine .answered (fun hmem => ?_) (by rw [htrace, callsOf_append, hcalls, hcall, hreq]; rfl)
        rw [ht'] at hmem
        exact (List.mem_append.mp hmem).elim hl' hks.not_mem
      | cons k l =>
        rw [htasks] at ht
        cases ht
        exact absurd List.mem_cons_self hl
    | @quiet _ ks rest _ hks h ht' ht =>
      have hshift : ∀ l₁, rest = l₁ ++ .generateResponse :: l' →
          s'.tasks = l₁ ++ .generateResponse :: (l' ++ ks) := fun l₁ hrest => by rw [ht', hrest]; simp
      have hlast : .generateResponse ∉ l' ++ ks := fun hmem => (List.mem_append.mp hmem).elim hl' hks.not_mem
      have hreq' : (s'.w.heap c).parser.req = r.toRequest := by rw [h.parser, hreq]
      have hcalls' : callsOf c s'.w.trace = [] := by rw [calls_minds h, hcalls]
      obtain ht | ht | ⟨ht, hnone⟩ := ht
      · exact .waiting hreq' (hshift l (by rw [← ht, htasks])) hl hlast (by rw [h.handler]; exact hfind) hcalls'
      · rw [htasks] at ht
        cases l with
        | nil => cases ht
        | cons k l =>
          cases ht
          refine .waiting hreq' (hshift l rfl) (fun h => hl (List.mem_cons_of_mem _ h)) hlast ?_ hcalls'
          rw [h.handler]
          exact hfind.imp_left fun h => (List.mem_cons.mp h).resolve_left (by decide)
      · rw [htasks] at ht
        cases l with
        | nil =>
          rw [hnone] at hfind
          cases hfind.resolve_left List.not_mem_nil
        | cons k l =>
          cases ht
          exact absurd List.mem_cons_self hl

/-- What has been read of the request does not ask for a response, the whole does. -/
theorem tasks_render {p q : Bytes} (hframed : r.Framed) (hrender : r.render = p ++ q) :
    (q ≠ [] → .generateResponse ∉ (({} : ProcessingMachine).onSegment p).tasks) ∧
      (q = [] → (({} : ProcessingMachine).onSegment p).tasks = [.findHandler, .generateResponse]) := by
  constructor
  · intro hq
    unfold ProcessingMachine.tasks
    rw [if_neg (hframed.prefix_incomplete hrender hq), List.append_nil]
    split <;> simp
  · rintro rfl
    rw [List.append_nil] at hrender
    rw [← hrender]
    unfold ProcessingMachine.tasks
    rw [if_pos hframed.complete, if_pos]
    · rfl
    · rw [WireRequest.onSegment_render]
      exact (by decide : ProcessingState.path.code < ProcessingState.body.code)

/-- A part of the request is read; the response is asked for with the last one. -/
theorem Phase.segment {data q : Bytes} {cqe : Cqe} {k : Outside} (hr : s.Ready c fd routes) (hframed : r.Framed)
    (hphase : Phase r hd c s (data ++ q)) (hne : data ≠ []) (hslots : (Turn.segment data cqe k).Slots)
    (h : s.step c fd (.segment data cqe k) = some s') :
    s'.Ready c fd routes ∧ Phase r hd c s' q ∧
      (q ≠ [] → .generateResponse ∉ tasksSince c s.w s'.w) ∧
      (q = [] → ∃ ks, Flushes ks ∧ tasksSince c s.w s'.w = .findHandler :: .generateResponse :: ks) := by
  generalize hall : data ++ q = all at hphase
  cases hphase with
  | waiting | answered => exact absurd (List.append_eq_nil_iff.mp hall).1 hne
  | @reading p _ hrender hq hparser htasks hcalls =>
    subst hall
    rw [← List.append_assoc] at hrender
    have htakes : ∀ data' ∈ (Turn.segment data cqe k).data, s.w.Takes c data' := fun data' hmem => by
      obtain rfl := List.mem_singleton.mp hmem
      exact ⟨by rw [hparser]; exact WireRequest.prefix_no_error hrender, by rw [hparser]; exact hframed.numeric hrender⟩
    refine ⟨hr.step hslots htakes h, ?_⟩
    obtain ⟨hnot, hlast⟩ := tasks_render hframed hrender
    cases (step_outcome hr hslots htakes h).1 with
    | quiet ha => cases ha
    | @reads _ _ _ ks hks hreads ht =>
      obtain ⟨evs, htrace, hposted, hnone⟩ := hreads.trace
      have hcalls' : callsOf c s'.w.trace = [] := by rw [htrace, callsOf_append, hcalls, hnone, List.nil_append]
      rw [hparser] at ht hposted
      rw [tasksSince_eq htrace, hposted]
      refine ⟨?_, fun hq hmem => (List.mem_append.mp hmem).elim (hnot hq) hks.not_mem,
        fun hq => ⟨ks, hks, by rw [hlast hq]; rfl⟩⟩
      by_cases hq : q = []
      · rw [hlast hq] at ht
        subst hq
        rw [List.append_nil] at hrender
        have hall : s'.tasks = (s.tasks ++ [.findHandler]) ++ .generateResponse :: ks := by
          rw [ht]
          simp
        refine .waiting ?_ hall ?_ hks.not_mem (.inl (by simp)) hcalls'
        · rw [hreads.parser, hparser, ← hrender, WireRequest.onSegment_render]
        · simpa using htasks
      · refine .reading hrender hq (fun data' => ?_) (fun hmem => ?_) hcalls'
        · rw [hreads.parser, hparser, ProcessingMachine.onSegment_onSegment]
        · rw [ht] at hmem
          exact (List.mem_append.mp hmem).elim htasks fun hmem => (List.mem_append.mp hmem).elim (hnot hq) hks.not_mem

/-! ## Runs -/

variable {ts : List (Transition Exchange Turn)}

/-- The response is asked for in one turn `e`, which handles the last segment, after the handler has been. -/
def AskedOnce (c : Ptr) (ts : List (Transition Exchange Turn)) : Prop :=
  ∃ ts₁ e ts₂, ts = ts₁ ++ e :: ts₂ ∧ e.action.data ≠ [] ∧ (∀ e' ∈ ts₂, e'.action.data = []) ∧
    (∃ ks, Flushes ks ∧ tasksSince c e.before.w e.after.w = .findHandler :: .generateResponse :: ks) ∧
    ∀ e' ∈ ts₁ ++ ts₂, .generateResponse ∉ tasksSince c e'.before.w e'.after.w

theorem no_takes (ha : a.data = []) : ∀ data ∈ a.data, s.w.Takes c data := fun data h => by
  rw [ha] at h
  cases h

/-- Nothing is received any more. -/
theorem Phase.rest {q : Bytes} (hr : s.Ready c fd routes) (hroute : routes.lookup r.path = some hd)
    (hphase : Phase r hd c s q) (h : Run (Exchange.step c fd) s ts t) (hslots : ∀ e ∈ ts, e.action.Slots)
    (hdata : ∀ e ∈ ts, e.action.data = []) :
    t.Ready c fd routes ∧ Phase r hd c t q ∧ ∀ e ∈ ts, .generateResponse ∉ tasksSince c e.before.w e.after.w := by
  induction h with
  | nil => exact ⟨hr, hphase, fun _ he => absurd he List.not_mem_nil⟩
  | cons hstep _ ih =>
    have hs := hslots _ List.mem_cons_self
    have ha := hdata _ List.mem_cons_self
    have hout := (step_outcome hr hs (no_takes ha) hstep).1
    obtain ⟨hr', hphase', hrest⟩ := ih (hr.step hs (no_takes ha) hstep) (hphase.outcome hroute ha hout)
      (fun e he => hslots e (List.mem_cons_of_mem _ he)) fun e he => hdata e (List.mem_cons_of_mem _ he)
    refine ⟨hr', hphase', fun e he => ?_⟩
    rcases List.mem_cons.mp he with rfl | he
    · exact hout.since ha
    · exact hrest e he

/-- What is left of the request is received. -/
theorem Phase.run {q : Bytes} (hr : s.Ready c fd routes) (hframed : r.Framed) (hroute : routes.lookup r.path = some hd)
    (hphase : Phase r hd c s q) (hq : q ≠ []) (h : Run (Exchange.step c fd) s ts t) (hslots : ∀ e ∈ ts, e.action.Slots)
    (hne : ∀ e ∈ ts, ∀ data ∈ e.action.data, data ≠ []) (hdata : (ts.flatMap (·.action.data)).flatten = q) :
    t.Ready c fd routes ∧ Phase r hd c t [] ∧ AskedOnce c ts := by
  induction h generalizing q with
  | nil => exact absurd hdata.symm hq
  | @cons s s' u a ts hstep hrun ih =>
    have hs := hslots _ List.mem_cons_self
    have hslots' : ∀ e ∈ ts, e.action.Slots := fun e he => hslots e (List.mem_cons_of_mem _ he)
    have hne' : ∀ e ∈ ts, ∀ data ∈ e.action.data, data ≠ [] := fun e he => hne e (List.mem_cons_of_mem _ he)
    have hskip : .generateResponse ∉ tasksSince c s.w s'.w → AskedOnce c ts → AskedOnce c (⟨s, a, s'⟩ :: ts) := by
      rintro hnot ⟨ts₁, e, ts₂, rfl, he, hlast, hasked, hrest⟩
      refine ⟨⟨s, a, s'⟩ :: ts₁, e, ts₂, rfl, he, hlast, hasked, fun e' he' => ?_⟩
      rcases List.mem_cons.mp he' with rfl | he'
      · exact hnot
      · exact hrest e' he'
    rw [List.flatMap_cons, List.flatten_append] at hdata
    by_cases ha : a.data = []
    · rw [ha, List.flatten_nil, List.nil_append] at hdata
      have hout := (step_outcome hr hs (no_takes ha) hstep).1
      obtain ⟨hr', hphase', hasked⟩ :=
        ih (hr.step hs (no_takes ha) hstep) (hphase.outcome hroute ha hout) hq hslots' hne' hdata
      exact ⟨hr', hphase', hskip (hout.since ha) hasked⟩
    · cases a with
      | task | other => exact absurd rfl ha
      | segment data cqe k =>
        have hdne := hne _ List.mem_cons_self data (List.mem_singleton_self data)
        have hq' : q = data ++ (ts.flatMap (·.action.data)).flatten := by rw [← hdata]; simp [Turn.data]
        rw [hq'] at hphase
        obtain ⟨hr', hphase', hnot, hlast⟩ := hphase.segment hr hframed hdne hs hstep
        by_cases hend : (ts.flatMap (·.action.data)).flatten = []
        · have hnone : ∀ e ∈ ts, e.action.data = [] := fun e he => List.eq_nil_iff_forall_not_mem.mpr fun data hmem =>
            hne' e he data hmem (List.flatten_eq_nil_iff.mp hend data (List.mem_flatMap.mpr ⟨e, he, hmem⟩))
          rw [hend] at hphase'
          obtain ⟨hr'', hphase'', hrest⟩ := hphase'.rest hr' hroute hrun hslots' hnone
          exact ⟨hr'', hphase'', [], _, ts, rfl, ha, hnone, hlast hend, hrest⟩
        · obtain ⟨hr'', hphase'', hasked⟩ := ih hr' hphase' hend hslots' hne' rfl
          exact ⟨hr'', hphase'', hskip (hnot hend) hasked⟩

/-- A connection that has just been accepted receives a framed request, in whatever segments, and nothing else. The
response is asked for once, while the last segment is handled and after the handler; when this task has completed, the
handler of the path has been called once, with the request. With slots the tasks that are left can complete. -/
theorem first_request_once {w : Worker} (hok : w.Ok) (hat : w.At c fd) (hparser : (w.heap c).parser = {})
    (hrxq : (w.heap c).rxq = []) (hcalls : callsOf c w.trace = []) (hframed : r.Framed)
    (hroute : w.routes.lookup r.path = some hd) (h : Run (step c fd) { w := w } ts t)
    (hslots : ∀ e ∈ ts, e.action.Slots) (hne : ∀ e ∈ ts, ∀ data ∈ e.action.data, data ≠ [])
    (hdata : (ts.flatMap (·.action.data)).flatten = r.render) :
    AskedOnce c ts ∧
      callsOf c t.w.trace = (if .generateResponse ∈ t.tasks then [] else [(hd, r.toRequest)]) ∧
      (t.w.terminated = false → t.tasks ≠ [] → ∀ k, Supply 5 (arrive t.w k) →
        ∃ t', t.step c fd (.task k) = some t') := by
  have hr : Ready c fd w.routes { w := w } := ⟨hok, hat, hrxq, rfl, fun _ h => absurd h List.not_mem_nil⟩
  have hrender : r.render ≠ [] := fun h => absurd r.body_lt_render (by rw [h]; exact Nat.not_lt_zero _)
  have hphase : Phase r hd c { w := w } r.render :=
    .reading (p := []) rfl hrender (fun data => by rw [hparser]; rfl) List.not_mem_nil hcalls
  obtain ⟨hr', hphase', hasked⟩ := hphase.run hr hframed hroute hrender h hslots hne hdata
  refine ⟨hasked, ?_, fun hterm hleft k hk => (hr'.possible hterm k hk).2 hleft⟩
  cases hphase' with
  | reading _ hq => exact absurd rfl hq
  | waiting _ htasks _ _ _ hcalls' => rw [hcalls', if_pos (by rw [htasks]; simp)]
  | answered htasks hcalls' => rw [hcalls', if_neg htasks]

/-- A worker that serves one path and has connections neither in its table nor on its heap. -/
def idle : Worker where
  listenFd := 3
  cfg := {}
  routes := [(ascii "/echo", fun _ res => res)]
  env := { sqes := [true] }

/-- A request with a body. -/
def greeting : WireRequest where
  method := ascii "POST"
  path := ascii "/echo"
  protocol := ascii "HTTP/1.0"
  headers := [(ascii "Content-Length", ascii " 2")]
  body := ascii "ok"
  method_free := by decide +kernel
  path_free := by decide +kernel
  protocol_free := by decide +kernel
  names_ne := by decide +kernel
  names_free := by decide +kernel
  values_free := by decide +kernel

/-- The bytes are received into the buffer of the connection. -/
def received (data : Bytes) : Turn :=
  .segment data { res := Int32.ofNat data.length } { holds := fun _ => data, env := { sqes := List.replicate 5 true } }

/-- The oldest task completes. -/
def done : Turn := .task { env := { sqes := [true] } }

/-- The request arrives in three parts, the first of which ends within the name of its header. -/
def greet : List Turn :=
  [received (greeting.render.take 28), done, received ((greeting.render.drop 28).take 13),
    received (greeting.render.drop 41), done, done, done, done]

theorem first_request_once_greeting : ∃ (w : Worker) (ts : List (Transition Exchange Turn)) (t : Exchange),
    idle.handleAccept { res := 5, more := true } = some w ∧ Run (step 0 5) { w := w } ts t ∧ ts.map (·.action) = greet ∧
      AskedOnce 0 ts ∧ t.tasks = [] ∧ (callsOf 0 t.w.trace).map Prod.snd = [greeting.toRequest] := by
  obtain ⟨w, hw, hobs⟩ := Option.map_eq_some_iff.mp (show
    (idle.handleAccept { res := 5, more := true }).map (fun w => decide (w.table 5 = some 0 ∧ (w.heap 0).fd = 5 ∧
      (w.heap 0).parser = {} ∧ (w.heap 0).rxq = [] ∧ (callsOf 0 w.trace).map Prod.snd = [])) = some true by
        decide +kernel)
  obtain ⟨htable, hfd, hparser, hrxq, hcalls⟩ := of_decide_eq_true hobs
  have hgreet : (idle.handleAccept { res := 5, more := true }).bind (fun w =>
      (execAll (step 0 5) (fun _ a => a.Slots) greet { w := w }).map (·.tasks)) = some [] := by decide +kernel
  rw [hw] at hgreet
  obtain ⟨t, hexec, htasks⟩ := Option.map_eq_some_iff.mp hgreet
  obtain ⟨ts, hrun, hactions, hslots⟩ := Run.exec hexec
  have hok : idle.Ok := ⟨fun _ _ h => (by cases h), fun _ _ h => (by cases h)⟩
  have hmoves : Moves idle w := handle_moves hok (show idle.handle 0 .accept _ = some w from hw)
  have hroute : w.routes.lookup greeting.path = some fun _ res => res := by
    rw [hmoves.routes]
    rfl
  have hframed : greeting.Framed :=
    .inr ⟨by decide +kernel, by decide +kernel, [SP], by decide +kernel, by decide +kernel⟩
  have hne : ∀ a ∈ greet, ∀ data ∈ a.data, data ≠ [] := by decide +kernel
  have hdata : (ts.flatMap (·.action.data)).flatten = greeting.render := by
    have hall : (greet.flatMap Turn.data).flatten = greeting.render := by decide +kernel
    rw [← hall, ← hactions, List.flatMap_map]
  obtain ⟨hasked, hcalled, -⟩ := first_request_once (hok.moves hmoves) ⟨htable, hfd⟩ hparser hrxq
    (List.map_eq_nil_iff.mp hcalls) hframed hroute hrun hslots
    (fun e he => hne e.action (hactions ▸ List.mem_map_of_mem he)) hdata
  refine ⟨w, ts, t, hw, hrun, hactions, hasked, htasks, ?_⟩
  rw [hcalled, htasks]
  rfl

end Exchange

end IOContext
