import IOContext.Http.Framing
import IOContext.Isolation
import IOContext.Parsed
import IOContext.Tasks

/-!
# What a completion adds to the trace

A completion is a sequence of strides: either no parser is fed and no task posted but flushes, or a parser reads one
segment and what it has read decides what follows (`handle_strides`).

- A task that is no flush was posted for what its connection's parser had read (`Justified`, kept by
  `Justified.strides`).
-/

namespace IOContext

namespace ProcessingMachine

/-- A length has been announced that `std::stoull` does not read. -/
def Unreadable (m : ProcessingMachine) : Prop := m.state = .body ∧ ¬m.Numeric

/-- What `parse_step` may post after a segment. -/
def Posts (m : ProcessingMachine) : Workflow → Prop
  | .requestClose => m.state = .errorState
  | .findHandler => m.state ≠ .errorState ∧ ProcessingState.path.code < m.state.code
  | .generateResponse => m.Complete
  | _ => False

end ProcessingMachine

namespace Effect

/-- The parser is not fed, no handler found, and no task posted but a flush. -/
def Plain : Effect → Prop
  | .submit (.msgRing _ kind) => kind = .requestFlush
  | .submit _ => True
  | .change o o' => o'.requestHandler = o.requestHandler
  | .segment | .crash => False
  | _ => True

theorem Tends.plain : ∀ e, Tends e → Plain e
  | .submit (.provideBuffers _ _), _ | .submit (.accept _), _ | .submit (.multishotAccept _), _
  | .submit (.recvMultishot _), _ | .submit (.recv _ _), _ | .submit (.close _), _ | .submit (.pollAdd _), _
  | .submit (.sendmsg _ _), _ => trivial
  | .submit (.msgRing _ _), h => h
  | .change _ _, h => h.2
  | .alloc, _ | .msRecvOff, _ => trivial

theorem Accepts.plain (e : Effect) (h : Accepts e) : Plain e := by
  cases h with
  | @accept op h =>
    cases op with
    | accept | multishotAccept => trivial
    | _ => exact h.elim
  | acceptMode => trivial

theorem Provides.plain : ∀ e, Provides e → Plain e
  | _, .provide _ _ => trivial

theorem Sends.plain (e : Effect) (h : Sends e) : Plain e := (Worker.Sends.tends e h).plain

theorem Recvs.plain (e : Effect) (h : Recvs e) : Plain e := (Worker.Recvs.tends e h).plain

theorem Responds.plain : ∀ e, Responds e → Plain e
  | _, .sends h => Sends.plain _ h
  | _, .enqueue | _, .invoke => trivial

end Effect

namespace Worker

/-- The event feeds no parser, and is no task but a flush. -/
def PlainEvent : Event → Prop
  | .sqe e => ∀ fd kind, e.op = .msgRing fd kind → kind = .requestFlush
  | .segment _ _ => False
  | .enqueue _ _ | .invoke _ _ _ _ => True

/-- No parser is fed, and no task posted but flushes; a handler is found only if `finds`. -/
structure Plain (finds : Prop) (w w' : Worker) : Prop where
  trace : ∃ evs, w'.trace = w.trace ++ evs ∧ ∀ e ∈ evs, PlainEvent e
  terminated : w'.terminated = w.terminated
  handler : ¬finds → ∀ q, (w'.heap q).requestHandler = (w.heap q).requestHandler ∨ (w'.heap q).requestHandler = none

/-- The parser of `c` reads a segment, and what it has read decides what is posted and whether the worker goes on. -/
structure ReadsOne (c : Ptr) (w w' : Worker) : Prop where
  trace : ∃ seg evs, w'.trace = w.trace ++ .segment c seg :: evs ∧
    (∀ ev ∈ evs, ∃ e fd kind, ev = .sqe e ∧ e.owner = some c ∧ e.op = .msgRing fd kind ∧
      (parserOf c (w.trace ++ [.segment c seg])).Posts kind) ∧
    (w'.terminated = true ↔ w.terminated = true ∨ (parserOf c (w.trace ++ [.segment c seg])).Unreadable)
  handler : ∀ q, (w'.heap q).requestHandler = (w.heap q).requestHandler

inductive Stride (finds : Prop) (w w' : Worker) : Prop
  | plain (h : Plain finds w w')
  | reads (c : Ptr) (h : ReadsOne c w w')

theorem Stride.mono {finds finds' : Prop} {w w' : Worker} (hf : finds → finds') (h : Stride finds w w') :
    Stride finds' w w' := by
  cases h with
  | plain h => exact .plain ⟨h.trace, h.terminated, fun hno => h.handler fun hyes => hno (hf hyes)⟩
  | reads c h => exact .reads c h

def Strides (finds : Prop) : Worker → Worker → Prop := Relation.ReflTransGen (Stride finds)

theorem Strides.mono {finds finds' : Prop} {w w' : Worker} (hf : finds → finds') (h : Strides finds w w') :
    Strides finds' w w' := Relation.ReflTransGen.mono (fun _ _ => Stride.mono hf) _ _ h

theorem Strides.refl (finds : Prop) (w : Worker) : Strides finds w w := Relation.ReflTransGen.refl

theorem Strides.trans {finds : Prop} {w w' w'' : Worker} (h : Strides finds w w') (h' : Strides finds w' w'') :
    Strides finds w w'' := Relation.ReflTransGen.trans h h'

theorem Stride.strides {finds : Prop} {w w' : Worker} (h : Stride finds w w') : Strides finds w w' := .single h

variable {L : Effect → Prop} {finds : Prop} {c : Ptr} {fd : Fd} {w w' w'' : Worker} {cqe : Cqe}

/-- Where no handler is found each connection keeps its own, or has none. -/
theorem Strides.handler (h : Strides finds w w') (hno : ¬finds) (q : Ptr) :
    (w'.heap q).requestHandler = (w.heap q).requestHandler ∨ (w'.heap q).requestHandler = none := by
  induction h with
  | refl => exact .inl rfl
  | tail _ hst ih =>
    cases hst with
    | plain hp =>
      rcases hp.handler hno q with heq | hnone
      · rw [heq]
        exact ih
      · exact .inr hnone
    | reads c hr =>
      rw [hr.handler q]
      exact ih

/-! ## Without a segment -/

/-- Two workers that differ in what no connection is about. -/
theorem Plain.of_eq (htrace : w'.trace = w.trace) (hterm : w'.terminated = w.terminated)
    (hhandler : ¬finds → ∀ q, (w'.heap q).requestHandler = (w.heap q).requestHandler ∨
      (w'.heap q).requestHandler = none) : Plain finds w w' :=
  ⟨⟨[], by rw [htrace, List.append_nil], fun _ h => absurd h List.not_mem_nil⟩, hterm, hhandler⟩

theorem Plain.refl (finds : Prop) (w : Worker) : Plain finds w w := .of_eq rfl rfl fun _ _ => .inl rfl

theorem Plain.trans (h : Plain finds w w') (h' : Plain finds w' w'') : Plain finds w w'' := by
  obtain ⟨evs, htrace, hev⟩ := h.trace
  obtain ⟨evs', htrace', hev'⟩ := h'.trace
  refine ⟨⟨evs ++ evs', by rw [htrace', htrace, List.append_assoc], fun e he => ?_⟩,
    h'.terminated.trans h.terminated, fun hno q => ?_⟩
  · exact (List.mem_append.mp he).elim (hev e) (hev' e)
  · rcases h'.handler hno q with heq | hnone
    · rw [heq]
      exact h.handler hno q
    · exact .inr hnone

theorem Prims.terminated (h : Prims L c fd w w') (hcrash : ¬L .crash) : w'.terminated = w.terminated :=
  h.lift (R := fun w w' => w'.terminated = w.terminated) (fun _ => rfl) (fun _ _ _ h h' => h'.trans h) fun _ _ hp => by
    cases hp with
    | crash hL => exact absurd hL hcrash
    | _ => rfl

theorem Prims.handler (h : Prims L c fd w w')
    (hchange : ∀ o o', L (.change o o') → o'.requestHandler = o.requestHandler) (q : Ptr) :
    (w'.heap q).requestHandler = (w.heap q).requestHandler := by
  by_cases hq : q = c
  · subst hq
    refine h.lift (R := fun w w' => (w'.heap q).requestHandler = (w.heap q).requestHandler) (fun _ => rfl)
      (fun _ _ _ h h' => h'.trans h) fun _ _ hp => ?_
    cases hp with
    | change f hL => simpa using hchange _ _ hL
    | segment | enqueue | invoke => simp
    | quiet | crash | alloc | msRecvOff | acceptMode | submit => rfl
  · rw [h.frame.heap q hq]

theorem Prims.plain (h : Prims Effect.Plain c fd w w') : Plain finds w w' := by
  obtain ⟨evs, htrace, hev⟩ := h.trace
  refine ⟨⟨evs, htrace, fun e he => ?_⟩, h.terminated id, fun _ q => .inl (h.handler (fun _ _ => id) q)⟩
  have hallowed := hev e he
  cases e with
  | sqe e =>
    intro fd kind hop
    have hplain := hallowed.1
    rw [hop] at hplain
    exact hplain
  | segment => exact hallowed.1.elim
  | enqueue | invoke => trivial

theorem Prims.strides (h : Prims Effect.Plain c fd w w') : Strides finds w w' := Stride.strides (.plain h.plain)

/-! ## A segment -/

/-- Tasks are posted for `c`, and nothing else is done. -/
structure Posted (c : Ptr) (P : Workflow → Prop) (w w' : Worker) : Prop where
  trace : ∃ evs, w'.trace = w.trace ++ evs ∧
    ∀ ev ∈ evs, ∃ e fd kind, ev = .sqe e ∧ e.owner = some c ∧ e.op = .msgRing fd kind ∧ P kind
  terminated : w'.terminated = w.terminated
  heap : w'.heap = w.heap

variable {P P' : Workflow → Prop}

theorem Posted.refl (c : Ptr) (P : Workflow → Prop) (w : Worker) : Posted c P w w :=
  ⟨⟨[], (List.append_nil _).symm, fun _ h => absurd h List.not_mem_nil⟩, rfl, rfl⟩

theorem Posted.trans (h : Posted c P w w') (h' : Posted c P w' w'') : Posted c P w w'' := by
  obtain ⟨evs, htrace, hev⟩ := h.trace
  obtain ⟨evs', htrace', hev'⟩ := h'.trace
  exact ⟨⟨evs ++ evs', by rw [htrace', htrace, List.append_assoc],
    fun ev he => (List.mem_append.mp he).elim (hev ev) (hev' ev)⟩, h'.terminated.trans h.terminated,
      h'.heap.trans h.heap⟩

theorem post_posted {kind : Workflow} (hat : w.At c fd) (hk : kind ≠ .requestFlush) (hP : P kind)
    (h : w.post c kind = some w') : Posted c P w w' := by
  unfold post at h
  rw [hat.obj] at h
  match w.env.sqes, h with
  | true :: sqes, h =>
    simp only [postTask, hat.table, Option.some.injEq] at h
    subst h
    obtain ⟨e, hop, hown, -, htrace⟩ := trace_prep (w.withSqes sqes) (.msgRing fd kind) (some c) none
    exact ⟨⟨[.sqe e], htrace, fun ev he => ⟨e, fd, kind, List.mem_singleton.mp he, hown, hop, hP⟩⟩, rfl, rfl⟩
  | false :: sqes, h =>
    obtain rfl := task_dropped hk h
    exact ⟨⟨[], (List.append_nil _).symm, fun _ h => absurd h List.not_mem_nil⟩, rfl, rfl⟩

theorem postFindHandler_posted (hat : w.At c fd)
    (hP : ProcessingState.path.code < (w.heap c).parser.state.code → P .findHandler)
    (h : w.postFindHandler c = some w') : Posted c P w w' := by
  unfold postFindHandler at h
  split at h
  · rename_i hpath
    exact post_posted hat (by decide) (hP hpath) h
  · cases h
    exact .refl c P w

/-- The response is asked for once the request is complete; a length that cannot be read ends the worker. -/
theorem postGenerateResponse_posted (hat : w.At c fd) (hP : (w.heap c).parser.Complete → P .generateResponse)
    (h : w.postGenerateResponse c = some w') :
    (¬(w.heap c).parser.Unreadable ∧ Posted c P w w') ∨
      (w.heap c).parser.Unreadable ∧ w' = { w with terminated := true } := by
  unfold postGenerateResponse at h
  dsimp only at h
  split at h
  · rename_i hbody
    split at h
    · rename_i hcl
      split at h
      · rename_i len hread
        have hnum : ¬(w.heap c).parser.Unreadable := fun hu => hu.2 fun _ => by
          rw [hread]
          exact Option.some_ne_none _
        refine .inl ⟨hnum, ?_⟩
        split at h
        · rename_i hlen
          exact post_posted hat (by decide) (hP ⟨hbody, fun _ => by rw [hread, hlen]; rfl⟩) h
        · cases h
          exact .refl c P w
      · rename_i hread
        cases h
        exact .inr ⟨⟨hbody, fun hnum => hnum hcl hread⟩, rfl⟩
    · rename_i hcl
      exact .inl ⟨fun hu => hu.2 fun h => absurd h hcl, post_posted hat (by decide)
        (hP ⟨hbody, fun h => absurd h hcl⟩) h⟩
  · rename_i hbody
    cases h
    exact .inl ⟨fun hu => hbody hu.1, .refl c P w⟩

/-- A connection of the table whose parser is what the trace makes of it. -/
structure Serving (c : Ptr) (fd : Fd) (w : Worker) : Prop where
  at_ : w.At c fd
  parsed : w.Parsed
  lt : c < w.nextPtr

theorem Serving.prims (h : Serving c fd w) (hp : Prims L c fd w w') : Serving c fd w' :=
  ⟨h.at_.prims hp, h.parsed.prims (fun _ => h.lt) hp, by rw [hp.frame.nextPtr]; exact h.lt⟩

/-- Where the parser has read a segment, what it has read decides what follows. -/
structure Follows (c : Ptr) (w w' : Worker) : Prop where
  trace : ∃ evs, w'.trace = w.trace ++ evs ∧ ∀ ev ∈ evs, ∃ e fd kind, ev = .sqe e ∧ e.owner = some c ∧
    e.op = .msgRing fd kind ∧ (w.heap c).parser.Posts kind
  terminated : w'.terminated = true ↔ w.terminated = true ∨ (w.heap c).parser.Unreadable
  handler : ∀ q, (w'.heap q).requestHandler = (w.heap q).requestHandler

theorem postParsed_follows (hat : w.At c fd) (hok : (w.heap c).parser.state ≠ .errorState)
    (h : w.postParsed c = some w') :
    Follows c w w' := by
  obtain ⟨w₁, hfind, h⟩ := Option.bind_eq_some_iff.mp h
  have hat₁ := hat.prims (postFindHandler_prims hat hfind)
  have hposted : Posted c (w.heap c).parser.Posts w w₁ := postFindHandler_posted hat (fun hpath => ⟨hok, hpath⟩) hfind
  have hgen := postGenerateResponse_posted (P := (w.heap c).parser.Posts) hat₁ (by rw [hposted.heap]; exact id) h
  rw [hposted.heap] at hgen
  rcases hgen with ⟨hnum, hposted'⟩ | ⟨hunreadable, rfl⟩
  · have hall := hposted.trans hposted'
    exact ⟨hall.trace, by rw [hall.terminated]; simp [hnum], fun q => by rw [hall.heap]⟩
  · exact ⟨hposted.trace, by simp [hunreadable], fun _ => rfl⟩

theorem parseSegment_strides {b : Bool} (hs : Serving c fd w) (h : w.parseSegment c = some (b, w')) :
    Strides finds w w' := by
  cases hrxq : (w.heap c).rxq with
  | nil =>
    simp only [parseSegment, hrxq] at h
    cases h
    exact .refl ..
  | cons seg rxq =>
    have hs₁ := hs.prims (.single (.segment (L := fun _ => True) trivial hrxq))
    have hparser := hs₁.parsed.parser c
    have hkept : ∀ q, (((w.modify c fun o => { o with rxq := rxq, parser := o.parser.onSegment seg.wb }).log
        (.segment c seg.wb)).heap q).requestHandler = (w.heap q).requestHandler := fun q => by
      by_cases hq : q = c
      · subst hq
        simp
      · rw [heap_log, heap_modify_ne w hq]
    unfold parseSegment at h
    simp only [hrxq] at h
    generalize hw₁ : (w.modify c fun o => { o with rxq := rxq, parser := o.parser.onSegment seg.wb }).log
      (.segment c seg.wb) = w₁ at h hs₁ hparser hkept
    have htrace₁ : w₁.trace = w.trace ++ [.segment c seg.wb] := by
      rw [← hw₁]
      rfl
    have hfollows : Follows c w₁ w' := by
      split at h
      · rename_i herr
        obtain ⟨w₂, hpost, h⟩ := Option.bind_eq_some_iff.mp h
        cases h
        have hat₂ : (w₁.modify c fun o => { o with closing := true }).At c fd :=
          ⟨hs₁.at_.table, by simpa using hs₁.at_.obj⟩
        have hclose : (w₁.heap c).parser.Posts .requestClose := herr
        have hposted := post_posted hat₂ (by decide) hclose hpost
        have hbody : ¬(w₁.heap c).parser.Unreadable := fun hu => by
          rw [hu.1] at herr
          cases herr
        have hterm : w'.terminated = w₁.terminated := hposted.terminated
        refine ⟨hposted.trace, by simp [hterm, hbody], fun q => ?_⟩
        rw [hposted.heap]
        by_cases hq : q = c
        · subst hq
          simp
        · rw [heap_modify_ne w₁ hq]
      · rename_i herr
        obtain ⟨w₂, hpost, h⟩ := Option.bind_eq_some_iff.mp h
        cases h
        exact postParsed_follows hs₁.at_ herr hpost
    obtain ⟨⟨evs, htrace, hev⟩, hterm, hhandler⟩ := hfollows
    have hposts : ∀ kind, (w₁.heap c).parser.Posts kind → (parserOf c w₁.trace).Posts kind := by
      rw [← hparser]
      intro kind hk
      cases kind <;> exact hk
    have hunreadable : (w₁.heap c).parser.Unreadable ↔ (parserOf c w₁.trace).Unreadable := by
      rw [← hparser]
      rfl
    refine Stride.strides (.reads c ⟨
      ⟨seg.wb, evs, by rw [htrace, htrace₁, List.append_assoc]; rfl, fun ev he => ?_, ?_⟩,
      fun q => (hhandler q).trans (hkept q)⟩)
    · obtain ⟨e, fd, kind, hsqe, hown, hop, hk⟩ := hev ev he
      exact ⟨e, fd, kind, hsqe, hown, hop, htrace₁ ▸ hposts kind hk⟩
    · rw [hterm, hunreadable, htrace₁, ← hw₁]
      rfl

/-! ## Parsing -/

theorem parseSegments_strides : ∀ {n : Nat} {w : Worker} {b : Bool}, Serving c fd w →
    parseSegments c n w = some (b, w') → Strides finds w w'
  | 0, _, _, _, h => by
    cases h
    exact .refl ..
  | n + 1, w, b, hs, h => by
    obtain ⟨⟨stop, w₁⟩, hseg, h⟩ := Option.bind_eq_some_iff.mp h
    have hst : Strides finds w w₁ := parseSegment_strides hs hseg
    cases stop with
    | true =>
      cases h
      exact hst
    | false => exact hst.trans (parseSegments_strides (hs.prims (parseSegment_prims hs.at_ hseg)) h)

theorem parsePasses_strides : ∀ {n k : Nat} {w : Worker}, Serving c fd w → parsePasses c n k w = some w' →
    Strides finds w w'
  | 0, _, _, _, h => by
    cases h
    exact .refl ..
  | n + 1, k, w, hs, h => by
    obtain ⟨⟨last, w₁⟩, hpass, h⟩ := Option.bind_eq_some_iff.mp h
    have hst : Strides finds w w₁ := by
      unfold parsePass at hpass
      split at hpass
      · cases hpass
        exact .refl ..
      · exact parseSegments_strides hs hpass
    cases last with
    | true =>
      cases h
      exact hst
    | false =>
      simp only [Bool.false_eq_true, if_false] at h
      split at h
      · cases h
        exact hst
      · exact hst.trans (parsePasses_strides (hs.prims (parsePass_prims hs.at_ hpass)) h)

theorem parseStep_strides (hs : Serving c fd w) (h : w.parseStep c = some w') : Strides finds w w' :=
  parsePasses_strides (n := PROC_MAX_SEGMENTS) (k := 0) hs h

theorem parseAndKick_strides (hs : Serving c fd w) (h : w.parseAndKick c = some w') : Strides finds w w' := by
  obtain ⟨w₁, hparse, h⟩ := Option.bind_eq_some_iff.mp h
  have hst : Strides finds w w₁ := parseStep_strides hs hparse
  have hat₁ := hs.at_.prims (parseStep_prims hs.at_ hparse)
  split at h
  · cases h
    exact hst
  · split at h
    · exact hst.trans (Prims.strides ((sendkick_prims hat₁ h).mono Effect.Sends.plain))
    · cases h
      exact hst

/-! ## The branches -/

theorem recvProvided_strides {bid : Nat} (hs : Serving c fd w) (h : w.recvProvided c bid cqe = some w') :
    Strides finds w w' := by
  obtain ⟨w₁, w₂, hback, hkick, h⟩ := recvProvided_cases h
  have hpush : Prims Effect.Plain c fd w (w.pushSegment c ((w.bufPool bid).take cqe.res.toInt.toNat)) :=
    .single (.change _ rfl rfl rfl id)
  have hp₁ := hpush.trans ((returnBuffer_prims hback).mono Effect.Provides.plain)
  have hs₁ := hs.prims hp₁
  have hat₂ := hs₁.at_.prims (parseAndKick_prims hs₁.at_ hkick)
  have hst : Strides finds w w₂ := (Prims.strides hp₁).trans (parseAndKick_strides hs₁ hkick)
  obtain ⟨-, rfl⟩ | ⟨-, h⟩ := h
  · exact hst
  · have hdisarm : Prims Effect.Plain c fd w₂ (w₂.modify c fun o => { o with msRecvArmed := false }) :=
      .single (.change _ rfl rfl rfl id)
    exact hst.trans (Prims.strides
      (hdisarm.trans ((restartRecv_prims (hat₂.prims hdisarm).obj h).mono Effect.Recvs.plain)))

theorem recvHold_strides (hs : Serving c fd w) (h : w.recvHold c cqe = some w') : Strides finds w w' := by
  obtain ⟨-, rfl⟩ | ⟨hold, w₁, -, hkick, h⟩ := recvHold_cases h
  · exact .refl ..
  · have htake : Prims Effect.Plain c fd w (w.modify c fun o => { o with rxHold := none }) :=
      .single (.change _ rfl rfl rfl id)
    have hp₁ : Prims Effect.Plain c fd w
        ((w.modify c fun o => { o with rxHold := none }).pushSegment c ((w.holds hold).take cqe.res.toInt.toNat)) :=
      htake.trans (.single (.change _ rfl rfl rfl id))
    have hs₁ := hs.prims hp₁
    have hst : Strides finds w w₁ := (Prims.strides hp₁).trans (parseAndKick_strides hs₁ hkick)
    obtain ⟨-, rfl⟩ | ⟨-, h⟩ := h
    · exact hst
    · have hat₂ := hs₁.at_.prims (parseAndKick_prims hs₁.at_ hkick)
      exact hst.trans (Prims.strides ((restartRecv_prims hat₂.obj h).mono Effect.Recvs.plain))

theorem handleRecv_strides (hs : Serving c fd w) (h : w.handleRecv c fd cqe = some w') : Strides finds w w' := by
  obtain ⟨-, h⟩ | ⟨-, bid, -, -, h⟩ | ⟨-, -, h⟩ := handleRecv_cases h
  · exact Prims.strides ((recvFailed_prims hs.at_ h).mono fun e he => (Fails.tends e he).plain)
  · exact recvProvided_strides hs h
  · exact recvHold_strides hs h

theorem generateResponse_plain (hat : w.At c fd) (h : w.generateResponse c = some w') : Prims Effect.Plain c fd w w' :=
  (generateResponse_prims hat h).mono Effect.Responds.plain

theorem handleConn_strides {kind : Workflow} (hs : Serving c fd w) (h : w.handleConn c fd kind cqe = some w') :
    Strides (kind = .findHandler) w w' := by
  have hat := hs.at_
  have hflag : ∀ f : PerClientStorage → PerClientStorage, (f (w.heap c)).requestHandler = (w.heap c).requestHandler →
      (f (w.heap c)).fd = (w.heap c).fd → (f (w.heap c)).parser = (w.heap c).parser →
      ((w.heap c).closing = true → (f (w.heap c)).closing = true) → Prims Effect.Plain c fd w (w.modify c f) :=
    fun f hhandler hfd hparser hclosing => .single (.change f hhandler hfd hparser hclosing)
  unfold handleConn at h
  cases kind with
  | recv => exact handleRecv_strides hs h
  | send => exact Prims.strides ((handleSend_prims hat h).mono fun e he => (Completes.tends e he).plain)
  | pollOut =>
    have hp := hflag (fun o => { o with polloutArmed := false }) rfl rfl rfl id
    exact Prims.strides (hp.trans ((sendkick_prims (hat.prims hp) h).mono Effect.Sends.plain))
  | requestFlush =>
    have hp := hflag (fun o => { o with sendkickPending := false }) rfl rfl rfl id
    exact Prims.strides (hp.trans ((sendkick_prims (hat.prims hp) h).mono Effect.Sends.plain))
  | parse => exact parseStep_strides hs h
  | findHandler =>
    cases h
    exact Stride.strides (.plain (.of_eq rfl rfl fun hno => absurd rfl hno))
  | generateResponse => exact Prims.strides (generateResponse_plain hat h)
  | requestClose => exact Prims.strides ((closeConn_prims hat h).mono fun e he => (Closes.tends e he).plain)
  | accept | closed | freeBuffer =>
    cases h
    exact .refl ..

/-! ## Completions -/

theorem addConn_plain (w : Worker) (cfd : Fd) : Plain finds w (w.addConn cfd).2 := by
  refine .of_eq rfl rfl fun _ q => ?_
  by_cases hq : q = w.nextPtr
  · rw [hq, addConn_obj]
    exact .inr rfl
  · rw [addConn_heap_ne w cfd hq]
    exact .inl rfl

theorem handle_strides {kind : Workflow} (hok : w.Ok) (hparsed : w.Parsed) (h : w.handle fd kind cqe = some w') :
    Strides (kind = .findHandler) w w' := by
  obtain ⟨c, hc, h⟩ | rfl | ⟨-, h⟩ | ⟨-, rfl⟩ := handle_cases h
  · exact handleConn_strides ⟨hok.at hc, hparsed, hok.lt fd c hc⟩ h
  · exact .refl ..
  · obtain ⟨-, h⟩ | ⟨-, b, w₁, hrecv, h⟩ := handleAccept_accepts h
    · exact Prims.strides ((h 0 0).mono Effect.Accepts.plain)
    · have hrecv := (startRecv_prims (by rw [addConn_obj]) hrecv).mono Effect.Recvs.plain
      exact (Stride.strides (.plain (addConn_plain w cqe.res))).trans
        ((Prims.strides hrecv).trans (Prims.strides ((h 0 0).mono Effect.Accepts.plain)))
  · exact Stride.strides (.plain (.of_eq rfl rfl fun _ _ => .inl rfl))

theorem startUp_plain {listenFd : Fd} {cfg : WorkerConfig} {routes : Routes} {allocated : Bool} {env : Env}
    (h : startUp listenFd cfg routes allocated env = some w) :
    Plain finds { listenFd := listenFd, cfg := cfg, routes := routes, env := env } w := by
  obtain ⟨w₁, hpool, h⟩ := Option.bind_eq_some_iff.mp h
  obtain ⟨⟨n, w₂⟩, hacc, h⟩ := Option.bind_eq_some_iff.mp h
  cases h
  have hpool : Plain finds { listenFd := listenFd, cfg := cfg, routes := routes, env := env } w₁ := by
    unfold initBufferPool at hpool
    split at hpool
    · obtain ⟨⟨m, w₃⟩, hprov, hpool⟩ := Option.bind_eq_some_iff.mp hpool
      cases hpool
      have hprov := (show Prims Effect.Provides 0 0 _ w₃ from provideAll_prims hprov).mono Effect.Provides.plain
      exact (Prims.plain hprov).trans (.of_eq rfl rfl fun _ _ => .inl rfl)
    · cases hpool
      exact .of_eq rfl rfl fun _ _ => .inl rfl
  have haccepts := (show Prims Effect.Accepts 0 0 w₁ w₂ from postInitialAccepts_prims hacc).mono Effect.Accepts.plain
  exact (hpool.trans (Prims.plain haccepts)).trans (.of_eq rfl rfl fun _ _ => .inl rfl)

/-! ## Tasks -/

/-- The task was posted after the parser of `c` had read a part of what it has been fed. -/
def Justified (evs : List Event) (c : Ptr) (kind : Workflow) : Prop :=
  ∃ p q, fed c evs = p ++ q ∧ (({} : ProcessingMachine).onSegment p).Posts kind

theorem Justified.append {evs : List Event} {kind : Workflow} (h : Justified evs c kind) (evs' : List Event) :
    Justified (evs ++ evs') c kind := by
  obtain ⟨p, q, hfed, hposts⟩ := h
  exact ⟨p, q ++ fed c evs', by rw [fed_append, hfed, List.append_assoc], hposts⟩

/-- Every task that is no flush was posted for what its connection's parser had read. -/
def TasksJustified (evs : List Event) : Prop :=
  ∀ e ∈ sqesOf evs, ∀ fd kind, e.op = .msgRing fd kind → kind ≠ .requestFlush →
    ∃ c, e.owner = some c ∧ Justified evs c kind

theorem TasksJustified.nil : TasksJustified [] := fun _ h => absurd h List.not_mem_nil

theorem TasksJustified.append {evs evs' : List Event} (h : TasksJustified evs)
    (h' : ∀ e ∈ sqesOf evs', ∀ fd kind, e.op = .msgRing fd kind → kind ≠ .requestFlush →
      ∃ c, e.owner = some c ∧ Justified (evs ++ evs') c kind) :
    TasksJustified (evs ++ evs') := fun e he fd kind hop hk => by
  rw [sqesOf_append] at he
  rcases List.mem_append.mp he with he | he
  · obtain ⟨c, hown, hj⟩ := h e he fd kind hop hk
    exact ⟨c, hown, hj.append evs'⟩
  · exact h' e he fd kind hop hk

theorem TasksJustified.stride (h : TasksJustified w.trace) (hst : Stride finds w w') : TasksJustified w'.trace := by
  cases hst with
  | plain hp =>
    obtain ⟨evs, htrace, hev⟩ := hp.trace
    rw [htrace]
    exact h.append fun e he fd kind hop hk => absurd (hev _ (mem_sqesOf.mp he) fd kind hop) hk
  | reads c hr =>
    obtain ⟨seg, evs, htrace, hev, -⟩ := hr.trace
    rw [htrace]
    refine h.append fun e he fd kind hop hk => ?_
    have hmem : Event.sqe e ∈ evs := by
      rcases List.mem_cons.mp (mem_sqesOf.mp he) with heq | hmem
      · cases heq
      · exact hmem
    obtain ⟨e', fd', kind', hsqe, hown, hop', hposts⟩ := hev _ hmem
    cases hsqe
    obtain ⟨-, rfl⟩ : fd' = fd ∧ kind' = kind := by simpa using hop'.symm.trans hop
    refine ⟨c, hown, fed c (w.trace ++ [.segment c seg]), fed c evs, ?_, ?_⟩
    · rw [← fed_append, List.append_assoc]
      rfl
    · rcases parserOf_eq c (w.trace ++ [.segment c seg]) with ⟨hfresh, -⟩ | hread
      · rw [parserOf_append] at hfresh
        have hne := ProcessingMachine.feed_ne_notStarted
          (ProcessingMachine.start_ne_notStarted (parserOf c w.trace)) seg
        have hstate := congrArg ProcessingMachine.state hfresh
        simp only [Event.parse, if_true] at hstate
        exact absurd hstate hne
      · rw [← hread]
        exact hposts

end Worker

namespace Sys

open Worker

variable {d : Dispatch} {ok : Sys → Action → Prop} {s s' : Sys} {a : Action} {finds : Prop}

theorem arrive_plain (s : Sys) (p : Pending) (cqe : Cqe) (data : Bytes) (env : Env) :
    Plain finds s.w (s.arrive p cqe data env) := by
  unfold arrive fillBuffer
  split <;> exact .of_eq rfl rfl fun _ _ => .inl rfl

theorem Parsed.arrive {p : Pending} {cqe : Cqe} {data : Bytes} {env : Env} (h : s.w.Parsed) :
    (s.arrive p cqe data env).Parsed := by
  unfold Sys.arrive fillBuffer
  split <;> exact h.congr (fun _ => rfl) rfl (Nat.le_refl _)

/-- The strides of a step; a handler is found only where the completion is handled as `findHandler`. -/
theorem Step.strides (hok : s.w.Ok) (hparsed : s.w.Parsed) (h : Step d s a s') :
    Strides (∃ i cqe data env p fd, a = .complete i cqe data env ∧ s.pending[i]? = some p ∧
      d.read p = some (fd, .findHandler)) s.w s'.w := by
  cases h with
  | executeClose => exact .refl ..
  | endBatch => exact Stride.strides (.plain (.of_eq rfl rfl fun _ _ => .inl rfl))
  | @complete i cqe data env p w' hp hadm hw =>
    refine (Stride.strides (.plain (arrive_plain s p cqe data env))).trans ?_
    have hok' := hok.move (arrive_move s p cqe data env)
    unfold handled at hw
    split at hw
    · rename_i fd kind hread
      have hst := handle_strides hok' (Parsed.arrive hparsed) hw
      exact hst.mono fun hk => ⟨i, cqe, data, env, p, fd, rfl, hp, by rw [hread, hk]⟩
    · cases hw
      exact .refl ..

/-- What holds of a worker without connections and is kept by strides holds in every state of a run. -/
theorem stride_invariant {I : Worker → Prop}
    (h0 : ∀ listenFd cfg routes env, I { listenFd := listenFd, cfg := cfg, routes := routes, env := env })
    (h1 : ∀ w w', I w → Stride True w w' → I w') (h : Reachable d ok s) : I s.w := by
  have hstrides : ∀ {w w' : Worker}, I w → Strides True w w' → I w' := fun hI hst => by
    induction hst with
    | refl => exact hI
    | tail _ hst ih => exact h1 _ _ ih hst
  refine Reach.invariant_of (K := fun s => s.w.Ok ∧ s.w.Parsed) (I := fun s => I s.w)
    (fun _ hr => ⟨table_ok hr, parsed hr⟩) (fun s h => ?_) (fun s a s' hK hI _ h => ?_) s h
  · obtain ⟨listenFd, cfg, routes, allocated, env, h, -, -⟩ := h
    exact h1 _ _ (h0 ..) (.plain (startUp_plain h))
  · exact hstrides hI (((step_cases h).2.strides hK.1 hK.2).mono fun _ => trivial)

theorem tasks_justified (h : Reachable d ok s) : TasksJustified s.w.trace :=
  stride_invariant (I := fun w => TasksJustified w.trace) (fun _ _ _ _ => .nil) (fun _ _ hj hst => hj.stride hst) h

end Sys

end IOContext
