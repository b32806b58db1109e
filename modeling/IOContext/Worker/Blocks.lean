import IOContext.Worker.Prim

/-!
# The functions of the loop, by their effects

Each function that works on one connection is a sequence of primitive steps with few effects.

- `post` without the inline flush only submits a message (`postTask_prims`); a flush sends as well (`sendkick_prims`).
- `parseStep` feeds the parser and posts (`parseStep_prims`), `startRecv` receives (`startRecv_prims`), `closeConn`
  submits at most a close (`closeConn_prims`), `generateResponse` queues and flushes (`generateResponse_prims`).
- The branches of the switch that look a connection up are sequences too (`handleConn_prims`).
-/

namespace IOContext

namespace Worker

section

variable {L : Effect → Prop} {c : Ptr} {fd : Fd} {w w' w'' : Worker}

/-! ## Steps without an effect -/

theorem withSqes_prims (sqes : List Bool) : Prims L c fd w (w.withSqes sqes) := .single (.quiet ..)

theorem submitLater_prims (b : Bool) : Prims L c fd w (w.submitLater b) := by
  cases b
  · exact .refl
  · exact .single (.quiet ..)

theorem getSqeOrSubmit_eq {b : Bool} (h : w.getSqeOrSubmit = some (b, w')) :
    ∃ sqes, w.env.sqes = b :: sqes ∧ w' = w.withSqes sqes := by
  unfold getSqeOrSubmit at h
  split at h
  · cases h
  · rename_i b' bs heq
    cases h
    exact ⟨bs, heq, rfl⟩

/-! ## Tasks and sends -/

/-- A task that is no flush. -/
theorem postTask_prims {kind : Workflow} (hat : w.At c fd) (ht : kind.IsTask) (hk : kind ≠ .requestFlush)
    {sqes : List Bool}
    (h : w.postTask fd kind sqes = some w') : Prims Effect.Posts c fd w w' := by
  match sqes, h with
  | true :: sqes, h =>
    simp only [postTask, hat.table, Option.some.injEq] at h
    subst h
    exact ((withSqes_prims sqes).tail (.submit (.msg fd kind) (.own rfl (by exact ht)))).tail (.quiet ..)
  | false :: sqes, h =>
    simp only [postTask, if_neg hk, Option.some.injEq] at h
    subst h
    exact withSqes_prims sqes

theorem post_prims {kind : Workflow} (hat : w.At c fd) (ht : kind.IsTask) (hk : kind ≠ .requestFlush)
    (h : w.post c kind = some w') : Prims Effect.Posts c fd w w' :=
  postTask_prims hat ht hk (by rw [← hat.obj]; exact h)

theorem takeBatch_prims (h : (w.heap c).Ready) : Prims Effect.Sends c fd w (w.modify c PerClientStorage.takeBatch) :=
  .single (.change _ (.takeBatch _ h) rfl rfl id)

theorem rollback_prims : Prims Effect.Sends c fd w (w.modify c PerClientStorage.rollback) :=
  .single (.change _ (.rollback _) rfl rfl id)

mutual

theorem flushTask_prims : ∀ {sqes : List Bool} {w : Worker}, w.At c fd →
    w.postTask fd .requestFlush sqes = some w' → Prims Effect.Sends c fd w w'
  | true :: sqes, w, hat, h => by
    simp only [postTask, hat.table, Option.some.injEq] at h
    subst h
    exact ((withSqes_prims sqes).tail (.submit (.flush fd) (.own rfl (by exact trivial)))).tail (.quiet ..)
  | false :: sqes, w, hat, h => by
    simp only [postTask, if_true, hat.table] at h
    exact sendkickInline_prims hat h

theorem sendkickInline_prims : ∀ {sqes : List Bool} {w : Worker}, w.At c fd →
    w.sendkickInline c sqes = some w' → Prims Effect.Sends c fd w w'
  | sqes, w, hat, h => by
    rw [sendkickInline] at h
    split at h
    · cases h
      exact withSqes_prims sqes
    · rename_i hready
      have hready := PerClientStorage.ready_iff.mpr hready
      match sqes, h with
      | true :: sqes, h =>
        simp only [heap_modify, Option.some.injEq] at h
        subst h
        have hfd : (w.heap c).takeBatch.fd = fd := hat.obj
        rw [hfd]
        exact (((takeBatch_prims hready).trans (withSqes_prims sqes)).tail
          (.submit (.send fd _) (.own rfl (by exact trivial)))).tail (.quiet ..)
      | false :: sqes, h =>
        have hback : Prims Effect.Sends c fd w _ := (takeBatch_prims hready).trans rollback_prims
        simp only [heap_modify] at h
        have hfd : (w.heap c).takeBatch.rollback.fd = fd := hat.obj
        rw [hfd] at h
        exact hback.trans (flushTask_prims (hat.prims hback) h)

end

theorem sendkick_prims (hat : w.At c fd) (h : w.sendkick c = some w') : Prims Effect.Sends c fd w w' :=
  sendkickInline_prims hat h

/-! ## Receiving, closing, polling -/

theorem startRecv_prims {b : Bool} (hobj : (w.heap c).fd = fd) (h : w.startRecv c = some (b, w')) :
    Prims Effect.Recvs c fd w w' := by
  unfold startRecv at h
  split at h
  · split at h
    · cases h
      exact .refl
    · obtain ⟨⟨b', w₁⟩, hsqe, h⟩ := Option.bind_eq_some_iff.mp h
      obtain ⟨sqes, -, rfl⟩ := getSqeOrSubmit_eq hsqe
      have hfd : ((w.withSqes sqes).heap c).fd = fd := hobj
      cases b' with
      | false =>
        cases h
        exact withSqes_prims sqes
      | true =>
        simp only [if_true, Option.some.injEq, Prod.mk.injEq] at h
        obtain ⟨-, rfl⟩ := h
        rw [hfd]
        exact ((withSqes_prims sqes).tail (.submit (.multishot fd) (.own rfl (by exact trivial)))).tail
          (.change _ (.armed _) rfl rfl id)
  · obtain ⟨⟨b', w₁⟩, hsqe, h⟩ := Option.bind_eq_some_iff.mp h
    obtain ⟨sqes, -, rfl⟩ := getSqeOrSubmit_eq hsqe
    have halloc : Prims Effect.Recvs c fd w _ := .single (.alloc .alloc)
    have hhold := halloc.tail (.change (fun o => { o with rxHold := some w.nextHold }) (.hold _ _) rfl rfl id)
    cases b' with
    | false =>
      cases h
      exact (hhold.trans (withSqes_prims sqes)).tail (.change _ (.hold _ _) rfl rfl id)
    | true =>
      simp only [if_true, Option.some.injEq, Prod.mk.injEq] at h
      obtain ⟨-, rfl⟩ := h
      have hfd : (((({ w with
          holds := Function.update w.holds w.nextHold (List.replicate RX_CAP 0), nextHold := w.nextHold + 1 } :
          Worker).modify c fun o => { o with rxHold := some w.nextHold }).withSqes sqes).heap c).fd = fd := by
        simpa [withSqes] using hobj
      rw [hfd]
      exact (hhold.trans (withSqes_prims sqes)).tail (.submit (.single fd _) (.own rfl (by exact trivial)))

theorem closeAsync_prims {b : Bool} (hat : w.At c fd) (h : w.closeAsync fd = some (b, w')) :
    Prims Effect.Closes c fd w w' := by
  obtain ⟨⟨b', w₁⟩, hsqe, h⟩ := Option.bind_eq_some_iff.mp h
  obtain ⟨sqes, -, rfl⟩ := getSqeOrSubmit_eq hsqe
  cases b' with
  | false =>
    cases h
    exact withSqes_prims sqes
  | true =>
    simp only [if_true, Option.some.injEq, Prod.mk.injEq] at h
    obtain ⟨-, rfl⟩ := h
    have htable : (w.withSqes sqes).table fd = some c := hat.table
    rw [htable]
    exact (withSqes_prims sqes).tail (.submit (.close fd) (.own rfl (by exact trivial)))

theorem updatePollout_prims {b : Bool} (hobj : (w.heap c).fd = fd) (h : w.updatePollout c = some (b, w')) :
    Prims Effect.Polls c fd w w' := by
  unfold updatePollout at h
  split at h
  · cases h
    exact .refl
  · obtain ⟨⟨b', w₁⟩, hsqe, h⟩ := Option.bind_eq_some_iff.mp h
    obtain ⟨sqes, -, rfl⟩ := getSqeOrSubmit_eq hsqe
    have hfd : ((w.withSqes sqes).heap c).fd = fd := hobj
    cases b' with
    | false =>
      cases h
      exact withSqes_prims sqes
    | true =>
      simp only [if_true, Option.some.injEq, Prod.mk.injEq] at h
      obtain ⟨-, rfl⟩ := h
      rw [hfd]
      exact ((withSqes_prims sqes).tail (.submit (.poll fd) (.own rfl (by exact trivial)))).tail
        (.change _ (.armed _) rfl rfl id)

theorem restartRecv_prims (hobj : (w.heap c).fd = fd) (h : w.restartRecv c = some w') :
    Prims Effect.Recvs c fd w w' := by
  unfold restartRecv at h
  split at h
  · cases h
    exact .refl
  · obtain ⟨⟨b, w₁⟩, hstart, h⟩ := Option.bind_eq_some_iff.mp h
    cases h
    exact (startRecv_prims hobj hstart).trans (submitLater_prims b)

theorem closeConn_prims (hat : w.At c fd) (h : w.closeConn c fd = some w') : Prims Effect.Closes c fd w w' := by
  obtain ⟨⟨b, w₁⟩, hclose, h⟩ := Option.bind_eq_some_iff.mp h
  cases h
  have hmark : Prims Effect.Closes c fd w (w.modify c fun o => { o with closing := true }) :=
    .single (.change _ (.closing _) rfl rfl fun _ => rfl)
  exact (hmark.trans (closeAsync_prims (hat.prims hmark) hclose)).trans (submitLater_prims b)

/-! ## Parsing -/

theorem Posts.reports : ∀ e, Effect.Posts e → Effect.Reports e
  | _, .msg fd kind => .msg fd kind

theorem Reports.parses : ∀ e, Effect.Reports e → Effect.Parses e
  | _, .msg fd kind => .msg fd kind
  | _, .closing o => .closing o
  | _, .crash => .crash

theorem postFindHandler_prims (hat : w.At c fd) (h : w.postFindHandler c = some w') :
    Prims Effect.Posts c fd w w' := by
  unfold postFindHandler at h
  split at h
  · exact post_prims hat (by exact trivial) (by decide) h
  · cases h
    exact .refl

theorem postGenerateResponse_prims (hat : w.At c fd) (h : w.postGenerateResponse c = some w') :
    Prims Effect.Reports c fd w w' := by
  unfold postGenerateResponse at h
  dsimp only at h
  split at h
  · split at h
    · split at h
      · split at h
        · exact (post_prims hat (by exact trivial) (by decide) h).mono Posts.reports
        · cases h
          exact .refl
      · cases h
        exact .single (.crash .crash)
    · exact (post_prims hat (by exact trivial) (by decide) h).mono Posts.reports
  · cases h
    exact .refl

theorem postParsed_prims (hat : w.At c fd) (h : w.postParsed c = some w') : Prims Effect.Reports c fd w w' := by
  obtain ⟨w₁, hfind, h⟩ := Option.bind_eq_some_iff.mp h
  have hp := postFindHandler_prims hat hfind
  exact (hp.mono Posts.reports).trans (postGenerateResponse_prims (hat.prims hp) h)

/-- What `parse_step` does with a segment once the parser has seen it. -/
theorem parseSegment_reports {b : Bool} {seg : OwnedBuf} {rxq : List OwnedBuf} (hat : w.At c fd)
    (hrxq : (w.heap c).rxq = seg :: rxq) (h : w.parseSegment c = some (b, w')) :
    Prims Effect.Reports c fd ((w.modify c fun o => { o with rxq := rxq, parser := o.parser.onSegment seg.wb }).log
      (.segment c seg.wb)) w' := by
  have hat₁ := hat.prims (.single (.segment (L := fun _ => True) trivial hrxq))
  unfold parseSegment at h
  simp only [hrxq] at h
  split at h
  · obtain ⟨w₁, hpost, h⟩ := Option.bind_eq_some_iff.mp h
    cases h
    have hmark : ∀ w₀ : Worker, Prims Effect.Reports c fd w₀ (w₀.modify c fun o => { o with closing := true }) :=
      fun w₀ => .single (.change _ (.closing _) rfl rfl fun _ => rfl)
    exact (hmark _).trans ((post_prims (hat₁.prims (hmark _)) (by exact trivial) (by decide) hpost).mono Posts.reports)
  · obtain ⟨w₁, hpost, h⟩ := Option.bind_eq_some_iff.mp h
    cases h
    exact postParsed_prims hat₁ hpost

theorem parseSegment_prims {b : Bool} (hat : w.At c fd) (h : w.parseSegment c = some (b, w')) :
    Prims Effect.Parses c fd w w' := by
  cases hrxq : (w.heap c).rxq with
  | nil =>
    simp only [parseSegment, hrxq] at h
    cases h
    exact .refl
  | cons seg rxq =>
    exact Relation.ReflTransGen.head (.segment .segment hrxq)
      ((parseSegment_reports hat hrxq h).mono Reports.parses)

theorem parseSegments_prims : ∀ {n : Nat} {w : Worker} {b : Bool}, w.At c fd →
    parseSegments c n w = some (b, w') → Prims Effect.Parses c fd w w'
  | 0, _, _, _, h => by
    cases h
    exact .refl
  | n + 1, w, b, hat, h => by
    obtain ⟨⟨stop, w₁⟩, hseg, h⟩ := Option.bind_eq_some_iff.mp h
    have hp := parseSegment_prims hat hseg
    cases stop with
    | true =>
      cases h
      exact hp
    | false => exact hp.trans (parseSegments_prims (hat.prims hp) h)

theorem parsePass_prims {b : Bool} (hat : w.At c fd) (h : w.parsePass c = some (b, w')) :
    Prims Effect.Parses c fd w w' := by
  unfold parsePass at h
  split at h
  · cases h
    exact .refl
  · exact parseSegments_prims hat h

theorem parsePasses_prims : ∀ {n k : Nat} {w : Worker}, w.At c fd → parsePasses c n k w = some w' →
    Prims Effect.Parses c fd w w'
  | 0, _, _, _, h => by
    cases h
    exact .refl
  | n + 1, k, w, hat, h => by
    obtain ⟨⟨last, w₁⟩, hpass, h⟩ := Option.bind_eq_some_iff.mp h
    have hp := parsePass_prims hat hpass
    cases last with
    | true =>
      cases h
      exact hp
    | false =>
      simp only [Bool.false_eq_true, if_false] at h
      split at h
      · cases h
        exact hp
      · exact hp.trans (parsePasses_prims (hat.prims hp) h)

theorem parseStep_prims (hat : w.At c fd) (h : w.parseStep c = some w') : Prims Effect.Parses c fd w w' :=
  parsePasses_prims (n := PROC_MAX_SEGMENTS) (k := 0) hat h

/-! ## Responses -/

theorem Sends.responds : ∀ e, Effect.Sends e → Effect.Responds e := fun _ => .sends

theorem enqueueAll_prims (hL : L .enqueue) (bufs : List OwnedBuf) : Prims L c fd w (w.enqueueAll c bufs) := by
  induction bufs generalizing w with
  | nil => exact .refl
  | cons b bufs ih => exact Relation.ReflTransGen.head (.enqueue hL b) ih

/-- Queueing buffers touches nothing but the queue. -/
theorem enqueueAll_eq (w : Worker) (c : Ptr) (bufs : List OwnedBuf) :
    (w.enqueueAll c bufs).env = w.env ∧ (w.enqueueAll c bufs).trace = w.trace ++ bufs.map (.enqueue c) ∧
      (w.enqueueAll c bufs).heap c = { w.heap c with txq := (w.heap c).txq ++ bufs } := by
  induction bufs generalizing w with
  | nil => simp [enqueueAll]
  | cons b bufs ih =>
    obtain ⟨henv, htrace, hobj⟩ := ih ((w.modify c fun o => { o with txq := o.txq ++ [b] }).log (.enqueue c b))
    unfold enqueueAll at henv htrace hobj ⊢
    rw [List.foldl_cons, henv, htrace, hobj]
    simp [modify, log]

/-- The handler is called, its response is queued, and a flush is posted. -/
theorem generateResponse_eq (hat : w.At c fd) {hd : Handler} (hh : (w.heap c).requestHandler = some hd)
    (h : w.generateResponse c = some w') : ∃ w₁ sqes, Prims Effect.Responds c fd w w₁ ∧ w₁.At c fd ∧
      w₁.trace = w.trace ++ .invoke c hd (w.heap c).parser.req (w.heap c).parser.res ::
        (PerClientStorage.responseBufs (hd (w.heap c).parser.req (w.heap c).parser.res)).map (.enqueue c) ∧
      (w₁.heap c).parser.req = (w.heap c).parser.req ∧ (w₁.heap c).rxq = (w.heap c).rxq ∧
      w₁.postTask fd .requestFlush sqes = some w' := by
  unfold generateResponse at h
  rw [hh] at h
  dsimp only at h
  have hres : ((w.invokeHandler c hd).heap c).parser.res = hd (w.heap c).parser.req (w.heap c).parser.res := by
    simp [invokeHandler]
  rw [hres] at h
  generalize PerClientStorage.responseBufs (hd (w.heap c).parser.req (w.heap c).parser.res) = bufs at h ⊢
  have hinv : Prims Effect.Responds c fd w (w.invokeHandler c hd) := .single (.invoke .invoke hd _)
  have hp := hinv.trans (enqueueAll_prims .enqueue bufs)
  have hat₁ := hat.prims hp
  obtain ⟨-, htrace, hobj⟩ := enqueueAll_eq (w.invokeHandler c hd) c bufs
  unfold post at h
  rw [hat₁.obj] at h
  refine ⟨_, _, hp, hat₁, ?_, ?_, ?_, h⟩
  · rw [htrace]
    simp [invokeHandler]
  · rw [hobj]
    simp [invokeHandler]
  · rw [hobj]
    simp [invokeHandler]

theorem generateResponse_prims (hat : w.At c fd) (h : w.generateResponse c = some w') :
    Prims Effect.Responds c fd w w' := by
  cases hh : (w.heap c).requestHandler with
  | none =>
    simp only [generateResponse, hh, Option.some.injEq] at h
    subst h
    exact .refl
  | some hd =>
    obtain ⟨w₁, sqes, hp, hat₁, -, -, -, hflush⟩ := generateResponse_eq hat hh h
    exact hp.trans ((flushTask_prims hat₁ hflush).mono Sends.responds)

/-! ## The switch -/

theorem postAccept_prims {b : Bool} (h : w.postAccept = some (b, w')) :
    Prims Effect.Accepts c fd w w' := by
  unfold postAccept at h
  split at h
  · split at h
    · cases h
      exact .refl
    · obtain ⟨⟨b', w₁⟩, hsqe, h⟩ := Option.bind_eq_some_iff.mp h
      obtain ⟨sqes, -, rfl⟩ := getSqeOrSubmit_eq hsqe
      cases b' with
      | false =>
        cases h
        exact withSqes_prims sqes
      | true =>
        cases h
        exact ((withSqes_prims sqes).tail (.submit (.accept (by exact trivial)) (.listen (by exact trivial)))).tail
          (.acceptMode .acceptMode ..)
  · obtain ⟨⟨b', w₁⟩, hsqe, h⟩ := Option.bind_eq_some_iff.mp h
    obtain ⟨sqes, -, rfl⟩ := getSqeOrSubmit_eq hsqe
    cases b' with
    | false =>
      cases h
      exact withSqes_prims sqes
    | true =>
      cases h
      exact (withSqes_prims sqes).tail (.submit (.accept (by exact trivial)) (.listen (by exact trivial)))

theorem Sends.tends : ∀ e, Effect.Sends e → Effect.Tends e
  | _, .flush _ => rfl
  | _, .send _ _ => id
  | _, .takeBatch _ _ | _, .rollback _ => ⟨rfl, rfl⟩

theorem Sends.works (e : Effect) (h : Effect.Sends e) : Effect.Works e := Effect.Tends.works e (Sends.tends e h)

theorem Responds.works : ∀ e, Effect.Responds e → Effect.Works e
  | _, .sends h => Sends.works _ h
  | _, .enqueue => trivial
  | _, .invoke => trivial

theorem Parses.works : ∀ e, Effect.Parses e → Effect.Works e
  | _, .msg _ _ => id
  | _, .segment | _, .crash => trivial
  | _, .closing _ => trivial

theorem Recvs.tends : ∀ e, Effect.Recvs e → Effect.Tends e
  | _, .multishot _ => id
  | _, .single _ _ => id
  | _, .alloc => trivial
  | _, .armed _ | _, .hold _ _ => ⟨rfl, rfl⟩

theorem Recvs.works (e : Effect) (h : Effect.Recvs e) : Effect.Works e := Effect.Tends.works e (Recvs.tends e h)

theorem Provides.serves : ∀ e, Effect.Provides e → Effect.Serves e
  | _, .provide _ _ => id

theorem Closes.tends : ∀ e, Effect.Closes e → Effect.Tends e
  | _, .close _ => id
  | _, .closing _ => ⟨rfl, rfl⟩

theorem Closes.works (e : Effect) (h : Effect.Closes e) : Effect.Works e := Effect.Tends.works e (Closes.tends e h)

theorem Polls.tends : ∀ e, Effect.Polls e → Effect.Tends e
  | _, .poll _ => id
  | _, .armed _ => ⟨rfl, rfl⟩

theorem parsesOrSends_receives (e : Effect) (h : Effect.Parses e ∨ Effect.Sends e) : Effect.Receives e :=
  h.elim .parses .sends

theorem Receives.works : ∀ e, Effect.Receives e → Effect.Works e
  | _, .parses h => Parses.works _ h
  | _, .sends h => Sends.works _ h
  | _, .recvs h => Recvs.works _ h
  | _, .queue _ _ | _, .disarm _ => trivial

theorem Fails.tends : ∀ e, Effect.Fails e → Effect.Tends e
  | _, .recvs h => Recvs.tends _ h
  | _, .closes h => Closes.tends _ h
  | _, .disarm _ => ⟨rfl, rfl⟩
  | _, .msRecvOff => trivial

theorem recvFailed_prims {res : Int32} (hat : w.At c fd) (h : w.recvFailed c fd res = some w') :
    Prims Effect.Fails c fd w w' := by
  have hdisarm : Prims Effect.Fails c fd w (w.modify c fun o => { o with msRecvArmed := false }) :=
    .single (.change _ (.disarm _) rfl rfl id)
  refine hdisarm.trans ?_
  unfold recvFailed at h
  dsimp only at h
  split at h
  · have hoff : Prims Effect.Fails c fd (w.modify c fun o => { o with msRecvArmed := false }) _ :=
      .single (.msRecvOff .msRecvOff)
    exact hoff.trans ((restartRecv_prims (hat.prims (hdisarm.trans hoff)).obj h).mono fun _ => .recvs)
  · exact (closeConn_prims (hat.prims hdisarm) h).mono fun _ => .closes

theorem parseAndKick_prims (hat : w.At c fd) (h : w.parseAndKick c = some w') :
    Prims (fun e => Effect.Parses e ∨ Effect.Sends e) c fd w w' := by
  obtain ⟨w₁, hparse, h⟩ := Option.bind_eq_some_iff.mp h
  have hp : Prims (fun e => Effect.Parses e ∨ Effect.Sends e) c fd w w₁ :=
    (parseStep_prims hat hparse).mono fun _ => .inl
  refine hp.trans ?_
  split at h
  · cases h
    exact .refl
  · split at h
    · exact (sendkick_prims (hat.prims hp) h).mono fun _ => .inr
    · cases h
      exact .refl

theorem pushSegment_prims (seg : Bytes) : Prims Effect.Works c fd w (w.pushSegment c seg) :=
  .single (.change _ trivial rfl rfl id)

theorem returnBuffer_prims {bid : Nat} (h : w.returnBuffer bid = some w') :
    Prims Effect.Provides c fd w w' := by
  obtain ⟨⟨b, w₁⟩, hsqe, h⟩ := Option.bind_eq_some_iff.mp h
  obtain ⟨sqes, -, rfl⟩ := getSqeOrSubmit_eq hsqe
  cases b with
  | false =>
    cases h
    exact withSqes_prims sqes
  | true =>
    cases h
    exact ((withSqes_prims sqes).tail (.submit (.provide _ bid) (.buffer _ bid))).trans (submitLater_prims true)

/-- The stages of a completion into a provided buffer; the receive is started again if it is over. -/
theorem recvProvided_cases {bid : Nat} {cqe : Cqe} (h : w.recvProvided c bid cqe = some w') :
    ∃ w₁ w₂, (w.pushSegment c ((w.bufPool bid).take cqe.res.toInt.toNat)).returnBuffer bid = some w₁ ∧
      w₁.parseAndKick c = some w₂ ∧
      ((w₂.terminated || cqe.more) = true ∧ w' = w₂ ∨
        (w₂.terminated || cqe.more) = false ∧
          (w₂.modify c fun o => { o with msRecvArmed := false }).restartRecv c = some w') := by
  obtain ⟨w₁, hback, h⟩ := Option.bind_eq_some_iff.mp h
  obtain ⟨w₂, hkick, h⟩ := Option.bind_eq_some_iff.mp h
  refine ⟨w₁, w₂, hback, hkick, ?_⟩
  split at h
  · rename_i hstop
    exact .inl ⟨hstop, (Option.some.inj h).symm⟩
  · rename_i hgo
    exact .inr ⟨Bool.eq_false_iff.mpr hgo, h⟩

/-- The stages of a completion into `rx_hold`. -/
theorem recvHold_cases {cqe : Cqe} (h : w.recvHold c cqe = some w') :
    (w.heap c).rxHold = none ∧ w' = w ∨
    ∃ hold w₁, (w.heap c).rxHold = some hold ∧
      ((w.modify c fun o => { o with rxHold := none }).pushSegment c
        ((w.holds hold).take cqe.res.toInt.toNat)).parseAndKick c = some w₁ ∧
      (w₁.terminated = true ∧ w' = w₁ ∨ w₁.terminated = false ∧ w₁.restartRecv c = some w') := by
  unfold recvHold at h
  split at h
  · rename_i hnone
    exact .inl ⟨hnone, (Option.some.inj h).symm⟩
  · rename_i hold hhold
    obtain ⟨w₁, hkick, h⟩ := Option.bind_eq_some_iff.mp h
    refine .inr ⟨hold, w₁, hhold, hkick, ?_⟩
    split at h
    · rename_i hterm
      exact .inl ⟨hterm, (Option.some.inj h).symm⟩
    · rename_i hgo
      exact .inr ⟨Bool.eq_false_iff.mpr hgo, h⟩

theorem recvProvided_prims {bid : Nat} {cqe : Cqe} (hat : w.At c fd) (h : w.recvProvided c bid cqe = some w') :
    Prims (fun e => Effect.Provides e ∨ Effect.Receives e) c fd w w' := by
  obtain ⟨w₁, w₂, hback, hkick, h⟩ := recvProvided_cases h
  have hpush : Prims (fun e => Effect.Provides e ∨ Effect.Receives e) c fd w
      (w.pushSegment c ((w.bufPool bid).take cqe.res.toInt.toNat)) :=
    .single (.change _ (.inr (.queue _ _)) rfl rfl id)
  have hp₁ := hpush.trans ((returnBuffer_prims hback).mono fun _ => .inl)
  have hp₂ := hp₁.trans ((parseAndKick_prims (hat.prims hp₁) hkick).mono fun e he => .inr (parsesOrSends_receives e he))
  refine hp₂.trans ?_
  obtain ⟨-, rfl⟩ | ⟨-, h⟩ := h
  · exact .refl
  · have hdisarm : Prims (fun e => Effect.Provides e ∨ Effect.Receives e) c fd w₂
        (w₂.modify c fun o => { o with msRecvArmed := false }) :=
      .single (.change _ (.inr (.disarm _)) rfl rfl id)
    exact hdisarm.trans ((restartRecv_prims (hat.prims (hp₂.trans hdisarm)).obj h).mono fun _ he => .inr (.recvs he))

theorem recvHold_prims {cqe : Cqe} (hat : w.At c fd) (h : w.recvHold c cqe = some w') :
    Prims Effect.Receives c fd w w' := by
  obtain ⟨-, rfl⟩ | ⟨hold, w₁, -, hkick, h⟩ := recvHold_cases h
  · exact .refl
  · have htake : Prims Effect.Receives c fd w (w.modify c fun o => { o with rxHold := none }) :=
      .single (.change _ (.recvs (.hold _ none)) rfl rfl id)
    have hp₁ := htake.tail (.change
      (fun o => { o with rxq := o.rxq ++ [⟨(w.holds hold).take cqe.res.toInt.toNat, false⟩] })
      (.queue _ _) rfl rfl id)
    have hp₂ := hp₁.trans ((parseAndKick_prims (hat.prims hp₁) hkick).mono parsesOrSends_receives)
    refine hp₂.trans ?_
    obtain ⟨-, rfl⟩ | ⟨-, h⟩ := h
    · exact .refl
    · exact (restartRecv_prims (hat.prims hp₂).obj h).mono fun _ => .recvs

/-- What a completion of a receive is: it has failed, or its bytes are in a provided buffer, or in `rx_hold`. -/
theorem handleRecv_cases {cqe : Cqe} (h : w.handleRecv c fd cqe = some w') :
    (cqe.res ≤ 0 ∧ w.recvFailed c fd cqe.res = some w') ∨
    (0 < cqe.res ∧ ∃ bid, (w.useMsRecv && w.haveBufPool) = true ∧ cqe.buffer = some bid ∧
      w.recvProvided c bid cqe = some w') ∨
    (0 < cqe.res ∧ (if w.useMsRecv && w.haveBufPool then cqe.buffer else none) = none ∧
      w.recvHold c cqe = some w') := by
  unfold handleRecv at h
  split at h
  · rename_i hres
    exact .inl ⟨hres, h⟩
  · rename_i hres
    have hpos := Int32.not_le.mp hres
    split at h
    · rename_i hmode
      split at h
      · rename_i bid hbuf
        exact .inr (.inl ⟨hpos, bid, hmode, hbuf, h⟩)
      · rename_i hbuf
        exact .inr (.inr ⟨hpos, by rw [if_pos hmode, hbuf], h⟩)
    · rename_i hmode
      exact .inr (.inr ⟨hpos, if_neg hmode, h⟩)

theorem handleRecv_prims {cqe : Cqe} (hat : w.At c fd) (h : w.handleRecv c fd cqe = some w') :
    Prims Effect.Serves c fd w w' := by
  have hreceives : ∀ e, Effect.Receives e → Effect.Serves e := fun e he => Effect.Works.serves e (Receives.works e he)
  obtain ⟨-, h⟩ | ⟨-, bid, -, -, h⟩ | ⟨-, -, h⟩ := handleRecv_cases h
  · exact (recvFailed_prims hat h).mono fun e he => Effect.Works.serves e (Effect.Tends.works e (Fails.tends e he))
  · exact (recvProvided_prims hat h).mono fun e he => he.elim (Provides.serves e) (hreceives e)
  · exact (recvHold_prims hat h).mono hreceives

theorem onSendCompleted_fd (o : PerClientStorage) : o.onSendCompleted.2.fd = o.fd := by
  unfold PerClientStorage.onSendCompleted
  dsimp only
  split <;> rfl

theorem onSendCompleted_parsed (o : PerClientStorage) : o.onSendCompleted.2.parser = o.parser := by
  unfold PerClientStorage.onSendCompleted
  dsimp only
  split <;> rfl

theorem onSendCompleted_closing (o : PerClientStorage) : o.onSendCompleted.2.closing = o.closing := by
  unfold PerClientStorage.onSendCompleted
  dsimp only
  split <;> rfl

theorem onSendCompleted_txq (o : PerClientStorage) : o.onSendCompleted.2.txq = o.txq := by
  unfold PerClientStorage.onSendCompleted
  dsimp only
  split <;> rfl

theorem onSendCompleted_kept (o : PerClientStorage) :
    o.onSendCompleted.2.rxq = o.rxq ∧ o.onSendCompleted.2.requestHandler = o.requestHandler := by
  unfold PerClientStorage.onSendCompleted
  dsimp only
  split <;> exact ⟨rfl, rfl⟩

theorem handleSend_prims {cqe : Cqe} (hat : w.At c fd) (h : w.handleSend c fd cqe = some w') :
    Prims Effect.Completes c fd w w' := by
  unfold handleSend at h
  split at h
  · split at h
    · obtain ⟨⟨b, w₁⟩, hpoll, h⟩ := Option.bind_eq_some_iff.mp h
      cases h
      have hp : Prims Effect.Completes c fd w (w.modify c PerClientStorage.rollback) :=
        rollback_prims.mono fun _ => .sends
      exact (hp.trans ((updatePollout_prims (hat.prims hp).obj hpoll).mono fun _ => .polls)).trans (submitLater_prims b)
    · exact (closeConn_prims hat h).mono fun _ => .closes
  · have hp : Prims Effect.Completes c fd w (w.modify c fun _ => (w.heap c).onSendCompleted.2) :=
      .single (.change _ (.done _) (onSendCompleted_fd _) (onSendCompleted_parsed _)
        fun hc => (onSendCompleted_closing _).trans hc)
    refine hp.trans ?_
    dsimp only at h
    split at h
    · exact (closeConn_prims (hat.prims hp) h).mono fun _ => .closes
    · exact (sendkick_prims (hat.prims hp) h).mono fun _ => .sends

theorem Completes.tends : ∀ e, Effect.Completes e → Effect.Tends e
  | _, .sends h => Sends.tends _ h
  | _, .polls h => Polls.tends _ h
  | _, .closes h => Closes.tends _ h
  | _, .done o => onSendCompleted_kept o

/-- The branches of the switch that look the connection up, except for a receive. -/
theorem handleConn_works {kind : Workflow} {cqe : Cqe} (hat : w.At c fd) (hkind : kind ≠ .recv)
    (h : w.handleConn c fd kind cqe = some w') : Prims Effect.Works c fd w w' := by
  unfold handleConn at h
  cases kind with
  | recv => exact absurd rfl hkind
  | send => exact (handleSend_prims hat h).mono fun e he => Effect.Tends.works e (Completes.tends e he)
  | pollOut =>
    have hp : Prims Effect.Works c fd w (w.modify c fun o => { o with polloutArmed := false }) :=
      .single (.change _ trivial rfl rfl id)
    exact hp.trans ((sendkick_prims (hat.prims hp) h).mono Sends.works)
  | parse => exact (parseStep_prims hat h).mono Parses.works
  | findHandler =>
    cases h
    refine .single (.change _ trivial ?_ ?_ ?_) <;> unfold PerClientStorage.findHandler <;> split <;> simp
  | requestFlush =>
    have hp : Prims Effect.Works c fd w (w.modify c fun o => { o with sendkickPending := false }) :=
      .single (.change _ trivial rfl rfl id)
    exact hp.trans ((sendkick_prims (hat.prims hp) h).mono Sends.works)
  | generateResponse => exact (generateResponse_prims hat h).mono Responds.works
  | requestClose => exact (closeConn_prims hat h).mono Closes.works
  | accept | closed | freeBuffer =>
    cases h
    exact .refl

/-- The branches of the switch that look the connection up. -/
theorem handleConn_prims {kind : Workflow} {cqe : Cqe} (hat : w.At c fd) (h : w.handleConn c fd kind cqe = some w') :
    Prims Effect.Serves c fd w w' := by
  by_cases hkind : kind = .recv
  · subst hkind
    exact handleRecv_prims hat h
  · exact (handleConn_works hat hkind h).mono Effect.Works.serves

end

end Worker

end IOContext
