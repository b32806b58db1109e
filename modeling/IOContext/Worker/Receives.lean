import IOContext.Worker.Blocks
import IOContext.Worker.Trace

/-!
# What the handlers do to the bytes received

What the parser of a connection has been fed and what is in its receive queue are together the bytes it has `got`.

- Only a `Recv` completion changes what a connection has got, and it appends the bytes received (`Prims.got`,
  `recvProvided_receives`, `recvHold_receives`).
- A segment that arrives at an empty queue is taken from it at once (`pushSegment_empties`), so that the queue is empty
  between completions (`Drained`).
- A branch submits at most one receive, into the buffer that the connection then holds (`Rearms`, `startRecv_rearms`).
-/

namespace IOContext

/-- A receive of either mode. -/
def Op.Receives : Op → Prop
  | .recvMultishot _ | .recv _ _ => True
  | _ => False

instance : DecidablePred Op.Receives
  | .recvMultishot _ | .recv _ _ => isTrue trivial
  | .provideBuffers _ _ | .accept _ | .multishotAccept _ | .close _ | .pollAdd _ | .sendmsg _ _ | .msgRing _ _ =>
      isFalse id

/-- The receives among the submissions for `c`. -/
def recvsOf (c : Ptr) (evs : List Event) : List Sqe :=
  (sqesOf evs).filter fun e => decide (e.owner = some c ∧ e.op.Receives)

@[simp] theorem recvsOf_append (c : Ptr) (evs evs' : List Event) :
    recvsOf c (evs ++ evs') = recvsOf c evs ++ recvsOf c evs' := by simp [recvsOf]

namespace Effect

/-- No receive is submitted. -/
def NoRecv : Effect → Prop
  | .submit op => ¬op.Receives
  | _ => True

/-- Only the parser takes from the receive queue, and nothing is put into it. -/
def KeepsRxq : Effect → Prop
  | .change o o' => o'.rxq = o.rxq
  | _ => True

/-- No receive is submitted, and the queue and the buffer are kept. -/
def QuietRx : Effect → Prop
  | .submit op => ¬op.Receives
  | .change o o' => o'.rxq = o.rxq ∧ o'.rxHold = o.rxHold
  | .alloc => False
  | _ => True

/-- No receive is submitted, and `rx_hold` is kept. -/
def Awaits : Effect → Prop
  | .submit op => ¬op.Receives
  | .change o o' => o'.rxHold = o.rxHold
  | .alloc => False
  | _ => True

theorem QuietRx.awaits : ∀ e, QuietRx e → Awaits e
  | .submit _, h => h
  | .change _ _, h => h.2
  | .segment, _ | .enqueue, _ | .invoke, _ | .msRecvOff, _ | .acceptMode, _ | .crash, _ => trivial

theorem Awaits.noRecv : ∀ e, Awaits e → NoRecv e
  | .submit _, h => h
  | .change _ _, _ | .segment, _ | .enqueue, _ | .invoke, _ | .msRecvOff, _ | .acceptMode, _ | .crash, _ => trivial

theorem QuietRx.noRecv (e : Effect) (h : QuietRx e) : NoRecv e := h.awaits.noRecv

theorem QuietRx.keepsRxq : ∀ e, QuietRx e → KeepsRxq e
  | .change _ _, h => h.1
  | .submit _, _ | .segment, _ | .enqueue, _ | .invoke, _ | .msRecvOff, _ | .acceptMode, _ | .crash, _ => trivial

theorem Recvs.keepsRxq : ∀ e, Recvs e → KeepsRxq e
  | _, .multishot _ => trivial
  | _, .single _ _ => trivial
  | _, .alloc => trivial
  | _, .armed _ | _, .hold _ _ => rfl

theorem Listens.keepsRxq : ∀ e, Listens e → KeepsRxq e
  | _, .submit _ => trivial
  | _, .acceptMode => trivial

theorem Reports.quietRx : ∀ e, Reports e → QuietRx e
  | _, .msg _ _ => id
  | _, .crash => trivial
  | _, .closing _ => ⟨rfl, rfl⟩

theorem Parses.quietRx : ∀ e, Parses e → QuietRx e
  | _, .msg _ _ => id
  | _, .segment | _, .crash => trivial
  | _, .closing _ => ⟨rfl, rfl⟩

theorem Sends.quietRx : ∀ e, Sends e → QuietRx e
  | _, .flush _ => id
  | _, .send _ _ => id
  | _, .takeBatch _ _ | _, .rollback _ => ⟨rfl, rfl⟩

theorem Responds.quietRx : ∀ e, Responds e → QuietRx e
  | _, .sends h => h.quietRx
  | _, .enqueue => trivial
  | _, .invoke => trivial

theorem Provides.quietRx : ∀ e, Provides e → QuietRx e
  | _, .provide _ _ => id

theorem Closes.quietRx : ∀ e, Closes e → QuietRx e
  | _, .close _ => id
  | _, .closing _ => ⟨rfl, rfl⟩

theorem Polls.quietRx : ∀ e, Polls e → QuietRx e
  | _, .poll _ => id
  | _, .armed _ => ⟨rfl, rfl⟩

end Effect

namespace Worker

/-- What the parser of `c` has been fed, and what is in the queue. -/
def got (w : Worker) (c : Ptr) : Bytes := fed c w.trace ++ (w.heap c).rxq.flatMap (·.wb)

/-- The parser has erred, or the queue is empty. -/
def Drained (w : Worker) (c : Ptr) : Prop := (w.heap c).parser.state = .errorState ∨ (w.heap c).rxq = []

/-- The connection is ready for a completion of the receive. -/
def Armed (w : Worker) (c : Ptr) : Op → Prop
  | .recvMultishot _ => w.haveBufPool = true
  | .recv _ hold => (w.heap c).rxHold = some hold
  | _ => False

/-- At most one receive is submitted for `c`. -/
def Rearms (c : Ptr) (w w' : Worker) : Prop :=
  ∃ evs, w'.trace = w.trace ++ evs ∧ (recvsOf c evs = [] ∨ ∃ e, recvsOf c evs = [e] ∧ w'.Armed c e.op)

section

variable {L : Effect → Prop} {c q : Ptr} {fd : Fd} {w w' w'' : Worker}

/-! ## Primitive steps -/

theorem Prim.got (h : Prim Effect.KeepsRxq c fd w w') (q : Ptr) :
    w'.got q = w.got q := by
  unfold Worker.got
  by_cases hq : q = c
  · subst hq
    cases h with
    | change f hL => simp [show (f (w.heap q)).rxq = (w.heap q).rxq from hL]
    | segment _ hrxq => simp [hrxq, Event.feeds]
    | enqueue | invoke => simp [Event.feeds]
    | submit => simp [prep, log, Event.feeds]
    | quiet | crash | alloc | msRecvOff | acceptMode => rfl
  · rw [h.frame.heap q hq]
    cases h with
    | segment => simp [Event.feeds, Ne.symm hq]
    | enqueue | invoke => simp [Event.feeds]
    | submit => simp [prep, log, Event.feeds]
    | quiet | crash | change | alloc | msRecvOff | acceptMode => rfl

/-- A sequence that leaves the queue to the parser changes nothing of what has been got. -/
theorem Prims.got (h : Prims Effect.KeepsRxq c fd w w') (q : Ptr) : w'.got q = w.got q :=
  h.lift (R := fun w w' => w'.got q = w.got q) (fun _ => rfl) (fun _ _ _ h h' => h'.trans h)
    fun _ _ h => h.got q

/-- A parser that has erred stays so. -/
theorem Prims.errored (h : Prims L c fd w w') (herr : (w.heap c).parser.state = .errorState) :
    (w'.heap c).parser.state = .errorState :=
  h.lift (R := fun w w' => (w.heap c).parser.state = .errorState → (w'.heap c).parser.state = .errorState)
    (fun _ => id) (fun _ _ _ h h' => h' ∘ h) (fun w w' h herr => by
      cases h with
      | change f _ _ hparser _ => simpa [hparser] using herr
      | segment => simpa [ProcessingMachine.onSegment_error herr] using herr
      | invoke | enqueue => simpa using herr
      | quiet | crash | alloc | msRecvOff | acceptMode | submit => exact herr) herr

/-- An empty queue stays empty. -/
theorem Prims.rxq_nil (h : Prims Effect.KeepsRxq c fd w w') (hempty : (w.heap c).rxq = []) : (w'.heap c).rxq = [] :=
  h.lift (R := fun w w' => (w.heap c).rxq = [] → (w'.heap c).rxq = []) (fun _ => id) (fun _ _ _ h h' => h' ∘ h)
    (fun w w' h hempty => by
      cases h with
      | change f hL => simpa [show (f (w.heap c)).rxq = (w.heap c).rxq from hL] using hempty
      | segment _ hrxq =>
        rw [hempty] at hrxq
        cases hrxq
      | invoke | enqueue => simpa using hempty
      | quiet | crash | alloc | msRecvOff | acceptMode | submit => exact hempty) hempty

theorem Prims.drained (h : Prims Effect.KeepsRxq c fd w w') (hd : w.Drained c) : w'.Drained c :=
  hd.imp h.errored h.rxq_nil

/-- Only the receives of the connection itself are submitted. -/
theorem Prims.recvsOf_ne (h : Prims L c fd w w') (hq : q ≠ c) :
    ∃ evs, w'.trace = w.trace ++ evs ∧ recvsOf q evs = [] := by
  obtain ⟨evs, htrace, hev⟩ := h.trace
  refine ⟨evs, htrace, List.filter_eq_nil_iff.mpr fun e he => ?_⟩
  have hfor := (hev _ (mem_sqesOf.mp he)).2
  cases hown : e.owner with
  | none => simp
  | some c' =>
    rw [hown] at hfor
    generalize e.op = op at hfor
    cases hfor
    simp [Ne.symm hq]

theorem Prims.recvsOf (hsubmit : ∀ op, L (.submit op) → ¬op.Receives) (h : Prims L c fd w w') (q : Ptr) :
    ∃ evs, w'.trace = w.trace ++ evs ∧ recvsOf q evs = [] := by
  obtain ⟨evs, htrace, hev⟩ := h.trace
  refine ⟨evs, htrace, List.filter_eq_nil_iff.mpr fun e he => ?_⟩
  simp [hsubmit _ (hev _ (mem_sqesOf.mp he)).1]

theorem Prims.rxHold (h : Prims Effect.Awaits c fd w w') : (w'.heap c).rxHold = (w.heap c).rxHold :=
  h.lift (R := fun w w' => (w'.heap c).rxHold = (w.heap c).rxHold) (fun _ => rfl) (fun _ _ _ h h' => h'.trans h)
    fun w w' h => by
      cases h with
      | change f hL => simpa using show (f (w.heap c)).rxHold = (w.heap c).rxHold from hL
      | segment | invoke | enqueue => simp
      | alloc hL => exact hL.elim
      | quiet | crash | msRecvOff | acceptMode | submit => rfl

theorem Armed.congr {op : Op} (h : w.Armed c op) (hpool : w'.haveBufPool = w.haveBufPool)
    (hhold : (w'.heap c).rxHold = (w.heap c).rxHold) : w'.Armed c op := by
  unfold Armed at h ⊢
  cases op with
  | recvMultishot => exact hpool.trans h
  | recv => exact hhold.trans h
  | _ => exact h

theorem Armed.prims {op : Op} (h : w.Armed c op) (hp : Prims Effect.QuietRx c fd w w') : w'.Armed c op :=
  h.congr hp.frame.haveBufPool (hp.mono Effect.QuietRx.awaits).rxHold

theorem Rearms.of_prims (h : Prims Effect.NoRecv c fd w w') : Rearms c w w' := by
  obtain ⟨evs, htrace, hnone⟩ := h.recvsOf (fun _ => id) c
  exact ⟨evs, htrace, .inl hnone⟩

theorem Rearms.head (h : Prims Effect.NoRecv c fd w w') (h' : Rearms c w' w'') : Rearms c w w'' := by
  obtain ⟨evs, htrace, hnone⟩ := h.recvsOf (fun _ => id) c
  obtain ⟨evs', htrace', h'⟩ := h'
  exact ⟨evs ++ evs', by rw [htrace', htrace, List.append_assoc], by rwa [recvsOf_append, hnone]⟩

theorem Rearms.tail (h : Rearms c w w') (h' : Prims Effect.QuietRx c fd w' w'') : Rearms c w w'' := by
  obtain ⟨evs, htrace, h⟩ := h
  obtain ⟨evs', htrace', hnone⟩ := h'.recvsOf (fun _ => id) c
  refine ⟨evs ++ evs', by rw [htrace', htrace, List.append_assoc], ?_⟩
  rw [recvsOf_append, hnone, List.append_nil]
  exact h.imp id fun ⟨e, he, harmed⟩ => ⟨e, he, harmed.prims h'⟩

/-! ## Parsing -/

/-- A single segment is taken from the queue. -/
theorem parseSegment_empties {seg : OwnedBuf} {b : Bool} (hat : w.At c fd) (hrxq : (w.heap c).rxq = [seg])
    (h : w.parseSegment c = some (b, w')) : (w'.heap c).rxq = [] :=
  ((parseSegment_reports hat hrxq h).mono fun e he => (Effect.Reports.quietRx e he).keepsRxq).rxq_nil (by simp)

/-- A queue that is not too long is read in one pass. -/
theorem passLength_eq {n : Nat} (h : n ≤ PROC_MAX_SEGMENTS) : passLength n = n := by
  unfold PROC_MAX_SEGMENTS at h
  have hint : Int.bmod n 4294967296 = n := Int.bmod_eq_of_le (by omega) (by omega)
  show (min (32 : Int) (Int.bmod n 4294967296)).toNat = n
  rw [hint]
  omega

theorem passLength_one : passLength 1 = 1 := passLength_eq (by decide)

/-- An empty queue ends the loop. -/
theorem parsePasses_nil (hempty : (w.heap c).rxq = []) (n k : Nat) : parsePasses c n k w = some w := by
  cases n with
  | zero => rfl
  | succ n => simp [parsePasses, parsePass, hempty]

/-- `parse_step` on a single segment. -/
theorem parseStep_single {seg : OwnedBuf} (hat : w.At c fd) (hrxq : (w.heap c).rxq = [seg]) :
    w.parseStep c = (w.parseSegment c).map (·.2) := by
  show parsePasses c (PROC_MAX_SEGMENTS - 1 + 1) 0 w = _
  simp only [parsePasses, parsePass, hrxq, List.isEmpty_cons, Bool.false_eq_true, if_false, List.length_singleton,
    passLength_one, parseSegments]
  cases hseg : w.parseSegment c with
  | none => rfl
  | some r =>
    obtain ⟨b, w₁⟩ := r
    have hempty : (w₁.heap c).rxq = [] := parseSegment_empties hat hrxq hseg
    cases b
    · simp only [Option.bind_eq_bind, Option.bind_some, Bool.false_eq_true, if_false, parsePasses_nil hempty,
        Option.map_some]
      split <;> rfl
    · rfl

/-- A queue of one segment is emptied. -/
theorem parseStep_empties (hat : w.At c fd) (h : w.parseStep c = some w') (hlen : (w.heap c).rxq.length ≤ 1) :
    (w'.heap c).rxq = [] := by
  match hrxq : (w.heap c).rxq, hlen with
  | [], _ =>
    rw [parseStep, parsePasses_nil hrxq] at h
    cases h
    exact hrxq
  | [seg], _ =>
    rw [parseStep_single hat hrxq] at h
    obtain ⟨⟨b, w₁⟩, hseg, rfl⟩ := Option.map_eq_some_iff.mp h
    exact parseSegment_empties hat hrxq hseg

theorem parseAndKick_quietRx (hat : w.At c fd) (h : w.parseAndKick c = some w') : Prims Effect.QuietRx c fd w w' :=
  (parseAndKick_prims hat h).mono fun _ he => he.elim (Effect.Parses.quietRx _) (Effect.Sends.quietRx _)

theorem parseAndKick_empties (hat : w.At c fd) (h : w.parseAndKick c = some w') (hlen : (w.heap c).rxq.length ≤ 1) :
    (w'.heap c).rxq = [] := by
  obtain ⟨w₁, hparse, h⟩ := Option.bind_eq_some_iff.mp h
  have hempty := parseStep_empties hat hparse hlen
  split at h
  · cases h
    exact hempty
  · split at h
    · have hp := (sendkick_prims (hat.prims (parseStep_prims hat hparse)) h).mono Effect.Sends.quietRx
      exact (hp.mono Effect.QuietRx.keepsRxq).rxq_nil hempty
    · cases h
      exact hempty

/-- Returning the buffer leaves the segment at the end of the queue. -/
theorem pushSegment_rxq {seg : Bytes} (hp : Prims Effect.Provides c fd (w.pushSegment c seg) w') :
    (w'.heap c).rxq = (w.heap c).rxq ++ [⟨seg, false⟩] := by
  have hkeep := hp.keepsRx (fun _ _ h => by cases h) (fun h => by cases h)
  rw [hkeep.rxq]
  simp [pushSegment]

/-- A segment that arrives at an empty queue is taken from it at once. -/
theorem pushSegment_empties (hat : w.At c fd) (hempty : (w.heap c).rxq = []) {seg : Bytes}
    (hp : Prims Effect.Provides c fd (w.pushSegment c seg) w') (h : w'.parseAndKick c = some w'') :
    w''.At c fd ∧ (w''.heap c).rxq = [] := by
  have hpush : Prims Effect.Works c fd w (w.pushSegment c seg) := pushSegment_prims seg
  have hat' := (hat.prims hpush).prims hp
  refine ⟨hat'.prims (parseAndKick_quietRx hat' h), parseAndKick_empties hat' h ?_⟩
  rw [pushSegment_rxq hp, hempty]
  exact Nat.le_refl _

/-- A segment that arrives is parsed at once. -/
theorem pushSegment_drains (hat : w.At c fd) (hd : w.Drained c) (seg : Bytes) (hp : Prims Effect.Provides c fd
    (w.pushSegment c seg) w') (h : w'.parseAndKick c = some w'') : w''.Drained c ∧ w''.got c = w.got c ++ seg := by
  have hpush : Prims Effect.Works c fd w (w.pushSegment c seg) := pushSegment_prims seg
  have hkick := parseAndKick_quietRx ((hat.prims hpush).prims hp) h
  refine ⟨hd.imp (fun herr => ?_) fun hempty => (pushSegment_empties hat hempty hp h).2, ?_⟩
  · exact hkick.errored (hp.errored (hpush.errored herr))
  · have hquiet := (hp.mono Effect.Provides.quietRx).trans hkick
    rw [Prims.got (Prims.mono Effect.QuietRx.keepsRxq hquiet)]
    simp [Worker.got, pushSegment]

/-! ## Receiving -/

/-- The bytes that the `Recv` branch finds in the buffer of a completion. -/
def taken (w : Worker) (c : Ptr) (cqe : Cqe) : Option Bytes :=
  match (if w.useMsRecv && w.haveBufPool then cqe.buffer else none), (w.heap c).rxHold with
  | some bid, _ => some ((w.bufPool bid).take cqe.res.toInt.toNat)
  | none, some hold => some ((w.holds hold).take cqe.res.toInt.toNat)
  | none, none => none

/-- A completion with bytes is handled by where they are. -/
theorem handleRecv_eq {cqe : Cqe} (hres : 0 < cqe.res) :
    w.handleRecv c fd cqe = match if w.useMsRecv && w.haveBufPool then cqe.buffer else none with
      | some bid => w.recvProvided c bid cqe
      | none => w.recvHold c cqe := by
  rw [handleRecv, if_neg (Int32.not_le.mpr hres)]
  cases w.useMsRecv && w.haveBufPool <;> cases cqe.buffer <;> rfl

/-- Without a provided buffer the bytes are in `rx_hold`. -/
theorem taken_hold {cqe : Cqe} (hbuf : (if w.useMsRecv && w.haveBufPool then cqe.buffer else none) = none) :
    w.taken c cqe = (w.heap c).rxHold.map fun hold => (w.holds hold).take cqe.res.toInt.toNat := by
  unfold taken
  rw [hbuf]
  cases (w.heap c).rxHold <;> rfl

theorem Armed.rearms {op : Op} (h : w.Armed c op) (hop : op.Receives) (tag : Option UInt64) :
    Rearms c w (w.prep op (some c) tag) := by
  obtain ⟨e, rfl, howner, -, htrace⟩ := trace_prep w op (some c) tag
  refine ⟨[.sqe e], htrace, .inr ⟨e, ?_, h.congr rfl rfl⟩⟩
  simp [IOContext.recvsOf, sqesOf, howner, hop]

theorem startRecv_rearms {b : Bool} (h : w.startRecv c = some (b, w')) : Rearms c w w' := by
  have hsqes : ∀ sqes, Prims Effect.NoRecv c 0 w (w.withSqes sqes) := withSqes_prims
  unfold startRecv at h
  split at h
  · rename_i hmode
    split at h
    · cases h
      exact .of_prims (.refl : Prims Effect.NoRecv c 0 w w)
    · obtain ⟨⟨b', w₁⟩, hsqe, h⟩ := Option.bind_eq_some_iff.mp h
      obtain ⟨sqes, -, rfl⟩ := getSqeOrSubmit_eq hsqe
      cases b' with
      | false =>
        cases h
        exact .of_prims (hsqes sqes)
      | true =>
        cases h
        have harmed : (w.withSqes sqes).Armed c (.recvMultishot (w.heap c).fd) := (Bool.and_eq_true .. ▸ hmode).2
        have hmark : ∀ w₁ : Worker, Prims Effect.QuietRx c 0 w₁ (w₁.modify c fun o => { o with msRecvArmed := true }) :=
          fun _ => .single (.change _ ⟨rfl, rfl⟩ rfl rfl id)
        exact (Rearms.head (hsqes sqes) (harmed.rearms trivial _)).tail (hmark _)
  · obtain ⟨⟨b', w₁⟩, hsqe, h⟩ := Option.bind_eq_some_iff.mp h
    obtain ⟨sqes, -, rfl⟩ := getSqeOrSubmit_eq hsqe
    have halloc : Prims Effect.NoRecv c 0 w _ := .single (.alloc trivial)
    have hhold := halloc.tail (.change (fun o => { o with rxHold := some w.nextHold }) trivial rfl rfl id)
    cases b' with
    | false =>
      cases h
      exact .of_prims ((hhold.trans (withSqes_prims sqes)).tail (.change _ trivial rfl rfl id))
    | true =>
      cases h
      refine Rearms.head (hhold.trans (withSqes_prims sqes)) (Armed.rearms ?_ ?_ _)
      · simp [Armed]
      · trivial

theorem restartRecv_rearms (h : w.restartRecv c = some w') : Rearms c w w' := by
  unfold restartRecv at h
  split at h
  · cases h
    exact .of_prims (.refl : Prims Effect.NoRecv c 0 w w)
  · obtain ⟨⟨b, w₁⟩, hstart, h⟩ := Option.bind_eq_some_iff.mp h
    cases h
    have hlater : Prims Effect.QuietRx c 0 w₁ (w₁.submitLater b) := submitLater_prims b
    exact (startRecv_rearms hstart).tail hlater

/-! ## Completions -/

/-- What a completion does that brings the bytes `p`. -/
structure Receives (c : Ptr) (p : Bytes) (w w' : Worker) : Prop where
  got : w'.got c = w.got c ++ p
  drained : w'.Drained c
  rearms : Rearms c w w'

/-- A completion without bytes leaves the queue alone, and may start another receive. -/
theorem recvFailed_keepsRxq {res : Int32} (hat : w.At c fd) (h : w.recvFailed c fd res = some w') :
    Prims Effect.KeepsRxq c fd w w' ∧ Rearms c w w' := by
  have hdisarm : Prims Effect.QuietRx c fd w (w.modify c fun o => { o with msRecvArmed := false }) :=
    .single (.change _ ⟨rfl, rfl⟩ rfl rfl id)
  unfold recvFailed at h
  dsimp only at h
  split at h
  · have hoff := hdisarm.tail (.msRecvOff trivial)
    have hrestart := (restartRecv_prims (hat.prims hoff).obj h).mono Effect.Recvs.keepsRxq
    exact ⟨(Prims.mono Effect.QuietRx.keepsRxq hoff).trans hrestart,
      .head (Prims.mono Effect.QuietRx.noRecv hoff) (restartRecv_rearms h)⟩
  · have hp := hdisarm.trans ((closeConn_prims (hat.prims hdisarm) h).mono Effect.Closes.quietRx)
    exact ⟨Prims.mono Effect.QuietRx.keepsRxq hp, .of_prims (Prims.mono Effect.QuietRx.noRecv hp)⟩

/-- A completion without bytes. -/
theorem recvFailed_receives {res : Int32} (hat : w.At c fd) (hd : w.Drained c) (h : w.recvFailed c fd res = some w') :
    Receives c [] w w' := by
  obtain ⟨hkeep, hrearms⟩ := recvFailed_keepsRxq hat h
  exact ⟨by rw [hkeep.got, List.append_nil], hkeep.drained hd, hrearms⟩

/-- What looks like a receive that has ended, or one of a connection that is closing, starts no other. -/
theorem recvFailed_quietRx {res : Int32} (hat : w.At c fd) (hq : res = 0 ∨ (w.heap c).closing = true)
    (h : w.recvFailed c fd res = some w') : Prims Effect.QuietRx c fd w w' := by
  have hdisarm : Prims Effect.QuietRx c fd w (w.modify c fun o => { o with msRecvArmed := false }) :=
    .single (.change _ ⟨rfl, rfl⟩ rfl rfl id)
  unfold recvFailed at h
  dsimp only at h
  split at h
  · rename_i hres
    have hclosing : (w.heap c).closing = true := hq.resolve_left fun h0 => by
      rw [h0] at hres
      revert hres
      decide
    have hoff := hdisarm.tail (.msRecvOff trivial)
    unfold restartRecv at h
    rw [if_pos (by simpa using hclosing)] at h
    cases h
    exact hoff
  · exact hdisarm.trans ((closeConn_prims (hat.prims hdisarm) h).mono Effect.Closes.quietRx)

/-- The segment is parsed, and what follows may start another receive. -/
theorem recvProvided_receives {bid : Nat} {cqe : Cqe} (hat : w.At c fd) (hd : w.Drained c)
    (h : w.recvProvided c bid cqe = some w') :
    Receives c ((w.bufPool bid).take cqe.res.toInt.toNat) w w' ∧
      (cqe.more = true → Prims Effect.NoRecv c fd w w') := by
  obtain ⟨w₁, w₂, hback, hkick, h⟩ := recvProvided_cases h
  have hprov : Prims Effect.Provides c fd _ w₁ := returnBuffer_prims hback
  obtain ⟨hdrained, hgot⟩ := pushSegment_drains hat hd _ hprov hkick
  have hpush : Prims Effect.NoRecv c fd w (w.pushSegment c ((w.bufPool bid).take cqe.res.toInt.toNat)) :=
    .single (.change _ trivial rfl rfl id)
  have hp₁ := hpush.trans (hprov.mono fun e he => (Effect.Provides.quietRx e he).noRecv)
  have hp₂ := hp₁.trans ((parseAndKick_quietRx (hat.prims hp₁) hkick).mono Effect.QuietRx.noRecv)
  obtain ⟨-, rfl⟩ | ⟨hgo, h⟩ := h
  · exact ⟨⟨hgot, hdrained, .of_prims hp₂⟩, fun _ => hp₂⟩
  · have hdisarm : Prims Effect.QuietRx c fd w₂ (w₂.modify c fun o => { o with msRecvArmed := false }) :=
      .single (.change _ ⟨rfl, rfl⟩ rfl rfl id)
    have hrestart := (restartRecv_prims ((hat.prims hp₂).prims hdisarm).obj h).mono Effect.Recvs.keepsRxq
    have hkeep := (hdisarm.mono Effect.QuietRx.keepsRxq).trans hrestart
    refine ⟨⟨(Prims.got hkeep c).trans hgot, Prims.drained hkeep hdrained, ?_⟩, fun hmore => ?_⟩
    · exact .head (hp₂.trans (hdisarm.mono Effect.QuietRx.noRecv)) (restartRecv_rearms h)
    · rw [hmore, Bool.or_true] at hgo
      cases hgo

theorem recvHold_receives {hold : Nat} {cqe : Cqe} (hat : w.At c fd) (hd : w.Drained c)
    (hhold : (w.heap c).rxHold = some hold) (h : w.recvHold c cqe = some w') :
    Receives c ((w.holds hold).take cqe.res.toInt.toNat) w w' := by
  unfold recvHold at h
  rw [hhold] at h
  obtain ⟨w₂, hkick, h⟩ := Option.bind_eq_some_iff.mp h
  have htake : Prims Effect.NoRecv c fd w (w.modify c fun o => { o with rxHold := none }) :=
    .single (.change _ trivial rfl rfl id)
  have hd₁ : (w.modify c fun o => { o with rxHold := none }).Drained c := by simpa [Drained] using hd
  obtain ⟨hdrained, hgot⟩ := pushSegment_drains (hat.prims htake) hd₁ _ .refl hkick
  have hgot₁ : (w.modify c fun o => { o with rxHold := none }).got c = w.got c := by simp [Worker.got]
  rw [hgot₁] at hgot
  have hp₁ : Prims Effect.NoRecv c fd w ((w.modify c fun o => { o with rxHold := none }).pushSegment c
      ((w.holds hold).take cqe.res.toInt.toNat)) := htake.tail (.change _ trivial rfl rfl id)
  have hp₂ := hp₁.trans ((parseAndKick_quietRx (hat.prims hp₁) hkick).mono Effect.QuietRx.noRecv)
  split at h
  · cases h
    exact ⟨hgot, hdrained, .of_prims hp₂⟩
  · have hkeep := (restartRecv_prims (hat.prims hp₂).obj h).mono Effect.Recvs.keepsRxq
    exact ⟨(Prims.got hkeep c).trans hgot, Prims.drained hkeep hdrained, .head hp₂ (restartRecv_rearms h)⟩

theorem onSendCompleted_rx (o : PerClientStorage) :
    o.onSendCompleted.2.rxq = o.rxq ∧ o.onSendCompleted.2.rxHold = o.rxHold := by
  unfold PerClientStorage.onSendCompleted
  dsimp only
  split <;> exact ⟨rfl, rfl⟩

theorem handleSend_quietRx {cqe : Cqe} (hat : w.At c fd) (h : w.handleSend c fd cqe = some w') :
    Prims Effect.QuietRx c fd w w' := by
  unfold handleSend at h
  split at h
  · split at h
    · obtain ⟨⟨b, w₁⟩, hpoll, h⟩ := Option.bind_eq_some_iff.mp h
      cases h
      have hp : Prims Effect.QuietRx c fd w (w.modify c PerClientStorage.rollback) :=
        rollback_prims.mono Effect.Sends.quietRx
      exact (hp.trans ((updatePollout_prims (hat.prims hp).obj hpoll).mono Effect.Polls.quietRx)).trans
        (submitLater_prims b)
    · exact (closeConn_prims hat h).mono Effect.Closes.quietRx
  · have hp : Prims Effect.QuietRx c fd w (w.modify c fun _ => (w.heap c).onSendCompleted.2) :=
      .single (.change _ (onSendCompleted_rx _) (onSendCompleted_fd _) (onSendCompleted_parsed _)
        fun hc => (onSendCompleted_closing _).trans hc)
    dsimp only at h
    split at h
    · exact hp.trans ((closeConn_prims (hat.prims hp) h).mono Effect.Closes.quietRx)
    · exact hp.trans ((sendkick_prims (hat.prims hp) h).mono Effect.Sends.quietRx)

/-- The branches that do not receive. -/
theorem handleConn_quietRx {kind : Workflow} {cqe : Cqe} (hat : w.At c fd)
    (hrecv : kind = .recv → cqe.res ≤ 0 ∧ (cqe.res = 0 ∨ (w.heap c).closing = true))
    (h : w.handleConn c fd kind cqe = some w') : Prims Effect.QuietRx c fd w w' := by
  unfold handleConn at h
  cases kind with
  | recv =>
    obtain ⟨hres, hq⟩ := hrecv rfl
    dsimp only [handleRecv] at h
    rw [if_pos hres] at h
    exact recvFailed_quietRx hat hq h
  | send => exact handleSend_quietRx hat h
  | pollOut =>
    have hp : Prims Effect.QuietRx c fd w (w.modify c fun o => { o with polloutArmed := false }) :=
      .single (.change _ ⟨rfl, rfl⟩ rfl rfl id)
    exact hp.trans ((sendkick_prims (hat.prims hp) h).mono Effect.Sends.quietRx)
  | parse => exact (parseStep_prims hat h).mono Effect.Parses.quietRx
  | findHandler =>
    cases h
    refine .single (.change _ ⟨?_, ?_⟩ ?_ ?_ ?_) <;> unfold PerClientStorage.findHandler <;> split <;> simp
  | requestFlush =>
    have hp : Prims Effect.QuietRx c fd w (w.modify c fun o => { o with sendkickPending := false }) :=
      .single (.change _ ⟨rfl, rfl⟩ rfl rfl id)
    exact hp.trans ((sendkick_prims (hat.prims hp) h).mono Effect.Sends.quietRx)
  | generateResponse => exact (generateResponse_prims hat h).mono Effect.Responds.quietRx
  | requestClose => exact (closeConn_prims hat h).mono Effect.Closes.quietRx
  | accept | closed | freeBuffer =>
    cases h
    exact .refl

end

end Worker

end IOContext
