import IOContext.RecvStream
import IOContext.Routing

/-!
# A receive for every connection

When a receive of a connection has ended, the branch of its completion starts the next one.

- `recvDone` is the worker when the branch comes to `start_recv`; there a slot is all that is needed
  (`restartRecv_rearmed`).
- In a run in which `start_recv` always gets its slot, and no multishot receive ends with data after the worker has left
  multishot mode, every connection that is not closing has exactly one receive outstanding (`one_receive`).
-/

namespace IOContext

namespace Worker

/-- The worker when the branch of a `Recv` completion asks whether to start the next receive; `none` if it does not. -/
def recvDone (w : Worker) (c : Ptr) (cqe : Cqe) : Option Worker :=
  if cqe.res ≤ 0 then
    let w := w.modify c fun o => { o with msRecvArmed := false }
    if cqe.res = -EINVAL ∨ cqe.res = -EOPNOTSUPP then some { w with useMsRecv := false } else none
  else
    match (if w.useMsRecv && w.haveBufPool then cqe.buffer else none), (w.heap c).rxHold with
    | some bid, _ => do
      let w ← (w.pushSegment c ((w.bufPool bid).take cqe.res.toInt.toNat)).returnBuffer bid
      let w ← w.parseAndKick c
      if w.terminated || cqe.more then none else some (w.modify c fun o => { o with msRecvArmed := false })
    | none, some hold => do
      let w := w.modify c fun o => { o with rxHold := none }
      let w ← (w.pushSegment c ((w.holds hold).take cqe.res.toInt.toNat)).parseAndKick c
      if w.terminated then none else some w
    | none, none => none

/-- The connection waits for the completion of the receive. -/
def Waits (w : Worker) (c : Ptr) : Op → Prop
  | .recvMultishot _ => w.haveBufPool = true ∧ (w.heap c).rxHold = none
  | .recv _ hold => (w.heap c).rxHold = some hold ∧ (w.useMsRecv && w.haveBufPool) = false
  | _ => False

/-- Exactly one receive is submitted for `c`, and the connection waits for it. -/
def Rearmed (c : Ptr) (w w' : Worker) : Prop :=
  ∃ evs e, w'.trace = w.trace ++ evs ∧ recvsOf c evs = [e] ∧ w'.Waits c e.op

variable {L : Effect → Prop} {c q : Ptr} {fd : Fd} {w w' w'' : Worker} {cqe : Cqe}

/-! ## Waiting -/

/-- Multishot mode is not turned on again. -/
theorem Prims.msRecvOff (h : Prims L c fd w w') (hoff : w.useMsRecv = false) : w'.useMsRecv = false :=
  h.lift (R := fun w w' => w.useMsRecv = false → w'.useMsRecv = false) (fun _ => id) (fun _ _ _ h h' => h' ∘ h)
    (fun w w' h hoff => by cases h <;> first | exact hoff | rfl) hoff

theorem Waits.congr {op : Op} (h : w.Waits c op) (hpool : w'.haveBufPool = w.haveBufPool)
    (hmode : w.useMsRecv = false → w'.useMsRecv = false) (hhold : (w'.heap c).rxHold = (w.heap c).rxHold) :
    w'.Waits c op := by
  unfold Waits at h ⊢
  cases op with
  | recvMultishot => exact ⟨hpool.trans h.1, hhold.trans h.2⟩
  | recv =>
    refine ⟨hhold.trans h.1, ?_⟩
    rw [hpool]
    rw [Bool.and_eq_false_iff] at h ⊢
    exact h.2.imp hmode id
  | _ => exact h

theorem Waits.prims {op : Op} (h : w.Waits c op) (hp : Prims Effect.Awaits c fd w w') : w'.Waits c op :=
  h.congr hp.frame.haveBufPool hp.msRecvOff hp.rxHold

theorem Waits.other {op : Op} (h : w.Waits q op) (hp : Prims L c fd w w') (hq : q ≠ c) : w'.Waits q op :=
  h.congr hp.frame.haveBufPool hp.msRecvOff (by rw [hp.frame.heap q hq])

theorem Waits.listen {op : Op} (h : w.Waits q op) (hp : ∀ c fd, Prims Effect.Listens c fd w w') : w'.Waits q op :=
  h.congr (hp 0 0).frame.haveBufPool (hp 0 0).msRecvOff (by rw [(prims_other hp).2])

theorem Rearmed.head (h : Prims Effect.NoRecv c fd w w') (h' : Rearmed c w' w'') : Rearmed c w w'' := by
  obtain ⟨evs, htrace, hnone⟩ := h.recvsOf (fun _ => id) c
  obtain ⟨evs', e, htrace', he, hw⟩ := h'
  exact ⟨evs ++ evs', e, by rw [htrace', htrace, List.append_assoc], by rw [recvsOf_append, hnone, he]; rfl, hw⟩

theorem Rearmed.tail (h : Rearmed c w w') (h' : Prims Effect.Awaits c fd w' w'') : Rearmed c w w'' := by
  obtain ⟨evs, e, htrace, he, hw⟩ := h
  obtain ⟨evs', htrace', hnone⟩ := h'.recvsOf (fun _ => id) c
  exact ⟨evs ++ evs', e, by rw [htrace', htrace, List.append_assoc], by rw [recvsOf_append, he, hnone, List.append_nil],
    hw.prims h'⟩

theorem Rearmed.listen (h : Rearmed c w w') (h' : ∀ c fd, Prims Effect.Listens c fd w' w'') : Rearmed c w w'' := by
  obtain ⟨evs, e, htrace, he, hw⟩ := h
  obtain ⟨evs', htrace', hnone⟩ := listen_recvs h' c
  exact ⟨evs ++ evs', e, by rw [htrace', htrace, List.append_assoc], by rw [recvsOf_append, he, hnone, List.append_nil],
    hw.listen h'⟩

/-! ## Starting a receive -/

theorem Waits.rearmed {op : Op} (h : w.Waits c op) (hop : op.Receives) (tag : Option UInt64) :
    Rearmed c w (w.prep op (some c) tag) := by
  obtain ⟨e, rfl, howner, -, htrace⟩ := trace_prep w op (some c) tag
  refine ⟨[.sqe e], e, htrace, ?_, h.congr rfl id rfl⟩
  simp [IOContext.recvsOf, sqesOf, howner, hop]

/-- With a slot a receive is started, unless one is armed. -/
theorem startRecv_rearmed {b : Bool} (hslot : w.env.sqes.head? = some true)
    (hidle : (w.useMsRecv && w.haveBufPool) = true → (w.heap c).msRecvArmed = false ∧ (w.heap c).rxHold = none)
    (h : w.startRecv c = some (b, w')) : Rearmed c w w' := by
  have hsqes : ∀ sqes, Prims Effect.NoRecv c 0 w (w.withSqes sqes) := withSqes_prims
  unfold startRecv at h
  split at h
  · rename_i hmode
    obtain ⟨hunarmed, hhold⟩ := hidle hmode
    rw [hunarmed, if_neg Bool.false_ne_true] at h
    obtain ⟨⟨b', w₁⟩, hsqe, h⟩ := Option.bind_eq_some_iff.mp h
    obtain ⟨sqes, henv, rfl⟩ := getSqeOrSubmit_eq hsqe
    obtain rfl : b' = true := by simpa [henv] using hslot
    cases h
    have hwaits : (w.withSqes sqes).Waits c (.recvMultishot (w.heap c).fd) := ⟨(Bool.and_eq_true .. ▸ hmode).2, hhold⟩
    have hmark : ∀ w₁ : Worker, Prims Effect.Awaits c 0 w₁ (w₁.modify c fun o => { o with msRecvArmed := true }) :=
      fun _ => .single (.change _ rfl rfl rfl id)
    exact (Rearmed.head (hsqes sqes) (hwaits.rearmed trivial _)).tail (hmark _)
  · rename_i hmode
    obtain ⟨⟨b', w₁⟩, hsqe, h⟩ := Option.bind_eq_some_iff.mp h
    obtain ⟨sqes, henv, rfl⟩ := getSqeOrSubmit_eq hsqe
    have hslot' : w.env.sqes = b' :: sqes := henv
    obtain rfl : b' = true := by simpa [hslot'] using hslot
    cases h
    have halloc : Prims Effect.NoRecv c 0 w _ := .single (.alloc trivial)
    have hhold := halloc.tail (.change (fun o => { o with rxHold := some w.nextHold }) trivial rfl rfl id)
    refine Rearmed.head (hhold.trans (withSqes_prims sqes)) (Waits.rearmed ?_ ?_ _)
    · exact ⟨by simp, Bool.eq_false_iff.mpr hmode⟩
    · trivial

theorem restartRecv_rearmed (hslot : (w.heap c).closing = false → w.env.sqes.head? = some true)
    (hidle : (w.useMsRecv && w.haveBufPool) = true → (w.heap c).msRecvArmed = false ∧ (w.heap c).rxHold = none)
    (hlive : (w'.heap c).closing = false) (h : w.restartRecv c = some w') : Rearmed c w w' := by
  unfold restartRecv at h
  split at h
  · rename_i hclosing
    cases h
    rw [hlive] at hclosing
    cases hclosing
  · rename_i hopen
    obtain ⟨⟨b, w₁⟩, hstart, h⟩ := Option.bind_eq_some_iff.mp h
    cases h
    have hlater : Prims Effect.Awaits c 0 w₁ (w₁.submitLater b) := submitLater_prims b
    exact (startRecv_rearmed (hslot (by simpa using hopen)) hidle hstart).tail hlater

/-! ## Completions -/

/-- A receive that has failed and does not close the connection. -/
theorem recvFailed_done (hat : w.At c fd) (hres : cqe.res ≤ 0) (hlive : (w'.heap c).closing = false)
    (h : w.recvFailed c fd cqe.res = some w') : ∃ w₁, w.recvDone c cqe = some w₁ ∧ w₁.useMsRecv = false ∧
      Prims Effect.NoRecv c fd w w₁ ∧ w₁.restartRecv c = some w' := by
  have hdisarm : Prims Effect.NoRecv c fd w (w.modify c fun o => { o with msRecvArmed := false }) :=
    .single (.change _ trivial rfl rfl id)
  unfold recvFailed at h
  dsimp only at h
  split at h
  · rename_i hinval
    refine ⟨_, by rw [recvDone, if_pos hres]; exact if_pos hinval, rfl, hdisarm.tail (.msRecvOff trivial), h⟩
  · rw [closeConn_closing (hat.prims hdisarm) h] at hlive
    cases hlive

/-- A receive into a provided buffer: it goes on, or the next one is started. -/
theorem recvProvided_done {bid : Nat} (hat : w.At c fd) (hpos : ¬cqe.res ≤ 0)
    (hmode : (w.useMsRecv && w.haveBufPool) = true) (hbuf : cqe.buffer = some bid)
    (h : w.recvProvided c bid cqe = some w') :
    ((w'.terminated = true ∨ cqe.more = true) ∧ Prims Effect.Awaits c fd w w') ∨
    ∃ w₁, w.recvDone c cqe = some w₁ ∧ cqe.more = false ∧ (w₁.heap c).msRecvArmed = false ∧
      Prims Effect.Awaits c fd w w₁ ∧ w₁.restartRecv c = some w' := by
  obtain ⟨w₁, hback, h⟩ := Option.bind_eq_some_iff.mp h
  obtain ⟨w₂, hkick, h⟩ := Option.bind_eq_some_iff.mp h
  have hpush : Prims Effect.Awaits c fd w (w.pushSegment c ((w.bufPool bid).take cqe.res.toInt.toNat)) :=
    .single (.change _ rfl rfl rfl id)
  have hp₁ := hpush.trans ((returnBuffer_prims hback).mono fun e he => (Effect.Provides.quietRx e he).awaits)
  have hp₂ := hp₁.trans ((parseAndKick_quietRx (hat.prims hp₁) hkick).mono Effect.QuietRx.awaits)
  split at h
  · rename_i hstop
    cases h
    exact .inl ⟨by simpa using hstop, hp₂⟩
  · rename_i hgo
    have hdisarm : Prims Effect.Awaits c fd w₂ (w₂.modify c fun o => { o with msRecvArmed := false }) :=
      .single (.change _ rfl rfl rfl id)
    refine .inr ⟨_, ?_, by simp_all, by simp, hp₂.trans hdisarm, h⟩
    simp only [recvDone, if_neg hpos, hmode, if_true, hbuf]
    exact Option.bind_eq_some_iff.mpr ⟨w₁, hback, Option.bind_eq_some_iff.mpr ⟨w₂, hkick, if_neg hgo⟩⟩

/-- A receive into the connection's own buffer. -/
theorem recvHold_done {hold : Nat} (hat : w.At c fd) (hpos : ¬cqe.res ≤ 0)
    (hmode : (w.useMsRecv && w.haveBufPool) = false) (hhold : (w.heap c).rxHold = some hold)
    (h : w.recvHold c cqe = some w') :
    w'.terminated = true ∨
    ∃ w₁, w.recvDone c cqe = some w₁ ∧ Prims Effect.NoRecv c fd w w₁ ∧ w₁.restartRecv c = some w' := by
  unfold recvHold at h
  rw [hhold] at h
  obtain ⟨w₂, hkick, h⟩ := Option.bind_eq_some_iff.mp h
  have htake : Prims Effect.NoRecv c fd w (w.modify c fun o => { o with rxHold := none }) :=
    .single (.change _ trivial rfl rfl id)
  have hp₁ : Prims Effect.NoRecv c fd w ((w.modify c fun o => { o with rxHold := none }).pushSegment c
      ((w.holds hold).take cqe.res.toInt.toNat)) := htake.tail (.change _ trivial rfl rfl id)
  have hp₂ := hp₁.trans ((parseAndKick_quietRx (hat.prims hp₁) hkick).mono Effect.QuietRx.noRecv)
  split at h
  · rename_i hterm
    cases h
    exact .inl hterm
  · rename_i hgo
    refine .inr ⟨w₂, ?_, hp₂, h⟩
    simp only [recvDone, if_neg hpos, hmode, Bool.false_eq_true, if_false, hhold]
    exact Option.bind_eq_some_iff.mpr ⟨w₂, hkick, if_neg hgo⟩

end Worker

namespace Sys

open Worker

variable {ok : Sys → Action → Prop} {s s' : Sys} {w w' : Worker} {p : Pending} {cqe : Cqe} {c q : Ptr} {i : Nat}
  {data : Bytes} {env : Env}

/-! ## The condition -/

/-- If the worker, where there is one, comes to `start_recv`, a slot is there. -/
def SlotFor (c : Ptr) : Option Worker → Prop
  | some w => (w.heap c).closing = false → w.env.sqes.head? = some true
  | none => True

instance (c : Ptr) : DecidablePred (SlotFor c)
  | some w => inferInstanceAs (Decidable ((w.heap c).closing = false → w.env.sqes.head? = some true))
  | none => isTrue trivial

theorem SlotFor.slot {o : Option Worker} (h : SlotFor c o) (hw : o = some w) :
    (w.heap c).closing = false → w.env.sqes.head? = some true := by
  rw [hw] at h
  exact h

/-- If a receive of the connection completes, and this leads to `start_recv`, then a slot is there; if the completion
ends a multishot receive with data, the worker is in multishot mode. -/
def RearmsOn (s : Sys) (p : Pending) (cqe : Cqe) (data : Bytes) (env : Env) (c : Ptr) : Op → Prop
  | .recvMultishot _ => s.w.Live c → (0 < cqe.res → cqe.more = false → s.w.useMsRecv = true) ∧
      SlotFor c ((s.arrive p cqe data env).recvDone c cqe)
  | .recv _ _ => s.w.Live c → SlotFor c ((s.arrive p cqe data env).recvDone c cqe)
  | _ => True

instance (s : Sys) (p : Pending) (cqe : Cqe) (data : Bytes) (env : Env) (c : Ptr) :
    DecidablePred (s.RearmsOn p cqe data env c)
  | .recvMultishot _ => inferInstanceAs (Decidable (s.w.Live c → _ ∧ _))
  | .recv _ _ => inferInstanceAs (Decidable (s.w.Live c → _))
  | .provideBuffers _ _ | .accept _ | .multishotAccept _ | .close _ | .pollAdd _ | .sendmsg _ _ | .msgRing _ _ =>
      isTrue trivial

/-- Accepts return numbers that a tag can carry, and a slot is there when a connection's first receive or its next one
is to be started. -/
def Rearms (s : Sys) : Action → Prop
  | .complete i cqe data env => ∀ p ∈ s.pending[i]?,
      (0 < cqe.res → p.sqe.op.InRange cqe ∧ (p.sqe.op.Accepts → s.w.table cqe.res = none →
        env.sqes.head? = some true)) ∧
      ∀ c ∈ p.sqe.owner, s.RearmsOn p cqe data env c p.sqe.op
  | _ => True

instance (s : Sys) (a : Action) : Decidable (s.Rearms a) :=
  match a with
  | .complete i cqe data env => inferInstanceAs (Decidable (∀ p ∈ s.pending[i]?,
      (0 < cqe.res → p.sqe.op.InRange cqe ∧ (p.sqe.op.Accepts → s.w.table cqe.res = none →
        env.sqes.head? = some true)) ∧
      ∀ c ∈ p.sqe.owner, s.RearmsOn p cqe data env c p.sqe.op))
  | .executeClose _ | .endBatch => isTrue trivial

theorem Rearms.inRange {a : Action} (h : s.Rearms a) : s.InRange a := by
  cases a with
  | complete i cqe data env => exact fun p hp hres => ((h p hp).1 hres).1
  | executeClose | endBatch => trivial

/-! ## Exactly one receive -/

/-- Exactly one receive is outstanding for the connection, and it waits for it. -/
def Heard (s : Sys) (c : Ptr) : Prop := ∃ p, s.pending.filter (OfRecv c) = [p] ∧ s.w.Waits c p.sqe.op

/-- A connection of which no receive has completed. -/
theorem Heard.other {evs : List Event} (h : s.Heard q) (hp : s.pending[i]? = some p) (hq : OfRecv q p = false)
    (htrace : w'.trace = s.w.trace ++ evs) (hnone : recvsOf q evs = [])
    (hw : ∀ op, s.w.Waits q op → w'.Waits q op) : (s.after i p cqe data w').Heard q := by
  obtain ⟨p', hone, hwaits⟩ := h
  refine ⟨p', ?_, hw _ hwaits⟩
  rw [after_recvs q htrace, hnone, rest_recvs hp hq, List.map_nil, List.append_nil, hone]

/-- A connection that had no receive outstanding, and has now. -/
theorem Heard.rearm (hnone : (if goesOn p cqe then s.pending else s.pending.eraseIdx i).filter (OfRecv q) = [])
    (htrace : w.trace = s.w.trace) (h : Rearmed q w w') : (s.after i p cqe data w').Heard q := by
  obtain ⟨evs, e, htrace', he, hwaits⟩ := h
  rw [htrace] at htrace'
  refine ⟨{ sqe := e }, ?_, hwaits⟩
  rw [after_recvs q htrace', hnone, he]
  rfl

theorem arrive_waits {op : Op} (h : s.w.Waits q op) : (s.arrive p cqe data env).Waits q op :=
  h.congr (arrive_haveBufPool ..) (by rw [arrive_useMsRecv]; exact id) (by rw [arrive_heap])

/-- What is posted as a receive is one. -/
theorem posted_recv (hr : Reachable .tagged ok s) (hp : p ∈ s.pending) {fd : Fd}
    (hposted : p.posted = some (fd, .recv)) : p.sqe.op.Receives := by
  have htask := posted_not_task hr hp hposted id
  unfold Pending.posted at hposted
  cases hop : p.sqe.op with
  | recvMultishot | recv => trivial
  | msgRing fd' kind => exact absurd hop (htask fd' kind)
  | _ =>
    simp only [hop] at hposted
    cases hposted

theorem receives_posted (hop : p.sqe.op.Receives) : ∃ fd, p.posted = some (fd, .recv) := by
  unfold Pending.posted
  cases h : p.sqe.op <;> rw [h] at hop <;> first
    | exact hop.elim
    | exact ⟨_, rfl⟩

/-- A completion that is not served is of no receive of a live connection. -/
theorem Unserved.not_recv (h : w.Unserved p) (hq : w.Live q) : OfRecv q p = false := by
  refine Bool.eq_false_iff.mpr fun hrecv => ?_
  simp only [OfRecv, decide_eq_true_eq] at hrecv
  obtain ⟨fd, hposted⟩ := receives_posted hrecv.2
  exact h q hq hrecv.1 ⟨fd, .recv, hposted, by decide⟩

/-- A step that is taken for one connection only. -/
theorem Heard.of_prims {L : Effect → Prop} {fd : Fd} (h : s.Heard q) (hp : s.pending[i]? = some p)
    (hq : OfRecv q p = false) (hqc : q ≠ c) (hw : Prims L c fd (s.arrive p cqe data env) w') :
    (s.after i p cqe data w').Heard q := by
  obtain ⟨evs, htrace, hnone⟩ := hw.recvsOf_ne hqc
  exact h.other hp hq (by rw [htrace, arrive_trace]) hnone fun op hwaits => (arrive_waits hwaits).other hw hqc

/-- A step in which no receive completes. -/
theorem Heard.quiet {fd : Fd} (h : s.Heard q) (hp : s.pending[i]? = some p) (hq : OfRecv q p = false)
    (hw : Prims Effect.Awaits q fd (s.arrive p cqe data env) w') : (s.after i p cqe data w').Heard q := by
  obtain ⟨evs, htrace, hnone⟩ := hw.recvsOf (fun _ => id) q
  exact h.other hp hq (by rw [htrace, arrive_trace]) hnone fun op hwaits => (arrive_waits hwaits).prims hw

theorem Heard.listen (h : s.Heard q) (hp : s.pending[i]? = some p) (hq : OfRecv q p = false)
    (hw : ∀ c fd, Prims Effect.Listens c fd (s.arrive p cqe data env) w') : (s.after i p cqe data w').Heard q := by
  obtain ⟨evs, htrace, hnone⟩ := listen_recvs hw q
  exact h.other hp hq (by rw [htrace, arrive_trace]) hnone fun op hwaits => (arrive_waits hwaits).listen hw

/-- The receive of a live connection completes. -/
theorem Heard.recv {fd : Fd} (h : s.Heard c) (hp : s.pending[i]? = some p) (hown : p.sqe.owner = some c)
    (hop : p.sqe.op.Receives) (hadm : s.Admissible p cqe data) (hrearms : s.RearmsOn p cqe data env c p.sqe.op)
    (hlive : s.w.Live c) (hat : (s.arrive p cqe data env).At c fd)
    (hw : (s.arrive p cqe data env).handleRecv c fd cqe = some w') (hterm : w'.terminated = false)
    (hlive' : (w'.heap c).closing = false) : (s.after i p cqe data w').Heard c := by
  obtain ⟨p', hone, hwaits⟩ := h
  obtain ⟨rfl, herase⟩ := filter_eraseIdx_only hone hp (by simp [OfRecv, hown, hop])
  have hwaits : (s.arrive p' cqe data env).Waits c p'.sqe.op := arrive_waits hwaits
  have htrace := arrive_trace s p' cqe data env
  -- the slot that the condition grants
  have hslot : SlotFor c ((s.arrive p' cqe data env).recvDone c cqe) := by
    cases hop' : p'.sqe.op <;> rw [hop'] at hop hrearms <;> first
      | exact hop.elim
      | exact (hrearms hlive).2
      | exact hrearms hlive
  by_cases hres : cqe.res ≤ 0
  · have hgo := goesOn_failed hop hadm hres
    rw [handleRecv, if_pos hres] at hw
    obtain ⟨w₁, hdone, hoff, hprims, hw⟩ := recvFailed_done hat hres hlive' hw
    have hre := restartRecv_rearmed (hslot.slot hdone) (fun hmode => by simp [hoff] at hmode) hlive' hw
    exact .rearm (by rw [hgo]; exact herase) htrace (.head hprims hre)
  · have hpos : 0 < cqe.res := Int32.not_le.mp hres
    rw [handleRecv, if_neg hres] at hw
    unfold Admissible at hadm
    cases hop' : p'.sqe.op with
    | recvMultishot fd' =>
      rw [hop'] at hadm hwaits
      obtain ⟨bid, hbid⟩ := Option.ne_none_iff_exists'.mp (hadm.2 hpos).1
      rw [hop'] at hrearms
      by_cases hmode : ((s.arrive p' cqe data env).useMsRecv && (s.arrive p' cqe data env).haveBufPool) = true
      · simp only [hmode, if_true, hbid] at hw
        obtain ⟨hstop, hp₁⟩ | ⟨w₁, hdone, hmore, hidle, hp₁, hw⟩ := recvProvided_done hat hres hmode hbid hw
        · -- the receive goes on
          have hmore : cqe.more = true := hstop.resolve_left fun h => by rw [hterm] at h; cases h
          obtain ⟨evs, htrace', hnone⟩ := hp₁.recvsOf (fun _ => id) c
          rw [htrace] at htrace'
          refine ⟨p', ?_, by rw [hop']; exact hwaits.prims hp₁⟩
          rw [after_recvs c htrace', hnone]
          simp [goesOn, hop', hmore, hone]
        · have hre := restartRecv_rearmed (hslot.slot hdone)
            (fun _ => ⟨hidle, by rw [hp₁.rxHold]; exact hwaits.2⟩) hlive' hw
          exact .rearm (by simp [goesOn, hop', hmore, herase]) htrace (.head (hp₁.mono Effect.Awaits.noRecv) hre)
      · -- multishot mode is off: the bytes are dropped, and the receive goes on
        have hmode := Bool.eq_false_iff.mpr hmode
        simp only [hmode, Bool.false_eq_true, if_false, recvHold, hwaits.2, Option.some.injEq] at hw
        have hpool := hwaits.1
        subst hw
        cases hmore : cqe.more with
        | false =>
          rw [hpool, Bool.and_true, arrive_useMsRecv, (hrearms hlive).1 hpos hmore] at hmode
          cases hmode
        | true =>
          refine ⟨p', ?_, by rw [hop']; exact hwaits⟩
          rw [after_recvs c (show _ = s.w.trace ++ [] by rw [htrace, List.append_nil])]
          simp [goesOn, hop', hmore, hone, recvsOf, sqesOf]
    | recv fd' hold =>
      rw [hop'] at hadm hwaits
      have hw : (s.arrive p' cqe data env).recvHold c cqe = some w' := by
        rw [hadm.1] at hw
        split at hw <;> exact hw
      obtain hterm' | ⟨w₁, hdone, hp₁, hw⟩ := recvHold_done hat hres hwaits.2 hwaits.1 hw
      · rw [hterm] at hterm'
        cases hterm'
      · have hre := restartRecv_rearmed (hslot.slot hdone) (fun hmode => ?_) hlive' hw
        · exact .rearm (by simp [goesOn, hop', herase]) htrace (.head hp₁ hre)
        · have hoff := hwaits.2
          rw [Bool.and_eq_false_iff] at hoff
          rw [Bool.and_eq_true] at hmode
          rcases hoff with hoff | hoff
          · rw [hp₁.msRecvOff hoff] at hmode
            cases hmode.1
          · rw [hp₁.frame.haveBufPool, hoff] at hmode
            cases hmode.2
    | _ =>
      rw [hop'] at hop
      exact hop.elim

/-- An accept that succeeds: the connection that is added gets its first receive. -/
theorem Heard.accept {b : Bool} {w₁ : Worker} (hr : Reachable .tagged ok s) (hp : s.pending[i]? = some p)
    (hslot : s.w.table cqe.res = none → env.sqes.head? = some true) (hno : (s.arrive p cqe data env).Unserved p)
    (hrecv : ((s.arrive p cqe data env).addConn cqe.res).2.startRecv (s.arrive p cqe data env).nextPtr = some (b, w₁))
    (hw : ∀ c fd, Prims Effect.Listens c fd w₁ w') (hall : ∀ q, s.w.Live q → s.Heard q) (hq : w'.Live q) :
    (s.after i p cqe data w').Heard q := by
  have hok : (s.arrive p cqe data env).Ok := (table_ok hr).move (arrive_move ..)
  have hprims : Prims Effect.Recvs _ cqe.res _ w₁ := startRecv_prims (by rw [addConn_obj]) hrecv
  have htrace : ((s.arrive p cqe data env).addConn cqe.res).2.trace = s.w.trace := arrive_trace s p cqe data env
  have hq₀ := ((Live.of_frame hq (hw 0 0).frame).of_frame hprims.frame).of_addConn hok
  rcases hq₀ with ⟨hne, hq₀⟩ | ⟨rfl, hnone⟩
  · have hq := (arrive_live s p cqe data env q).mp hq₀
    obtain ⟨evs, htrace₁, hnone₁⟩ := hprims.recvsOf_ne hne
    obtain ⟨evs', htrace', hnone'⟩ := listen_recvs hw q
    refine (hall q hq).other hp (Unserved.not_recv hno hq₀) (by rw [htrace', htrace₁, htrace, List.append_assoc])
      (by rw [recvsOf_append, hnone₁, hnone']; rfl) fun op hwaits => ?_
    have hnew : ((s.arrive p cqe data env).addConn cqe.res).2.Waits q op :=
      (arrive_waits hwaits).congr rfl id (by rw [addConn_heap_ne _ _ hne])
    exact (hnew.other hprims hne).listen hw
  · rw [arrive_table] at hnone
    have hfresh : s.pending.filter (OfRecv (s.arrive p cqe data env).nextPtr) = [] :=
      List.filter_eq_nil_iff.mpr fun p' hp' => by
        simp only [OfRecv, decide_eq_true_eq, not_and]
        intro hown
        have hlt := (close_ok hr).owners p'.sqe (pending_mem hr p' hp') _ hown
        rw [arrive_nextPtr] at hlt
        exact absurd hlt (Nat.lt_irrefl _)
    have hre := startRecv_rearmed (hslot hnone) (fun _ => by rw [addConn_obj]; exact ⟨rfl, rfl⟩) hrecv
    refine .rearm ?_ htrace (hre.listen hw)
    split
    · exact hfresh
    · exact List.filter_eq_nil_iff.mpr fun p' hp' =>
        List.filter_eq_nil_iff.mp hfresh p' (List.mem_of_mem_eraseIdx hp')

theorem Heard.step {a : Action} (hr : Reachable .tagged ok s) (hrouted : s.w.Routed s.openFds)
    (hall : ∀ q, s.w.Live q → s.Heard q) (ha : s.Rearms a) (h : step .tagged s a = some s')
    (hterm : s'.w.terminated = false) (hq : s'.w.Live q) : s'.Heard q := by
  cases (step_cases h).2 with
  | endBatch => exact hall q hq
  | executeClose hp hop hex =>
    rename_i i p fd
    obtain ⟨p', hone, hwaits⟩ := hall q hq
    refine ⟨p', ?_, hwaits⟩
    have hnot : ∀ b : Pending, b.sqe = p.sqe → OfRecv q b = false := fun b hb => by
      simp [OfRecv, hb, hop, Op.Receives]
    dsimp only
    rw [filter_set hp (hnot p rfl) (by exact hnot _ rfl), hone]
  | complete hp hadm hw =>
    rename_i i cqe data env p w'
    have hmem := List.mem_of_getElem? hp
    have hlive : ∀ {c}, Frame c (s.arrive p cqe data env) w' → s.w.Live q ∧ (s.arrive p cqe data env).Live q :=
      fun hf => ⟨(arrive_live s p cqe data env q).mp (Live.of_frame hq hf), Live.of_frame hq hf⟩
    cases route_cases hr hrouted hmem hadm hw with
    | @own c fd kind hop hown hposted hkind hat h =>
      have hprims := handleConn_prims hat h
      obtain ⟨hq₀, -⟩ := hlive hprims.frame
      by_cases hqc : q = c
      · subst hqc
        by_cases hk : kind = .recv
        · subst hk
          exact (hall q hq₀).recv hp hown (posted_recv hr hmem hposted) hadm ((ha p hp).2 q hown) hq₀ hat h hterm hq.2
        · have hnot : OfRecv q p = false := by
            refine Bool.eq_false_iff.mpr fun hrecv => hk ?_
            simp only [OfRecv, decide_eq_true_eq] at hrecv
            obtain ⟨fd', hposted'⟩ := receives_posted hrecv.2
            rw [hposted] at hposted'
            cases hposted'
            rfl
          exact (hall q hq₀).quiet hp hnot
            ((handleConn_quietRx hat (fun hk' => absurd hk' hk) h).mono Effect.QuietRx.awaits)
      · exact (hall q hq₀).of_prims hp (by simp [OfRecv, hown, Ne.symm hqc]) hqc hprims
    | @other c fd kind hop hno hat hzero h =>
      have hprims := handleConn_prims hat h
      obtain ⟨hq₀, hq₁⟩ := hlive hprims.frame
      by_cases hqc : q = c
      · subst hqc
        have hres : cqe.res = 0 := hzero.resolve_right fun hc => by rw [hq₁.2] at hc; cases hc
        have hquiet := handleConn_quietRx hat (fun _ => ⟨by rw [hres]; decide, .inl hres⟩) h
        exact (hall q hq₀).quiet hp (Unserved.not_recv hno hq₁) (hquiet.mono Effect.QuietRx.awaits)
      · exact (hall q hq₀).of_prims hp (Unserved.not_recv hno hq₁) hqc hprims
    | same hop hno h =>
      have hsame : Prims Effect.Awaits q 0 (s.arrive p cqe data env) w' := by rw [h]
      obtain ⟨hq₀, hq₁⟩ := hlive hsame.frame
      exact (hall q hq₀).quiet hp (Unserved.not_recv hno hq₁) hsame
    | accept hno hacc h =>
      obtain ⟨-, hlisten⟩ | ⟨hres, b, w₁, hrecv, hlisten⟩ := handleAccept_cases h
      · obtain ⟨hq₀, hq₁⟩ := hlive (hlisten q 0).frame
        exact (hall q hq₀).listen hp (Unserved.not_recv hno hq₁) hlisten
      · have hslot := ((ha p hp).1 hres).2 (hacc hres)
        exact Heard.accept hr hp hslot hno hrecv hlisten hall hq

/-! ## Runs -/

/-- In every run under the condition, a connection of the table that is not closing has exactly one receive outstanding:
one in multishot mode, or one into the buffer that it holds. -/
theorem one_receive (h : Reachable .tagged Rearms s) (hterm : s.w.terminated = false) (hc : s.w.Live c) :
    ∃ p, s.pending.filter (OfRecv c) = [p] ∧ (p.sqe.op = .recvMultishot (s.w.heap c).fd ∨
      ∃ hold, p.sqe.op = .recv (s.w.heap c).fd hold ∧ (s.w.heap c).rxHold = some hold) := by
  have hheard : s.w.terminated = false → ∀ q, s.w.Live q → s.Heard q := by
    refine Reach.invariant_of (K := Reachable .tagged Rearms)
      (I := fun s => s.w.terminated = false → ∀ q, s.w.Live q → s.Heard q) (fun _ => id) (fun s h _ q hq => ?_)
      (fun s a s' hr hall ha h hterm q hq => ?_) s h
    · obtain ⟨_, _, _, _, _, h, -, -⟩ := h
      have htable := hq.1
      rw [(startUp_new h).1] at htable
      cases htable
    · exact Heard.step hr (routed (fun _ _ => Rearms.inRange) hr) (hall (step_cases h).1) ha h hterm hq
  obtain ⟨p, hone, hwaits⟩ := hheard hterm c hc
  have hp : p ∈ s.pending.filter (OfRecv c) := by rw [hone]; exact List.mem_singleton.mpr rfl
  obtain ⟨hmem, hrecv⟩ := List.mem_filter.mp hp
  simp only [OfRecv, decide_eq_true_eq] at hrecv
  have hfd := ((routed (fun _ _ => Rearms.inRange) h).entry p.sqe (pending_mem h p hmem) c hrecv.1).2
  refine ⟨p, hone, ?_⟩
  cases hop : p.sqe.op with
  | recvMultishot fd => exact .inl (by rw [hfd fd (by rw [hop]; rfl)])
  | recv fd hold =>
    rw [hop] at hwaits
    exact .inr ⟨hold, by rw [hfd fd (by rw [hop]; rfl)], hwaits.1⟩
  | _ =>
    rw [hop] at hrecv
    exact hrecv.2.elim

/-- The client that sends in both modes has a receive into its own buffer outstanding. -/
theorem one_receive_switched : ∃ s, withPool.bind (execAll (step .tagged) Rearms switched) = some s ∧
    ∃ p, s.pending.filter (OfRecv 0) = [p] ∧ (p.sqe.op = .recvMultishot (s.w.heap 0).fd ∨
      ∃ hold, p.sqe.op = .recv (s.w.heap 0).fd hold ∧ (s.w.heap 0).rxHold = some hold) := by
  obtain ⟨s, hs, hobs⟩ := Option.map_eq_some_iff.mp (show
    (withPool.bind (execAll (step .tagged) Rearms switched)).map (fun s =>
      (s.w.terminated, decide (s.w.Live 0))) = some (false, true) by decide +kernel)
  simp only [Prod.mk.injEq] at hobs
  exact ⟨s, hs, one_receive (run_reachable hs) hobs.1 (of_decide_eq_true hobs.2)⟩

/-- A client connects when the ring is full: nothing is received from it. -/
theorem connection_deaf : ∃ s, (withoutPool []).bind (execAll (step .tagged) (fun _ _ => True)
      [.complete 0 { res := 5, more := true } [] { sqes := [false] }]) = some s ∧
    Reachable .tagged (fun _ _ => True) s ∧ s.w.terminated = false ∧ s.w.Live 0 ∧ s.pending.filter (OfRecv 0) = [] := by
  obtain ⟨s, hs, hobs⟩ := Option.map_eq_some_iff.mp (show
    ((withoutPool []).bind (execAll (step .tagged) (fun _ _ => True)
      [.complete 0 { res := 5, more := true } [] { sqes := [false] }])).map (fun s =>
      (s.w.terminated, decide (s.w.Live 0), decide (s.pending.filter (OfRecv 0) = []))) =
      some (false, true, true) by decide +kernel)
  simp only [Prod.mk.injEq] at hobs
  exact ⟨s, hs, run_reachable hs, hobs.1, of_decide_eq_true hobs.2.1, of_decide_eq_true hobs.2.2⟩

end Sys

end IOContext
