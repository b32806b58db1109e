import IOContext.Closing

/-!
# Which connection a completion reaches

Completions are dispatched by their tags. The tag of a close is not read back, so that the entries of closed connections
stay in the table, and a connection that gets the number of such an entry is not found in it.

- An operation is on the number of its connection, and under this number the table has the connection, or one that is
  closing; a connection of the table that is not closing has an open number (`Routed`, `routed`).
- A completion that is read back is handled in its branch for its own connection, if that one is in the table and not
  closing; no other completion brings such a connection anything but a zero (`route_cases`).
-/

namespace IOContext

/-- An accept returns a number that a tag can carry. -/
def Op.InRange (cqe : Cqe) : Op → Prop
  | .accept _ | .multishotAccept _ => cqe.res < 0x20000000
  | _ => True

instance (cqe : Cqe) : DecidablePred (Op.InRange cqe)
  | .accept _ | .multishotAccept _ => inferInstanceAs (Decidable (_ < _))
  | .provideBuffers _ _ | .recvMultishot _ | .recv _ _ | .close _ | .pollAdd _ | .sendmsg _ _ | .msgRing _ _ =>
      isTrue trivial

/-- The kind under which the completion was posted is among those that a tag tells apart. -/
def Pending.ReadBack (p : Pending) : Prop := ∃ fd kind, p.posted = some (fd, kind) ∧ kind.code < 8

namespace Worker

/-- The connection is in the table and not closing. -/
def Live (w : Worker) (c : Ptr) : Prop := w.table (w.heap c).fd = some c ∧ (w.heap c).closing = false

instance (w : Worker) (c : Ptr) : Decidable (w.Live c) := inferInstanceAs (Decidable (_ ∧ _))

/-- Under the number of a connection the table has it, or one that is closing. -/
def Entered (w : Worker) (c : Ptr) : Prop :=
  ∃ c', w.table (w.heap c).fd = some c' ∧ (c' = c ∨ (w.heap c').closing = true)

/-- The numbers in the table can be carried by a tag, operations are on the number of their connection, and connections
that are not closing have open numbers. -/
structure Routed (w : Worker) (openFds : Fd → Bool) : Prop where
  range : ∀ fd c, w.table fd = some c → 0 < fd ∧ fd < 0x20000000
  entry : ∀ e ∈ sqesOf w.trace, ∀ c, e.owner = some c → w.Entered c ∧ ∀ fd, e.op.target = some fd → (w.heap c).fd = fd
  isOpen : ∀ fd c, w.table fd = some c → (w.heap c).closing = false → openFds fd = true

/-- The completion is not owed to a connection of the table that is not closing, or not read back. -/
def Unserved (w : Worker) (p : Pending) : Prop := ∀ c, w.Live c → p.sqe.owner = some c → ¬p.ReadBack

variable {L : Effect → Prop} {c q : Ptr} {fd : Fd} {w w' : Worker} {openFds : Fd → Bool}

/-! ## Moves -/

theorem Frame.number (h : Frame c w w') (q : Ptr) : (w'.heap q).fd = (w.heap q).fd := by
  by_cases hq : q = c
  · rw [hq, h.obj]
  · rw [h.heap q hq]

theorem Frame.closing_of (h : Frame c w w') (hq : (w.heap q).closing = true) : (w'.heap q).closing = true := by
  by_cases hqc : q = c
  · subst hqc
    exact h.closing hq
  · rw [h.heap q hqc, hq]

theorem Entered.frame (h : w.Entered q) (hf : Frame c w w') : w'.Entered q := by
  obtain ⟨c', hc', hown⟩ := h
  exact ⟨c', by rw [hf.table, hf.number, hc'], hown.imp id hf.closing_of⟩

/-- A connection that is live after primitive steps was so before. -/
theorem Live.of_frame (h : w'.Live q) (hf : Frame c w w') : w.Live q := by
  obtain ⟨htable, hlive⟩ := h
  rw [hf.table, hf.number] at htable
  exact ⟨htable, Bool.eq_false_iff.mpr fun hc => by rw [hf.closing_of hc] at hlive; cases hlive⟩

/-- Primitive steps of a connection that has been entered. -/
theorem Routed.prims (h : w.Routed openFds) (hfd : (w.heap c).fd = fd) (hc : w.Entered c) (hp : Prims L c fd w w') :
    w'.Routed openFds := by
  have hf := hp.frame
  obtain ⟨evs, htrace, hev⟩ := hp.trace
  refine ⟨by rw [hf.table]; exact h.range, fun e he q hq => ?_, fun fd q hq hlive => ?_⟩
  · rw [htrace, sqesOf_append, List.mem_append] at he
    rcases he with he | he
    · obtain ⟨hent, hfd⟩ := h.entry e he q hq
      exact ⟨hent.frame hf, fun fd ht => by rw [hf.number, hfd fd ht]⟩
    · have hfor := (hev _ (mem_sqesOf.mp he)).2
      rw [hq] at hfor
      generalize e.op = op at hfor
      cases hfor with
      | own ht =>
        refine ⟨hc.frame hf, fun fd' hfd' => ?_⟩
        rw [ht] at hfd'
        cases hfd'
        rw [hf.number, hfd]
  · rw [hf.table] at hq
    exact h.isOpen fd q hq (Bool.eq_false_iff.mpr fun hc => by rw [hf.closing_of hc] at hlive; cases hlive)

theorem At.entered (h : w.At c fd) : w.Entered c := ⟨c, by rw [h.obj, h.table], .inl rfl⟩

theorem Routed.listen (h : w.Routed openFds) (hp : ∀ c fd, Prims Effect.Listens c fd w w') : w'.Routed openFds := by
  obtain ⟨htable, hheap⟩ := prims_other hp
  obtain ⟨evs, htrace, hev⟩ := listen_submits hp
  refine ⟨by rw [htable]; exact h.range, fun e he q hq => ?_, by rw [htable, hheap]; exact h.isOpen⟩
  unfold Entered
  rw [htable, hheap]
  rw [htrace, sqesOf_append, List.mem_append] at he
  rcases he with he | he
  · exact h.entry e he q hq
  · rw [(hev e he).2] at hq
    cases hq

/-- An entry after an accept was there before, or is that of the new connection. -/
theorem addConn_entry {cfd : Fd} (h : (w.addConn cfd).2.table fd = some c) :
    w.table fd = some c ∨ fd = cfd ∧ c = w.nextPtr ∧ w.table cfd = none := by
  rw [addConn_table] at h
  split at h
  · rename_i hnone
    by_cases hfd : fd = cfd
    · rw [hfd, Function.update_self] at h
      exact .inr ⟨hfd, (Option.some.inj h).symm, hnone⟩
    · rw [Function.update_of_ne hfd] at h
      exact .inl h
  · exact .inl h

/-- A connection that is live after an accept was so before, or is the new one. -/
theorem Live.of_addConn {cfd : Fd} (h : (w.addConn cfd).2.Live c) (hok : w.Ok) :
    c ≠ w.nextPtr ∧ w.Live c ∨ c = w.nextPtr ∧ w.table cfd = none := by
  obtain ⟨htable, hlive⟩ := h
  by_cases hc : c = w.nextPtr
  · subst hc
    rw [addConn_obj] at htable
    rcases addConn_entry htable with hold | ⟨-, -, hnone⟩
    · exact absurd (hok.lt _ _ hold) (Nat.lt_irrefl _)
    · exact .inr ⟨rfl, hnone⟩
  · rw [addConn_heap_ne w cfd hc] at htable hlive
    rcases addConn_entry htable with hold | ⟨-, heq, -⟩
    · exact .inl ⟨hc, hold, hlive⟩
    · exact absurd heq hc

/-- A new connection: if its number still has an entry, then one that is closing, since the number was not open. -/
theorem Routed.addConn (h : w.Routed openFds) (hok : w.Ok)
    (howners : ∀ e ∈ sqesOf w.trace, ∀ c, e.owner = some c → c < w.nextPtr)
    {cfd : Fd} (hpos : 0 < cfd) (hlt : cfd < 0x20000000) (hclosed : openFds cfd = false) :
    (w.addConn cfd).2.Routed (Function.update openFds cfd true) ∧ (w.addConn cfd).2.Entered w.nextPtr := by
  have htable := addConn_table w cfd
  have hheap : ∀ q, q < w.nextPtr → (w.addConn cfd).2.heap q = w.heap q := fun q hq =>
    addConn_heap_ne w cfd (Nat.ne_of_lt hq)
  -- the old entries
  have hold : ∀ fd c, w.table fd = some c → (w.addConn cfd).2.table fd = some c := fun fd c hc => by
    rw [htable]
    split
    · rename_i hnone
      rw [Function.update_of_ne (fun hfd => by rw [hfd, hnone] at hc; cases hc), hc]
    · exact hc
  refine ⟨⟨fun fd c hc => ?_, fun e he q hq => ?_, fun fd c hc hlive => ?_⟩, ?_⟩
  · rcases addConn_entry hc with hc | ⟨rfl, -⟩
    · exact h.range fd c hc
    · exact ⟨hpos, hlt⟩
  · have hqlt := howners e he q hq
    obtain ⟨⟨c', hc', hown⟩, hfd⟩ := h.entry e he q hq
    unfold Entered
    rw [hheap q hqlt]
    exact ⟨⟨c', hold _ c' hc', by rwa [hheap c' (hok.lt _ c' hc')]⟩, hfd⟩
  · by_cases hfd : fd = cfd
    · rw [hfd, Function.update_self]
    · rw [Function.update_of_ne hfd]
      have hc := (addConn_entry hc).resolve_right fun h => hfd h.1
      rw [hheap c (hok.lt fd c hc)] at hlive
      exact h.isOpen fd c hc hlive
  · unfold Entered
    rw [addConn_obj]
    cases hc : w.table cfd with
    | none => exact ⟨w.nextPtr, by rw [htable, if_pos hc, Function.update_self], .inl rfl⟩
    | some c =>
      refine ⟨c, hold cfd c hc, .inr ?_⟩
      rw [hheap c (hok.lt cfd c hc)]
      refine Bool.eq_true_of_not_eq_false fun hlive => ?_
      rw [h.isOpen cfd c hc hlive] at hclosed
      cases hclosed

end Worker

namespace Sys

open Worker

variable {ok : Sys → Action → Prop} {s s' : Sys} {w w' : Worker} {p : Pending} {cqe : Cqe}

/-! ## The branches -/

/-- What a completion does that is dispatched by its tag. -/
inductive Route (p : Pending) (cqe : Cqe) (w w' : Worker) : Prop
  | own {c : Ptr} {fd : Fd} {kind : Workflow} (hop : ¬p.sqe.op.Accepts) (howner : p.sqe.owner = some c)
      (hposted : p.posted = some (fd, kind)) (hkind : kind.code < 8) (hat : w.At c fd)
      (h : w.handleConn c fd kind cqe = some w')
  /-- Another connection, which is closing, or a zero for one that is not. -/
  | other {c : Ptr} {fd : Fd} {kind : Workflow} (hop : ¬p.sqe.op.Accepts) (hno : w.Unserved p) (hat : w.At c fd)
      (hq : cqe.res = 0 ∨ (w.heap c).closing = true) (h : w.handleConn c fd kind cqe = some w')
  | accept (hno : w.Unserved p) (hacc : 0 < cqe.res → p.sqe.op.Accepts) (h : w.handleAccept cqe = some w')
  | same (hop : ¬p.sqe.op.Accepts) (hno : w.Unserved p) (h : w' = w)

/-- The branches of a completion that is not served. -/
theorem Route.of_handle {fd : Fd} {kind : Workflow} (hop : ¬p.sqe.op.Accepts) (hok : w.Ok) (hno : w.Unserved p)
    (hkind : kind.code < 8)
    (hq : ∀ c, w.table fd = some c → cqe.res = 0 ∨ (w.heap c).closing = true)
    (hacc : kind = .accept → 0 < cqe.res → p.sqe.op.Accepts) (h : w.handle fd kind cqe = some w') :
    Route p cqe w w' := by
  obtain ⟨c, hc, h⟩ | rfl | ⟨hk, h⟩ | ⟨rfl, -⟩ := handle_cases h
  · exact .other hop hno (hok.at hc) (hq c hc) h
  · exact .same hop hno rfl
  · exact .accept hno (hacc hk) h
  · exact absurd hkind (by decide)

/-- A completion whose tag is read back. -/
theorem Route.of_posted {c : Ptr} {fd : Fd} {kind : Workflow} (hop : ¬p.sqe.op.Accepts) (hok : w.Ok)
    (howner : p.sqe.owner = some c)
    (hposted : p.posted = some (fd, kind)) (hkind : kind.code < 8) (hne : kind ≠ .accept) (hfd : (w.heap c).fd = fd)
    (hent : w.Entered c) (h : w.handle fd kind cqe = some w') : Route p cqe w w' := by
  obtain ⟨c', hc', hown⟩ := id hent
  rw [hfd] at hc'
  have hconn : w.handleConn c' fd kind cqe = some w' := by
    obtain ⟨c₁, hc₁, h⟩ | rfl | ⟨hk, -⟩ | ⟨hk, -⟩ := handle_cases h
    · rw [hc'] at hc₁
      cases hc₁
      exact h
    · rw [handle, hc'] at h
      · exact h
      all_goals intro hk; subst hk; first | exact hne rfl | exact absurd hkind (by decide)
    · exact absurd hk hne
    · rw [hk] at hkind
      exact absurd hkind (by decide)
  rcases hown with rfl | hclosing
  · exact .own hop howner hposted hkind (hok.at hc') hconn
  · refine .other hop (fun x hx hxo => ?_) (hok.at hc') (.inr hclosing) hconn
    rw [howner] at hxo
    cases hxo
    have hlive := hx.1
    rw [hfd, hc'] at hlive
    cases hlive
    rw [hx.2] at hclosing
    cases hclosing

theorem arrive_live (s : Sys) (p : Pending) (cqe : Cqe) (data : Bytes) (env : Env) (c : Ptr) :
    (s.arrive p cqe data env).Live c ↔ s.w.Live c := by
  unfold Live
  rw [arrive_table, arrive_heap]

/-- The connection that is owed a completion of a number. -/
theorem pending_owner {ok : Sys → Action → Prop} (hr : Reachable .tagged ok s) (hp : p ∈ s.pending)
    (ho : p.sqe.op.Owned) : ∃ c, p.sqe.owner = some c := by
  obtain ⟨c, fd, hfor⟩ := submitted_for hr p.sqe (pending_mem hr p hp)
  cases hown : p.sqe.owner with
  | some q => exact ⟨q, rfl⟩
  | none =>
    rw [hown] at hfor
    generalize p.sqe.op = op at hfor ho
    cases hfor with
    | buffer => exact ho.elim
    | listen ha => cases op <;> first | exact ho.elim | exact ha.elim

/-- The listener and the pool own their operations themselves. -/
theorem pending_no_owner (hr : Reachable .tagged ok s) (hp : p ∈ s.pending) (ho : ¬p.sqe.op.Owned) :
    p.sqe.owner = none := by
  obtain ⟨c, fd, hfor⟩ := submitted_for hr p.sqe (pending_mem hr p hp)
  generalize p.sqe.op = op at hfor ho
  generalize p.sqe.owner = owner at hfor
  cases hfor with
  | own _ hop => exact absurd hop ho
  | buffer | listen => rfl

/-- Only tasks are posted. -/
theorem pending_task (hr : Reachable .tagged ok s) (hp : p ∈ s.pending) {fd : Fd} {kind : Workflow}
    (hop : p.sqe.op = .msgRing fd kind) : kind.IsTask := by
  obtain ⟨c, fd', hfor⟩ := submitted_for hr p.sqe (pending_mem hr p hp)
  rw [hop] at hfor
  generalize p.sqe.owner = owner at hfor
  cases hfor with
  | own _ ho => exact ho
  | listen ha => exact ha.elim

theorem posted_not_task (hr : Reachable .tagged ok s) (hp : p ∈ s.pending) {fd : Fd} {kind : Workflow}
    (hposted : p.posted = some (fd, kind)) (hkind : ¬kind.IsTask) (fd' : Fd) (k : Workflow) :
    p.sqe.op ≠ .msgRing fd' k := fun hop => by
  simp only [Pending.posted, hop, Option.ite_none_right_eq_some, Option.some.injEq, Prod.mk.injEq] at hposted
  exact hkind (hposted.2.2 ▸ pending_task hr hp hop)

/-- What is posted under one of the first eight kinds is read back. -/
theorem read_posted {c : Ptr} {fd : Fd} {kind : Workflow} (hr : Reachable .tagged ok s) (he : s.w.Routed s.openFds)
    (hp : p ∈ s.pending) (hown : p.sqe.owner = some c) (hposted : p.posted = some (fd, kind)) (hkind : kind.code < 8) :
    (s.w.heap c).fd = fd ∧ s.w.Entered c ∧ Dispatch.tagged.read p = some (fd, kind) := by
  have htag : p.sqe.op.target = some fd ∧ p.tag = packUd fd kind := by
    have hwritten : ∀ u, p.sqe.op.tag = some u → p.tag = u := fun u hu => pending_tag hr hp hu
    unfold Pending.posted at hposted
    cases hop : p.sqe.op with
    | provideBuffers addr bid =>
      simp only [hop, Option.some.injEq, Prod.mk.injEq] at hposted
      rw [← hposted.2] at hkind
      exact absurd hkind (by decide)
    | close fd' =>
      simp only [hop, Option.some.injEq, Prod.mk.injEq] at hposted
      rw [← hposted.2] at hkind
      exact absurd hkind (by decide)
    | msgRing fd' kind' =>
      simp only [hop, Option.ite_none_right_eq_some, Option.some.injEq, Prod.mk.injEq] at hposted
      obtain ⟨hmsg, rfl, rfl⟩ := hposted
      exact ⟨rfl, by simp [Pending.tag, hop, hmsg]⟩
    | accept | multishotAccept | recvMultishot | recv | pollAdd | sendmsg =>
      simp only [hop, Option.some.injEq, Prod.mk.injEq] at hposted
      obtain ⟨rfl, rfl⟩ := hposted
      exact ⟨rfl, hwritten _ (by rw [hop]; rfl)⟩
  obtain ⟨⟨c', hc', hor⟩, hfd⟩ := he.entry p.sqe (pending_mem hr p hp) c hown
  obtain rfl := hfd fd htag.1
  have hrange := he.range _ c' hc'
  refine ⟨rfl, ⟨c', hc', hor⟩, ?_⟩
  rw [Dispatch.read, htag.2, packUd_eq, unpack_pack 0 (Int32.le_of_lt hrange.1) (by decide) hrange.2 hkind]

/-- Where a completion that is dispatched by its tag goes. -/
theorem route_cases {data : Bytes} {env : Env} (hr : Reachable .tagged ok s) (he : s.w.Routed s.openFds)
    (hp : p ∈ s.pending) (hadm : s.Admissible p cqe data)
    (hw : handled .tagged (s.arrive p cqe data env) p cqe = some w') : Route p cqe (s.arrive p cqe data env) w' := by
  have hok : (s.arrive p cqe data env).Ok := (table_ok hr).move (arrive_move ..)
  have hlt := unpack_kind_lt p.tag
  have htag : ∀ u, p.sqe.op.tag = some u → p.tag = u := fun u hu => pending_tag hr hp hu
  have hmem := pending_mem hr p hp
  -- a completion that is read back
  have hback : ¬p.sqe.op.Accepts → ∀ c fd kind, p.sqe.owner = some c → p.posted = some (fd, kind) → kind.code < 8 →
      kind ≠ .accept → Route p cqe (s.arrive p cqe data env) w' := fun hop c fd kind hown hposted hkind hne => by
    obtain ⟨hfd, hent, hread⟩ := read_posted hr he hp hown hposted hkind
    rw [handled, hread] at hw
    exact .of_posted hop hok hown hposted hkind hne (by rw [arrive_heap, hfd])
      (by unfold Entered; rw [arrive_heap, arrive_table]; exact hent) hw
  unfold Admissible at hadm
  cases hop : p.sqe.op with
  | recvMultishot fd | recv fd hold | pollAdd fd | sendmsg fd iov =>
    obtain ⟨c, hown⟩ := pending_owner hr hp (by rw [hop]; trivial)
    exact hback (by rw [hop]; exact id) c fd _ hown (by rw [Pending.posted, hop]) (by decide) (by decide)
  | close fd =>
    unfold handled Dispatch.read at hw
    dsimp only at hw
    rw [hop] at htag hadm
    obtain ⟨c, hown⟩ := pending_owner hr hp (by rw [hop]; trivial)
    obtain ⟨⟨c', hc', hor⟩, hfd⟩ := he.entry p.sqe hmem c hown
    obtain rfl := hfd fd (by rw [hop]; rfl)
    have hrange := he.range _ c' hc'
    rw [htag _ rfl, packUd_closed, unpack_pack 1 (Int32.le_of_lt hrange.1) (by decide) hrange.2 (by decide)] at hw
    dsimp only at hw
    have hclosing := (close_ok hr).closing c ⟨p.sqe, hmem, hown, by rw [hop]; trivial⟩
    refine .of_handle (by rw [hop]; exact id) hok (fun x hx hxo => ?_) (by decide) (fun c₁ hc₁ => .inr ?_)
      (fun h => by cases h) hw
    · rw [hown] at hxo
      cases hxo
      have hlive := hx.2
      rw [arrive_heap, hclosing] at hlive
      cases hlive
    · rw [arrive_table, hc'] at hc₁
      cases hc₁
      rw [arrive_heap]
      exact hor.elim (fun h => h ▸ hclosing) id
  | msgRing fd kind =>
    rw [hop] at hadm
    have hres : cqe.res = 0 := hadm
    have hop' : ¬p.sqe.op.Accepts := by rw [hop]; exact id
    have hzero : ∀ {k : Workflow}, k = .accept → 0 < cqe.res → p.sqe.op.Accepts := fun _ h => by
      rw [hres] at h
      exact absurd h (by decide)
    have htask := pending_task hr hp hop
    by_cases hread : p.message = true ∧ kind.code < 8
    · obtain ⟨hmsg, hkind⟩ := hread
      obtain ⟨c, hown⟩ := pending_owner hr hp (by rw [hop]; exact htask)
      exact hback hop' c fd kind hown (by simp [Pending.posted, hop, hmsg]) hkind (by rintro rfl; exact htask)
    · refine .of_handle hop' hok (fun x _ _ ⟨fd', k, hk, hlt⟩ => hread ?_) hlt (fun _ _ => .inl hres) hzero hw
      simp only [Pending.posted, hop, Option.ite_none_right_eq_some, Option.some.injEq, Prod.mk.injEq] at hk
      exact ⟨hk.1, hk.2.2 ▸ hlt⟩
  | accept fd | multishotAccept fd =>
    unfold handled Dispatch.read at hw
    dsimp only at hw
    have hnone := pending_no_owner hr hp (by rw [hop]; exact id)
    rw [hop] at htag
    rw [htag _ rfl] at hw
    have hkind : (unpackUd (packUd fd .accept)).2.1 = .accept := (unpack_kind fd .accept 0).trans (by decide)
    rw [hkind] at hw
    exact .accept (fun x _ h => by rw [hnone] at h; cases h) (fun _ => by rw [hop]; trivial) hw
  | provideBuffers addr bid =>
    unfold handled Dispatch.read at hw
    dsimp only at hw
    have hnone := pending_no_owner hr hp (by rw [hop]; exact id)
    rw [hop] at htag
    rw [htag _ rfl] at hw
    refine .same (by rw [hop]; exact id) (fun x _ h => by rw [hnone] at h; cases h) ?_
    have hzero : (s.arrive p cqe data env).table 0 = none := by
      rw [arrive_table]
      exact Option.eq_none_iff_forall_ne_some.mpr fun c hc => absurd (he.range 0 c hc).1 (by decide)
    rw [unpack_free_fd, (unpack_wrapped_kind 0 _).2.2] at hw
    simp only [handle, hzero, Option.some.injEq] at hw
    exact hw.symm

/-! ## Runs -/

/-- Whenever an accept succeeds, a tag can carry its number. -/
def InRange (s : Sys) : Action → Prop
  | .complete i cqe _ _ => ∀ p ∈ s.pending[i]?, 0 < cqe.res → p.sqe.op.InRange cqe
  | _ => True

instance (s : Sys) (a : Action) : Decidable (s.InRange a) :=
  match a with
  | .complete i cqe _ _ => inferInstanceAs (Decidable (∀ p ∈ s.pending[i]?, 0 < cqe.res → p.sqe.op.InRange cqe))
  | .executeClose _ | .endBatch => isTrue trivial

theorem InRange.accept {i : Nat} {data : Bytes} {env : Env} (h : s.InRange (.complete i cqe data env))
    (hp : s.pending[i]? = some p) (hacc : p.sqe.op.Accepts) (hres : 0 < cqe.res) : cqe.res < 0x20000000 := by
  have h := h p hp hres
  generalize p.sqe.op = op at h hacc
  cases op <;> first | exact h | exact hacc.elim

/-- An accept that succeeds opens its number, which was not open. -/
theorem accept_opens {data : Bytes} (hadm : s.Admissible p cqe data) (hacc : p.sqe.op.Accepts) (hres : 0 < cqe.res) :
    s.openFds cqe.res = false ∧ s.openAfter p cqe = Function.update s.openFds cqe.res true := by
  unfold Admissible at hadm
  unfold openAfter
  cases hop : p.sqe.op <;> rw [hop] at hadm hacc <;> first
    | exact hacc.elim
    | exact ⟨hadm hres, if_pos hres⟩

theorem openAfter_of_not (h : 0 < cqe.res → ¬p.sqe.op.Accepts) : s.openAfter p cqe = s.openFds := by
  unfold openAfter
  cases hop : p.sqe.op <;> rw [hop] at h <;> first
    | rfl
    | exact if_neg fun hres => h hres trivial

theorem Routed.arrive (h : s.w.Routed s.openFds) (p : Pending) (cqe : Cqe) (data : Bytes) (env : Env) :
    (s.arrive p cqe data env).Routed s.openFds := by
  refine ⟨?_, ?_, ?_⟩
  · rw [arrive_table]
    exact h.range
  · unfold Entered
    rw [arrive_trace, arrive_heap, arrive_table]
    exact h.entry
  · rw [arrive_table, arrive_heap]
    exact h.isOpen

/-- A step keeps the numbers of the connections. -/
theorem Routed.step {a : Action} (hr : Reachable .tagged ok s) (he : s.w.Routed s.openFds) (hin : s.InRange a)
    (h : step .tagged s a = some s') : s'.w.Routed s'.openFds := by
  cases (step_cases h).2 with
  | endBatch => exact ⟨he.range, he.entry, he.isOpen⟩
  | executeClose hp hop hex =>
    rename_i i p fd
    refine ⟨he.range, he.entry, fun fd' c hc hlive => ?_⟩
    have hmem := List.mem_of_getElem? hp
    -- the number that is closed is that of a connection that is closing
    obtain ⟨q, hown⟩ := pending_owner hr hmem (by rw [hop]; trivial)
    have hclosing := (close_ok hr).closing q ⟨p.sqe, pending_mem hr p hmem, hown, by rw [hop]; trivial⟩
    obtain ⟨⟨c', hc', hor⟩, hfd⟩ := he.entry p.sqe (pending_mem hr p hmem) q hown
    rw [hfd fd (by rw [hop]; rfl)] at hc'
    have hne : fd' ≠ fd := by
      rintro rfl
      rw [hc] at hc'
      cases hc'
      rw [hor.elim (fun h => h ▸ hclosing) id] at hlive
      cases hlive
    exact (Function.update_of_ne hne ..).trans (he.isOpen fd' c hc hlive)
  | complete hp hadm hw =>
    rename_i i cqe data env p w'
    have he₀ := Routed.arrive he p cqe data env
    show w'.Routed (s.openAfter p cqe)
    cases route_cases hr he (List.mem_of_getElem? hp) hadm hw with
    | own hop _ _ _ hat h | other hop _ hat _ h =>
      rw [openAfter_of_not fun _ => hop]
      exact he₀.prims hat.obj hat.entered (handleConn_prims hat h)
    | same hop _ h =>
      rw [openAfter_of_not fun _ => hop]
      exact h ▸ he₀
    | accept _ hacc h =>
      obtain ⟨hres, h⟩ | ⟨hres, b, w₁, hrecv, h⟩ := handleAccept_cases h
      · rw [openAfter_of_not fun hpos => absurd hres (Int32.not_le.mpr hpos)]
        exact he₀.listen h
      · obtain ⟨hclosed, hopen⟩ := accept_opens hadm (hacc hres) hres
        have hok := (table_ok hr).move (arrive_move s p cqe data env)
        obtain ⟨hnew, hent⟩ := he₀.addConn hok (fun e he c hc => by
          rw [arrive_trace] at he
          rw [arrive_nextPtr]
          exact (close_ok hr).owners e he c hc) hres (hin.accept hp (hacc hres) hres) hclosed
        rw [hopen]
        exact (hnew.prims (by rw [addConn_obj]) hent (startRecv_prims (by rw [addConn_obj]) hrecv)).listen h

theorem routed (hok : ∀ s a, ok s a → s.InRange a) (h : Reachable .tagged ok s) : s.w.Routed s.openFds := by
  refine Reach.invariant_of (K := Reachable .tagged ok) (I := fun s => s.w.Routed s.openFds) (fun _ => id)
    (fun s h => ?_)
    (fun s a s' hr he ha h => Routed.step hr he (hok s a ha) h) s h
  obtain ⟨_, _, _, _, _, h, -, -⟩ := h
  refine ⟨fun fd c hc => ?_, fun e hmem c hc => ?_, fun fd c hc => ?_⟩
  · rw [(startUp_new h).1] at hc
    cases hc
  · rw [(startUp_submits h e hmem).2] at hc
    cases hc
  · rw [(startUp_new h).1] at hc
    cases hc

end Sys

end IOContext
