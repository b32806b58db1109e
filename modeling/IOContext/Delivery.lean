import IOContext.Answering
import IOContext.Routing
import IOContext.SendStream

/-!
# What the clients receive

The system with all its connections, and the bytes that the kernel has taken from the sends of each.

- A connection is not there yet, sends, or has been erased while its last send was under way (`Delivering`); every step
  keeps each of them in one of these (`Delivering.step`).
- In the runs in which completions find their own connection's entry, or none, and a send that succeeds takes its whole
  batch, a client receives the responses of its own calls, in order (`delivered`).
-/

namespace IOContext

open Worker

def Call.bytes (k : Call) : Bytes := k.bufs.flatMap (·.wb)

/-- The system, with the bytes that the kernel has taken for each connection. -/
structure Delivery where
  s : Sys
  taken : Ptr → Bytes := fun _ => []

/-- A send that succeeds takes its whole batch. -/
def Op.Whole (cqe : Cqe) : Op → Prop
  | .sendmsg _ iov => 0 ≤ cqe.res → cqe.res.toInt = iov.flatten.length
  | _ => True

instance (cqe : Cqe) : DecidablePred (Op.Whole cqe)
  | .sendmsg _ _ => inferInstanceAs (Decidable (_ → _))
  | .accept _ | .multishotAccept _ | .provideBuffers _ _ | .recvMultishot _ | .recv _ _ | .close _ | .pollAdd _
  | .msgRing _ _ => isTrue trivial

/-- The send for `c` of which this is the completion. -/
def Pending.send (c : Ptr) (p : Pending) : Option (List Bytes) :=
  match p.sqe.op with
  | .sendmsg _ iov => if p.sqe.owner = some c then some iov else none
  | _ => none

namespace Delivery

/-- The sends owed for `c`. -/
def outstanding (c : Ptr) (ps : List Pending) : List (List Bytes) := ps.filterMap (Pending.send c)

/-- The kernel has taken the first `res` bytes of the send that completes. -/
def takenAfter (x : Delivery) : Action → Ptr → Bytes
  | .complete i cqe _ _, c =>
    match x.s.pending[i]?.bind (Pending.send c) with
    | some iov => x.taken c ++ iov.flatten.take cqe.res.toInt.toNat
    | none => x.taken c
  | .executeClose _, c | .endBatch, c => x.taken c

def step (d : Dispatch) (x : Delivery) (a : Action) : Option Delivery :=
  (x.s.step d a).map fun s' => { s := s', taken := x.takenAfter a }

def Init (x : Delivery) : Prop := Sys.Init x.s ∧ x.taken = fun _ => []

def WholeSends (x : Delivery) : Action → Prop
  | .complete i cqe _ _ => ∀ p ∈ x.s.pending[i]?, p.sqe.op.Whole cqe
  | _ => True

instance (x : Delivery) (a : Action) : Decidable (x.WholeSends a) :=
  match a with
  | .complete i cqe _ _ => inferInstanceAs (Decidable (∀ p ∈ x.s.pending[i]?, p.sqe.op.Whole cqe))
  | .executeClose _ | .endBatch => isTrue trivial

variable {x x' : Delivery} {d : Dispatch} {ok : Delivery → Action → Prop} {c : Ptr}

/-- The runs are those of the system. -/
theorem reachable (h : Reach Init (step d) ok x) : Sys.Reachable d (fun _ _ => True) x.s := by
  refine Reach.invariant (I := fun x => Sys.Reachable d (fun _ _ => True) x.s) (fun x h => .start h.1)
    (fun x a x' hr _ h => ?_) x h
  obtain ⟨s', hs, rfl⟩ := Option.map_eq_some_iff.mp h
  exact .next hr trivial hs

/-! ## Sends owed -/

theorem outstanding_append (c : Ptr) (ps ps' : List Pending) :
    outstanding c (ps ++ ps') = outstanding c ps ++ outstanding c ps' := List.filterMap_append

/-- What is owed for submissions of other connections. -/
theorem outstanding_apart {evs : List Event} (h : ∀ ev ∈ evs, ev.Apart c) :
    outstanding c (evs.flatMap Event.owed) = [] :=
  List.filterMap_eq_nil_iff.mpr fun p hp => by
    obtain ⟨ev, hev, hp⟩ := List.mem_flatMap.mp hp
    have hapart := h ev hev
    rw [(Event.mem_owed hp).1] at hapart
    unfold Pending.send
    split
    · exact if_neg hapart
    · rfl

/-- What is owed for the submissions of `c`. -/
theorem outstanding_own {evs : List Event} {L : Effect → Prop} {fd : Fd} (h : ∀ e ∈ evs, Event.Allowed L c fd e) :
    outstanding c (evs.flatMap Event.owed) = sendsOf evs := by
  induction evs with
  | nil => rfl
  | cons ev evs ih =>
    have hrest := ih fun e he => h e (List.mem_cons_of_mem _ he)
    have hcons : ev :: evs = [ev] ++ evs := rfl
    rw [hcons, List.flatMap_append, outstanding_append, sendsOf_append, hrest]
    congr 1
    cases ev with
    | segment | enqueue | invoke => rfl
    | sqe e =>
      obtain ⟨serial, op, userData, tagOf, owner⟩ := e
      have hfor : op.For c fd owner := (h _ List.mem_cons_self).2
      cases hfor with
      | own _ _ => cases op <;> simp [outstanding, Event.owed, Pending.send, sendsOf, sqesOf]
      | buffer addr bid => rfl
      | listen ha => cases op <;> first | exact ha.elim | rfl

theorem outstanding_set {ps : List Pending} {i : Nat} {p p' : Pending} (hp : ps[i]? = some p)
    (h : p'.send c = p.send c) : outstanding c (ps.set i p') = outstanding c ps := by
  induction ps generalizing i with
  | nil => simp at hp
  | cons q ps ih =>
    cases i with
    | zero =>
      cases hp
      simp [outstanding, List.filterMap_cons, h]
    | succ i =>
      have hrest := ih (i := i) (by simpa using hp)
      unfold outstanding at hrest ⊢
      rw [List.set_cons_succ, List.filterMap_cons, List.filterMap_cons, hrest]

/-- One completion less. -/
theorem outstanding_eraseIdx {ps : List Pending} {i : Nat} {p : Pending} (hp : ps[i]? = some p) :
    ∃ l₁ l₂, outstanding c ps = l₁ ++ (p.send c).toList ++ l₂ ∧ outstanding c (ps.eraseIdx i) = l₁ ++ l₂ := by
  induction ps generalizing i with
  | nil => simp at hp
  | cons q ps ih =>
    have hcons : ∀ ps, outstanding c (q :: ps) = (q.send c).toList ++ outstanding c ps := fun ps => by
      unfold outstanding
      rw [List.filterMap_cons]
      cases q.send c <;> rfl
    cases i with
    | zero =>
      cases hp
      exact ⟨[], outstanding c ps, hcons ps, rfl⟩
    | succ i =>
      obtain ⟨l₁, l₂, hall, hrest⟩ := ih (i := i) (by simpa using hp)
      refine ⟨(q.send c).toList ++ l₁, l₂, ?_, ?_⟩
      · rw [hcons, hall]
        simp only [List.append_assoc]
      · rw [List.eraseIdx_cons_succ, hcons, hrest, List.append_assoc]

/-- A send completes once. -/
theorem goesOn_send {p : Pending} {cqe : Cqe} {iov : List Bytes} (h : p.send c = some iov) :
    Sys.goesOn p cqe = false := by
  unfold Pending.send at h
  unfold Sys.goesOn
  split at h
  · rename_i hop
    rw [hop]
  · cases h

/-- The sends owed after a completion that was not one of them. -/
theorem outstanding_other {ps : List Pending} {i : Nat} {p : Pending} {cqe : Cqe} (hp : ps[i]? = some p)
    (hnone : p.send c = none) : outstanding c (if Sys.goesOn p cqe then ps else ps.eraseIdx i) = outstanding c ps := by
  split
  · rfl
  · obtain ⟨l₁, l₂, hall, hrest⟩ := outstanding_eraseIdx (c := c) hp
    rw [hrest, hall, hnone, Option.toList_none, List.append_nil]

/-- The only send owed has completed. -/
theorem outstanding_only {ps : List Pending} {i : Nat} {p : Pending} {cqe : Cqe} {iov b : List Bytes}
    (hp : ps[i]? = some p) (hsend : p.send c = some iov) (honly : outstanding c ps = [] ∨ outstanding c ps = [b]) :
    outstanding c ps = [iov] ∧ outstanding c (if Sys.goesOn p cqe then ps else ps.eraseIdx i) = [] := by
  obtain ⟨l₁, l₂, hall, hrest⟩ := outstanding_eraseIdx (c := c) hp
  rw [goesOn_send hsend, if_neg Bool.false_ne_true, hrest, hall, hsend]
  rw [hall, hsend] at honly
  rcases honly with honly | honly
  · simp at honly
  · have hlen := congrArg List.length honly
    simp only [List.length_append, Option.toList_some, List.length_singleton] at hlen
    obtain rfl : l₁ = [] := List.eq_nil_of_length_eq_zero (by omega)
    obtain rfl : l₂ = [] := List.eq_nil_of_length_eq_zero (by omega)
    exact ⟨rfl, rfl⟩

/-! ## What belongs to other connections -/

section Away

variable {q : Ptr} {fd : Fd} {w w' : Worker}

/-- Nothing is done for `c`, which is there if it was there before. -/
structure Away (c : Ptr) (w w' : Worker) : Prop where
  heap : w'.heap c = w.heap c
  trace : ∃ evs, w'.trace = w.trace ++ evs ∧ ∀ ev ∈ evs, ev.Apart c
  entry : ∀ fd, w'.table fd = some c → w.table fd = some c
  born : c < w'.nextPtr ↔ c < w.nextPtr

theorem Away.of_eq (hheap : w'.heap c = w.heap c) (htrace : w'.trace = w.trace)
    (hentry : ∀ fd, w'.table fd = some c → w.table fd = some c) (hborn : c < w'.nextPtr ↔ c < w.nextPtr) :
    Away c w w' :=
  ⟨hheap, ⟨[], by rw [htrace, List.append_nil], fun _ h => absurd h List.not_mem_nil⟩, hentry, hborn⟩

theorem Away.of_prims {L : Effect → Prop} (h : Prims L q fd w w') (hq : q ≠ c) : Away c w w' :=
  ⟨h.frame.heap c (Ne.symm hq), h.apart hq, fun _ hfd => h.frame.table ▸ hfd, by rw [h.frame.nextPtr]⟩

theorem Away.of_listen (h : ∀ c fd, Prims Effect.Listens c fd w w') (c : Ptr) : Away c w w' :=
  .of_prims (h (c + 1) 0) (Nat.succ_ne_self c)

theorem Away.trans {w'' : Worker} (h : Away c w w') (h' : Away c w' w'') : Away c w w'' := by
  obtain ⟨evs, htrace, hev⟩ := h.trace
  obtain ⟨evs', htrace', hev'⟩ := h'.trace
  exact ⟨h'.heap.trans h.heap, ⟨evs ++ evs', by rw [htrace', htrace, List.append_assoc],
    fun ev he => (List.mem_append.mp he).elim (hev ev) (hev' ev)⟩, fun fd hfd => h.entry fd (h'.entry fd hfd),
    h'.born.trans h.born⟩

theorem addConn_away (w : Worker) (cfd : Fd) (hc : c ≠ w.nextPtr) : Away c w (w.addConn cfd).2 := by
  refine .of_eq (addConn_heap_ne w cfd hc) rfl ?_ ?_
  · exact fun fd h => (addConn_entry h).elim id fun ⟨_, hnew, _⟩ => absurd hnew hc
  · exact Nat.lt_succ_iff_lt_or_eq.trans (or_iff_left hc)

/-- What a completion is for `c`: one that is handled for it, one that creates it, or none of its own. -/
inductive Share (c : Ptr) (fd : Fd) (kind : Workflow) (cqe : Cqe) (w w' : Worker) : Prop
  | own (hc : w.table fd = some c) (h : w.handleConn c fd kind cqe = some w')
  | create {cfd : Fd} {b : Bool} {w₁ : Worker} (hc : c = w.nextPtr)
      (hrecv : (w.addConn cfd).2.startRecv c = some (b, w₁)) (h : ∀ c fd, Prims Effect.Listens c fd w₁ w')
  | away (h : Away c w w')

theorem handle_share (hok : w.Ok) {kind : Workflow} {cqe : Cqe} (h : w.handle fd kind cqe = some w') (c : Ptr) :
    Share c fd kind cqe w w' := by
  obtain ⟨q, hq, h⟩ | rfl | ⟨-, h⟩ | ⟨-, rfl⟩ := handle_cases h
  · by_cases hqc : q = c
    · exact .own (hqc ▸ hq) (hqc ▸ h)
    · exact .away (.of_prims (handleConn_prims (hok.at hq) h) hqc)
  · exact .away (.of_eq rfl rfl (fun _ => id) Iff.rfl)
  · obtain ⟨-, h⟩ | ⟨-, b, w₁, hrecv, h⟩ := handleAccept_cases h
    · exact .away (.of_listen h c)
    · by_cases hc : c = w.nextPtr
      · exact .create hc (hc ▸ hrecv) h
      · have hp := startRecv_prims (by rw [addConn_obj]) hrecv
        exact .away (((addConn_away w cqe.res hc).trans (.of_prims hp (Ne.symm hc))).trans (.of_listen h c))
  · refine .away (.of_eq rfl rfl (fun fd' h => ?_) Iff.rfl)
    have h' : Function.update w.table fd none fd' = some c := h
    by_cases hfd : fd' = fd
    · rw [hfd, Function.update_self] at h'
      cases h'
    · rwa [Function.update_of_ne hfd] at h'

end Away

/-! ## Numbers -/

/-- An operation that is submitted for a connection is on its number. -/
structure Numbered (w : Worker) : Prop where
  lt : ∀ e ∈ sqesOf w.trace, ∀ c, e.owner = some c → c < w.nextPtr
  number : ∀ e ∈ sqesOf w.trace, ∀ c, e.owner = some c → ∀ fd, e.op.target = some fd → (w.heap c).fd = fd

theorem numbered {s : Sys} {ok : Sys → Action → Prop} (h : Sys.Reachable d ok s) : Numbered s.w := by
  refine Sys.worker_invariant (I := Numbered) (fun _ _ _ _ => ⟨fun _ h => (by cases h), fun _ h => (by cases h)⟩)
    (fun w w' hok hw hm => ?_) h
  have hprims : ∀ {L : Effect → Prop} {q : Ptr} {fd : Fd} (w₀ : Worker), Numbered w₀ → (w₀.heap q).fd = fd →
      q < w₀.nextPtr → Prims L q fd w₀ w' → Numbered w' := fun {L q fd} w₀ hw₀ hfd hlt hp => by
    obtain ⟨evs, htrace, hev⟩ := hp.trace
    have hnew : ∀ e ∈ sqesOf evs, ∀ c, e.owner = some c → c = q ∧ e.op.target = some fd := fun e he c hc => by
      have hfor := (hev _ (mem_sqesOf.mp he)).2
      rw [hc] at hfor
      generalize e.op = op at hfor ⊢
      cases hfor with
      | own ht => exact ⟨rfl, ht⟩
    refine ⟨fun e he c hc => ?_, fun e he c hc fd' ht => ?_⟩ <;> rw [htrace, sqesOf_append, List.mem_append] at he
    · rw [hp.frame.nextPtr]
      rcases he with he | he
      · exact hw₀.lt e he c hc
      · exact (hnew e he c hc).1 ▸ hlt
    · rw [hp.frame.number]
      rcases he with he | he
      · exact hw₀.number e he c hc fd' ht
      · obtain ⟨rfl, ht'⟩ := hnew e he c hc
        rw [ht] at ht'
        cases ht'
        exact hfd
  cases hm with
  | @conn _ c fd hat hp => exact hprims w hw hat.obj (hok.lt fd c hat.table) hp
  | listen hp =>
    obtain ⟨-, hheap⟩ := prims_other hp
    obtain ⟨evs, htrace, hev⟩ := listen_submits hp
    refine ⟨fun e he c hc => ?_, fun e he c hc fd ht => ?_⟩ <;> rw [htrace, sqesOf_append, List.mem_append] at he <;>
      rcases he with he | he
    · exact (hp 0 0).frame.nextPtr ▸ hw.lt e he c hc
    · rw [(hev e he).2] at hc
      cases hc
    · rw [hheap]
      exact hw.number e he c hc fd ht
    · rw [(hev e he).2] at hc
      cases hc
  | accept cfd hp =>
    refine hprims (w.addConn cfd).2 ⟨fun e he c hc => Nat.lt_succ_of_lt (hw.lt e he c hc), fun e he c hc fd ht => ?_⟩
      (by rw [addConn_obj]) (Nat.lt_succ_self _) hp
    rw [addConn_heap_ne w cfd (Nat.ne_of_lt (hw.lt e he c hc))]
    exact hw.number e he c hc fd ht
  | erase | outside => exact ⟨hw.lt, hw.number⟩

/-! ## The sends of a connection -/

/-- Where a connection is with its sends. -/
inductive Delivering (c : Ptr) (w : Worker) (out : List (List Bytes)) (taken : Bytes) : Prop
  | unborn (hc : w.nextPtr ≤ c) (hqueued : queuedOf c w.trace = []) (hout : out = []) (htaken : taken = [])
  | serving (hc : c < w.nextPtr) (hgood : Stream.Good w c out taken)
  /-- The send that was under way when the connection was erased has completed. -/
  | gone (hc : c < w.nextPtr) (hgone : ∀ fd, w.table fd ≠ some c) (hout : out = [])
      (hfirst : taken <+: (queuedOf c w.trace).flatMap (·.wb))

section Steps

variable {w w' : Worker} {out : List (List Bytes)} {taken : Bytes}

theorem Delivering.prefix (h : Delivering c w out taken) : taken <+: (queuedOf c w.trace).flatMap (·.wb) := by
  cases h with
  | unborn _ _ _ htaken =>
    rw [htaken]
    exact List.nil_prefix
  | serving _ hgood =>
    obtain ⟨done, htaken, hinv⟩ := hgood.sender
    rw [htaken]
    exact hinv.prefix _
  | gone _ _ _ hfirst => exact hfirst

/-- Nothing is done for the connection. -/
theorem Delivering.away (h : Delivering c w out taken) (ha : Away c w w') : Delivering c w' out taken := by
  obtain ⟨evs, htrace, hev⟩ := ha.trace
  have hqueued : queuedOf c w'.trace = queuedOf c w.trace := by
    rw [htrace, queuedOf_append, queuedOf_apart hev, List.append_nil]
  cases h with
  | unborn hc hnone hout htaken =>
    exact .unborn (Nat.not_lt.mp fun hlt => absurd (ha.born.mp hlt) (Nat.not_lt.mpr hc)) (hqueued.trans hnone) hout
      htaken
  | serving hc hgood => exact .serving (ha.born.mpr hc) (hgood.apart ha.heap htrace hev)
  | gone hc hgone hout hfirst =>
    exact .gone (ha.born.mpr hc) (fun fd hfd => hgone fd (ha.entry fd hfd)) hout (by rwa [hqueued])

/-- A connection that is accepted. -/
theorem Delivering.accepted {cfd : Fd} {b : Bool} {w₁ : Worker} (h : Delivering w.nextPtr w out taken)
    (hrecv : (w.addConn cfd).2.startRecv w.nextPtr = some (b, w₁)) (hlisten : ∀ c fd, Prims Effect.Listens c fd w₁ w') :
    Delivering w.nextPtr w' (out ++ Stream.sendsSince (w.addConn cfd).2 w₁) taken := by
  have hp := startRecv_prims (by rw [addConn_obj]) hrecv
  have hlt : w.nextPtr < w₁.nextPtr := by
    rw [hp.frame.nextPtr]
    exact Nat.lt_succ_self _
  cases h with
  | unborn hc hnone hout htaken =>
    have hnew : Stream.Good (w.addConn cfd).2 w.nextPtr out taken := by
      refine ⟨⟨[], by rw [htaken]; rfl, ?_⟩, .inl hout⟩
      have htrace : (w.addConn cfd).2.trace = w.trace := rfl
      simp [Worker.sender, Sender.Inv, htrace, hnone, PerClientStorage.batch]
    exact (Delivering.serving hlt (hnew.transfers (Prims.transfers (hp.mono Effect.Recvs.quietTx)))).away
      (.of_listen hlisten _)
  | serving hc | gone hc => exact absurd hc (Nat.lt_irrefl _)

end Steps

/-! ## Steps -/

section Steps

variable {s : Sys} {p : Pending} {cqe : Cqe} {data : Bytes} {env : Env} {i : Nat} {w' : Worker}
  {ok' : Sys → Action → Prop}

theorem arrive_away (s : Sys) (p : Pending) (cqe : Cqe) (data : Bytes) (env : Env) (c : Ptr) :
    Away c s.w (s.arrive p cqe data env) :=
  .of_eq (by rw [Sys.arrive_heap]) (Sys.arrive_trace ..) (fun fd h => by rwa [Sys.arrive_table] at h)
    (by rw [Sys.arrive_nextPtr])

/-- A completion of a send is owed to the connection for which it was submitted. -/
theorem posted_send (hr : Sys.Reachable .posted ok' s) (hp : p ∈ s.pending) {fd : Fd}
    (hposted : p.posted = some (fd, .send)) : ∃ c iov, p.sqe.owner = some c ∧ p.send c = some iov := by
  obtain ⟨c, fd', hfor⟩ := Sys.submitted_for hr p.sqe (Sys.pending_mem hr p hp)
  unfold Pending.posted at hposted
  unfold Pending.send
  cases hop : p.sqe.op <;> rw [hop] at hposted hfor <;> try (simp at hposted)
  case sendmsg =>
    generalize p.sqe.owner = owner at hfor ⊢
    cases hfor with
    | own => exact ⟨c, _, rfl, if_pos rfl⟩
    | listen ha => exact ha.elim
  case msgRing =>
    generalize p.sqe.owner = owner at hfor
    obtain ⟨-, -, rfl⟩ := hposted
    cases hfor with
    | own _ ho => exact ho.elim
    | listen ha => exact ha.elim

/-- The kernel's side of a send of `c`. -/
theorem send_posted {iov : List Bytes} (h : p.send c = some iov) :
    ∃ fd, p.sqe.op = .sendmsg fd iov ∧ p.sqe.owner = some c ∧ p.posted = some (fd, .send) := by
  unfold Pending.send at h
  split at h
  · rename_i fd iov' hop
    obtain ⟨hown, h⟩ := Option.ite_none_right_eq_some.mp h
    cases h
    exact ⟨fd, hop, hown, by rw [Pending.posted, hop]⟩
  · cases h

/-- A send of `c` completes. -/
theorem Delivering.sent {taken : Bytes} {iov : List Bytes} (hr : Sys.Reachable .posted ok' s)
    (h : Delivering c s.w (outstanding c s.pending) taken) (hp : s.pending[i]? = some p) (hsend : p.send c = some iov)
    (hwhole : p.sqe.op.Whole cqe) (hown : p.OwnEntry s.w)
    (hw : Sys.handled .posted (s.arrive p cqe data env) p cqe = some w') :
    Delivering c w' (outstanding c (s.after i p cqe data w').pending)
      (taken ++ iov.flatten.take cqe.res.toInt.toNat) := by
  obtain ⟨fd, hop, howner, hposted⟩ := send_posted hsend
  have hmem := List.mem_of_getElem? hp
  have hnum := (numbered hr).number p.sqe (Sys.pending_mem hr p hmem) c howner fd (by rw [hop]; rfl)
  -- only a connection that is there is owed a send
  have hserving : c < s.w.nextPtr ∧ Stream.Good s.w c (outstanding c s.pending) taken := by
    have hne : outstanding c s.pending ≠ [] := fun hnil => by
      have := List.filterMap_eq_nil_iff.mp hnil p hmem
      rw [hsend] at this
      cases this
    cases h with
    | unborn _ _ hout => exact absurd hout hne
    | serving hc hgood => exact ⟨hc, hgood⟩
    | gone _ _ hout => exact absurd hout hne
  obtain ⟨hc, hgood⟩ := hserving
  obtain ⟨hout, hrest⟩ : outstanding c s.pending = [iov] ∧
      outstanding c (if Sys.goesOn p cqe then s.pending else s.pending.eraseIdx i) = [] := by
    obtain hnil | ⟨b, -, hb⟩ := hgood.outstanding
    · exact outstanding_only (b := []) hp hsend (.inl hnil)
    · exact outstanding_only hp hsend (.inr hb)
  have hgood₁ : Stream.Good (s.arrive p cqe data env) c [iov] taken := by
    obtain ⟨evs, htrace, hev⟩ := (arrive_away s p cqe data env c).trace
    rw [hout] at hgood
    exact hgood.apart (by rw [Sys.arrive_heap]) htrace hev
  have hall : 0 ≤ cqe.res → cqe.res.toInt = iov.flatten.length := by
    rw [hop] at hwhole
    exact hwhole
  unfold Pending.OwnEntry at hown
  rw [howner, hposted] at hown
  simp only [Sys.handled, Dispatch.read, hposted, Worker.handle, Sys.arrive_table] at hw
  simp only [Sys.after, outstanding_append, hrest, List.nil_append]
  rcases hown with hnone | hentry
  · -- the connection has been erased
    rw [hnone] at hw
    obtain rfl := Option.some.inj hw
    have hsince : Sys.owedSince s.w (s.arrive p cqe data env) = [] := by
      rw [Sys.owedSince, Sys.arrive_trace, List.drop_length]
      rfl
    rw [hsince]
    refine .gone (by rw [Sys.arrive_nextPtr]; exact hc) (fun fd' hfd' => ?_) rfl ?_
    · rw [Sys.arrive_table] at hfd'
      rw [← (Sys.table_ok hr).obj fd' c hfd', hnum, hnone] at hfd'
      cases hfd'
    · obtain ⟨done, hdone, hinv⟩ := hgood₁.sender
      obtain ⟨b, hb, -, rfl, -⟩ := hgood₁.getElem (i := 0) rfl
      rw [Sys.arrive_trace]
      by_cases hneg : cqe.res < 0
      · have hzero : cqe.res.toInt.toNat = 0 := by
          have := Int32.lt_iff_toInt_lt.mp hneg
          simp at this
          omega
        rw [hzero, List.take_zero, List.append_nil, hdone]
        have hpre := hinv.prefix (·.wb)
        simp only [Worker.sender, Sys.arrive_trace] at hpre
        exact hpre
      · rw [hall (Int32.not_lt.mp hneg), Int.toNat_natCast, List.take_length, hdone, ← List.flatMap_def,
          ← List.flatMap_append]
        unfold Sender.Inv at hinv
        have hbatch : ((s.arrive p cqe data env).sender c done).batch = some b := hb
        have hpushed : ((s.arrive p cqe data env).sender c done).pushed = queuedOf c s.w.trace := by
          simp only [Worker.sender, Sys.arrive_trace]
        rw [hbatch, hpushed] at hinv
        rw [← hinv, Option.getD_some]
        simp only [List.flatMap_append]
        exact List.prefix_append ..
  · rw [hentry] at hw
    have hat : (s.arrive p cqe data env).At c fd :=
      ⟨by rw [Sys.arrive_table, hentry], by rw [Sys.arrive_heap, hnum]⟩
    have hprims := handleConn_prims hat hw
    have hfront : [iov][0]? = some iov := rfl
    have hsent := hgood₁.sent hfront hall hat hw
    refine .serving ?_ ?_
    · rw [hprims.frame.nextPtr, Sys.arrive_nextPtr]
      exact hc
    · obtain ⟨evs, htrace, hev⟩ := hprims.trace
      have hsince : outstanding c (Sys.owedSince s.w w') = Stream.sendsSince (s.arrive p cqe data env) w' := by
        rw [Sys.arrive_trace] at htrace
        rw [Sys.owedSince, Stream.sendsSince, Sys.arrive_trace, htrace, List.drop_left]
        exact outstanding_own hev
      rw [hsince]
      exact hsent

/-- A completion that is none of a send of `c`. -/
theorem Delivering.other {taken : Bytes} (hr : Sys.Reachable .posted ok' s)
    (h : Delivering c s.w (outstanding c s.pending) taken) (hp : s.pending[i]? = some p) (hnone : p.send c = none)
    (hown : p.OwnEntry s.w) (hw : Sys.handled .posted (s.arrive p cqe data env) p cqe = some w') :
    Delivering c w' (outstanding c (s.after i p cqe data w').pending) taken := by
  have hok := (Sys.table_ok hr).move (Sys.arrive_move s p cqe data env)
  have harr := h.away (arrive_away s p cqe data env c)
  simp only [Sys.after, outstanding_append, outstanding_other hp hnone]
  -- what is owed is owed for the events since the completion arrived
  have hsince : ∀ {evs : List Event}, w'.trace = (s.arrive p cqe data env).trace ++ evs →
      Sys.owedSince s.w w' = evs.flatMap Event.owed := fun htrace => by
    rw [Sys.arrive_trace] at htrace
    rw [Sys.owedSince, htrace, List.drop_left]
  have haway : Away c (s.arrive p cqe data env) w' →
      Delivering c w' (outstanding c s.pending ++ outstanding c (Sys.owedSince s.w w')) taken := fun ha => by
    obtain ⟨evs, htrace, hev⟩ := ha.trace
    rw [hsince htrace, outstanding_apart hev, List.append_nil]
    exact harr.away ha
  cases hposted : p.posted with
  | none =>
    simp only [Sys.handled, Dispatch.read, hposted] at hw
    obtain rfl := Option.some.inj hw
    exact haway (.of_eq rfl rfl (fun _ => id) Iff.rfl)
  | some pk =>
    obtain ⟨fd, kind⟩ := pk
    simp only [Sys.handled, Dispatch.read, hposted] at hw
    cases handle_share hok hw c with
    | away ha => exact haway ha
    | @create cfd b w₁ hc hrecv hlisten =>
      subst hc
      have hprims := startRecv_prims (by rw [addConn_obj]) hrecv
      obtain ⟨evs, htrace, hev⟩ := hprims.trace
      obtain ⟨evs', htrace', hev'⟩ := (Away.of_listen hlisten (s.arrive p cqe data env).nextPtr).trace
      have hadd : ((s.arrive p cqe data env).addConn cfd).2.trace = (s.arrive p cqe data env).trace := rfl
      have hsends : outstanding (s.arrive p cqe data env).nextPtr (Sys.owedSince s.w w') =
          Stream.sendsSince ((s.arrive p cqe data env).addConn cfd).2 w₁ := by
        have hall : w'.trace = (s.arrive p cqe data env).trace ++ (evs ++ evs') := by
          rw [htrace', htrace, hadd, List.append_assoc]
        rw [hsince hall, List.flatMap_append, outstanding_append, outstanding_apart hev', List.append_nil,
          Stream.sendsSince, htrace, List.drop_left]
        exact outstanding_own hev
      rw [hsends]
      exact harr.accepted hrecv hlisten
    | own htable hw =>
      have hkind : kind ≠ .send := by
        rintro rfl
        obtain ⟨q, iov, howner, hsend⟩ := posted_send hr (List.mem_of_getElem? hp) hposted
        unfold Pending.OwnEntry at hown
        rw [howner, hposted] at hown
        rw [Sys.arrive_table] at htable
        simp only [htable, reduceCtorEq, Option.some.injEq, false_or] at hown
        rw [← hown, hnone] at hsend
        cases hsend
      have hat := hok.at htable
      have hprims := handleConn_prims hat hw
      obtain ⟨evs, htrace, hev⟩ := hprims.trace
      cases harr with
      | unborn hc => exact absurd (hok.lt fd c htable) (Nat.not_lt.mpr hc)
      | gone _ hgone => exact absurd htable (hgone fd)
      | serving hc hgood =>
        refine .serving (by rw [hprims.frame.nextPtr]; exact hc) ?_
        have hsends : outstanding c (Sys.owedSince s.w w') = Stream.sendsSince (s.arrive p cqe data env) w' := by
          rw [hsince htrace, Stream.sendsSince, htrace, List.drop_left]
          exact outstanding_own hev
        rw [hsends]
        exact hgood.transfers (handleConn_transfers hkind hat hw)

end Steps

/-! ## Runs -/

theorem Init.delivering (h : x.Init) (c : Ptr) :
    Delivering c x.s.w (outstanding c x.s.pending) (x.taken c) := by
  obtain ⟨⟨listenFd, cfg, routes, allocated, env, h, hpending, -⟩, htaken⟩ := h
  obtain ⟨-, hheap, hev⟩ := startUp_new h
  have hapart : ∀ ev ∈ x.s.w.trace, ev.Apart c := fun ev hmem => by
    obtain ⟨e, rfl, -, howner⟩ := hev ev hmem
    show e.owner ≠ some c
    rw [howner]
    exact Option.some_ne_none c ∘ Eq.symm
  rw [hpending, outstanding_apart hapart, htaken]
  by_cases hc : c < x.s.w.nextPtr
  · refine .serving hc ⟨⟨[], rfl, ?_⟩, .inl rfl⟩
    simp [Worker.sender, Sender.Inv, hheap, queuedOf_apart hapart, PerClientStorage.batch]
  · exact .unborn (Nat.not_lt.mp hc) (queuedOf_apart hapart) rfl rfl

/-- A step keeps every connection. -/
theorem Delivering.step {a : Action} {ok' : Sys → Action → Prop} (hr : Sys.Reachable .posted ok' x.s)
    (hown : x.s.OwnEntry a) (hwhole : x.WholeSends a) (h : Delivery.step .posted x a = some x')
    (hc : Delivering c x.s.w (outstanding c x.s.pending) (x.taken c)) :
    Delivering c x'.s.w (outstanding c x'.s.pending) (x'.taken c) := by
  obtain ⟨s', hs, rfl⟩ := Option.map_eq_some_iff.mp h
  cases (Sys.step_cases hs).2 with
  | endBatch => exact hc.away (.of_eq rfl rfl (fun _ => id) Iff.rfl)
  | @executeClose i p fd hp hop hex =>
    have hsame : ({ p with executed := true } : Pending).send c = p.send c := rfl
    have hset := outstanding_set hp hsame
    show Delivering c x.s.w (outstanding c (x.s.pending.set i { p with executed := true })) (x.taken c)
    rwa [hset]
  | @complete i cqe data env p w' hp hadm hw =>
    have htaken : x.takenAfter (.complete i cqe data env) c = match p.send c with
        | some iov => x.taken c ++ iov.flatten.take cqe.res.toInt.toNat
        | none => x.taken c := by
      rw [takenAfter, hp, Option.bind_some]
    show Delivering c w' (outstanding c (x.s.after i p cqe data w').pending)
      (x.takenAfter (.complete i cqe data env) c)
    rw [htaken]
    cases hsend : p.send c with
    | some iov => exact hc.sent hr hp hsend (hwhole p hp) (hown p hp) hw
    | none => exact hc.other hr hp hsend (hown p hp) hw

theorem delivering (h : Reach Init (step .posted) (fun x a => x.s.OwnEntry a ∧ x.WholeSends a) x) (c : Ptr) :
    Delivering c x.s.w (outstanding c x.s.pending) (x.taken c) :=
  Reach.invariant_of (K := fun x => Sys.Reachable .posted (fun _ _ => True) x.s)
    (I := fun x => Delivering c x.s.w (outstanding c x.s.pending) (x.taken c)) (fun _ => reachable)
    (fun _ h => h.delivering c) (fun _ _ _ hr hc hok h => hc.step hr hok.1 hok.2 h) x h

/-- What is queued for a connection are the responses of its calls. -/
theorem queued_bytes {s : Sys} {ok' : Sys → Action → Prop} (hr : Sys.Reachable d ok' s) (c : Ptr) :
    (queuedOf c s.w.trace).flatMap (·.wb) = (invocationsOf c s.w.trace).flatMap Call.bytes := by
  rw [(Sys.replied hr).queued c, List.flatMap_assoc]
  rfl

/-- With nothing left to send everything has been taken. -/
theorem taken_all (h : Reach Init (step .posted) (fun x a => x.s.OwnEntry a ∧ x.WholeSends a) x) {fd : Fd}
    (hfd : x.s.w.table fd = some c) (htxq : (x.s.w.heap c).txq = []) (hidle : (x.s.w.heap c).sendInflight = false) :
    x.taken c = (invocationsOf c x.s.w.trace).flatMap Call.bytes := by
  have hr := reachable h
  rw [← queued_bytes hr]
  cases delivering h c with
  | unborn hle => exact absurd ((Sys.table_ok hr).lt fd c hfd) (Nat.not_lt.mpr hle)
  | gone _ hgone => exact absurd hfd (hgone fd)
  | serving _ hgood =>
    obtain ⟨done, htaken, hinv⟩ := hgood.sender
    have hall : done = queuedOf c x.s.w.trace := by
      simpa [Sender.Inv, Worker.sender, PerClientStorage.batch, htxq, hidle] using hinv
    rw [htaken, hall]

end Delivery

end IOContext
