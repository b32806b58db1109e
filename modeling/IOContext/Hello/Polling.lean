import Mathlib.Data.List.Pairwise
import IOContext.Base.Sweep
import IOContext.Hello.Connection

/-!
# The greeting server on poll: its loop

The worker keeps a vector of descriptors for `poll` and a vector of connections beside it. When a connection is over,
the last slot takes the place of its slot, in the middle of the pass over the slots that are ready; and what is accepted
gets a slot at the end.

- Whatever is removed and accepted during a pass, it is as if each connection were handled by itself, once, with the
  events of its own descriptor (`each_by_itself`).
- Whenever `poll` is called, the slots are the listener's and one for each connection that is open, with its own
  descriptor, no two alike; POLLOUT is asked for exactly where the connection wants it; and each connection is where a
  connection by itself could be (`slots_agree`).
-/

namespace IOContext.Hello

open Sweep

/-! ## Data -/

/-- What `poll` tells of a descriptor; `error` is one of POLLERR, POLLHUP and POLLNVAL. -/
structure Revents where
  input : Bool := false
  output : Bool := false
  error : Bool := false
deriving DecidableEq, Repr

/-- An entry of `fds` and the one of `conns` beside it. -/
structure Slot where
  fd : Nat
  /-- POLLOUT is among the events. -/
  out : Bool := false
  revents : Revents := {}
  /-- The place in `owned_conns`; the listener has none. -/
  conn : Option Nat
deriving DecidableEq, Repr

/-- A connection with the descriptor that it has been accepted with. -/
structure Owned where
  fd : Nat
  conn : Connection := {}
deriving DecidableEq, Repr

/-- The connections. -/
structure Conns where
  owned : List Owned := []
  /-- What `accept` is going to return before it would block. -/
  accepts : List Nat := []
deriving DecidableEq, Repr

structure Poller where
  slots : List Slot
  conns : Conns := {}
deriving DecidableEq, Repr

/-- What a call of `poll` that returns tells of each slot, and what the calls after it answer. -/
structure Round where
  revents : List Revents
  accepts : List Nat := []
  recvs : Nat → List RecvResult := fun _ => []
  sends : Nat → List SendResult := fun _ => []
  /-- The connections whose time is over. -/
  late : Nat → Bool := fun _ => false

namespace Poller

/-! ## The operations -/

def setConn (w : Conns) (k : Nat) (o : Owned) (c : Connection) : Conns :=
  { w with owned := w.owned.set k { o with conn := c } }

/-- The accept loop. -/
def acceptLoop (w : Conns) : Conns × List Slot :=
  ({ w with owned := w.owned ++ w.accepts.map fun fd => { fd := fd }, accepts := [] },
    (w.accepts.zipIdx w.owned.length).map fun a => { fd := a.1, conn := some a.2 })

/-- What the loop does with a slot. `handle_read` is true when it has begun a response, which sets `wantOut`. -/
def handleSlot (r : Round) (w : Conns) (s : Slot) : Conns × Option Slot × List Slot :=
  if s.revents = {} then (w, some s, [])
  else
    match s.conn with
    | none => ((acceptLoop w).1, some s, (acceptLoop w).2)
    | some k =>
      match w.owned[k]? with
      | none => (w, none, [])
      | some o =>
        if s.revents.error then (setConn w k o o.conn.closeConn, none, [])
        else
          let c := if s.revents.input then o.conn.handleRead onPoll (r.recvs k) else o.conn
          let out := s.out || c.wantOut
          if c.isOpen && s.revents.output then
            let c := c.handleWrite onPoll (r.sends k)
            (setConn w k o c, if c.isOpen then some { s with out := true } else none, [])
          else (setConn w k o c, if c.isOpen then some { s with out := out } else none, [])

/-- What the sweep of the idle connections does with a slot. -/
def idleSlot (r : Round) (w : Conns) (s : Slot) : Conns × Option Slot × List Slot :=
  match s.conn with
  | none => (w, none, [])
  | some k =>
    match w.owned[k]? with
    | none => (w, none, [])
    | some o =>
      if o.conn.isOpen then
        if r.late k then (setConn w k o o.conn.closeConn, none, []) else (w, some s, [])
      else (w, none, [])

/-- The slots as `poll` leaves them. -/
def told (slots : List Slot) (revents : List Revents) : List Slot :=
  (slots.zip revents).map fun sr => { sr.1 with revents := sr.2 }

/-- A turn of the loop of `run` in which something is ready. -/
def round (p : Poller) (r : Round) : Poller :=
  let slots := told p.slots r.revents
  let ready := sweep (handleSlot r) (slots.length + r.accepts.length) 0
    { p.conns with accepts := r.accepts } slots
  let idle := sweep (idleSlot r) ready.2.length 1 { ready.1 with accepts := [] } ready.2
  ⟨idle.2, idle.1⟩

/-- POLLOUT is told only where it was asked for, and `accept` returns descriptors that are not open. -/
def Tells (p : Poller) (r : Round) : Prop :=
  r.revents.length = p.slots.length ∧ (∀ sr ∈ p.slots.zip r.revents, sr.2.output = true → sr.1.out = true) ∧
    (p.slots.map Slot.fd ++ r.accepts).Nodup

instance (p : Poller) (r : Round) : Decidable (Tells p r) := inferInstanceAs (Decidable (_ ∧ _ ∧ _))

def step (p : Poller) (r : Round) : Option Poller := some (p.round r)

/-- A worker that has just been made. -/
def Fresh (listenFd : Nat) (p : Poller) : Prop := p = { slots := [{ fd := listenFd, conn := none }] }

variable {listenFd k : Nat} {r : Round} {w w' : Conns} {s : Slot} {o : Owned} {c : Connection}
  {slots slots' : List Slot} {p p' : Poller}

/-! ## What the slots agree with -/

/-- The slots behind the listener's. -/
structure Agrees (listenFd : Nat) (w : Conns) (slots : List Slot) : Prop where
  own : ∀ s ∈ slots, ∃ k o, s.conn = some k ∧ w.owned[k]? = some o ∧ o.conn.isOpen = true ∧ s.fd = o.fd ∧
    s.out = o.conn.wantOut
  one : (slots.filterMap Slot.conn).Nodup
  all : ∀ k o, w.owned[k]? = some o → o.conn.isOpen = true → k ∈ slots.filterMap Slot.conn
  fds : (listenFd :: slots.map Slot.fd ++ w.accepts).Nodup
  runs : ∀ o ∈ w.owned, Reach Connection.Fresh (Connection.step onPoll) (fun _ _ => True) o.conn
  told : ∀ s ∈ slots, s.revents.output = true → s.out = true

theorem Agrees.perm (h : Agrees listenFd w slots) (hp : slots.Perm slots') : Agrees listenFd w slots' := by
  refine ⟨fun s hs => h.own s (hp.mem_iff.mpr hs), ((hp.filterMap _).nodup_iff).mp h.one,
    fun k o ho hopen => (hp.filterMap _).mem_iff.mp (h.all k o ho hopen), ?_, h.runs,
    fun s hs => h.told s (hp.mem_iff.mpr hs)⟩
  refine (List.Perm.nodup_iff ?_).mp h.fds
  exact List.Perm.append_right _ (List.Perm.cons _ (hp.map _))

theorem Agrees.slot (h : Agrees listenFd w (s :: slots)) (hk : s.conn = some k) (ho : w.owned[k]? = some o) :
    o.conn.isOpen = true ∧ s.fd = o.fd ∧ s.out = o.conn.wantOut ∧
      Reach Connection.Fresh (Connection.step onPoll) (fun _ _ => True) o.conn := by
  obtain ⟨k', o', hk', ho', hopen, hfd, hout⟩ := h.own s List.mem_cons_self
  cases hk.symm.trans hk'
  cases ho.symm.trans ho'
  exact ⟨hopen, hfd, hout, h.runs o (List.mem_of_getElem? ho)⟩

/-- The others are not concerned by what happens to a connection. -/
theorem Agrees.others (h : Agrees listenFd w (s :: slots)) (hk : s.conn = some k)
    (howned : w'.owned = w.owned.set k { o with conn := c }) : ∀ s' ∈ slots, ∃ k o, s'.conn = some k ∧
      w'.owned[k]? = some o ∧ o.conn.isOpen = true ∧ s'.fd = o.fd ∧ s'.out = o.conn.wantOut := by
  intro s' hs'
  obtain ⟨k', o', hk', ho', hopen, hfd, hout⟩ := h.own s' (List.mem_cons_of_mem _ hs')
  have hne : k ≠ k' := by
    rintro rfl
    have hone := h.one
    rw [List.filterMap_cons_some hk, List.nodup_cons] at hone
    exact hone.1 (List.mem_filterMap.mpr ⟨s', hs', hk'⟩)
  refine ⟨k', o', hk', ?_, hopen, hfd, hout⟩
  rw [howned, List.getElem?_set_ne hne]
  exact ho'

theorem runs_set (h : Agrees listenFd w slots) (howned : w'.owned = w.owned.set k { o with conn := c })
    (hreach : Reach Connection.Fresh (Connection.step onPoll) (fun _ _ => True) c) :
    ∀ o ∈ w'.owned, Reach Connection.Fresh (Connection.step onPoll) (fun _ _ => True) o.conn := by
  intro o' ho'
  rw [howned] at ho'
  rcases List.mem_or_eq_of_mem_set ho' with ho' | rfl
  · exact h.runs o' ho'
  · exact hreach

/-- A connection that is over loses its slot. -/
theorem Agrees.remove (h : Agrees listenFd w (s :: slots)) (hk : s.conn = some k) (ho : w.owned[k]? = some o)
    (howned : w'.owned = w.owned.set k { o with conn := c }) (haccepts : w'.accepts = w.accepts)
    (hreach : Reach Connection.Fresh (Connection.step onPoll) (fun _ _ => True) c) (hclosed : c.isOpen = false) :
    Agrees listenFd w' slots := by
  have hone := h.one
  rw [List.filterMap_cons_some hk, List.nodup_cons] at hone
  refine ⟨h.others hk howned, hone.2, fun k' o' ho' hopen => ?_, ?_, runs_set h howned hreach,
    fun s hs => h.told s (List.mem_cons_of_mem _ hs)⟩
  · rw [howned] at ho'
    by_cases hkk : k = k'
    · subst hkk
      rw [List.getElem?_set_self (List.getElem?_eq_some_iff.mp ho).1] at ho'
      cases ho'
      rw [hclosed] at hopen
      cases hopen
    · rw [List.getElem?_set_ne hkk] at ho'
      have hall := h.all k' o' ho' hopen
      rw [List.filterMap_cons_some hk] at hall
      exact (List.mem_cons.mp hall).resolve_left (Ne.symm hkk)
  · rw [haccepts]
    refine h.fds.sublist ?_
    exact List.Sublist.append_right (List.Sublist.cons_cons _ (List.sublist_cons_self _ _)) _

/-- A connection that goes on keeps its slot. -/
theorem Agrees.keep {s' : Slot} (h : Agrees listenFd w (s :: slots)) (hk : s.conn = some k) (ho : w.owned[k]? = some o)
    (howned : w'.owned = w.owned.set k { o with conn := c }) (haccepts : w'.accepts = w.accepts)
    (hreach : Reach Connection.Fresh (Connection.step onPoll) (fun _ _ => True) c) (hopen : c.isOpen = true)
    (hfd : s'.fd = s.fd) (hconn : s'.conn = s.conn) (hout : s'.out = c.wantOut)
    (htold : s'.revents.output = true → s'.out = true) : Agrees listenFd w' (s' :: slots) := by
  have hset : w'.owned[k]? = some { o with conn := c } := by
    rw [howned, List.getElem?_set_self (List.getElem?_eq_some_iff.mp ho).1]
  have hconns : (s' :: slots).filterMap Slot.conn = (s :: slots).filterMap Slot.conn := by
    rw [List.filterMap_cons_some hk, List.filterMap_cons_some (hconn.trans hk)]
  refine ⟨fun s₁ hs₁ => ?_, hconns ▸ h.one, fun k' o' ho' hopen' => ?_, ?_, runs_set h howned hreach,
    fun s₁ hs₁ => ?_⟩
  · rcases List.mem_cons.mp hs₁ with rfl | hs₁
    · obtain ⟨-, hfd', -⟩ := h.slot hk ho
      exact ⟨k, _, hconn.trans hk, hset, hopen, hfd.trans hfd', hout⟩
    · exact h.others hk howned s₁ hs₁
  · rw [hconns]
    by_cases hkk : k = k'
    · rw [List.filterMap_cons_some hk, hkk]
      exact List.mem_cons_self
    · rw [howned, List.getElem?_set_ne hkk] at ho'
      exact h.all k' o' ho' hopen'
  · rw [haccepts, List.map_cons, hfd]
    exact h.fds
  · rcases List.mem_cons.mp hs₁ with rfl | hs₁
    · exact htold
    · exact h.told s₁ (List.mem_cons_of_mem _ hs₁)

/-! ## A pass -/

theorem wantOut_handleRead : ∀ (rs : List RecvResult) {c : Connection}, c.wantOut = true →
    (c.handleRead onPoll rs).wantOut = true
  | [], _, h => h
  | .received p :: rs, c, h => by
    unfold Connection.handleRead
    dsimp only
    split
    · exact h
    · split
      · rfl
      · exact wantOut_handleRead rs h
  | .wouldBlock :: _, _, h => h
  | .failed :: _, _, h => h

theorem wantOut_finishWriting (h : c.wantOut = true) : (c.finishWriting onPoll).wantOut = true := by
  unfold Connection.finishWriting
  split
  · rfl
  · exact h

theorem wantOut_handleWrite : ∀ (rs : List SendResult) {c : Connection}, c.wantOut = true →
    (c.handleWrite onPoll rs).wantOut = true
  | [], c, h => by
    unfold Connection.handleWrite
    split
    · exact h
    · exact wantOut_finishWriting h
  | x :: rs, c, h => by
    unfold Connection.handleWrite
    split
    · cases x with
      | sent n =>
        dsimp only
        split
        · exact h
        · exact wantOut_handleWrite rs h
      | wouldBlock => exact h
      | failed => exact h
    · exact wantOut_finishWriting h

theorem Agrees.handleSlot (h : Agrees listenFd w (s :: slots)) (r : Round) :
    Agrees listenFd (handleSlot r w s).1 ((handleSlot r w s).2.1.toList ++ slots ++ (handleSlot r w s).2.2) := by
  obtain ⟨k, o, hk, ho, -⟩ := h.own s List.mem_cons_self
  obtain ⟨hopen, hfd, hout, hreach⟩ := h.slot hk ho
  have htold := h.told s List.mem_cons_self
  have hkept : ∀ {c : Connection} {w' : Conns} {out : Bool}, w'.owned = w.owned.set k { o with conn := c } →
      w'.accepts = w.accepts → Reach Connection.Fresh (Connection.step onPoll) (fun _ _ => True) c →
      (c.isOpen = true → out = c.wantOut ∧ (s.revents.output = true → out = true)) →
      Agrees listenFd w'
        ((if c.isOpen then some ⟨s.fd, out, s.revents, some k⟩ else none : Option Slot).toList ++ slots ++ []) := by
    intro c w' out howned haccepts hreach' hwant
    rw [List.append_nil]
    cases hc : c.isOpen with
    | false => exact h.remove hk ho howned haccepts hreach' hc
    | true =>
      obtain ⟨heq, htold'⟩ := hwant hc
      exact h.keep hk ho howned haccepts hreach' hc rfl hk.symm heq htold'
  unfold Poller.handleSlot
  split
  · rw [List.append_nil]
    exact h
  · rw [hk]
    dsimp only
    rw [ho]
    dsimp only
    split
    · rw [List.append_nil]
      refine h.remove hk ho rfl rfl (hreach.next (a := .hangUp) trivial ?_) rfl
      rw [Connection.step, if_pos hopen]
    · -- what has been read, and whether the connection wants to write then
      generalize hc : (if s.revents.input = true then o.conn.handleRead onPoll (r.recvs k) else o.conn) = c
      have hread : Reach Connection.Fresh (Connection.step onPoll) (fun _ _ => True) c ∧
          (s.out = true → c.wantOut = true) ∧ (s.revents.input = false → c = o.conn) := by
        rw [← hc]
        split
        · rename_i hinput
          refine ⟨hreach.next (a := .readable (r.recvs k)) trivial (by rw [Connection.step, if_pos hopen]),
            fun hs => wantOut_handleRead _ (hout ▸ hs), fun hno => ?_⟩
          rw [hinput] at hno
          cases hno
        · exact ⟨hreach, fun hs => hout ▸ hs, fun _ => rfl⟩
      obtain ⟨hreach₁, hwant₁, -⟩ := hread
      have hor : (s.out || c.wantOut) = c.wantOut := by
        cases hs : s.out with
        | false => rfl
        | true => rw [hwant₁ hs]; rfl
      split
      · rename_i hwrite
        obtain ⟨hopen₁, houtput⟩ := Bool.and_eq_true_iff.mp hwrite
        have hwant := hwant₁ (htold houtput)
        refine hkept rfl rfl (hreach₁.next (a := .writable (r.sends k)) trivial ?_) fun _ =>
          ⟨(wantOut_handleWrite _ hwant).symm, fun _ => rfl⟩
        rw [Connection.step, if_pos hopen₁, if_pos hwant]
      · refine hkept rfl rfl hreach₁ fun _ => ⟨hor, fun houtput => ?_⟩
        rw [hor]
        exact hwant₁ (htold houtput)

theorem Agrees.idleSlot (h : Agrees listenFd w (s :: slots)) (r : Round) :
    Agrees listenFd (idleSlot r w s).1 ((idleSlot r w s).2.1.toList ++ slots ++ (idleSlot r w s).2.2) := by
  obtain ⟨k, o, hk, ho, hopen, -⟩ := h.own s List.mem_cons_self
  obtain ⟨-, -, -, hreach⟩ := h.slot hk ho
  unfold Poller.idleSlot
  rw [hk]
  dsimp only
  rw [ho]
  dsimp only
  rw [if_pos hopen]
  split
  · rw [List.append_nil]
    refine h.remove hk ho rfl rfl (hreach.next (a := .hangUp) trivial ?_) rfl
    rw [Connection.step, if_pos hopen]
  · rw [List.append_nil]
    exact h

/-- The new connections get slots of their own. -/
theorem Agrees.accept (h : Agrees listenFd w slots) :
    Agrees listenFd (acceptLoop w).1 (slots ++ (acceptLoop w).2) := by
  have hconns : (acceptLoop w).2.filterMap Slot.conn = List.range' w.owned.length w.accepts.length := by
    rw [acceptLoop, List.filterMap_map]
    simp only [Function.comp_def, List.filterMap_eq_map']
    exact List.zipIdx_map_snd ..
  have hfds : (acceptLoop w).2.map Slot.fd = w.accepts := by
    rw [acceptLoop, List.map_map]
    exact List.zipIdx_map_fst ..
  have hlater : ∀ k, k ∈ slots.filterMap Slot.conn → k < w.owned.length := by
    intro k hk
    obtain ⟨s, hs, hks⟩ := List.mem_filterMap.mp hk
    obtain ⟨k', o, hk', ho, -⟩ := h.own s hs
    cases hks.symm.trans hk'
    exact (List.getElem?_eq_some_iff.mp ho).1
  refine ⟨fun s hs => ?_, ?_, fun k o ho hopen => ?_, ?_, fun o ho => ?_, fun s hs => ?_⟩
  · rcases List.mem_append.mp hs with hs | hs
    · obtain ⟨k, o, hk, ho, hrest⟩ := h.own s hs
      exact ⟨k, o, hk, List.getElem?_append_left (List.getElem?_eq_some_iff.mp ho).1 ▸ ho, hrest⟩
    · obtain ⟨a, ha, rfl⟩ := List.mem_map.mp hs
      obtain ⟨hle, hget⟩ := List.mem_zipIdx_iff_le_and_getElem?_sub.mp ha
      refine ⟨a.2, { fd := a.1 }, rfl, ?_, rfl, rfl, rfl⟩
      rw [acceptLoop, List.getElem?_append_right hle, List.getElem?_map, hget]
      rfl
  · rw [List.filterMap_append, hconns, List.nodup_append]
    refine ⟨h.one, List.nodup_range', fun a ha b hb => ?_⟩
    have hlt := hlater a ha
    have hge := (List.mem_range'_1.mp hb).1
    omega
  · rw [List.filterMap_append, hconns]
    rw [acceptLoop] at ho
    dsimp only at ho
    rcases Nat.lt_or_ge k w.owned.length with hlt | hge
    · rw [List.getElem?_append_left hlt] at ho
      exact List.mem_append_left _ (h.all k o ho hopen)
    · have hlt := (List.getElem?_eq_some_iff.mp ho).1
      rw [List.length_append, List.length_map] at hlt
      exact List.mem_append_right _ (List.mem_range'_1.mpr ⟨hge, hlt⟩)
  · rw [List.map_append, hfds]
    show (listenFd :: (slots.map Slot.fd ++ w.accepts) ++ []).Nodup
    rw [List.append_nil]
    exact h.fds
  · rcases List.mem_append.mp ho with ho | ho
    · exact h.runs o ho
    · obtain ⟨fd, -, rfl⟩ := List.mem_map.mp ho
      exact .start rfl
  · rcases List.mem_append.mp hs with hs | hs
    · exact h.told s hs
    · obtain ⟨a, -, rfl⟩ := List.mem_map.mp hs
      exact fun h => by cases h

/-! ## A turn of the loop -/

theorem map_told {β : Type} {f : Slot → β} {revents : List Revents} (hf : ∀ s re, f { s with revents := re } = f s)
    (hlen : revents.length = slots.length) : (told slots revents).map f = slots.map f := by
  have hfst := List.map_fst_zip (Nat.le_of_eq hlen.symm)
  rw [told, List.map_map]
  nth_rewrite 2 [← hfst]
  rw [List.map_map]
  exact List.map_congr_left fun sr _ => hf sr.1 sr.2

theorem filterMap_conn_told {revents : List Revents} (hlen : revents.length = slots.length) :
    (told slots revents).filterMap Slot.conn = slots.filterMap Slot.conn := by
  have hmap := congrArg (List.filterMap id) (map_told (f := Slot.conn) (fun _ _ => rfl) hlen)
  rwa [List.filterMap_map, List.filterMap_map] at hmap

theorem Agrees.fewer (h : Agrees listenFd w slots) (howned : w'.owned = w.owned) (haccepts : w'.accepts = []) :
    Agrees listenFd w' slots := by
  refine ⟨howned ▸ h.own, h.one, howned ▸ h.all, ?_, howned ▸ h.runs, h.told⟩
  rw [haccepts, List.append_nil]
  exact h.fds.sublist (List.sublist_append_left ..)

/-- What `poll` tells, and what is going to be accepted. -/
theorem Agrees.tell {revents : List Revents} (h : Agrees listenFd w slots) (hlen : revents.length = slots.length)
    (htold : ∀ sr ∈ slots.zip revents, sr.2.output = true → sr.1.out = true) (howned : w'.owned = w.owned)
    (hfds : (listenFd :: slots.map Slot.fd ++ w'.accepts).Nodup) : Agrees listenFd w' (Poller.told slots revents) := by
  have hconns := filterMap_conn_told hlen
  refine ⟨fun s hs => ?_, hconns ▸ h.one, fun k o ho hopen => ?_, ?_, howned ▸ h.runs, fun s hs => ?_⟩
  · obtain ⟨sr, hsr, rfl⟩ := List.mem_map.mp hs
    rw [howned]
    exact h.own sr.1 (List.of_mem_zip hsr).1
  · rw [hconns]
    exact h.all k o (howned ▸ ho) hopen
  · rw [map_told (f := Slot.fd) (fun _ _ => rfl) hlen]
    exact hfds
  · obtain ⟨sr, hsr, rfl⟩ := List.mem_map.mp hs
    exact htold sr hsr

theorem handleSlot_listener {re : Revents} {fd : Nat} {out : Bool} :
    Poller.handleSlot r w ⟨fd, out, re, none⟩ = if re = {} then (w, some ⟨fd, out, re, none⟩, [])
      else ((acceptLoop w).1, some ⟨fd, out, re, none⟩, (acceptLoop w).2) := rfl

/-- What the listener's slot leaves to the others. -/
def accepted (w : Conns) (re : Revents) (slots : List Slot) : Conns × List Slot :=
  if re = {} then (w, slots) else ((acceptLoop w).1, slots ++ (acceptLoop w).2)

theorem Agrees.accepted (h : Agrees listenFd w slots) (re : Revents) :
    Agrees listenFd (accepted w re slots).1 (accepted w re slots).2 := by
  unfold Poller.accepted
  split
  · exact h
  · exact h.accept

/-- The listener's slot comes first in a pass, and stays. -/
theorem sweep_listener (n : Nat) (re : Revents) :
    sweep (handleSlot r) (n + 1) 0 w (⟨listenFd, false, re, none⟩ :: slots) =
      ((sweep (handleSlot r) n 0 (accepted w re slots).1 (accepted w re slots).2).1,
        ⟨listenFd, false, re, none⟩ ::
          (sweep (handleSlot r) n 0 (accepted w re slots).1 (accepted w re slots).2).2) := by
  rw [sweep, List.getElem?_cons_zero]
  dsimp only
  rw [handleSlot_listener]
  unfold accepted
  by_cases hquiet : re = {}
  · rw [if_pos hquiet, if_pos hquiet]
    dsimp only
    rw [List.append_nil, List.set_cons_zero, sweep_cons]
  · rw [if_neg hquiet, if_neg hquiet]
    dsimp only
    rw [List.set_cons_zero, List.cons_append, sweep_cons]

/-- The listener's slot is the first, and the others are as they should be. -/
def Sound (listenFd : Nat) (p : Poller) : Prop :=
  ∃ re slots, p.slots = { fd := listenFd, revents := re, conn := none } :: slots ∧ Agrees listenFd p.conns slots

theorem Agrees.ready (h : Agrees listenFd w slots) (r : Round) (n : Nat) :
    Agrees listenFd (sweep (Poller.handleSlot r) n 0 w slots).1 (sweep (Poller.handleSlot r) n 0 w slots).2 :=
  sweep_invariant (I := Agrees listenFd) (fun _ _ _ hp h => h.perm hp) (fun _ _ _ h => h.handleSlot r) n 0 h

theorem Agrees.idle (h : Agrees listenFd w slots) (r : Round) (n : Nat) :
    Agrees listenFd (sweep (Poller.idleSlot r) n 0 w slots).1 (sweep (Poller.idleSlot r) n 0 w slots).2 :=
  sweep_invariant (I := Agrees listenFd) (fun _ _ _ hp h => h.perm hp) (fun _ _ _ h => h.idleSlot r) n 0 h

/-- The two passes go over the slots behind the listener's, with calls enough for all. -/
theorem round_cases (h : Sound listenFd p) (hr : Tells p r) : ∃ re tail w₁ slots₁ w₂ slots₂ n,
    told p.slots r.revents = ⟨listenFd, false, re, none⟩ :: tail ∧
    Agrees listenFd { p.conns with accepts := r.accepts } tail ∧
    (w₁, slots₁) = accepted { p.conns with accepts := r.accepts } re tail ∧
    slots₁.length + w₁.accepts.length ≤ n ∧
    (w₂, slots₂) = sweep (handleSlot r) n 0 w₁ slots₁ ∧
    (p.round r).conns = (sweep (idleSlot r) (slots₂.length + 1) 0 { w₂ with accepts := [] } slots₂).1 ∧
    (p.round r).slots = ⟨listenFd, false, re, none⟩ ::
      (sweep (idleSlot r) (slots₂.length + 1) 0 { w₂ with accepts := [] } slots₂).2 := by
  obtain ⟨re, tail, hslots, h⟩ := h
  obtain ⟨hlen, htold, hfds⟩ := hr
  rw [hslots] at hlen htold hfds
  obtain ⟨re', res, hres⟩ : ∃ re' res, r.revents = re' :: res := by
    refine List.exists_cons_of_length_pos ?_
    rw [hlen, List.length_cons]
    exact Nat.succ_pos _
  rw [hres] at hlen htold
  have htail : Agrees listenFd { p.conns with accepts := r.accepts } (told tail res) :=
    h.tell (Nat.succ.inj hlen) (fun sr hsr => htold sr (List.mem_cons_of_mem _ hsr)) rfl hfds
  have htold : told p.slots r.revents = ⟨listenFd, false, re', none⟩ :: told tail res := by
    rw [hslots, hres]
    rfl
  let a := accepted { p.conns with accepts := r.accepts } re' (told tail res)
  let n := (told tail res).length + r.accepts.length
  let b := sweep (handleSlot r) n 0 a.1 a.2
  have hround : p.round r = ⟨⟨listenFd, false, re', none⟩ ::
      (sweep (idleSlot r) (b.2.length + 1) 0 { b.1 with accepts := [] } b.2).2,
      (sweep (idleSlot r) (b.2.length + 1) 0 { b.1 with accepts := [] } b.2).1⟩ := by
    unfold Poller.round
    dsimp only
    rw [htold, List.length_cons, Nat.add_right_comm, sweep_listener, List.length_cons, sweep_cons]
  refine ⟨re', told tail res, a.1, a.2, b.1, b.2, n, htold, htail, rfl, ?_, rfl, ?_, ?_⟩
  · show (accepted _ re' (told tail res)).2.length + (accepted _ re' (told tail res)).1.accepts.length ≤ n
    unfold accepted
    split
    · exact Nat.le_refl _
    · rw [acceptLoop, List.length_append, List.length_map, List.length_zipIdx]
      exact Nat.le_refl _
  · rw [hround]
  · rw [hround]

theorem Sound.round (h : Sound listenFd p) (hr : Tells p r) : Sound listenFd (p.round r) := by
  obtain ⟨re, tail, w₁, slots₁, w₂, slots₂, n, -, htail, haccepted, -, hready, hconns, hslots⟩ := round_cases h hr
  have h₁ := htail.accepted re
  rw [← haccepted] at h₁
  have h₂ := h₁.ready r n
  rw [← hready] at h₂
  have h₃ : Agrees listenFd { w₂ with accepts := [] } slots₂ := h₂.fewer rfl rfl
  have h₄ := h₃.idle r (slots₂.length + 1)
  rw [← hconns] at h₄
  exact ⟨re, _, hslots, h₄⟩

/-! ## Runs -/

theorem sound_fresh (h : Fresh listenFd p) : Sound listenFd p := by
  rw [h]
  refine ⟨{}, [], rfl, fun s hs => (by cases hs), List.nodup_nil, fun k o ho => (by cases ho), ?_,
    fun o ho => (by cases ho), fun s hs => (by cases hs)⟩
  exact List.nodup_cons.mpr ⟨List.not_mem_nil, List.nodup_nil⟩

theorem sound_of_reach (hs : Reach (Fresh listenFd) step Tells p) : Sound listenFd p := by
  refine Reach.invariant (I := Sound listenFd) (fun _ h => sound_fresh h) (fun p r p' h hr hstep => ?_) p hs
  cases hstep
  exact h.round hr

/-! ## Each connection by itself -/

/-- What `poll` has told of its descriptor is done with a connection. -/
def turn (r : Round) (k : Nat) (re : Revents) (c : Connection) : Connection :=
  if re = {} then c
  else if re.error then c.closeConn
  else
    let c := if re.input then c.handleRead onPoll (r.recvs k) else c
    if c.isOpen && re.output then c.handleWrite onPoll (r.sends k) else c

/-- The connection is over when its time is. -/
def unlessLate (r : Round) (k : Nat) (c : Connection) : Connection :=
  if c.isOpen && r.late k then c.closeConn else c

/-- The connection that a slot has something to do for. -/
def busy (s : Slot) : Option Nat := if s.revents = {} then none else s.conn

theorem owned_setConn (ho : w.owned[k]? = some o) : (setConn w k o c).owned[k]? = some { o with conn := c } := by
  rw [setConn, List.getElem?_set_self (List.getElem?_eq_some_iff.mp ho).1]

theorem handleSlot_at (hk : busy s = some k) (ho : w.owned[k]? = some o) :
    (handleSlot r w s).1.owned[k]? = some { o with conn := turn r k s.revents o.conn } := by
  unfold busy at hk
  split at hk
  · cases hk
  · rename_i hbusy
    unfold handleSlot turn
    rw [if_neg hbusy, if_neg hbusy, hk]
    dsimp only
    rw [ho]
    dsimp only
    split
    · exact owned_setConn ho
    · generalize (if s.revents.input = true then o.conn.handleRead onPoll (r.recvs k) else o.conn) = c
      split
      · exact owned_setConn ho
      · exact owned_setConn ho

theorem handleSlot_apart (hk : busy s ≠ some k) (ho : w.owned[k]? = some o) :
    (handleSlot r w s).1.owned[k]? = some o := by
  unfold busy at hk
  unfold handleSlot
  split
  · exact ho
  · rename_i hbusy
    rw [if_neg hbusy] at hk
    split
    · exact List.getElem?_append_left (List.getElem?_eq_some_iff.mp ho).1 ▸ ho
    · rename_i k' hk'
      have hne : k' ≠ k := fun h => hk (h ▸ hk')
      have hset : ∀ o' c, (setConn w k' o' c).owned[k]? = some o := by
        intro o' c
        rw [setConn, List.getElem?_set_ne hne]
        exact ho
      split
      · exact ho
      · rename_i o' _
        split
        · exact hset _ _
        · generalize (if s.revents.input = true then o'.conn.handleRead onPoll (r.recvs k') else o'.conn) = c
          dsimp only
          split
          · exact hset _ _
          · exact hset _ _

theorem handleSlot_appends (s : Slot) : (handleSlot r w s).1.accepts.length + (handleSlot r w s).2.2.length ≤
    w.accepts.length ∧ ∀ s' ∈ (handleSlot r w s).2.2, busy s' = none := by
  have hkept : ∀ res : Conns × Option Slot × List Slot, res.1.accepts = w.accepts → res.2.2 = [] →
      res.1.accepts.length + res.2.2.length ≤ w.accepts.length ∧ ∀ s' ∈ res.2.2, busy s' = none := by
    intro res haccepts hnew
    rw [haccepts, hnew]
    exact ⟨Nat.le_refl _, fun s' hs' => (by cases hs')⟩
  unfold handleSlot
  split
  · exact hkept _ rfl rfl
  · split
    · refine ⟨?_, fun s' hs' => ?_⟩
      · rw [acceptLoop, List.length_map, List.length_zipIdx, List.length_nil, Nat.zero_add]
      · obtain ⟨a, -, rfl⟩ := List.mem_map.mp hs'
        rfl
    · rename_i k _
      split
      · exact hkept _ rfl rfl
      · rename_i o _
        split
        · exact hkept _ rfl rfl
        · generalize (if s.revents.input = true then o.conn.handleRead onPoll (r.recvs k) else o.conn) = c
          dsimp only
          split
          · exact hkept _ rfl rfl
          · exact hkept _ rfl rfl

theorem idleSlot_at (hk : s.conn = some k) (ho : w.owned[k]? = some o) :
    (idleSlot r w s).1.owned[k]? = some { o with conn := unlessLate r k o.conn } := by
  unfold idleSlot unlessLate
  rw [hk]
  dsimp only
  rw [ho]
  dsimp only
  cases hopen : o.conn.isOpen with
  | false => exact ho
  | true =>
    cases hlate : r.late k with
    | false => exact ho
    | true => exact owned_setConn ho

theorem idleSlot_apart (hk : s.conn ≠ some k) (ho : w.owned[k]? = some o) :
    (idleSlot r w s).1.owned[k]? = some o := by
  unfold idleSlot
  split
  · exact ho
  · rename_i k' hk'
    have hne : k' ≠ k := fun h => hk (h ▸ hk')
    split
    · exact ho
    · split
      · split
        · rw [setConn, List.getElem?_set_ne hne]
          exact ho
        · exact ho
      · exact ho

theorem idleSlot_appends (s : Slot) : (idleSlot r w s).2.2 = [] := by
  unfold idleSlot
  split
  · rfl
  · split
    · rfl
    · split
      · split <;> rfl
      · rfl

/-! ## The passes -/

theorem conn_of_busy (hk : busy s = some k) : s.conn = some k := by
  unfold busy at hk
  split at hk
  · cases hk
  · exact hk

theorem Agrees.lt_of_conn (h : Agrees listenFd w slots) (hs : s ∈ slots) (hk : s.conn = some k) :
    k < w.owned.length := by
  obtain ⟨k', o, hk', ho, -⟩ := h.own s hs
  cases hk.symm.trans hk'
  exact (List.getElem?_eq_some_iff.mp ho).1

theorem Agrees.notMem_of_closed (h : Agrees listenFd w slots) (ho : w.owned[k]? = some o)
    (hclosed : o.conn.isOpen = false) : k ∉ slots.filterMap Slot.conn := by
  intro hk
  obtain ⟨s, hs, hk⟩ := List.mem_filterMap.mp hk
  obtain ⟨k', o', hk', ho', hopen, -⟩ := h.own s hs
  cases hk.symm.trans hk'
  cases ho.symm.trans ho'
  rw [hopen] at hclosed
  cases hclosed

theorem Agrees.eq_of_conn {s' : Slot} (h : Agrees listenFd w slots) (hs : s ∈ slots) (hs' : s' ∈ slots)
    (hk : s.conn = some k) (hk' : s'.conn = some k) : s = s' := by
  by_contra hne
  have hsymm : Std.Symm fun a a' : Slot => ∀ b, a.conn = some b → ∀ b', a'.conn = some b' → b ≠ b' :=
    ⟨fun _ _ h b hb b' hb' => Ne.symm (h b' hb' b hb)⟩
  exact (List.pairwise_filterMap.mp h.one).forall hs hs' hne k hk k hk' rfl

theorem Agrees.busy_once (h : Agrees listenFd w slots) : (slots.filterMap busy).Nodup := by
  refine List.pairwise_filterMap.mpr ((List.pairwise_filterMap.mp h.one).imp ?_)
  intro a a' hne b hb b' hb'
  exact hne b (conn_of_busy hb) b' (conn_of_busy hb')

/-- The pass over the slots that are ready is a fold over them in some order. -/
theorem ready_eq_foldl {n : Nat} (hn : slots.length + w.accepts.length ≤ n) : ∃ order : List Slot,
    (∀ s ∈ slots, s ∈ order) ∧ (order.filterMap busy).Perm (slots.filterMap busy) ∧
    (sweep (handleSlot r) n 0 w slots).1 = order.foldl (fun w s => (handleSlot r w s).1) w := by
  obtain ⟨order, new, hperm, hnew, hfold⟩ :=
    sweep_eq_foldl (f := handleSlot r) (m := fun w => w.accepts.length) (fun w s => (handleSlot_appends s).1) n
      (show slots.length - 0 + w.accepts.length ≤ n from hn)
  have hquiet : new.filterMap busy = [] := by
    refine List.filterMap_eq_nil_iff.mpr fun s hs => ?_
    obtain ⟨w, s', hmem⟩ := hnew s hs
    exact (handleSlot_appends s').2 s hmem
  refine ⟨order, fun s hs => hperm.mem_iff.mpr (List.mem_append_left _ hs), ?_, hfold⟩
  have hbusy := hperm.filterMap busy
  rwa [List.filterMap_append, hquiet, List.append_nil] at hbusy

theorem Agrees.ready_at {n : Nat} (h : Agrees listenFd w slots) (hn : slots.length + w.accepts.length ≤ n)
    (hs : s ∈ slots) (hk : s.conn = some k) (ho : w.owned[k]? = some o) :
    (sweep (Poller.handleSlot r) n 0 w slots).1.owned[k]? = some { o with conn := turn r k s.revents o.conn } := by
  obtain ⟨order, hmem, hperm, hfold⟩ := ready_eq_foldl (r := r) hn
  rw [hfold]
  by_cases hquiet : s.revents = {}
  · rw [turn, if_pos hquiet]
    have hapart : k ∉ order.filterMap busy := by
      rw [hperm.mem_iff]
      intro hk'
      obtain ⟨s', hs', hbusy⟩ := List.mem_filterMap.mp hk'
      rw [← h.eq_of_conn hs hs' hk (conn_of_busy hbusy), busy, if_pos hquiet] at hbusy
      cases hbusy
    exact foldl_apart (P := fun w : Conns => w.owned[k]? = some o) (fun _ _ hk ho => handleSlot_apart hk ho) hapart ho
  · have hbusy : busy s = some k := by rw [busy, if_neg hquiet, hk]
    exact foldl_once (P := fun w : Conns => w.owned[k]? = some o)
      (Q := fun w : Conns => w.owned[k]? = some { o with conn := turn r k s.revents o.conn })
      (fun _ _ hk ho => handleSlot_apart hk ho) (fun _ _ hk ho => handleSlot_apart hk ho)
      (fun _ ho => handleSlot_at hbusy ho) (hperm.nodup_iff.mpr h.busy_once) (hmem s hs) hbusy ho

theorem ready_apart {n : Nat} (hn : slots.length + w.accepts.length ≤ n) (hk : k ∉ slots.filterMap busy)
    (ho : w.owned[k]? = some o) : (sweep (handleSlot r) n 0 w slots).1.owned[k]? = some o := by
  obtain ⟨order, -, hperm, hfold⟩ := ready_eq_foldl (r := r) hn
  rw [hfold]
  exact foldl_apart (P := fun w : Conns => w.owned[k]? = some o) (fun _ _ hk ho => handleSlot_apart hk ho)
    (fun hmem => hk (hperm.mem_iff.mp hmem)) ho

theorem Agrees.idle_at {n : Nat} (h : Agrees listenFd w slots) (hn : slots.length ≤ n) (ho : w.owned[k]? = some o) :
    (sweep (Poller.idleSlot r) n 0 w slots).1.owned[k]? = some { o with conn := unlessLate r k o.conn } := by
  obtain ⟨order, new, hperm, hnew, hfold⟩ :=
    sweep_eq_foldl (f := Poller.idleSlot r) (m := fun _ => 0)
      (fun w s => by rw [idleSlot_appends]; exact Nat.le_refl _) n (s := w) (show slots.length - 0 + 0 ≤ n from hn)
  obtain rfl : new = [] := by
    refine List.eq_nil_iff_forall_not_mem.mpr fun s hs => ?_
    obtain ⟨w, s', hmem⟩ := hnew s hs
    rw [idleSlot_appends] at hmem
    cases hmem
  rw [List.drop_zero, List.append_nil] at hperm
  have hconns := hperm.filterMap Slot.conn
  rw [hfold]
  cases hopen : o.conn.isOpen with
  | true =>
    obtain ⟨s, hs, hk⟩ := List.mem_filterMap.mp (h.all k o ho hopen)
    exact foldl_once (P := fun w : Conns => w.owned[k]? = some o)
      (Q := fun w : Conns => w.owned[k]? = some { o with conn := unlessLate r k o.conn })
      (fun _ _ hk ho => idleSlot_apart hk ho) (fun _ _ hk ho => idleSlot_apart hk ho)
      (fun _ ho => idleSlot_at hk ho) (hconns.nodup_iff.mpr h.one) (hperm.mem_iff.mpr hs) hk ho
  | false =>
    have hapart : k ∉ order.filterMap Slot.conn := by
      rw [hconns.mem_iff]
      exact h.notMem_of_closed ho hopen
    rw [unlessLate, hopen]
    exact foldl_apart (P := fun w : Conns => w.owned[k]? = some o) (fun _ _ hk ho => idleSlot_apart hk ho) hapart ho

theorem notMem_busy (hk : k ∉ slots.filterMap Slot.conn) : k ∉ slots.filterMap busy := by
  intro hmem
  obtain ⟨s, hs, hbusy⟩ := List.mem_filterMap.mp hmem
  exact hk (List.mem_filterMap.mpr ⟨s, hs, conn_of_busy hbusy⟩)

theorem accepted_old (re : Revents) (slots : List Slot) (ho : w.owned[k]? = some o) :
    (accepted w re slots).1.owned[k]? = some o := by
  unfold accepted
  split
  · exact ho
  · exact List.getElem?_append_left (List.getElem?_eq_some_iff.mp ho).1 ▸ ho

theorem mem_accepted (w : Conns) (re : Revents) (hs : s ∈ slots) : s ∈ (accepted w re slots).2 := by
  unfold accepted
  split
  · exact hs
  · exact List.mem_append_left _ hs

theorem accepted_new {re : Revents} {j fd : Nat} (slots : List Slot) (hbusy : re ≠ {}) (hj : w.accepts[j]? = some fd) :
    (accepted w re slots).1.owned[w.owned.length + j]? = some { fd := fd } := by
  unfold accepted
  rw [if_neg hbusy, acceptLoop, List.getElem?_append_right (Nat.le_add_right _ _), Nat.add_sub_cancel_left,
    List.getElem?_map, hj]
  rfl

theorem length_accepted (w : Conns) (re : Revents) (slots : List Slot) :
    (accepted w re slots).1.owned.length = w.owned.length + if re = {} then 0 else w.accepts.length := by
  unfold accepted
  split
  · rfl
  · rw [acceptLoop, List.length_append, List.length_map]

/-- The connections that have just been accepted are not handled in the pass. -/
theorem Agrees.notMem_new (h : Agrees listenFd w slots) (re : Revents) (hk : w.owned.length ≤ k) :
    k ∉ (Poller.accepted w re slots).2.filterMap busy := by
  have hold : k ∉ slots.filterMap busy := by
    intro hmem
    obtain ⟨s, hs, hbusy⟩ := List.mem_filterMap.mp hmem
    have hlt := h.lt_of_conn hs (conn_of_busy hbusy)
    omega
  unfold Poller.accepted
  split
  · exact hold
  · have hnew : (acceptLoop w).2.filterMap busy = [] := by
      refine List.filterMap_eq_nil_iff.mpr fun s hs => ?_
      obtain ⟨a, -, rfl⟩ := List.mem_map.mp hs
      rfl
    rw [List.filterMap_append, hnew, List.append_nil]
    exact hold

theorem length_handleSlot (hk : s.conn = some k) : (handleSlot r w s).1.owned.length = w.owned.length := by
  unfold handleSlot
  split
  · rfl
  · rw [hk]
    dsimp only
    split
    · rfl
    · rename_i o _
      split
      · exact List.length_set
      · generalize (if s.revents.input = true then o.conn.handleRead onPoll (r.recvs k) else o.conn) = c
        split
        · exact List.length_set
        · exact List.length_set

theorem length_idleSlot : (idleSlot r w s).1.owned.length = w.owned.length := by
  unfold idleSlot
  split
  · rfl
  · split
    · rfl
    · split
      · split
        · exact List.length_set
        · rfl
      · rfl

theorem Agrees.length_ready (h : Agrees listenFd w slots) (n : Nat) :
    (sweep (Poller.handleSlot r) n 0 w slots).1.owned.length = w.owned.length := by
  have hinv := sweep_invariant (f := Poller.handleSlot r)
    (I := fun w' slots => w'.owned.length = w.owned.length ∧ Agrees listenFd w' slots)
    (fun _ _ _ hp h => ⟨h.1, h.2.perm hp⟩) (fun w' s _ h => ?_) n 0 ⟨rfl, h⟩
  · exact hinv.1
  · obtain ⟨k, -, hk, -⟩ := h.2.own s List.mem_cons_self
    exact ⟨(length_handleSlot hk).trans h.1, h.2.handleSlot r⟩

theorem length_idle (n : Nat) : (sweep (idleSlot r) n 0 w slots).1.owned.length = w.owned.length :=
  sweep_invariant (f := idleSlot r) (I := fun w' _ => w'.owned.length = w.owned.length)
    (fun _ _ _ _ h => h) (fun _ _ _ h => length_idleSlot.trans h) n 0 rfl

/-- A turn of the loop, connection by connection. -/
theorem round_owned (h : Sound listenFd p) (hr : Tells p r) : ∃ re tail,
    told p.slots r.revents = ⟨listenFd, false, re, none⟩ :: tail ∧
    Agrees listenFd { p.conns with accepts := r.accepts } tail ∧
    (p.round r).conns.owned.length = p.conns.owned.length + (if re = {} then 0 else r.accepts.length) ∧
    (∀ s ∈ tail, ∀ (k : Nat) (o : Owned), s.conn = some k → p.conns.owned[k]? = some o →
      (p.round r).conns.owned[k]? = some { o with conn := unlessLate r k (turn r k s.revents o.conn) }) ∧
    (∀ (k : Nat) (o : Owned), p.conns.owned[k]? = some o → o.conn.isOpen = false →
      (p.round r).conns.owned[k]? = some o) ∧
    ∀ j fd, re ≠ {} → r.accepts[j]? = some fd → (p.round r).conns.owned[p.conns.owned.length + j]? =
      some { fd := fd, conn := unlessLate r (p.conns.owned.length + j) {} } := by
  obtain ⟨re, tail, w₁, slots₁, w₂, slots₂, n, htold, htail, haccepted, hn, hready, hconns, -⟩ := round_cases h hr
  have h₁ := htail.accepted re
  have hlen := length_accepted { p.conns with accepts := r.accepts } re tail
  have hold : ∀ (k : Nat) (o : Owned), p.conns.owned[k]? = some o →
      (accepted { p.conns with accepts := r.accepts } re tail).1.owned[k]? = some o :=
    fun _ _ ho => accepted_old (w := { p.conns with accepts := r.accepts }) re tail ho
  rw [← haccepted] at h₁ hlen hold
  have h₂ := h₁.ready r n
  have hlen₂ := h₁.length_ready (r := r) n
  rw [← hready] at h₂ hlen₂
  have h₃ : Agrees listenFd { w₂ with accepts := [] } slots₂ := h₂.fewer rfl rfl
  have hidle : ∀ {k : Nat} {o : Owned}, w₂.owned[k]? = some o →
      (p.round r).conns.owned[k]? = some { o with conn := unlessLate r k o.conn } := by
    intro k o ho
    rw [hconns]
    exact h₃.idle_at (Nat.le_succ _) ho
  refine ⟨re, tail, htold, htail, ?_, fun s hs k o hk ho => ?_, fun k o ho hclosed => ?_, fun j fd hbusy hj => ?_⟩
  · rw [hconns, length_idle]
    exact hlen₂.trans hlen
  · have hat := h₁.ready_at (r := r) hn (s := s) (k := k) (o := o) ?_ hk (hold k o ho)
    · rw [← hready] at hat
      exact hidle hat
    · have hmem := mem_accepted { p.conns with accepts := r.accepts } re hs
      rwa [← haccepted] at hmem
  · have hapart := ready_apart (r := r) hn (notMem_busy (h₁.notMem_of_closed (hold k o ho) hclosed)) (hold k o ho)
    rw [← hready] at hapart
    have hround := hidle hapart
    rwa [unlessLate, hclosed] at hround
  · have hnew := accepted_new (w := { p.conns with accepts := r.accepts }) tail hbusy hj
    have hnot := htail.notMem_new re (Nat.le_add_right p.conns.owned.length j)
    rw [← haccepted] at hnew hnot
    have hapart := ready_apart (r := r) hn hnot hnew
    rw [← hready] at hapart
    exact hidle hapart

/-! ## The loop -/

/-- Whenever `poll` is called, the first slot is the listener's, and the others are those of the connections that are
open, one for each. -/
theorem slots_agree (hs : Reach (Fresh listenFd) step Tells p) : ∃ re slots,
    p.slots = { fd := listenFd, revents := re, conn := none } :: slots ∧ (p.slots.map Slot.fd).Nodup ∧
    (slots.filterMap Slot.conn).Nodup ∧
    (∀ (k : Nat) (o : Owned), p.conns.owned[k]? = some o → (o.conn.isOpen = true ↔ k ∈ slots.filterMap Slot.conn)) ∧
    (∀ s ∈ slots, ∃ k o, s.conn = some k ∧ p.conns.owned[k]? = some o ∧ s.fd = o.fd ∧ s.out = o.conn.wantOut) ∧
    ∀ o ∈ p.conns.owned, Reach Connection.Fresh (Connection.step onPoll) (fun _ _ => True) o.conn := by
  obtain ⟨re, slots, hslots, h⟩ := sound_of_reach hs
  refine ⟨re, slots, hslots, ?_, h.one, fun k o ho => ⟨h.all k o ho, fun hk => ?_⟩, fun s hmem => ?_, h.runs⟩
  · rw [hslots]
    exact h.fds.sublist (List.sublist_append_left ..)
  · by_contra hopen
    exact h.notMem_of_closed ho (Bool.eq_false_iff.mpr hopen) hk
  · obtain ⟨k, o, hk, ho, -, hfd, hout⟩ := h.own s hmem
    exact ⟨k, o, hk, ho, hfd, hout⟩

/-- The first of three connections hangs up, and the last one's slot takes its place. -/
theorem slots_agree_removed : ∃ (p : Poller) (re : Revents) (slots : List Slot),
    p.slots.map (fun s => (s.fd, s.out, s.conn)) = [(3, false, none), (7, false, some 2), (6, true, some 1)] ∧
    p.slots = { fd := 3, revents := re, conn := none } :: slots ∧ (p.slots.map Slot.fd).Nodup ∧
    (slots.filterMap Slot.conn).Nodup ∧
    (∀ k o, p.conns.owned[k]? = some o → (o.conn.isOpen = true ↔ k ∈ slots.filterMap Slot.conn)) ∧
    (∀ s ∈ slots, ∃ k o, s.conn = some k ∧ p.conns.owned[k]? = some o ∧ s.fd = o.fd ∧ s.out = o.conn.wantOut) ∧
    ∀ o ∈ p.conns.owned, Reach Connection.Fresh (Connection.step onPoll) (fun _ _ => True) o.conn := by
  obtain ⟨p, hp, hobs⟩ := Option.map_eq_some_iff.mp
    (show (execAll step Tells
        [{ revents := [{ input := true }], accepts := [5, 6, 7] },
          { revents := [{}, { error := true }, { input := true }, {}]
            recvs := fun _ => [.received (ascii "GET / HTTP/1.1\r\n\r\n")] }]
        { slots := [{ fd := 3, conn := none }] }).map (fun p => p.slots.map fun s => (s.fd, s.out, s.conn)) =
      some [(3, false, none), (7, false, some 2), (6, true, some 1)] by decide +kernel)
  obtain ⟨re, slots, hagree⟩ := slots_agree (Reach.exec (.start rfl) hp)
  exact ⟨p, re, slots, hobs, hagree⟩

/-- A turn of the loop does with each connection what `poll` has told of its descriptor, and closes it when its time is
over; what is closed stays so; and the listener's slot adds what is accepted. -/
theorem each_by_itself (hs : Reach (Fresh listenFd) step Tells p) (hr : Tells p r) :
    (∀ s ∈ told p.slots r.revents, ∀ (k : Nat) (o : Owned), s.conn = some k → p.conns.owned[k]? = some o →
      (p.round r).conns.owned[k]? = some { o with conn := unlessLate r k (turn r k s.revents o.conn) }) ∧
    (∀ (k : Nat) (o : Owned), p.conns.owned[k]? = some o → o.conn.isOpen = false →
      (p.round r).conns.owned[k]? = some o) ∧
    ∀ s ∈ told p.slots r.revents, s.conn = none →
      (p.round r).conns.owned.length =
        p.conns.owned.length + (if s.revents = {} then 0 else r.accepts.length) ∧
      ∀ j fd, s.revents ≠ {} → r.accepts[j]? = some fd → (p.round r).conns.owned[p.conns.owned.length + j]? =
        some { fd := fd, conn := unlessLate r (p.conns.owned.length + j) {} } := by
  obtain ⟨re, tail, htold, htail, hlen, hconn, hclosed, hnew⟩ := round_owned (sound_of_reach hs) hr
  rw [htold]
  refine ⟨fun s hmem k o hk ho => ?_, hclosed, fun s hmem hk => ?_⟩
  · rcases List.mem_cons.mp hmem with rfl | hmem
    · cases hk
    · exact hconn s hmem k o hk ho
  · rcases List.mem_cons.mp hmem with rfl | hmem
    · exact ⟨hlen, hnew⟩
    · obtain ⟨k, -, hk', -⟩ := htail.own s hmem
      cases hk.symm.trans hk'

/-- The last of three connections reads after its slot has taken the place of the first. -/
theorem each_by_itself_moved :
    let p : Poller := round { slots := [{ fd := 3, conn := none }] }
      { revents := [{ input := true }], accepts := [5, 6, 7] }
    let r : Round := { revents := [{}, { error := true }, {}, { input := true }]
                       recvs := fun _ => [.received (ascii "GET / HTTP/1.1\r\n\r\n")] }
    (p.round r).conns.owned[2]? =
      some { fd := 7, conn := unlessLate r 2 (turn r 2 { input := true } {}) } := by
  intro p r
  have hreach : Reach (Fresh 3) step Tells p := by
    refine Reach.next (a := { revents := [{ input := true }], accepts := [5, 6, 7] }) (.start rfl) ?_ rfl
    decide +kernel
  have hr : Tells p r := by decide +kernel
  have hslot : ({ fd := 7, revents := { input := true }, conn := some 2 } : Slot) ∈ told p.slots r.revents := by
    decide +kernel
  exact (each_by_itself hreach hr).1 _ hslot 2 { fd := 7 } rfl (by decide +kernel)

end Poller

end IOContext.Hello
