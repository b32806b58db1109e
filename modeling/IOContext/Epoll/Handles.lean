import IOContext.Epoll.Server

/-!
# The epoll server: whose connection an event closes

`close_and_recycle` looks only at the index of a handle, and a descriptor that is not mapped has the default handle, so
that it names slot 0.

- What a handler does to its own connection it does to no other (`Works`), down to the single operation.
- An event recycles no slot but the one of its descriptor, if no handle that does not resolve names a slot in use
  (`Safe`, `handle_own`); so it is in every run (`events_own`).
-/

namespace IOContext.Epoll

/-- A connection in use knows its slot. -/
def Worker.Wf {cap : Nat} (w : Worker cap) : Prop :=
  ∀ i, (w.slots i).inUse = true → (w.client i).self.index.toNat = i.val

/-- The slots that are recycled. -/
def recyclings {cap : Nat} (es : List (Effect cap)) : List (Fin cap) :=
  es.filterMap fun
    | .recycled i => some i
    | _ => none

/-- What is done for the connection of slot `i`. -/
structure Works {cap : Nat} (i : Fin cap) (w w' : Worker cap) : Prop where
  other : ∀ j, j ≠ i → w'.slots j = w.slots j
  inUse : (w'.slots i).inUse = true → (w.slots i).inUse = true ∧ (w'.slots i).generation = (w.slots i).generation
  self : (w'.client i).self = (w.client i).self
  fd2h : ∀ fd, w'.fd2h fd = w.fd2h fd ∨ w'.fd2h fd = none
  listen : w'.listen = w.listen
  log : ∃ es, w'.log = w.log ++ es ∧ ∀ j ∈ recyclings es, j = i

namespace Works

variable {cap : Nat} {i : Fin cap} {w w' w'' : Worker cap}

theorem refl (i : Fin cap) (w : Worker cap) : Works i w w :=
  ⟨fun _ _ => rfl, fun h => ⟨h, rfl⟩, rfl, fun _ => .inl rfl, rfl, [], (List.append_nil _).symm, by simp [recyclings]⟩

theorem trans (h : Works i w w') (h' : Works i w' w'') : Works i w w'' := by
  refine ⟨fun j hj => (h'.other j hj).trans (h.other j hj), fun hu => ?_, h'.self.trans h.self, fun fd => ?_,
    h'.listen.trans h.listen, ?_⟩
  · obtain ⟨hu', hg'⟩ := h'.inUse hu
    obtain ⟨hu, hg⟩ := h.inUse hu'
    exact ⟨hu, hg'.trans hg⟩
  · rcases h'.fd2h fd with hfd | hfd
    · rw [hfd]
      exact h.fd2h fd
    · exact .inr hfd
  · obtain ⟨es, hlog, hes⟩ := h.log
    obtain ⟨es', hlog', hes'⟩ := h'.log
    refine ⟨es ++ es', by rw [hlog', hlog, List.append_assoc], fun j hj => ?_⟩
    rw [recyclings, List.filterMap_append, List.mem_append] at hj
    exact hj.elim (hes j) (hes' j)

/-- Work for one connection leaves every connection in the slot it knows. -/
theorem wf (h : Works i w w') (hw : w.Wf) : w'.Wf := by
  intro j hj
  by_cases hji : j = i
  · subst hji
    rw [h.self]
    exact hw j (h.inUse hj).1
  · rw [Worker.client, h.other j hji] at *
    exact hw j hj

end Works

namespace Worker

variable {cap : Nat} {i : Fin cap} {w w' : Worker cap} {h : ConnHandle}

/-! ## The operations -/

theorem works_emit {es : List (Effect cap)} (hes : recyclings es = []) : Works i w (w.emit es) :=
  ⟨fun _ _ => rfl, fun h => ⟨h, rfl⟩, rfl, fun _ => .inl rfl, rfl, es, rfl, by simp [hes]⟩

theorem works_sends (rs : List SendResult) : Works i w { w with sends := rs } :=
  ⟨fun _ _ => rfl, fun h => ⟨h, rfl⟩, rfl, fun _ => .inl rfl, rfl, [], (List.append_nil _).symm, by simp [recyclings]⟩

theorem works_status (st : Status) : Works i w { w with status := st } :=
  ⟨fun _ _ => rfl, fun h => ⟨h, rfl⟩, rfl, fun _ => .inl rfl, rfl, [], (List.append_nil _).symm, by simp [recyclings]⟩

theorem works_setClient {c : PerClientStorage} (hc : c.self = (w.client i).self) : Works i w (w.setClient i c) := by
  refine ⟨fun j hj => setClient_other hj, fun h => ?_, ?_, fun _ => .inl rfl, rfl, [], (List.append_nil _).symm,
    by simp [recyclings]⟩
  · rw [setClient_slots] at h ⊢
    exact ⟨h, rfl⟩
  · rw [setClient_client, hc]

theorem works_unmapFd (fd : Int) : Works i w (w.unmapFd fd) := by
  refine ⟨fun _ _ => rfl, fun h => ⟨h, rfl⟩, rfl, fun fd' => ?_, rfl, [], (List.append_nil _).symm,
    by simp [recyclings]⟩
  by_cases hfd : fd' = fd
  · exact .inr (by simp [unmapFd, hfd])
  · exact .inl (by simp [unmapFd, hfd])

theorem works_recycle (i : Fin cap) (w : Worker cap) : Works i w (w.recycle i) := by
  refine ⟨fun j hj => setSlot_other hj, fun h => ?_, ?_, fun _ => .inl rfl, rfl, _, rfl, ?_⟩
  · simp [recycle] at h
  · simp [recycle, client]
  · intro j hj
    unfold recycleEffects at hj
    split at hj <;> simpa [recyclings] using hj

/-- The slot that a handle names, if it is in use; its generation is not looked at. -/
def named (w : Worker cap) (h : ConnHandle) : Option (Fin cap) :=
  if hi : h.index.toNat < cap then
    if (w.slots ⟨h.index.toNat, hi⟩).inUse then some ⟨h.index.toNat, hi⟩ else none
  else none

theorem closeAndRecycle_eq (w : Worker cap) (h : ConnHandle) :
    w.closeAndRecycle h = (w.named h).elim w w.recycle := by
  unfold closeAndRecycle named
  split
  · split <;> rfl
  · rfl

theorem named_eq_some_iff : w.named h = some i ↔ h.index.toNat = i.val ∧ (w.slots i).inUse = true := by
  unfold named
  constructor
  · intro hn
    split at hn
    · split at hn
      · rename_i hu
        cases hn
        exact ⟨rfl, hu⟩
      · cases hn
    · cases hn
  · rintro ⟨hi, hu⟩
    have hlt : h.index.toNat < cap := hi ▸ i.isLt
    have heq : (⟨h.index.toNat, hlt⟩ : Fin cap) = i := Fin.ext hi
    rw [dif_pos hlt, heq, if_pos hu]

theorem tryGet_eq_some_iff : w.tryGet h = some i ↔ w.named h = some i ∧ (w.slots i).generation = h.generation := by
  rw [named_eq_some_iff]
  unfold tryGet
  constructor
  · intro hn
    split at hn
    · split at hn
      · rename_i hu
        cases hn
        simp only [Bool.and_eq_true, beq_iff_eq] at hu
        exact ⟨⟨rfl, hu.1⟩, hu.2⟩
      · cases hn
    · cases hn
  · rintro ⟨⟨hi, hu⟩, hg⟩
    have hlt : h.index.toNat < cap := hi ▸ i.isLt
    have heq : (⟨h.index.toNat, hlt⟩ : Fin cap) = i := Fin.ext hi
    rw [dif_pos hlt, heq, if_pos (by simp [hu, hg])]

theorem works_closeAndRecycle (hi : h.index.toNat = i.val) : Works i w (w.closeAndRecycle h) := by
  rw [closeAndRecycle_eq]
  cases hn : w.named h with
  | none => exact .refl i w
  | some j =>
    have hj : j = i := Fin.ext ((named_eq_some_iff.mp hn).1.symm.trans hi)
    rw [Option.elim_some, hj]
    exact works_recycle i w

theorem works_hangUp {fd : Int} (hi : h.index.toNat = i.val) : Works i w (w.hangUp fd h) :=
  ((works_closeAndRecycle hi).trans (works_unmapFd fd)).trans (works_emit rfl)

/-- A handle that names no slot in use closes nothing. -/
theorem hangUp_none {fd : Int} (hn : w.named h = none) : w.hangUp fd h = (w.unmapFd fd).emit [.epDel fd] := by
  rw [hangUp, closeAndRecycle_eq, hn, Option.elim_none]

theorem works_closeClient (hself : (w.client i).self.index.toNat = i.val) : Works i w (w.closeClient i) :=
  ((works_closeAndRecycle hself).trans (works_unmapFd _)).trans (works_emit rfl)

theorem works_arm (i : Fin cap) (w : Worker cap) : Works i w (w.arm i) := by
  unfold arm
  dsimp only
  split
  · exact .refl i w
  · refine Works.trans ?_ (works_emit rfl)
    exact works_setClient rfl

theorem works_flushSendOnce (i : Fin cap) (w : Worker cap) : Works i w (w.flushSendOnce i).2 := by
  rcases w.flushSendOnce_cases i with ⟨r, sends, hr, -⟩ | ⟨sends, p, n, d, -, -, hr⟩
  · rw [hr]
    exact works_sends sends
  · rw [hr]
    have hsends : Works i w { w with sends := sends } := works_sends sends
    refine (hsends.trans ?_).trans (works_emit ?_)
    · exact works_setClient rfl
    · simp [recyclings, List.filterMap_map]

theorem works_flushTurn (hself : (w.client i).self.index.toNat = i.val) : Works i w (w.flushTurn i).2 := by
  rcases hr : w.flushSendOnce i with ⟨r, w₁⟩
  have hflush : Works i w w₁ := by simpa [hr] using works_flushSendOnce i w
  unfold flushTurn
  rw [hr]
  cases r with
  | progress => exact hflush
  | finished =>
    have hserved : Works i w (w₁.countServed i) := hflush.trans (works_setClient rfl)
    dsimp only [endResponse]
    split
    · exact hserved.trans (works_closeClient (by rw [hserved.self, hself]))
    · exact hserved
  | fatal => exact hflush.trans (works_closeClient (by rw [hflush.self, hself]))
  | noData => exact hflush.trans (works_arm i _)
  | blocked => exact hflush.trans (works_arm i _)

theorem works_flushLoop : ∀ (n : Nat) {w : Worker cap}, (w.client i).self.index.toNat = i.val →
    Works i w (flushLoop n i w)
  | 0, w, _ => .refl i w
  | n + 1, w, hself => by
    rcases hr : w.flushTurn i with ⟨again, w₁⟩
    have hturn : Works i w w₁ := by simpa [hr] using works_flushTurn hself
    unfold flushLoop
    rw [hr]
    cases again with
    | true => exact hturn.trans (works_flushLoop n (by rw [hturn.self, hself]))
    | false => exact hturn

theorem works_txEnqueueLiteral {p : Bytes} {eor : Bool} (hself : (w.client i).self.index.toNat = i.val) :
    Works i w (w.txEnqueueLiteral i p eor) := by
  have hqueue : Works i w (w.setClient i { w.client i with txq := (w.client i).txq ++ [⟨p, eor⟩] }) :=
    works_setClient rfl
  exact hqueue.trans (works_flushLoop _ (by rw [hqueue.self, hself]))

theorem works_enqueueRequestForResponse {keepAlive : Bool} (hself : (w.client i).self.index.toNat = i.val) :
    Works i w (w.enqueueRequestForResponse i keepAlive) := by
  have hhdr : ∀ hdr, Works i w (w.txEnqueueLiteral i hdr false) := fun hdr => works_txEnqueueLiteral hself
  exact (hhdr _).trans (works_txEnqueueLiteral (by rw [(hhdr _).self, hself]))

variable {reserves : Nat → Bool}

theorem works_onSegment {p : Bytes} (hself : (w.client i).self.index.toNat = i.val) :
    Works i w (w.onSegment reserves i p) := by
  have hout : Works i w (left (Epoll.onSegment reserves (fun _ keepAlive w => w.enqueueRequestForResponse i keepAlive) p
      { http := (w.client i).http, req := (w.client i).req, out := w })).out :=
    (onSegment_ends p _).out (P := Works i w)
      (fun _ _ s hs => hs.trans (works_enqueueRequestForResponse (by rw [hs.self, hself]))) (.refl i w)
  unfold onSegment
  dsimp only
  split
  · exact hout.trans (works_setClient rfl)
  · refine Works.trans ?_ (works_status _)
    exact hout.trans (works_setClient rfl)

theorem works_recvLoop {fd : Int} (hi : h.index.toNat = i.val) : ∀ (rs : List RecvResult) {w : Worker cap},
    (w.client i).self.index.toNat = i.val → Works i w (recvLoop reserves fd h i rs w)
  | [], w, _ => .refl i w
  | .received p :: rs, w, hself => by
    have hseg : Works i w (w.onSegment reserves i (p.take rxCap)) := works_onSegment hself
    unfold recvLoop
    split
    · exact works_hangUp hi
    · dsimp only
      split
      · exact hseg.trans (works_recvLoop hi rs (by rw [hseg.self, hself]))
      · exact hseg
  | .wouldBlock :: _, w, _ => .refl i w
  | .interrupted :: rs, w, hself => works_recvLoop hi rs hself
  | .failed :: _, w, _ => works_hangUp hi

/-! ## A mapping outlives its connection -/

theorem flushSendOnce_mapped (i : Fin cap) (w : Worker cap) : (w.flushSendOnce i).2.fd2h = w.fd2h ∧
    ((w.flushSendOnce i).2.slots i).inUse = (w.slots i).inUse := by
  rcases w.flushSendOnce_cases i with ⟨r, sends, hr, -⟩ | ⟨sends, p, n, d, -, -, hr⟩
  · rw [hr]
    exact ⟨rfl, rfl⟩
  · rw [hr]
    exact ⟨rfl, by simp⟩

/-- A connection that is closed from within has no descriptor any more that could be unmapped. -/
theorem closeClient_mapped (hself : (w.client i).self.index.toNat = i.val) (hu : (w.slots i).inUse = true) (fd : Nat) :
    (w.closeClient i).fd2h fd = w.fd2h fd := by
  have hn : w.named (w.client i).self = some i := named_eq_some_iff.mpr ⟨hself, hu⟩
  have hfd : ((w.recycle i).client i).fd = -1 := by simp [recycle, client]
  have hne : (fd : Int) ≠ -1 := by omega
  simp only [closeClient, closeAndRecycle_eq, hn, Option.elim_some, hfd, emit, unmapFd]
  rw [Function.update_of_ne hne]
  rfl

theorem flushTurn_mapped (hself : (w.client i).self.index.toNat = i.val) (hu : (w.slots i).inUse = true) (fd : Nat) :
    (w.flushTurn i).2.fd2h fd = w.fd2h fd ∧ ((w.flushTurn i).1 = true → ((w.flushTurn i).2.slots i).inUse = true) := by
  rcases hr : w.flushSendOnce i with ⟨r, w₁⟩
  have hflush : Works i w w₁ := by simpa [hr] using works_flushSendOnce i w
  obtain ⟨hfd, hu₁⟩ : w₁.fd2h = w.fd2h ∧ (w₁.slots i).inUse = (w.slots i).inUse := by
    simpa [hr] using flushSendOnce_mapped i w
  rw [hu] at hu₁
  have hself₁ : (w₁.client i).self.index.toNat = i.val := by rw [hflush.self, hself]
  have harm : (w₁.arm i).fd2h = w₁.fd2h := by
    unfold arm
    dsimp only
    split <;> rfl
  unfold flushTurn
  rw [hr]
  cases r with
  | progress => exact ⟨by rw [hfd], fun _ => hu₁⟩
  | finished =>
    have hserved : Works i w₁ (w₁.countServed i) := works_setClient rfl
    have hu₂ : ((w₁.countServed i).slots i).inUse = true := by simp [countServed, hu₁]
    dsimp only [endResponse]
    split
    · refine ⟨?_, fun h => by cases h⟩
      rw [closeClient_mapped (by rw [hserved.self, hself₁]) hu₂]
      exact congrFun hfd fd
    · exact ⟨congrFun hfd fd, fun _ => hu₂⟩
  | fatal => exact ⟨by rw [closeClient_mapped hself₁ hu₁, hfd], fun h => by cases h⟩
  | noData => exact ⟨by rw [harm, hfd], fun h => by cases h⟩
  | blocked => exact ⟨by rw [harm, hfd], fun h => by cases h⟩

/-- While a connection in use is flushed, the mappings of descriptors stay, also when it is closed. -/
theorem flushLoop_mapped : ∀ (n : Nat) {w : Worker cap}, (w.client i).self.index.toNat = i.val →
    (w.slots i).inUse = true → ∀ fd : Nat, (flushLoop n i w).fd2h fd = w.fd2h fd
  | 0, _, _, _, _ => rfl
  | n + 1, w, hself, hu, fd => by
    rcases hr : w.flushTurn i with ⟨again, w₁⟩
    have hturn : Works i w w₁ := by simpa [hr] using works_flushTurn hself
    have hmapped : w₁.fd2h fd = w.fd2h fd ∧ (again = true → (w₁.slots i).inUse = true) := by
      simpa [hr] using flushTurn_mapped hself hu fd
    unfold flushLoop
    rw [hr]
    cases again with
    | true => exact (flushLoop_mapped n (by rw [hturn.self, hself]) (hmapped.2 rfl) fd).trans hmapped.1
    | false => exact hmapped.1

/-- While work is done for one connection, another one that the default handle names stays as it is. -/
theorem named_zero_of_works (hworks : Works i w w') {j : Fin cap} (hj : w'.named {} = some j) (hji : j ≠ i) :
    i.val ≠ 0 ∧ w.named {} = some j ∧ w'.slots j = w.slots j := by
  obtain ⟨hj0, huj⟩ := named_eq_some_iff.mp hj
  have hslot := hworks.other j hji
  exact ⟨fun hi0 => hji (Fin.ext (hj0.symm.trans hi0.symm)), named_eq_some_iff.mpr ⟨hj0, hslot ▸ huj⟩, hslot⟩

/-! ## Events -/

/-- The handlers of a descriptor that resolves work for its connection. -/
theorem works_handleRecvEt (hw : w.Wf) {fd : Int} (hg : w.tryGet (w.lookup fd) = some i) (events : UInt32)
    (rs : List RecvResult) : Works i w (w.handleRecvEt reserves fd events rs) := by
  obtain ⟨hi, hu⟩ := named_eq_some_iff.mp (tryGet_eq_some_iff.mp hg).1
  unfold handleRecvEt
  rw [hg]
  dsimp only
  split
  · exact works_hangUp hi
  · exact works_recvLoop hi rs (hw i hu)

theorem works_handleSendReadyEt (hw : w.Wf) {fd : Int} (hg : w.tryGet (w.lookup fd) = some i) :
    Works i w (w.handleSendReadyEt fd) := by
  unfold handleSendReadyEt
  rw [hg]
  exact works_flushLoop _ (hw i (named_eq_some_iff.mp (tryGet_eq_some_iff.mp hg).1).2)

theorem wf_emit (hw : w.Wf) (es : List (Effect cap)) : (w.emit es).Wf := hw

theorem wf_mapFd (hw : w.Wf) (fd : Int) (h : ConnHandle) : (w.mapFd fd h).Wf := hw

theorem wf_setSlot (hw : w.Wf) {s : ConnSlot} (hs : s.inUse = true → s.client.self.index.toNat = i.val) :
    (w.setSlot i s).Wf := by
  intro j hj
  by_cases hji : j = i
  · subst hji
    rw [client, setSlot_slots] at *
    exact hs hj
  · rw [client, setSlot_other hji] at *
    exact hw j hj

theorem wf_closeAndRecycle (hw : w.Wf) (h : ConnHandle) : (w.closeAndRecycle h).Wf := by
  rw [closeAndRecycle_eq]
  cases w.named h with
  | none => exact hw
  | some i => exact (works_recycle i w).wf hw

theorem wf_hangUp (hw : w.Wf) (fd : Int) (h : ConnHandle) : (w.hangUp fd h).Wf := wf_closeAndRecycle hw h

/-- A new connection gets a slot that was free, and its own handle. -/
theorem allocate_spec (ha : w.allocate = some (h, w')) : ∃ i : Fin cap, (w.slots i).inUse = false ∧
    h = ⟨UInt32.ofNat i.val, (w.slots i).generation⟩ ∧ h.index.toNat = i.val ∧ w'.tryGet h = some i ∧
    w' = w.setSlot i { w.slots i with inUse := true, client := {} } := by
  obtain ⟨i, hi, heq⟩ := Option.map_eq_some_iff.mp ha
  cases heq
  have hfree := List.find?_some hi
  simp only [Bool.and_eq_true, decide_eq_true_eq, Bool.not_eq_true'] at hfree
  have hindex : (UInt32.ofNat i.val).toNat = i.val := UInt32.toNat_ofNat_of_lt' hfree.1
  refine ⟨i, hfree.2, rfl, hindex, tryGet_eq_some_iff.mpr ⟨named_eq_some_iff.mpr ⟨hindex, ?_⟩, ?_⟩, rfl⟩ <;> simp

/-- New connections close none, and know their slots. -/
theorem acceptLoop_spec : ∀ (as : List AcceptResult) {w : Worker cap}, w.Wf → (acceptLoop as w).Wf ∧
    ∃ es, (acceptLoop as w).log = w.log ++ es ∧ recyclings es = []
  | [], w, hw => ⟨hw, [], (List.append_nil _).symm, rfl⟩
  | .accepted fd :: as, w, hw => by
    unfold acceptLoop
    cases ha : w.allocate with
    | none => exact ⟨hw, [], (List.append_nil _).symm, rfl⟩
    | some hw' =>
      obtain ⟨h, w'⟩ := hw'
      obtain ⟨i, -, -, hindex, hget, rfl⟩ := allocate_spec ha
      simp only [hget]
      have hclient : (w.setSlot i { w.slots i with inUse := true, client := {} }).setClient i { fd := fd, self := h } =
          w.setSlot i { w.slots i with inUse := true, client := { fd := fd, self := h } } := by
        simp [setClient, setSlot]
      rw [hclient]
      have hwf : (w.setSlot i { w.slots i with inUse := true, client := { fd := fd, self := h } }).Wf :=
        wf_setSlot hw fun _ => hindex
      obtain ⟨hwf', es, hlog, hes⟩ :=
        acceptLoop_spec as (wf_emit (wf_mapFd hwf fd h) [.epAdd fd (EPOLLIN ||| EPOLLRDHUP ||| EPOLLET)])
      exact ⟨hwf', _, hlog.trans (List.append_assoc w.log _ es), hes⟩
  | .interrupted :: as, w, hw => acceptLoop_spec as hw
  | .wouldBlock :: _, w, hw => ⟨hw, [], (List.append_nil _).symm, rfl⟩
  | .failed :: _, w, hw => ⟨hw, [], (List.append_nil _).symm, rfl⟩

/-- Where the handle of the descriptor does not resolve, and names no slot that a hang-up would close, nothing is
recycled. -/
theorem dispatch_nothing {e : Event} (hl : e.fd ≠ w.listen)
    (hget : has e.events EPOLLIN = true ∨ has e.events EPOLLOUT = true → w.tryGet (w.lookup e.fd) = none)
    (hnamed : hasHup e.events = true → w.named (w.lookup e.fd) = none) :
    ∃ es, (w.dispatch reserves e).log = w.log ++ es ∧ recyclings es = [] := by
  have hemit : ∀ es, (w.emit es).emit [] = w.emit es := fun es => by simp [emit]
  obtain ⟨es₁, hes₁, h1⟩ : ∃ es₁, recyclings es₁ = [] ∧
      (if has e.events EPOLLIN then w.handleRecvEt reserves e.fd e.events e.recvs else w) = w.emit es₁ := by
    split
    · rename_i hin
      exact ⟨[.epDel e.fd], rfl, by simp [handleRecvEt, hget (.inl hin)]⟩
    · exact ⟨[], rfl, by simp [emit]⟩
  obtain ⟨es₂, hes₂, h2⟩ : ∃ es₂, recyclings es₂ = [] ∧
      (if has e.events EPOLLOUT then (w.emit es₁).handleSendReadyEt e.fd else w.emit es₁) = (w.emit es₁).emit es₂ := by
    split
    · rename_i hout
      have hnone : (w.emit es₁).tryGet ((w.emit es₁).lookup e.fd) = none := hget (.inr hout)
      exact ⟨[.epDel e.fd], rfl, by simp [handleSendReadyEt, hnone]⟩
    · exact ⟨[], rfl, (hemit es₁).symm⟩
  have hes : recyclings (es₁ ++ es₂) = [] := by
    rw [recyclings, List.filterMap_append]
    exact List.append_eq_nil_iff.mpr ⟨hes₁, hes₂⟩
  unfold dispatch
  rw [if_neg hl]
  simp only [h1, h2]
  split
  · split
    · rename_i hhup
      have hnone : ((w.emit es₁).emit es₂).named (((w.emit es₁).emit es₂).lookup e.fd) = none := hnamed hhup
      rw [hangUp_none hnone]
      refine ⟨es₁ ++ es₂ ++ [.epDel e.fd], by simp [emit, unmapFd], ?_⟩
      rw [recyclings, List.filterMap_append]
      exact List.append_eq_nil_iff.mpr ⟨hes, rfl⟩
    · exact ⟨es₁ ++ es₂, by simp [emit], hes⟩
  · exact ⟨es₁, rfl, hes₁⟩

theorem lookup_eq {fd : Int} (h : w.fd2h fd = w'.fd2h fd) : w.lookup fd = w'.lookup fd := by
  rw [lookup, h, lookup]

/-- A hang-up leaves the slot free and the descriptor without a handle. -/
theorem hangUp_spec (fd : Int) (hn : w.named h = some i) : ((w.hangUp fd h).slots i).inUse = false ∧
    (w.hangUp fd h).fd2h fd = none := by
  rw [hangUp, closeAndRecycle_eq, hn, Option.elim_some]
  exact ⟨by simp [recycle, unmapFd], by simp [unmapFd, emit]⟩

/-- After work for its connection a descriptor resolves to that one, or to none. -/
theorem tryGet_of_works {fd : Int} {j : Fin cap} (hworks : Works i w w') (hi : (w.lookup fd).index.toNat = i.val)
    (hzero : w'.fd2h fd ≠ w.fd2h fd → i.val = 0 ∨ w.tryGet {} = none) (hj : w'.tryGet (w'.lookup fd) = some j) :
    j = i := by
  obtain ⟨hn, hgen⟩ := tryGet_eq_some_iff.mp hj
  by_cases hfd : w'.fd2h fd = w.fd2h fd
  · rw [lookup_eq hfd] at hn
    exact Fin.ext ((named_eq_some_iff.mp hn).1.symm.trans hi)
  · by_contra hji
    have hdefault : w'.lookup fd = {} := by
      rw [lookup, (hworks.fd2h fd).resolve_left hfd, Option.getD_none]
    rw [hdefault] at hn hgen
    obtain ⟨hi0, hnamed, hslot⟩ := named_zero_of_works hworks hn hji
    rcases hzero hfd with h0 | hnone
    · exact hi0 h0
    · rw [tryGet_eq_some_iff.mpr ⟨hnamed, hslot ▸ hgen⟩] at hnone
      cases hnone

/-- After a hang-up, and more work for its connection, a descriptor names no slot in use. -/
theorem named_of_hangUp {fd : Int} (hn : w.named h = some i) (hworks : Works i (w.hangUp fd h) w')
    (hzero : i.val = 0 ∨ w.named {} = none) : w'.named (w'.lookup fd) = none := by
  obtain ⟨hfree, hunmapped⟩ := hangUp_spec fd hn
  have hdefault : w'.lookup fd = {} := by
    rcases hworks.fd2h fd with hfd | hfd
    · rw [lookup, hfd, hunmapped, Option.getD_none]
    · rw [lookup, hfd, Option.getD_none]
  rw [hdefault]
  cases hj : w'.named {} with
  | none => rfl
  | some j =>
    by_cases hji : j = i
    · have hu := (hworks.inUse (hji ▸ (named_eq_some_iff.mp hj).2)).1
      rw [hfree] at hu
      cases hu
    · obtain ⟨hi0, hnamed, -⟩ :=
        named_zero_of_works ((works_hangUp (named_eq_some_iff.mp hn).1).trans hworks) hj hji
      rcases hzero with h0 | hnone
      · exact absurd h0 hi0
      · rw [hnamed] at hnone
        cases hnone

/-- Where the handle of the descriptor resolves, all is done for its connection, as long as the default handle, which is
looked up once the descriptor has been unmapped, names no other one. -/
theorem dispatch_own {e : Event} (hw : w.Wf) (hl : e.fd ≠ w.listen) (hm : w.fd2h e.fd = some h)
    (hg : w.tryGet h = some i)
    (hhup : has e.events EPOLLIN = true → hasHup e.events = true → i.val = 0 ∨ w.named {} = none)
    (hout : has e.events EPOLLIN = true → has e.events EPOLLOUT = true → i.val = 0 ∨ w.tryGet {} = none) :
    Works i w (w.dispatch reserves e) := by
  have hlook : w.lookup e.fd = h := by rw [lookup, hm, Option.getD_some]
  obtain ⟨hn, -⟩ := tryGet_eq_some_iff.mp hg
  obtain ⟨hi, hu⟩ := named_eq_some_iff.mp hn
  -- EPOLLIN
  obtain ⟨w₁, hw₁, hworks₁, hsame₁, hhup₁⟩ : ∃ w₁, (if has e.events EPOLLIN then
      w.handleRecvEt reserves e.fd e.events e.recvs else w) = w₁ ∧ Works i w w₁ ∧
      (has e.events EPOLLIN = false → w₁ = w) ∧
      (has e.events EPOLLIN = true → hasHup e.events = true → w₁ = w.hangUp e.fd h) := by
    cases hin : has e.events EPOLLIN with
    | false => exact ⟨w, rfl, .refl i w, fun _ => rfl, fun h => (by cases h)⟩
    | true =>
      refine ⟨_, rfl, works_handleRecvEt hw (by rw [hlook, hg]) _ _, fun h => (by cases h), fun _ hh => ?_⟩
      simp [handleRecvEt, hlook, hg, hh]
  -- EPOLLOUT
  obtain ⟨w₂, hw₂, hworks₂, hsame₂⟩ : ∃ w₂, (if has e.events EPOLLOUT then w₁.handleSendReadyEt e.fd else w₁) = w₂ ∧
      Works i w₁ w₂ ∧ (has e.events EPOLLIN = false → w₂.fd2h e.fd = some h) := by
    cases hwrite : has e.events EPOLLOUT with
    | false => exact ⟨w₁, rfl, .refl i w₁, fun hin => by rw [hsame₁ hin, hm]⟩
    | true =>
      refine ⟨_, rfl, ?_, fun hin => ?_⟩
      · cases hg₁ : w₁.tryGet (w₁.lookup e.fd) with
        | none =>
          simp only [handleSendReadyEt, hg₁, if_true]
          exact works_emit rfl
        | some j =>
          have hj : j = i := by
            refine tryGet_of_works hworks₁ (by rw [hlook, hi]) (fun hfd => ?_) hg₁
            cases hin : has e.events EPOLLIN with
            | false => exact absurd (by rw [hsame₁ hin]) hfd
            | true => exact hout hin hwrite
          rw [if_pos rfl]
          exact works_handleSendReadyEt (hworks₁.wf hw) (hj ▸ hg₁)
      · rw [hsame₁ hin, if_pos rfl, handleSendReadyEt, hlook, hg]
        exact (flushLoop_mapped _ (hw i hu) hu e.fd).trans hm
  have hworks := hworks₁.trans hworks₂
  unfold dispatch
  rw [if_neg hl]
  simp only [hw₁, hw₂]
  split
  · split
    · -- a hang-up
      rename_i hh
      cases hin : has e.events EPOLLIN with
      | false =>
        have hlook₂ : w₂.lookup e.fd = h := by rw [lookup, hsame₂ hin, Option.getD_some]
        rw [hlook₂]
        exact hworks.trans (works_hangUp hi)
      | true =>
        rw [hangUp_none (named_of_hangUp hn (hhup₁ hin hh ▸ hworks₂) (hhup hin hh))]
        exact (hworks.trans (works_unmapFd _)).trans (works_emit rfl)
    · exact hworks
  · exact hworks₁

/-! ## Whose connection is closed -/

/-- The slot of the connection that a descriptor is mapped to. -/
def resolve (w : Worker cap) (fd : Int) : Option (Fin cap) := (w.fd2h fd).bind w.tryGet

/-- The event recycles no slot but that of the connection of its descriptor. -/
def ClosesOwn (w : Worker cap) (e : Event) (w' : Worker cap) : Prop :=
  ∀ j ∈ recyclings (w'.log.drop w.log.length), w.resolve e.fd = some j

/-- The descriptor is that of the connection of slot `i`: once it has been unmapped the default handle names no other
connection. -/
def SafeLive (w : Worker cap) (e : Event) (i : Fin cap) : Prop :=
  (has e.events EPOLLIN = true → hasHup e.events = true → i.val = 0 ∨ w.named {} = none) ∧
  (has e.events EPOLLIN = true → has e.events EPOLLOUT = true → i.val = 0 ∨ w.tryGet {} = none)

/-- The descriptor has no connection: neither a handle that is out of date nor the default handle names one. -/
def SafeStale (w : Worker cap) (e : Event) : Prop :=
  (has e.events EPOLLIN = true ∨ has e.events EPOLLOUT = true → w.tryGet (w.lookup e.fd) = none) ∧
  (hasHup e.events = true → w.named (w.lookup e.fd) = none)

instance (w : Worker cap) (e : Event) (i : Fin cap) : Decidable (w.SafeLive e i) := inferInstanceAs (Decidable (_ ∧ _))

instance (w : Worker cap) (e : Event) : Decidable (w.SafeStale e) := inferInstanceAs (Decidable (_ ∧ _))

/-- No handle that is looked up names a connection other than that of the descriptor. -/
def Safe (w : Worker cap) (e : Event) : Prop :=
  e.fd = w.listen ∨ (∀ i, w.resolve e.fd = some i → w.SafeLive e i) ∧ (w.resolve e.fd = none → w.SafeStale e)

instance (w : Worker cap) (e : Event) : Decidable (w.Safe e) := inferInstanceAs (Decidable (_ ∨ _ ∧ _))

theorem dispatch_closesOwn {e : Event} (hw : w.Wf) (hsafe : w.Safe e) : w.ClosesOwn e (w.dispatch reserves e) := by
  have hlog : ∀ {w' : Worker cap} {es : List (Effect cap)}, w'.log = w.log ++ es →
      recyclings (w'.log.drop w.log.length) = recyclings es := fun h => by rw [h, List.drop_left]
  have hquiet : ∀ {w' : Worker cap}, (∃ es, w'.log = w.log ++ es ∧ recyclings es = []) → w.ClosesOwn e w' := by
    rintro w' ⟨es, hes, hnone⟩ j hj
    rw [hlog hes, hnone] at hj
    cases hj
  rcases hsafe with hl | ⟨hlive, hstale⟩
  · rw [dispatch, if_pos hl]
    exact hquiet (acceptLoop_spec e.accepts hw).2
  · by_cases hl : e.fd = w.listen
    · rw [dispatch, if_pos hl]
      exact hquiet (acceptLoop_spec e.accepts hw).2
    · cases hr : w.resolve e.fd with
      | none => exact hquiet (dispatch_nothing hl (hstale hr).1 (hstale hr).2)
      | some i =>
        obtain ⟨h, hm, hg⟩ := Option.bind_eq_some_iff.mp hr
        obtain ⟨es, hes, hown⟩ := (dispatch_own hw hl hm hg (hlive i hr).1 (hlive i hr).2).log
        intro j hj
        rw [hlog hes] at hj
        rw [hr, hown j hj]

/-! ## Runs -/

theorem wf_dispatch (hw : w.Wf) (e : Event) : (w.dispatch reserves e).Wf := by
  unfold dispatch
  split
  · exact (acceptLoop_spec e.accepts hw).1
  · dsimp only
    have h1 : (if has e.events EPOLLIN then w.handleRecvEt reserves e.fd e.events e.recvs else w).Wf := by
      split
      · cases hg : w.tryGet (w.lookup e.fd) with
        | none =>
          simp only [handleRecvEt, hg]
          exact hw
        | some i => exact (works_handleRecvEt hw hg _ _).wf hw
      · exact hw
    generalize (if has e.events EPOLLIN then w.handleRecvEt reserves e.fd e.events e.recvs else w) = w₁ at h1 ⊢
    have h2 : (if has e.events EPOLLOUT then w₁.handleSendReadyEt e.fd else w₁).Wf := by
      split
      · cases hg : w₁.tryGet (w₁.lookup e.fd) with
        | none =>
          simp only [handleSendReadyEt, hg]
          exact h1
        | some i => exact (works_handleSendReadyEt h1 hg).wf h1
      · exact h1
    generalize (if has e.events EPOLLOUT then w₁.handleSendReadyEt e.fd else w₁) = w₂ at h2 ⊢
    split
    · split
      · exact wf_hangUp h2 _ _
      · exact h2
    · exact h1

theorem wf_sweepIdle (hw : w.Wf) (late : Fin cap → Bool) : (w.sweepIdle late).Wf := by
  unfold sweepIdle
  generalize List.finRange cap = is
  induction is generalizing w with
  | nil => exact hw
  | cons i is ih =>
    refine ih ?_
    dsimp only
    split
    · split
      · exact hw
      · rename_i j _
        have hclosing : Works j w (w.setClient j { w.client j with closing := true }) := works_setClient rfl
        split
        · exact wf_closeAndRecycle (hclosing.wf hw) _
        · exact wf_closeAndRecycle (hclosing.wf hw) _
    · exact hw

theorem wf_step {a : Action cap} (hw : w.Wf) (hs : w.step reserves a = some w') : w'.Wf := by
  unfold step at hs
  split at hs
  · cases hs
    cases a with
    | event e =>
      have hw' : ({ w with sends := e.sends } : Worker cap).Wf := hw
      exact wf_dispatch hw' e
    | idle late => exact wf_sweepIdle hw late
  · cases hs

def SafeAction (w : Worker cap) : Action cap → Prop
  | .event e => w.Safe e
  | .idle _ => True

/-- An event closes only the connection of its own descriptor. -/
def OwnAction (w : Worker cap) : Action cap → Worker cap → Prop
  | .event e, w' => w.ClosesOwn e w'
  | .idle _, _ => True

instance (w : Worker cap) (a : Action cap) : Decidable (w.SafeAction a) :=
  match a with
  | .event e => inferInstanceAs (Decidable (w.Safe e))
  | .idle _ => inferInstanceAs (Decidable True)

/-- In every run whose events are safe, no event closes the connection of another descriptor. -/
theorem events_close_own {ts : List (Transition (Worker cap) (Action cap))} (hw : w.Wf)
    (hrun : Run (step reserves) w ts w') (hsafe : ∀ t ∈ ts, t.before.SafeAction t.action) :
    ∀ t ∈ ts, t.before.OwnAction t.action t.after := by
  have hwf : ∀ v : Worker cap, Reach Wf (step reserves) SafeAction v → v.Wf :=
    Reach.invariant (fun _ hv => hv) fun _ _ _ hv _ hs => wf_step hv hs
  refine Run.forall_step (fun v a v' hv hok hs => ?_) (Reach.start hw) hrun hsafe
  unfold step at hs
  split at hs
  · cases hs
    cases a with
    | event e =>
      have hv' : ({ v with sends := e.sends } : Worker cap).Wf := hwf v hv
      have hown : ({ v with sends := e.sends } : Worker cap).ClosesOwn e (v.handle reserves e) :=
        dispatch_closesOwn hv' hok
      exact hown
    | idle late => trivial
  · cases hs

/-- A worker of a server with two slots; its listening socket is descriptor 4. -/
def fresh : Worker 2 where
  keepaliveLimit := 65000
  listen := 4

/-- Two connections are accepted; the first is closed by its own hang-up. -/
def hangUpFirst : List (Action 2) :=
  [.event { fd := 4, events := EPOLLIN, accepts := [.accepted 5, .accepted 6] }, .event { fd := 5, events := EPOLLHUP }]

/-- Data and the end of the stream, in one event for the second connection. -/
def hangUpSecond : Action 2 := .event { fd := 6, events := EPOLLIN ||| EPOLLRDHUP }

theorem events_close_own_second : ∃ (w : Worker 2) (ts : List (Transition (Worker 2) (Action 2))),
    Run (step fun n => n < 2 ^ 62) fresh ts w ∧ ts.map (·.action) = hangUpFirst ++ [hangUpSecond] ∧
      recyclings w.log = [0, 1] ∧ ∀ t ∈ ts, t.before.OwnAction t.action t.after := by
  obtain ⟨w, hexec, hlog⟩ := Option.map_eq_some_iff.mp
    (show (execAll (step fun n => n < 2 ^ 62) SafeAction (hangUpFirst ++ [hangUpSecond]) fresh).map
      (fun w => recyclings w.log) = some [0, 1] by decide +kernel)
  obtain ⟨ts, hrun, hmap, hsafe⟩ := Run.exec hexec
  have hwf : fresh.Wf := fun i hi => by cases hi
  exact ⟨w, ts, hrun, hmap, hlog, events_close_own hwf hrun hsafe⟩

/-- With the first connection still there the same event closes it too. -/
theorem event_closes_other : ¬∀ (w w' : Worker 2) (ts : List (Transition (Worker 2) (Action 2))), w.Wf →
    Run (step fun n => n < 2 ^ 62) w ts w' → ∀ t ∈ ts, t.before.OwnAction t.action t.after := by
  intro h
  obtain ⟨w, hexec, hobs⟩ := Option.map_eq_some_iff.mp
    (show (execAll (step fun n => n < 2 ^ 62) (fun _ _ => True) (hangUpFirst.take 1) fresh).map
      (fun w => decide (w.resolve 6 = some 1 ∧ w.status = .running ∧
        (0 : Fin 2) ∈ recyclings
          ((w.handle (fun n => n < 2 ^ 62) { fd := 6, events := EPOLLIN ||| EPOLLRDHUP }).log.drop
          w.log.length))) = some true by decide +kernel)
  obtain ⟨hresolve, hstatus, hzero⟩ := of_decide_eq_true hobs
  have hwf : w.Wf := by
    obtain ⟨ts, hrun, -⟩ := Run.exec hexec
    have hreach : Reach Wf (step fun n => n < 2 ^ 62) (fun _ _ => True) w :=
      Run.reach (.start fun i hi => by cases hi) hrun fun _ _ => trivial
    exact Reach.invariant (fun _ hv => hv) (fun _ _ _ hv _ hs => wf_step hv hs) w hreach
  have hstep : w.step (fun n => n < 2 ^ 62) hangUpSecond = some (w.handle _ _) := if_pos hstatus
  have hown : w.resolve 6 = some 0 := h w _ _ hwf (.cons hstep (.nil _)) _ List.mem_cons_self 0 hzero
  cases hresolve.symm.trans hown

end Worker

end IOContext.Epoll
