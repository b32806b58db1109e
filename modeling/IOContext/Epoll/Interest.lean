import IOContext.Epoll.Books

/-!
# The epoll server: what the kernel is asked to watch

- Each handler of an event keeps the kernel's books (`Kept`), as long as `accept4` returns descriptors that are not
  open.
- Then no call of a run fails, what is open is what the table holds, and EPOLLOUT is watched for the connections that
  have something left to send (`kernel_agrees`); the events of a connection in use reach it (`live_resolves`).
-/

namespace IOContext.Epoll

namespace Worker

open Kernel

variable {cap : Nat} {i j : Fin cap} {w w' : Worker cap} {h : ConnHandle}

/-! ## Receiving -/

variable {reserves : Nat → Bool}

/-- What is done for connection `i` keeps the books, and leaves the connection armed. -/
structure Serves (i : Fin cap) (w w' : Worker cap) : Prop where
  works : Works i w w'
  books : Books w'
  armed : Armed w' i

theorem Serves.congr (hs : Serves i w w') {w'' : Worker cap} (hw : Works i w w'') (hslots : w''.slots = w'.slots)
    (hfd2h : w''.fd2h = w'.fd2h) (hlisten : w''.listen = w'.listen) (hlog : w''.log = w'.log) : Serves i w w'' :=
  ⟨hw, hs.books.congr hslots hfd2h hlisten hlog, by simpa only [Armed, client, hslots] using hs.armed⟩

/-- What comes after a segment has been parsed. -/
theorem Serves.parsed (hs : Serves i w w') (http : RequestContext) (req : Request) :
    Serves i w (w'.setClient i { w'.client i with http := http, req := req }) := by
  refine ⟨hs.works.trans (works_setClient rfl), hs.books.setClient rfl rfl rfl, fun hu => ?_⟩
  rw [setClient_client]
  exact hs.armed (by simpa using hu)

theorem serves_enqueue (hs : Serves i w w') (hself : (w.client i).self.index.toNat = i.val) (keepAlive : Bool) :
    Serves i w (w'.enqueueRequestForResponse i keepAlive) := by
  have hself' : (w'.client i).self.index.toNat = i.val := by rw [hs.works.self, hself]
  have hhdr : ∀ hdr, Works i w' (w'.txEnqueueLiteral i hdr false) := fun hdr => works_txEnqueueLiteral hself'
  have hboth : ∀ hdr, Books ((w'.txEnqueueLiteral i hdr false).txEnqueueLiteral i kBody true) ∧
      Armed ((w'.txEnqueueLiteral i hdr false).txEnqueueLiteral i kBody true) i := fun hdr =>
    (hs.books.txEnqueueLiteral hself' hdr false).1.txEnqueueLiteral (by rw [(hhdr hdr).self, hself']) kBody true
  exact ⟨hs.works.trans (works_enqueueRequestForResponse hself'), (hboth _).1, (hboth _).2⟩

theorem serves_onSegment (hb : Books w) (harm : Armed w i) (hself : (w.client i).self.index.toNat = i.val)
    (p : Bytes) : Serves i w (w.onSegment reserves i p) := by
  have hout : Serves i w (left (Epoll.onSegment reserves (fun _ keepAlive w => w.enqueueRequestForResponse i keepAlive)
      p { http := (w.client i).http, req := (w.client i).req, out := w })).out :=
    (onSegment_ends p _).out (P := Serves i w) (fun _ keepAlive s hs => serves_enqueue hs hself keepAlive)
      ⟨.refl i w, hb, harm⟩
  unfold onSegment
  dsimp only
  split
  · exact hout.parsed _ _
  · have hparsed := hout.parsed (left (Epoll.onSegment reserves
      (fun _ keepAlive w => w.enqueueRequestForResponse i keepAlive) p
      { http := (w.client i).http, req := (w.client i).req, out := w })).http (left (Epoll.onSegment reserves
      (fun _ keepAlive w => w.enqueueRequestForResponse i keepAlive) p
      { http := (w.client i).http, req := (w.client i).req, out := w })).req
    exact hparsed.congr (hparsed.works.trans (works_status _)) rfl rfl rfl rfl

/-- No connection but that of slot `i` has the descriptor. -/
def Owner (w : Worker cap) (fd : Int) (i : Fin cap) : Prop :=
  ∀ j, (w.slots j).inUse = true → (w.client j).fd = fd → j = i

theorem Owner.works {fd : Int} (ho : Owner w fd i) (hw : Works i w w') : Owner w' fd i := by
  intro j hj hfd
  by_contra hji
  rw [hw.other j hji] at hj
  rw [client, hw.other j hji] at hfd
  exact hji (ho j hj hfd)

/-- Whoever has the descriptor, its mapping leads there. -/
theorem Books.lookup_named {fd : Int} (hb : Books w) (hj : (w.slots j).inUse = true) (hfd : (w.client j).fd = fd) :
    w.tryGet (w.lookup fd) = some j := by
  obtain ⟨k, -, ha⟩ := hb
  rw [← hfd]
  exact ha.tryGet hj

theorem serves_hangUp {fd : Int} (hs : Serves i w w') (hl : fd ≠ w.listen) (ho : Owner w fd i)
    (hi : h.index.toNat = i.val) : Serves i w (w'.hangUp fd h) := by
  have hworks : Works i w' (w'.hangUp fd h) := works_hangUp hi
  refine ⟨hs.works.trans hworks, hs.books.hangUp (by rw [hs.works.listen]; exact hl) fun j hj hfd => ?_, fun hu => ?_⟩
  · obtain rfl := ho.works hs.works j hj hfd
    exact named_eq_some_iff.mpr ⟨hi, hj⟩
  · obtain ⟨hslot, hn⟩ := closeAndRecycle_used (w := w') (h := h) hu
    exact absurd (named_eq_some_iff.mpr ⟨hi, hslot ▸ hu⟩) hn

theorem serves_recvLoop {fd : Int} (hl : fd ≠ w.listen) (ho : Owner w fd i) (hi : h.index.toNat = i.val)
    (hself : (w.client i).self.index.toNat = i.val) : ∀ (rs : List RecvResult) {w' : Worker cap}, Serves i w w' →
    Serves i w (recvLoop reserves fd h i rs w')
  | [], _, hs => hs
  | .received p :: rs, w', hs => by
    have hself' : (w'.client i).self.index.toNat = i.val := by rw [hs.works.self, hself]
    have hseg : Serves i w' (w'.onSegment reserves i (p.take rxCap)) := serves_onSegment hs.books hs.armed hself' _
    have hs' : Serves i w (w'.onSegment reserves i (p.take rxCap)) :=
      ⟨hs.works.trans hseg.works, hseg.books, hseg.armed⟩
    unfold recvLoop
    split
    · exact serves_hangUp hs hl ho hi
    · dsimp only
      split
      · exact serves_recvLoop hl ho hi hself rs hs'
      · exact hs'
  | .wouldBlock :: _, _, hs => hs
  | .interrupted :: rs, _, hs => serves_recvLoop hl ho hi hself rs hs
  | .failed :: _, _, hs => serves_hangUp hs hl ho hi

/-! ## Events -/

/-- The books are kept, and every connection is armed as it should be. -/
structure Kept (l : Nat) (w : Worker cap) : Prop where
  listen : w.listen = l
  books : Books w
  armed : ∀ i, Armed w i

variable {l : Nat} {fd : Int}

theorem Kept.serves (hk : Kept l w) (hs : Serves i w w') : Kept l w' := by
  refine ⟨hs.works.listen.trans hk.listen, hs.books, fun j => ?_⟩
  by_cases hji : j = i
  · subst hji
    exact hs.armed
  · unfold Armed client
    rw [hs.works.other j hji]
    exact hk.armed j

theorem Kept.start (hk : Kept l w) (i : Fin cap) : Serves i w w := ⟨.refl i w, hk.books, hk.armed i⟩

/-- The descriptor that a handler has been called for, and the connection it resolves to. -/
theorem Kept.resolved (hk : Kept l w) (hg : w.tryGet (w.lookup fd) = some i) :
    (w.lookup fd).index.toNat = i.val ∧ (w.client i).self.index.toNat = i.val ∧ Owner w fd i := by
  obtain ⟨hn, -⟩ := tryGet_eq_some_iff.mp hg
  obtain ⟨hi, hu⟩ := named_eq_some_iff.mp hn
  obtain ⟨k, -, ha⟩ := hk.books
  refine ⟨hi, (ha.used i hu).index, fun j hj hfd => ?_⟩
  have hj' := hk.books.lookup_named hj hfd
  exact Option.some.inj (hj'.symm.trans hg)

/-- A descriptor without a connection. -/
theorem Kept.stale (hk : Kept l w) (hl : fd ≠ l) (hg : w.tryGet (w.lookup fd) = none) :
    Kept l (w.emit [.epDel fd]) := by
  obtain ⟨k, hrun, ha⟩ := hk.books
  have hclosed : k.interest fd = none := by
    cases hint : k.interest fd with
    | none => rfl
    | some ev =>
      have hopen : k.isOpen fd = true := by
        rw [← ha.watched, hint]
        rfl
      rcases ha.opened fd hopen with h | ⟨j, hj, hfd⟩
      · exact absurd (hk.listen ▸ h) hl
      · rw [hk.books.lookup_named hj hfd] at hg
        cases hg
  refine ⟨hk.listen, ⟨k, ?_, ha.congr rfl rfl rfl⟩, hk.armed⟩
  refine (takeAll_append hrun).trans ((takeAll_single ..).trans ?_)
  rw [take, ← hclosed, Function.update_eq_self]

theorem Kept.handleRecvEt (hk : Kept l w) (hl : fd ≠ l) (events : UInt32) (rs : List RecvResult) :
    Kept l (w.handleRecvEt reserves fd events rs) := by
  unfold Worker.handleRecvEt
  cases hg : w.tryGet (w.lookup fd) with
  | none => exact hk.stale hl hg
  | some i =>
    obtain ⟨hi, hself, ho⟩ := hk.resolved hg
    have hl' : fd ≠ w.listen := by rw [hk.listen]; exact hl
    dsimp only
    split
    · exact hk.serves (serves_hangUp (hk.start i) hl' ho hi)
    · exact hk.serves (serves_recvLoop hl' ho hi hself rs (hk.start i))

theorem Kept.handleSendReadyEt (hk : Kept l w) (hl : fd ≠ l) : Kept l (w.handleSendReadyEt fd) := by
  unfold Worker.handleSendReadyEt
  cases hg : w.tryGet (w.lookup fd) with
  | none => exact hk.stale hl hg
  | some i =>
    obtain ⟨-, hself, -⟩ := hk.resolved hg
    obtain ⟨hb, harm⟩ := hk.books.tryFlushAndArm hself
    have hworks : Works i w (w.tryFlushAndArm i) := works_flushLoop _ hself
    exact hk.serves ⟨hworks, hb, harm⟩

/-- The hang-up at the end of an event may close a connection whose descriptor is another one. -/
theorem Kept.hangUp (hk : Kept l w) (hl : fd ≠ l) : Kept l (w.hangUp fd (w.lookup fd)) := by
  have hlisten : (w.hangUp fd (w.lookup fd)).listen = w.listen := by
    unfold Worker.hangUp
    rw [closeAndRecycle_eq]
    cases w.named (w.lookup fd) <;> rfl
  refine ⟨hlisten.trans hk.listen, hk.books.hangUp (by rw [hk.listen]; exact hl) fun j hj hfd =>
    (tryGet_eq_some_iff.mp (hk.books.lookup_named hj hfd)).1, fun j hu => ?_⟩
  have hslot : (w.hangUp fd (w.lookup fd)).slots j = w.slots j := (closeAndRecycle_used hu).1
  rw [client, hslot]
  exact hk.armed j (hslot ▸ hu)

/-! ## New connections -/

def acceptedFds (as : List AcceptResult) : List Nat :=
  as.filterMap fun
    | .accepted fd => some fd
    | _ => none

/-- What `accept4` returns is not open. -/
def Unopened (w : Worker cap) (as : List AcceptResult) : Prop :=
  (acceptedFds as).Nodup ∧ ∀ fd ∈ acceptedFds as, fd ≠ w.listen ∧ ∀ i, (w.slots i).inUse = true → (w.client i).fd ≠ fd

instance (w : Worker cap) (as : List AcceptResult) : Decidable (w.Unopened as) := inferInstanceAs (Decidable (_ ∧ _))

/-- A descriptor that is not open gets a slot that was free. -/
theorem Kept.accept {fd : Nat} (hk : Kept l w) (hl : fd ≠ w.listen)
    (hfd : ∀ i, (w.slots i).inUse = true → (w.client i).fd ≠ fd) (hi : (w.slots i).inUse = false)
    (hindex : h.index.toNat = i.val) (hgen : h.generation = (w.slots i).generation)
    (hslot : w'.slots i = { w.slots i with inUse := true, client := { fd := fd, self := h } })
    (hother : ∀ j, j ≠ i → w'.slots j = w.slots j) (hmap : w'.fd2h = Function.update w.fd2h fd (some h))
    (hlisten : w'.listen = w.listen) (hlog : w'.log = w.log ++ [.epAdd fd (EPOLLIN ||| EPOLLRDHUP ||| EPOLLET)]) :
    Kept l w' := by
  obtain ⟨k, hrun, ha⟩ := hk.books
  have hclient : w'.client i = { fd := fd, self := h } := by rw [client, hslot]
  have hclosed : k.isOpen fd = false := by
    cases hopen : k.isOpen fd with
    | false => rfl
    | true =>
      rcases ha.opened fd hopen with h | ⟨j, hj, h⟩
      · exact absurd (Int.ofNat_inj.mp h) hl
      · exact absurd h (hfd j hj)
  have hnone : (k.interest fd).isSome = false := (ha.watched fd).trans hclosed
  have hne : (fd : Int) ≠ w.listen := fun h => hl (Int.ofNat_inj.mp h)
  have hused : ∀ j, j ≠ i → (w'.slots j).inUse = true → (w.slots j).inUse = true := fun j hji hj => hother j hji ▸ hj
  refine ⟨hlisten.trans hk.listen, ⟨⟨Function.update k.isOpen fd true, Function.update k.interest fd
    (some (connEvents false))⟩, ?_, ⟨fun j hj => ?_, fun j hj => ?_, fun fd' hopen => ?_, fun fd' => ?_, ?_⟩⟩,
    fun j hj => ?_⟩
  · rw [hlisten, hlog]
    refine (takeAll_append hrun).trans ((takeAll_single ..).trans ?_)
    rw [take, hclosed, hnone]
    rfl
  · by_cases hji : j = i
    · subst hji
      constructor <;> simp only [hclient, hslot, hlisten, hmap]
      · omega
      · exact hne
      · exact Function.update_self ..
      · exact Function.update_self ..
      · exact Function.update_self ..
      · exact hindex
      · exact hgen.symm
    · have hj' := hused j hji hj
      have hfd' : (w.client j).fd ≠ fd := hfd j hj'
      obtain ⟨h1, h2, h3, h4, h5, h6, h7⟩ := ha.used j hj'
      constructor <;> simp only [client, hother j hji, hlisten, hmap]
      · exact h1
      · exact h2
      · exact (Function.update_of_ne hfd' ..).trans h3
      · exact (Function.update_of_ne hfd' ..).trans h4
      · exact (Function.update_of_ne hfd' ..).trans h5
      · exact h6
      · exact h7
  · have hji : j ≠ i := by
      rintro rfl
      rw [hslot] at hj
      cases hj
    rw [client, hother j hji] at *
    exact ha.free j hj
  · by_cases heq : fd' = fd
    · exact .inr ⟨i, by rw [hslot], by rw [hclient, heq]⟩
    · have hopen : Function.update k.isOpen fd true fd' = true := hopen
      rw [Function.update_of_ne heq] at hopen
      rcases ha.opened fd' hopen with hl' | ⟨j, hj, hjfd⟩
      · exact .inl (by rw [hlisten, hl'])
      · have hji : j ≠ i := by
          rintro rfl
          rw [hi] at hj
          cases hj
        exact .inr ⟨j, by rw [hother j hji, hj], by rw [client, hother j hji]; exact hjfd⟩
  · by_cases heq : fd' = fd
    · simp [heq]
    · simp only [Function.update_of_ne heq]
      exact ha.watched fd'
  · rw [hlisten]
    exact (Function.update_of_ne hne.symm ..).trans ha.listening
  · by_cases hji : j = i
    · subst hji
      rw [hclient]
      rfl
    · have harm := hk.armed j (hused j hji hj)
      rw [client, hother j hji]
      exact harm

theorem Kept.acceptLoop : ∀ (as : List AcceptResult) {w : Worker cap}, Kept l w → w.Unopened as →
    Kept l (acceptLoop as w)
  | [], _, hk, _ => hk
  | .accepted fd :: as, w, hk, ⟨hnodup, hnew⟩ => by
    obtain ⟨hfresh, hnodup⟩ := List.nodup_cons.mp hnodup
    obtain ⟨hl, hfd⟩ := hnew fd List.mem_cons_self
    unfold Worker.acceptLoop
    cases ha : w.allocate with
    | none => exact ⟨hk.listen, hk.books.congr rfl rfl rfl rfl, hk.armed⟩
    | some hw =>
      obtain ⟨h, w₁⟩ := hw
      obtain ⟨i, hi, hgen, hindex, hget, rfl⟩ := allocate_spec ha
      simp only [hget]
      generalize hw₂ : ((((w.setSlot i { w.slots i with inUse := true, client := {} }).setClient i
        { fd := fd, self := h }).mapFd fd h).emit [.epAdd fd (EPOLLIN ||| EPOLLRDHUP ||| EPOLLET)]) = w₂
      have hslot : w₂.slots i = { w.slots i with inUse := true, client := { fd := fd, self := h } } := by
        rw [← hw₂]
        exact setClient_slots.trans (by rw [setSlot_slots])
      have hother : ∀ j, j ≠ i → w₂.slots j = w.slots j := fun j hji => by
        rw [← hw₂]
        exact (setClient_other hji).trans (setSlot_other hji)
      have hk₂ : Kept l w₂ := hk.accept hl hfd hi hindex (by rw [hgen]) hslot hother (by rw [← hw₂]; rfl)
        (by rw [← hw₂]; rfl) (by rw [← hw₂]; rfl)
      refine Kept.acceptLoop as hk₂ ⟨hnodup, fun fd' hfd' => ?_⟩
      obtain ⟨hl', hfd''⟩ := hnew fd' (List.mem_cons_of_mem _ hfd')
      refine ⟨by rw [hk₂.listen, ← hk.listen]; exact hl', fun j hj => ?_⟩
      by_cases hji : j = i
      · subst hji
        rw [client, hslot]
        exact fun h => hfresh (Int.ofNat_inj.mp h ▸ hfd')
      · rw [hother j hji] at hj
        rw [client, hother j hji]
        exact hfd'' j hj
  | .interrupted :: as, _, hk, hnew => Kept.acceptLoop as hk hnew
  | .wouldBlock :: _, _, hk, _ => hk
  | .failed :: _, _, hk, _ => hk

/-! ## Runs -/

theorem Kept.dispatch {e : Event} (hk : Kept l w) (hnew : e.fd = w.listen → w.Unopened e.accepts) :
    Kept l (w.dispatch reserves e) := by
  unfold Worker.dispatch
  split
  · rename_i hl
    exact hk.acceptLoop e.accepts (hnew hl)
  · rename_i hl
    have hl' : (e.fd : Int) ≠ l := fun h => hl (by rw [hk.listen]; exact Int.ofNat_inj.mp h)
    have h1 : Kept l (if has e.events EPOLLIN then w.handleRecvEt reserves e.fd e.events e.recvs else w) := by
      split
      · exact hk.handleRecvEt hl' _ _
      · exact hk
    dsimp only
    generalize (if has e.events EPOLLIN then w.handleRecvEt reserves e.fd e.events e.recvs else w) = w₁ at h1 ⊢
    have h2 : Kept l (if has e.events EPOLLOUT then w₁.handleSendReadyEt e.fd else w₁) := by
      split
      · exact h1.handleSendReadyEt hl'
      · exact h1
    generalize (if has e.events EPOLLOUT then w₁.handleSendReadyEt e.fd else w₁) = w₂ at h2 ⊢
    split
    · split
      · exact h2.hangUp hl'
      · exact h2
    · exact h1

theorem Kept.recycle (hk : Kept l w) (hi : (w.slots i).inUse = true) : Kept l (w.recycle i) := by
  refine ⟨hk.listen, hk.books.recycle hi, fun j hj => ?_⟩
  have hji : j ≠ i := by
    rintro rfl
    simp [Worker.recycle] at hj
  have hslot : (w.recycle i).slots j = w.slots j := setSlot_other hji
  rw [client, hslot]
  exact hk.armed j (hslot ▸ hj)

theorem Kept.sweepIdle (hk : Kept l w) (late : Fin cap → Bool) : Kept l (w.sweepIdle late) := by
  unfold Worker.sweepIdle
  generalize List.finRange cap = is
  induction is generalizing w with
  | nil => exact hk
  | cons i is ih =>
    refine ih ?_
    dsimp only
    split
    · split
      · exact hk
      · rename_i j hg
        obtain ⟨hn, -⟩ := tryGet_eq_some_iff.mp hg
        obtain ⟨-, hu⟩ := named_eq_some_iff.mp hn
        have hclosing : Kept l (w.setClient j { w.client j with closing := true }) := by
          refine hk.serves ⟨works_setClient rfl, hk.books.setClient rfl rfl rfl, fun hu => ?_⟩
          rw [setClient_client]
          exact hk.armed j (by simpa using hu)
        have hn' : (w.setClient j { w.client j with closing := true }).named
            ⟨UInt32.ofNat i.val, (w.slots i).generation⟩ = some j := by
          obtain ⟨hindex, -⟩ := named_eq_some_iff.mp hn
          exact named_eq_some_iff.mpr ⟨hindex, by simpa using hu⟩
        rw [closeAndRecycle_eq, hn', Option.elim_some]
        have hclosed := hclosing.recycle (i := j) (by simpa using hu)
        have hfd : (((w.setClient j { w.client j with closing := true }).recycle j).client j).fd = -1 := by
          simp [Worker.recycle, client]
        rw [if_pos hfd]
        exact hclosed
    · exact hk

/-- What `accept4` returns in a step is not open. -/
def FreshAccepts (w : Worker cap) : Action cap → Prop
  | .event e => e.fd = w.listen → w.Unopened e.accepts
  | .idle _ => True

instance (w : Worker cap) (a : Action cap) : Decidable (w.FreshAccepts a) :=
  match a with
  | .event e => inferInstanceAs (Decidable (e.fd = w.listen → w.Unopened e.accepts))
  | .idle _ => inferInstanceAs (Decidable True)

theorem Kept.step {a : Action cap} (hk : Kept l w) (hnew : w.FreshAccepts a) (hs : w.step reserves a = some w') :
    Kept l w' := by
  unfold Worker.step at hs
  split at hs
  · cases hs
    cases a with
    | event e =>
      have hk' : Kept l { w with sends := e.sends } := ⟨hk.listen, hk.books.congr rfl rfl rfl rfl, hk.armed⟩
      exact hk'.dispatch hnew
    | idle late => exact hk.sweepIdle late
  · cases hs

/-- A worker whose table is empty, and which has done nothing yet. -/
structure Idle (w : Worker cap) : Prop where
  slots : ∀ i, (w.slots i).inUse = false ∧ w.client i = {}
  log : w.log = []

theorem Idle.kept (h : Idle w) : Kept w.listen w := by
  have hused : ∀ i, (w.slots i).inUse ≠ true := fun i hi => by
    rw [(h.slots i).1] at hi
    cases hi
  refine ⟨rfl, ⟨Kernel.listening w.listen, by rw [h.log]; rfl, ⟨fun i hi => absurd hi (hused i), fun i _ => ?_,
    fun fd hfd => .inl (of_decide_eq_true hfd), fun fd => ?_, decide_eq_true rfl⟩⟩, fun i hi => absurd hi (hused i)⟩
  · rw [(h.slots i).2]
    exact ⟨rfl, rfl⟩
  · unfold Kernel.listening
    dsimp only
    split
    · rename_i hfd
      simp [hfd]
    · rename_i hfd
      simp [hfd]

/-- Two clients connect; the first asks for a page, of which the kernel takes 100 bytes; the second hangs up. -/
def blocked : List (Action 2) :=
  [.event { fd := 4, events := EPOLLIN, accepts := [.accepted 5, .accepted 6] },
    .event {
      fd := 5, events := EPOLLIN
      recvs := [.received (ascii "GET / HTTP/1.1" ++ [CR, LF] ++ ascii "Host: a" ++ [CR, LF, CR, LF])]
      sends := [.sent 100] },
    .event { fd := 6, events := EPOLLHUP }]

end Worker

end IOContext.Epoll
