import IOContext.Epoll.Handles

/-!
# The epoll server: the kernel's books

`ep_add` and `ep_mod` end the process when the kernel refuses them, a descriptor that is closed twice may by then
belong to somebody else, and an edge-triggered EPOLLOUT comes only for a descriptor that asked for it. So the calls of a
run are played against the kernel's own books (`Kernel.take`), where each of these is a failure.

- The books agree with the table (`Agrees`): a connection in use is open, watched and mapped to its handle.
- Closing a connection keeps them so, whoever closes it (`Books.recycle`, `Books.hangUp`, `Books.closeClient`).
- Sending does too, and leaves EPOLLOUT watched exactly while something is queued (`Books.tryFlushAndArm`).
-/

namespace IOContext.Epoll

variable {cap : Nat}

/-! ## The books of the kernel -/

/-- The descriptors that are open, and the events that are watched. -/
structure Kernel where
  isOpen : Int → Bool
  interest : Int → Option UInt32

/-- The events a connection is watched for. -/
def connEvents (wantOut : Bool) : UInt32 := EPOLLIN ||| EPOLLRDHUP ||| EPOLLET ||| if wantOut then EPOLLOUT else 0

namespace Kernel

/-- Before the loop of `run`: the listening socket has been added. -/
def listening (fd : Nat) : Kernel where
  isOpen x := x = fd
  interest x := if x = fd then some (EPOLLIN ||| EPOLLET) else none

/-- A call, if it does not fail. A descriptor is added as soon as `accept4` has opened it. -/
def take (k : Kernel) : Effect cap → Option Kernel
  | .epAdd fd ev =>
    if k.isOpen fd || (k.interest fd).isSome then none
    else some ⟨Function.update k.isOpen fd true, Function.update k.interest fd (some ev)⟩
  | .epMod fd ev =>
    if (k.interest fd).isSome then some { k with interest := Function.update k.interest fd (some ev) } else none
  | .epDel fd => some { k with interest := Function.update k.interest fd none }
  | .closed fd =>
    if k.isOpen fd then some ⟨Function.update k.isOpen fd false, Function.update k.interest fd none⟩ else none
  | .recycled _ | .sent _ _ | .completed _ _ => some k

def takeAll (k : Kernel) (es : List (Effect cap)) : Option Kernel := es.foldlM take k

variable {k k' : Kernel} {es es' : List (Effect cap)}

theorem takeAll_append (h : k.takeAll es = some k') : k.takeAll (es ++ es') = k'.takeAll es' := by
  unfold takeAll at h ⊢
  rw [List.foldlM_append, h]
  rfl

theorem takeAll_single (k : Kernel) (e : Effect cap) : k.takeAll [e] = k.take e := by
  unfold takeAll
  rw [List.foldlM_cons]
  cases k.take e <;> rfl

/-- Calls that are not about descriptors. -/
def Neutral (es : List (Effect cap)) : Prop := ∀ e ∈ es, ∀ k : Kernel, k.take e = some k

theorem takeAll_neutral (h : Neutral es) (k : Kernel) : k.takeAll es = some k := by
  induction es with
  | nil => rfl
  | cons e es ih =>
    unfold takeAll at ih ⊢
    rw [List.foldlM_cons, h e List.mem_cons_self k]
    exact ih fun e he => h e (List.mem_cons_of_mem _ he)

end Kernel

namespace Worker

open Kernel

variable {i j : Fin cap} {w w' : Worker cap} {k k' : Kernel} {h : ConnHandle}

/-! ## Books and table -/

/-- A connection in use: its descriptor is open, watched and mapped to its handle. -/
structure Watched (k : Kernel) (w : Worker cap) (i : Fin cap) : Prop where
  real : (w.client i).fd ≠ -1
  notListen : (w.client i).fd ≠ w.listen
  isOpen : k.isOpen (w.client i).fd = true
  interest : k.interest (w.client i).fd = some (connEvents (w.client i).wantOut)
  mapped : w.fd2h (w.client i).fd = some (w.client i).self
  index : (w.client i).self.index.toNat = i.val
  generation : (w.slots i).generation = (w.client i).self.generation

structure Agrees (k : Kernel) (w : Worker cap) : Prop where
  used : ∀ i, (w.slots i).inUse = true → Watched k w i
  free : ∀ i, (w.slots i).inUse = false → (w.client i).fd = -1 ∧ (w.client i).wantOut = false
  opened : ∀ fd, k.isOpen fd = true → fd = w.listen ∨ ∃ i, (w.slots i).inUse = true ∧ (w.client i).fd = fd
  watched : ∀ fd, (k.interest fd).isSome = k.isOpen fd
  listening : k.isOpen w.listen = true

/-- No call of the run so far has failed, and the books agree with the table. -/
def Books (w : Worker cap) : Prop :=
  ∃ k, (Kernel.listening w.listen).takeAll w.log = some k ∧ Agrees k w

/-- A connection asks for EPOLLOUT exactly while something is queued. -/
def Armed (w : Worker cap) (i : Fin cap) : Prop :=
  (w.slots i).inUse = true → (w.client i).wantOut = !(w.client i).txq.isEmpty

/-- Two connections have two descriptors. -/
theorem Agrees.fd_inj (ha : Agrees k w) (hi : (w.slots i).inUse = true) (hj : (w.slots j).inUse = true)
    (hfd : (w.client i).fd = (w.client j).fd) : i = j := by
  have hself : some (w.client i).self = some (w.client j).self := by
    rw [← (ha.used i hi).mapped, ← (ha.used j hj).mapped, hfd]
  have hindex := (ha.used i hi).index
  rw [Option.some.inj hself, (ha.used j hj).index] at hindex
  exact Fin.ext hindex.symm

/-- The descriptor of a connection in use resolves to it. -/
theorem Agrees.tryGet (ha : Agrees k w) (hi : (w.slots i).inUse = true) :
    w.tryGet (w.lookup (w.client i).fd) = some i := by
  have hw := ha.used i hi
  rw [lookup, hw.mapped, Option.getD_some]
  exact tryGet_eq_some_iff.mpr ⟨named_eq_some_iff.mpr ⟨hw.index, hi⟩, hw.generation⟩

/-- A change that concerns neither table nor map. -/
theorem Agrees.congr (ha : Agrees k w) (hslots : w'.slots = w.slots) (hfd2h : w'.fd2h = w.fd2h)
    (hlisten : w'.listen = w.listen) : Agrees k w' := by
  refine ⟨fun i hi => ?_, fun i hi => ?_, fun fd hfd => ?_, ha.watched, by rw [hlisten]; exact ha.listening⟩
  · rw [hslots] at hi
    obtain ⟨h1, h2, h3, h4, h5, h6, h7⟩ := ha.used i hi
    constructor <;> simp only [client, hslots, hfd2h, hlisten] <;> assumption
  · rw [hslots] at hi
    simpa only [client, hslots] using ha.free i hi
  · simpa only [client, hslots, hlisten] using ha.opened fd hfd

theorem Books.congr (hb : Books w) (hslots : w'.slots = w.slots) (hfd2h : w'.fd2h = w.fd2h)
    (hlisten : w'.listen = w.listen) (hlog : w'.log = w.log) : Books w' := by
  obtain ⟨k, hk, ha⟩ := hb
  exact ⟨k, by rw [hlisten, hlog, hk], ha.congr hslots hfd2h hlisten⟩

/-- What is not about descriptors. -/
theorem Books.neutral {es : List (Effect cap)} (hb : Books w) (hes : Neutral es) : Books (w.emit es) := by
  obtain ⟨k, hk, ha⟩ := hb
  exact ⟨k, (takeAll_append hk).trans (takeAll_neutral hes k), ha.congr rfl rfl rfl⟩

/-- A connection whose descriptor and handle stay; if it is in use, it is watched for what it wants. -/
theorem Agrees.setClient {c : PerClientStorage} (ha : Agrees k w) (hfd : c.fd = (w.client i).fd)
    (hself : c.self = (w.client i).self) (hopen : k'.isOpen = k.isOpen)
    (hother : ∀ fd, fd ≠ (w.client i).fd → k'.interest fd = k.interest fd)
    (hused : (w.slots i).inUse = true → k'.interest (w.client i).fd = some (connEvents c.wantOut))
    (hfree : (w.slots i).inUse = false → k' = k ∧ c.wantOut = false) : Agrees k' (w.setClient i c) := by
  have hslot : ∀ j, ((w.setClient i c).client j).fd = (w.client j).fd ∧
      ((w.setClient i c).client j).self = (w.client j).self ∧
      ((w.setClient i c).slots j).inUse = (w.slots j).inUse ∧
      ((w.setClient i c).slots j).generation = (w.slots j).generation ∧
      (j ≠ i → ((w.setClient i c).client j).wantOut = (w.client j).wantOut) := by
    intro j
    by_cases hji : j = i
    · subst hji
      simp [hfd, hself]
    · simp [client, setClient_other hji]
  refine ⟨fun j hj => ?_, fun j hj => ?_, fun fd hfd' => ?_, fun fd => ?_, by rw [hopen]; exact ha.listening⟩
  · obtain ⟨h1, h2, h3, h4, h5⟩ := hslot j
    rw [h3] at hj
    have hw := ha.used j hj
    refine ⟨h1 ▸ hw.real, h1 ▸ hw.notListen, by rw [h1, hopen]; exact hw.isOpen, ?_, ?_, h2 ▸ hw.index, ?_⟩
    · by_cases hji : j = i
      · subst hji
        rw [h1, setClient_client]
        exact hused hj
      · rw [h1, h5 hji]
        cases hu : (w.slots i).inUse with
        | true => exact (hother _ fun hfd => hji (ha.fd_inj hj hu hfd)).trans hw.interest
        | false =>
          rw [(hfree hu).1]
          exact hw.interest
    · rw [h1, h2]
      exact hw.mapped
    · rw [h4, h2]
      exact hw.generation
  · obtain ⟨h1, -, h3, -, h5⟩ := hslot j
    rw [h3] at hj
    rw [h1]
    refine ⟨(ha.free j hj).1, ?_⟩
    by_cases hji : j = i
    · subst hji
      rw [setClient_client]
      exact (hfree hj).2
    · rw [h5 hji]
      exact (ha.free j hj).2
  · rw [hopen] at hfd'
    rcases ha.opened fd hfd' with hl | ⟨j, hj, hjfd⟩
    · exact .inl hl
    · obtain ⟨h1, -, h3, -⟩ := hslot j
      exact .inr ⟨j, by rw [h3]; exact hj, by rw [h1]; exact hjfd⟩
  · rw [hopen, ← ha.watched]
    cases hu : (w.slots i).inUse with
    | false => rw [(hfree hu).1]
    | true =>
      by_cases h : fd = (w.client i).fd
      · rw [h, hused hu, (ha.used i hu).interest]
        rfl
      · rw [hother fd h]

theorem Books.setClient (hb : Books w) {c : PerClientStorage} (hfd : c.fd = (w.client i).fd)
    (hself : c.self = (w.client i).self) (hout : c.wantOut = (w.client i).wantOut) : Books (w.setClient i c) := by
  obtain ⟨k, hk, ha⟩ := hb
  refine ⟨k, hk, ha.setClient hfd hself rfl (fun _ _ => rfl) (fun hu => ?_) fun hu => ⟨rfl, ?_⟩⟩
  · rw [hout]
    exact (ha.used i hu).interest
  · rw [hout]
    exact (ha.free i hu).2

/-! ## Closing -/

/-- A connection is closed: its descriptor is open until then, and not watched any more afterwards. -/
theorem Books.recycle (hb : Books w) (hi : (w.slots i).inUse = true) : Books (w.recycle i) := by
  obtain ⟨k, hk, ha⟩ := hb
  have hw := ha.used i hi
  have heffects : w.recycleEffects i = [.closed (w.client i).fd, .recycled i] := by
    rw [recycleEffects, if_neg hw.real]
    rfl
  have hother : ∀ j, j ≠ i → (w.recycle i).slots j = w.slots j := fun j hj => setSlot_other hj
  have hself : ((w.recycle i).slots i).inUse = false ∧ ((w.recycle i).client i).fd = -1 ∧
      ((w.recycle i).client i).wantOut = false := by
    simp [Worker.recycle, client]
  have hne : ∀ j, ((w.recycle i).slots j).inUse = true → j ≠ i := by
    rintro j hj rfl
    rw [hself.1] at hj
    cases hj
  refine ⟨⟨Function.update k.isOpen (w.client i).fd false, Function.update k.interest (w.client i).fd none⟩, ?_,
    ⟨fun j hj => ?_, fun j hj => ?_, fun fd hfd => ?_, fun fd => ?_, ?_⟩⟩
  · rw [show (w.recycle i).log = w.log ++ w.recycleEffects i from rfl, heffects]
    refine (takeAll_append hk).trans ?_
    simp [takeAll, take, hw.isOpen]
  · have hslot := hother j (hne j hj)
    have hj' : (w.slots j).inUse = true := hslot ▸ hj
    have hfd : (w.client j).fd ≠ (w.client i).fd := fun hfd => hne j hj (ha.fd_inj hj' hi hfd)
    obtain ⟨h1, h2, h3, h4, h5, h6, h7⟩ := ha.used j hj'
    constructor <;> simp only [client, hslot] <;> try assumption
    · exact (Function.update_of_ne hfd ..).trans h3
    · exact (Function.update_of_ne hfd ..).trans h4
  · by_cases hji : j = i
    · subst hji
      exact hself.2
    · rw [client, hother j hji] at *
      exact ha.free j hj
  · have hopen : Function.update k.isOpen (w.client i).fd false fd = true := hfd
    by_cases hfd' : fd = (w.client i).fd
    · rw [hfd', Function.update_self] at hopen
      cases hopen
    · rw [Function.update_of_ne hfd'] at hopen
      rcases ha.opened fd hopen with hl | ⟨j, hj, hjfd⟩
      · exact .inl hl
      · have hji : j ≠ i := fun hji => hfd' (by rw [← hjfd, hji])
        exact .inr ⟨j, by rw [hother j hji]; exact hj, by rw [client, hother j hji]; exact hjfd⟩
  · by_cases hfd' : fd = (w.client i).fd
    · simp [hfd']
    · simp only [Function.update_of_ne hfd']
      exact ha.watched fd
  · exact (Function.update_of_ne hw.notListen.symm ..).trans ha.listening

/-- A descriptor that no connection has is forgotten: nothing was watched for it. -/
theorem Books.forget {fd : Int} (hb : Books w) (hl : fd ≠ w.listen)
    (hfd : ∀ j, (w.slots j).inUse = true → (w.client j).fd ≠ fd) : Books ((w.unmapFd fd).emit [.epDel fd]) := by
  obtain ⟨k, hk, ha⟩ := hb
  have hclosed : k.isOpen fd = false := by
    cases hopen : k.isOpen fd with
    | false => rfl
    | true =>
      rcases ha.opened fd hopen with h | ⟨j, hj, h⟩
      · exact absurd h hl
      · exact absurd h (hfd j hj)
  refine ⟨{ k with interest := Function.update k.interest fd none }, ?_,
    ⟨fun j hj => ?_, ha.free, ha.opened, fun fd' => ?_, ha.listening⟩⟩
  · exact (takeAll_append hk).trans (takeAll_single ..)
  · have hne := hfd j hj
    obtain ⟨h1, h2, h3, h4, h5, h6, h7⟩ := ha.used j hj
    exact ⟨h1, h2, h3, (Function.update_of_ne hne ..).trans h4, (Function.update_of_ne hne ..).trans h5, h6, h7⟩
  · by_cases h : fd' = fd
    · simp [h, hclosed]
    · simp only [Function.update_of_ne h]
      exact ha.watched fd'

theorem Books.closeAndRecycle (hb : Books w) (h : ConnHandle) : Books (w.closeAndRecycle h) := by
  rw [closeAndRecycle_eq]
  cases hn : w.named h with
  | none => exact hb
  | some i => exact hb.recycle (named_eq_some_iff.mp hn).2

/-- Only connections that were in use before a close are in use after it, and not the one that the handle names. -/
theorem closeAndRecycle_used (hj : ((w.closeAndRecycle h).slots j).inUse = true) :
    (w.closeAndRecycle h).slots j = w.slots j ∧ w.named h ≠ some j := by
  rw [closeAndRecycle_eq] at hj ⊢
  cases hn : w.named h with
  | none => exact ⟨rfl, fun h => by cases h⟩
  | some i =>
    rw [hn, Option.elim_some] at hj
    have hji : j ≠ i := by
      rintro rfl
      simp [Worker.recycle] at hj
    exact ⟨setSlot_other hji, fun h => hji (Option.some.inj h).symm⟩

/-- A hang-up closes the connection that has the descriptor, if any. -/
theorem Books.hangUp {fd : Int} (hb : Books w) (hl : fd ≠ w.listen)
    (hown : ∀ j, (w.slots j).inUse = true → (w.client j).fd = fd → w.named h = some j) : Books (w.hangUp fd h) := by
  have hlisten : (w.closeAndRecycle h).listen = w.listen := by
    rw [closeAndRecycle_eq]
    cases w.named h <;> rfl
  refine (hb.closeAndRecycle h).forget (by rw [hlisten]; exact hl) fun j hj hfd => ?_
  obtain ⟨hslot, hn⟩ := closeAndRecycle_used hj
  rw [client, hslot] at hfd
  exact hn (hown j (hslot ▸ hj) hfd)

theorem Books.closeClient (hb : Books w) (hself : (w.client i).self.index.toNat = i.val) :
    Books (w.closeClient i) := by
  have hclose := hb.closeAndRecycle (w.client i).self
  obtain ⟨k, -, ha⟩ := hclose
  have hfree : ((w.closeAndRecycle (w.client i).self).slots i).inUse = false := by
    cases hu : ((w.closeAndRecycle (w.client i).self).slots i).inUse with
    | false => rfl
    | true =>
      obtain ⟨hslot, hn⟩ := closeAndRecycle_used hu
      exact absurd (named_eq_some_iff.mpr ⟨hself, hslot ▸ hu⟩) hn
  have hfd := (ha.free i hfree).1
  unfold Worker.closeClient
  refine (hb.closeAndRecycle (w.client i).self).forget ?_ fun j hj => ?_
  · rw [hfd]
    omega
  · rw [hfd]
    exact (ha.used j hj).real

/-! ## Sending -/

/-- Nothing to send is what an empty queue answers. -/
theorem flushSendOnce_noData (hr : (w.flushSendOnce i).1 = .noData) :
    (w.client i).txq = [] ∧ (w.flushSendOnce i).2 = w := by
  unfold flushSendOnce at hr ⊢
  dsimp only at hr ⊢
  split at hr
  · rename_i hq
    rw [if_pos hq]
    exact ⟨hq, rfl⟩
  · rename_i hq
    split at hr
    · rename_i hiov
      obtain ⟨b, q, hbq⟩ := List.exists_cons_of_ne_nil hq
      rw [hbq] at hiov
      exact absurd hiov (List.cons_ne_nil _ _)
    · split at hr
      · cases hr
      · cases hr
      · split at hr
        · cases hr
        · dsimp only at hr
          split at hr <;> cases hr

/-- What is sent is not about descriptors. -/
theorem neutral_sent (p : Bytes) (bs : List OwnedBuf) : Neutral (.sent i p :: bs.map (.completed i)) := by
  intro e he k
  rcases List.mem_cons.mp he with rfl | he
  · rfl
  · obtain ⟨b, -, rfl⟩ := List.mem_map.mp he
    rfl

theorem Books.flushSendOnce (hb : Books w) (i : Fin cap) : Books (w.flushSendOnce i).2 := by
  rcases w.flushSendOnce_cases i with ⟨r, sends, hr, -⟩ | ⟨sends, p, n, d, -, -, hr⟩
  · rw [hr]
    exact hb.congr rfl rfl rfl rfl
  · rw [hr]
    have hsends : Books { w with sends := sends } := hb.congr rfl rfl rfl rfl
    refine Books.neutral ?_ (neutral_sent p d.completed)
    exact hsends.setClient rfl rfl rfl

/-- EPOLLOUT is changed only where it is wanted or no longer wanted, by a connection in use. -/
theorem Books.arm (hb : Books w) (hu : (w.slots i).inUse = true ∨ (w.client i).txq = []) :
    Books (w.arm i) ∧ Armed (w.arm i) i := by
  obtain ⟨k, hk, ha⟩ := hb
  unfold Worker.arm
  dsimp only
  split
  · rename_i hout
    exact ⟨⟨k, hk, ha⟩, fun _ => hout.symm⟩
  · rename_i hout
    have hi : (w.slots i).inUse = true := by
      rcases hu with hu | hq
      · exact hu
      · cases hu : (w.slots i).inUse with
        | true => rfl
        | false =>
          have hfree := (ha.free i hu).2
          rw [hq, hfree] at hout
          exact absurd rfl hout
    have hw := ha.used i hi
    generalize hneed : (!(w.client i).txq.isEmpty) = needOut at hout
    have ha' : Agrees { k with interest := Function.update k.interest (w.client i).fd (some (connEvents needOut)) }
        (w.setClient i { w.client i with wantOut := needOut }) :=
      ha.setClient rfl rfl rfl (fun fd hfd => Function.update_of_ne hfd ..) (fun _ => Function.update_self ..)
        fun hu => by rw [hi] at hu; cases hu
    refine ⟨⟨_, ?_, ha'.congr rfl rfl rfl⟩, fun _ => by simp [hneed]⟩
    refine (takeAll_append hk).trans ((takeAll_single ..).trans ?_)
    rw [take, hw.interest]
    rfl

/-- A turn that sends uses up an answer of the kernel. -/
theorem flushSendOnce_uses (hr : (w.flushSendOnce i).1 = .progress ∨ (w.flushSendOnce i).1 = .finished) :
    (w.flushSendOnce i).2.sends.length < w.sends.length := by
  unfold flushSendOnce sendmsg at hr ⊢
  dsimp only at hr ⊢
  split at hr
  · simp at hr
  · rename_i hq
    rw [if_neg hq]
    split at hr
    · simp at hr
    · rename_i hiov
      rw [if_neg hiov]
      by_cases hfd : (w.client i).fd = -1
      · simp [hfd] at hr
      · simp only [if_neg hfd] at hr ⊢
        cases hs : w.sends with
        | nil => simp [hs] at hr
        | cons r rs =>
          cases r with
          | wouldBlock | failed => simp [hs] at hr
          | sent n =>
            simp only [hs] at hr ⊢
            split at hr
            · simp at hr
            · rename_i hn
              rw [if_neg hn]
              exact Nat.lt_succ_self _

theorem Books.countServed (hb : Books w) : Books (w.countServed i) := hb.setClient rfl rfl rfl

theorem armed_closeClient (hself : (w.client i).self.index.toNat = i.val) : Armed (w.closeClient i) i := by
  intro hu
  obtain ⟨hslot, hn⟩ := closeAndRecycle_used (w := w) (h := (w.client i).self) hu
  have hi : (w.slots i).inUse = true := by
    rw [← hslot]
    exact hu
  exact absurd (named_eq_some_iff.mpr ⟨hself, hi⟩) hn

/-- A turn of the loop that sends; after the last one EPOLLOUT is as the queue wants it. -/
theorem Books.flushTurn (hb : Books w) (hself : (w.client i).self.index.toNat = i.val) :
    Books (w.flushTurn i).2 ∧ ((w.flushTurn i).1 = false → Armed (w.flushTurn i).2 i) ∧
      ((w.flushTurn i).1 = true → (w.flushTurn i).2.sends.length < w.sends.length) := by
  have hbooks := hb.flushSendOnce i
  have hworks := works_flushSendOnce i w
  have huses : _ → (w.flushSendOnce i).2.sends.length < w.sends.length := flushSendOnce_uses
  have hnone : (w.flushSendOnce i).1 = .noData → _ := flushSendOnce_noData
  have hblocked : (w.flushSendOnce i).1 = .blocked → (w.client i).fd ≠ -1 := by
    intro hr
    rcases w.flushSendOnce_cases i with ⟨r, sends, h, hcase⟩ | ⟨sends, p, n, d, hfd, -, -⟩
    · rw [h] at hr
      rcases hcase with rfl | ⟨hfd, -⟩ | rfl
      · cases hr
      · exact hfd
      · cases hr
    · exact hfd
  rcases hr : w.flushSendOnce i with ⟨r, w₁⟩
  rw [hr] at hbooks hworks huses hnone hblocked
  have hself₁ : (w₁.client i).self.index.toNat = i.val := by rw [hworks.self, hself]
  unfold Worker.flushTurn
  rw [hr]
  cases r with
  | progress => exact ⟨hbooks, fun h => (by cases h), fun _ => huses (.inl rfl)⟩
  | finished =>
    have hserved : Works i w₁ (w₁.countServed i) := works_setClient rfl
    have hself₂ : ((w₁.countServed i).client i).self.index.toNat = i.val := by rw [hserved.self, hself₁]
    dsimp only [endResponse]
    split
    · exact ⟨hbooks.countServed.closeClient hself₂, fun _ => armed_closeClient hself₂, fun h => (by cases h)⟩
    · exact ⟨hbooks.countServed, fun h => (by cases h), fun _ => huses (.inr rfl)⟩
  | fatal => exact ⟨hbooks.closeClient hself₁, fun _ => armed_closeClient hself₁, fun h => (by cases h)⟩
  | noData =>
    obtain ⟨hq, hsame⟩ := hnone rfl
    dsimp only at hsame
    subst hsame
    obtain ⟨hb', harm⟩ := hbooks.arm (i := i) (.inr hq)
    exact ⟨hb', fun _ => harm, fun h => (by cases h)⟩
  | blocked =>
    -- the descriptor is real, so that the connection is in use
    have hu : (w₁.slots i).inUse = true := by
      rw [show w₁ = (w.flushSendOnce i).2 by rw [hr], (flushSendOnce_mapped i w).2]
      cases hu : (w.slots i).inUse with
      | true => rfl
      | false =>
        obtain ⟨k, -, ha⟩ := hb
        exact absurd (ha.free i hu).1 (hblocked rfl)
    obtain ⟨hb', harm⟩ := hbooks.arm (.inl hu)
    exact ⟨hb', fun _ => harm, fun h => (by cases h)⟩

theorem Books.flushLoop : ∀ (n : Nat) {w : Worker cap}, Books w → (w.client i).self.index.toNat = i.val →
    w.sends.length < n → Books (flushLoop n i w) ∧ Armed (flushLoop n i w) i
  | 0, _, _, _, hn => absurd hn (Nat.not_lt_zero _)
  | n + 1, w, hb, hself, hn => by
    obtain ⟨hb₁, harm, huses⟩ := hb.flushTurn hself
    have hturn := works_flushTurn hself
    rcases hr : w.flushTurn i with ⟨again, w₁⟩
    rw [hr] at hb₁ harm huses hturn
    unfold Worker.flushLoop
    rw [hr]
    cases again with
    | true =>
      have hlt : w₁.sends.length < w.sends.length := huses rfl
      exact Books.flushLoop n hb₁ (by rw [hturn.self, hself]) (by omega)
    | false => exact ⟨hb₁, harm rfl⟩

theorem Books.tryFlushAndArm (hb : Books w) (hself : (w.client i).self.index.toNat = i.val) :
    Books (w.tryFlushAndArm i) ∧ Armed (w.tryFlushAndArm i) i :=
  hb.flushLoop _ hself (Nat.lt_succ_self _)

theorem Books.txEnqueueLiteral (hb : Books w) (hself : (w.client i).self.index.toNat = i.val) (p : Bytes)
    (eor : Bool) : Books (w.txEnqueueLiteral i p eor) ∧ Armed (w.txEnqueueLiteral i p eor) i := by
  have hqueue : Books (w.setClient i { w.client i with txq := (w.client i).txq ++ [⟨p, eor⟩] }) :=
    hb.setClient rfl rfl rfl
  exact hqueue.tryFlushAndArm (by rw [setClient_client]; exact hself)

end Worker

end IOContext.Epoll
