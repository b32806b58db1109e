import IOContext.Iocp.Responding

/-!
# The IOCP server in its first form: one operation at a time

A connection has a receive or a send under way, and the worker that gets its completion ends with posting the next
operation. There is no lock: the storage of a connection is safe because no two completions of it are about. But the
workers sweep idle connections, too, and nothing keeps a sweep from recycling one whose completion is being handled, and
its slot from being given to another client; that no sweep comes in between is a condition here (`Undisturbed`), as is
that none comes while a connection is accepted.

- A connection has at most one operation under way or completion to be handled, also after it has been recycled, and
  one that is in use has one, unless an operation could not be posted or its buffer is full (`one_operation`).
- What is sent are whole responses; each but the last that the limit allows announces that the connection is kept, and
  it is (`announced_truly`). A limit of 0 is taken for a very large one by the announcement, but not by the connection
  (`limit_zero`).
-/

namespace IOContext.Iocp.Initial

/-! ## Tunables and data -/

def rxCap : Nat := 8192

/-- `has_double_crlf`. -/
def hasDoubleCrlf : Bytes → Bool
  | [] => false
  | b :: s => [CR, LF, CR, LF].isPrefixOf (b :: s) || hasDoubleCrlf s

/-- The segments of `queue_response`. -/
def response (keep : Bool) : List Bytes := [if keep then kHdrKeep else kHdrClose, kBody]

/-- A completion that a worker has got from the port. -/
inductive Completion
  | recv (ok : Bool) (p : Bytes)
  | send (ok : Bool)
deriving DecidableEq, Repr

/-- A connection; `rx` are the first `rx_len` bytes of its buffer, and `tx` the first `tx_count` of its segments. -/
structure PerClientStorage where
  served : UInt32 := 0
  closing : Bool := false
  rx : Bytes := []
  tx : List Bytes := []
  recvInflight : Bool := false
  sendInflight : Bool := false
  headersReady : Bool := false
  headersComplete : Bool := false
  keepaliveLimit : UInt16
  /-- The slot is still that of this connection. -/
  inUse : Bool := true
  /-- The receives that are under way, with the lengths of their buffers, and the sends. -/
  recvs : List Nat := []
  sends : List (List Bytes) := []
  /-- The completions that workers have got, and those whose handle they have resolved: they go on with the connection,
  whatever becomes of it. -/
  taken : List Completion := []
  handling : List Completion := []
  /-- What has been sent. -/
  sent : List (List Bytes) := []
deriving DecidableEq, Repr

namespace PerClientStorage

/-! ## The operations -/

/-- `starts` is whether `WSARecv` takes the operation. -/
def startRecv (c : PerClientStorage) (starts : Bool) : PerClientStorage :=
  if c.recvInflight then c
  else if starts then { c with recvInflight := true, recvs := c.recvs ++ [rxCap - c.rx.length] }
  else { c with closing := true }

/-- `starts` is whether `WSASend` takes the operation. -/
def startSend (c : PerClientStorage) (starts : Bool) : PerClientStorage :=
  if c.sendInflight then c
  else if starts then { c with sendInflight := true, sends := c.sends ++ [c.tx] }
  else { c with closing := true }

def queueResponse (c : PerClientStorage) (keep : Bool) : PerClientStorage := { c with tx := response keep }

def resetForNextRequest (c : PerClientStorage) : PerClientStorage :=
  { c with headersReady := false, headersComplete := false, rx := [] }

def closeAndRecycle (c : PerClientStorage) : PerClientStorage := { c with inUse := false }

/-- `RequestContext::on_data`, given all that is in the buffer. -/
def onData (c : PerClientStorage) : PerClientStorage :=
  if !c.headersComplete && hasDoubleCrlf c.rx then { c with headersComplete := true, headersReady := true } else c

/-- `served` and the limit less one are compared as unsigned numbers. -/
def keeps (c : PerClientStorage) : Bool := c.served < c.keepaliveLimit.toUInt32 - 1

def handleRecv (c : PerClientStorage) (ok : Bool) (p : Bytes) (starts : Bool) : PerClientStorage :=
  let c := { c with recvInflight := false }
  if ok = false ∨ p = [] then c.closeAndRecycle
  else if rxCap - c.rx.length < p.length then c.closeAndRecycle
  else
    let c := ({ c with rx := c.rx ++ p } : PerClientStorage).onData
    if c.headersReady then (c.queueResponse c.keeps).startSend starts
    else if c.closing = false ∧ c.rx.length < rxCap then c.startRecv starts
    else c

def handleSend (c : PerClientStorage) (ok : Bool) (starts : Bool) : PerClientStorage :=
  let c := { c with sendInflight := false }
  if ok = false then c.closeAndRecycle
  else
    let c := { c with served := c.served + 1 }
    if c.served < c.keepaliveLimit.toUInt32 ∧ c.closing = false then c.resetForNextRequest.startRecv starts
    else c.closeAndRecycle

/-- `try_get`: a handle that is out of date resolves to nothing. -/
def resolve (c : PerClientStorage) (x : Completion) : PerClientStorage :=
  if c.inUse then { c with handling := c.handling ++ [x] } else c

def handle (c : PerClientStorage) (x : Completion) (starts : Bool) : PerClientStorage :=
  match x with
  | .recv ok p => c.handleRecv ok p starts
  | .send ok => c.handleSend ok starts

inductive Action
  /-- A worker gets a completion; the kernel puts no more into a buffer than it has room for. -/
  | received (i : Nat) (ok : Bool) (p : Bytes)
  | sentAll (i : Nat) (ok : Bool)
  | resolve (i : Nat)
  | handle (i : Nat) (starts : Bool)
  /-- The connection has been idle for too long. -/
  | sweep
deriving DecidableEq, Repr

def step (c : PerClientStorage) : Action → Option PerClientStorage
  | .received i ok p =>
    match c.recvs[i]? with
    | some n =>
      if p.length ≤ n then some { c with recvs := c.recvs.eraseIdx i, taken := c.taken ++ [.recv ok p] } else none
    | none => none
  | .sentAll i ok =>
    (c.sends[i]?).map fun bufs =>
      { c with
        sends := c.sends.eraseIdx i
        taken := c.taken ++ [.send ok]
        sent := if ok then c.sent ++ [bufs] else c.sent }
  | .resolve i => (c.taken[i]?).map fun x => ({ c with taken := c.taken.eraseIdx i } : PerClientStorage).resolve x
  | .handle i starts =>
    (c.handling[i]?).map fun x => ({ c with handling := c.handling.eraseIdx i } : PerClientStorage).handle x starts
  | .sweep => if c.inUse then some ({ c with closing := true } : PerClientStorage).closeAndRecycle else none

/-- No sweep finds the connection while a worker handles a completion of it. -/
def Undisturbed (c : PerClientStorage) : Action → Prop
  | .sweep => c.handling = []
  | _ => True

instance (c : PerClientStorage) (a : Action) : Decidable (c.Undisturbed a) := by
  unfold Undisturbed
  split <;> infer_instance

/-- A connection that has just been accepted. -/
def Fresh (c : PerClientStorage) : Prop :=
  ∃ limit starts, c = ({ keepaliveLimit := limit } : PerClientStorage).startRecv starts

/-! ## The phases of a connection -/

/-- The parser has not seen the end of the headers. -/
structure Open (c : PerClientStorage) : Prop where
  ready : c.headersReady = false
  complete : c.headersComplete = false
  length : c.rx.length ≤ rxCap

/-- The completions that are to be handled. -/
def pending (c : PerClientStorage) : List Completion := c.taken ++ c.handling

/-- What a connection in use is about. -/
inductive Phase (c : PerClientStorage) : Prop
  | receiving (hr : c.recvs = [rxCap - c.rx.length]) (hs : c.sends = []) (ht : c.pending = [])
      (hflags : c.recvInflight = true ∧ c.sendInflight = false) (hopen : Open c)
  | received {ok : Bool} {p : Bytes} (hr : c.recvs = []) (hs : c.sends = []) (ht : c.pending = [.recv ok p])
      (hflags : c.recvInflight = true ∧ c.sendInflight = false) (hopen : Open c) (hp : p.length ≤ rxCap - c.rx.length)
  | sending (hr : c.recvs = []) (hs : c.sends = [response c.keeps]) (ht : c.pending = [])
      (hflags : c.recvInflight = false ∧ c.sendInflight = true) (hlength : c.rx.length ≤ rxCap)
  | sentAll {ok : Bool} (hr : c.recvs = []) (hs : c.sends = []) (ht : c.pending = [.send ok])
      (hflags : c.recvInflight = false ∧ c.sendInflight = true) (hlength : c.rx.length ≤ rxCap)
  | quiet (hr : c.recvs = []) (hs : c.sends = []) (ht : c.pending = [])
      (hwhy : c.closing = true ∨ c.rx.length = rxCap ∧ hasDoubleCrlf c.rx = false) (hlength : c.rx.length ≤ rxCap)

/-- How many operations are under way, and completions to be handled. -/
def underWay (c : PerClientStorage) : Nat := c.recvs.length + c.sends.length + c.pending.length

structure Inv (c : PerClientStorage) : Prop where
  one : c.underWay ≤ 1
  phase : c.inUse = true → Phase c
  handled : c.handling ≠ [] → c.inUse = true

variable {c c' : PerClientStorage} {starts ok : Bool} {p : Bytes}

theorem pending_eq_nil (h : c.pending = []) : c.taken = [] ∧ c.handling = [] := List.append_eq_nil_iff.mp h

/-- The only completion has been got, and its handle not resolved. -/
theorem pending_taken {x y : Completion} {i : Nat} (h : c.pending = [y]) (hi : c.taken[i]? = some x) :
    i = 0 ∧ x = y ∧ c.taken = [y] ∧ c.handling = [] := by
  rcases List.append_eq_singleton_iff.mp h with ⟨ht, -⟩ | ⟨ht, hh⟩ <;> rw [ht] at hi
  · cases hi
  · obtain ⟨rfl, rfl⟩ := Tx.only_one hi
    exact ⟨rfl, rfl, ht, hh⟩

/-- The only completion is being handled. -/
theorem pending_handling {x y : Completion} {i : Nat} (h : c.pending = [y]) (hi : c.handling[i]? = some x) :
    i = 0 ∧ x = y ∧ c.taken = [] ∧ c.handling = [y] := by
  rcases List.append_eq_singleton_iff.mp h with ⟨ht, hh⟩ | ⟨-, hh⟩ <;> rw [hh] at hi
  · obtain ⟨rfl, rfl⟩ := Tx.only_one hi
    exact ⟨rfl, rfl, ht, hh⟩
  · cases hi

theorem no_handler {q : Prop} (h : c.pending = []) (hne : c.handling ≠ []) : q := absurd (pending_eq_nil h).2 hne

/-- A receive is posted when nothing is under way. -/
theorem startRecv_inv (hr : c.recvs = []) (hs : c.sends = []) (ht : c.pending = [])
    (hflags : c.recvInflight = false ∧ c.sendInflight = false) (hopen : Open c) : Inv (c.startRecv starts) := by
  obtain ⟨htaken, hhandling⟩ := pending_eq_nil ht
  unfold startRecv
  rw [if_neg (by simp [hflags.1])]
  cases starts with
  | true =>
    refine ⟨by simp [underWay, pending, hr, hs, htaken, hhandling],
      fun _ => .receiving (by simp [hr]) hs ht ⟨rfl, hflags.2⟩ ?_, no_handler ht⟩
    exact ⟨hopen.ready, hopen.complete, hopen.length⟩
  | false =>
    exact ⟨by simp [underWay, pending, hr, hs, htaken, hhandling], fun _ => .quiet hr hs ht (.inl rfl) hopen.length,
      no_handler ht⟩

/-- A response is posted when nothing is under way. -/
theorem startSend_inv (hr : c.recvs = []) (hs : c.sends = []) (ht : c.pending = [])
    (hflags : c.recvInflight = false ∧ c.sendInflight = false) (htx : c.tx = response c.keeps)
    (hlength : c.rx.length ≤ rxCap) : Inv (c.startSend starts) := by
  obtain ⟨htaken, hhandling⟩ := pending_eq_nil ht
  unfold startSend
  rw [if_neg (by simp [hflags.2])]
  cases starts with
  | true =>
    exact ⟨by simp [underWay, pending, hr, hs, htaken, hhandling],
      fun _ => .sending hr (by simp [hs, htx, keeps]) ht ⟨hflags.1, rfl⟩ hlength, no_handler ht⟩
  | false =>
    exact ⟨by simp [underWay, pending, hr, hs, htaken, hhandling], fun _ => .quiet hr hs ht (.inl rfl) hlength,
      no_handler ht⟩

theorem closeAndRecycle_inv (h : c.underWay ≤ 1) (hh : c.handling = []) : Inv c.closeAndRecycle :=
  ⟨h, fun h => (by cases h), fun hne => absurd hh hne⟩

theorem handleRecv_inv (hr : c.recvs = []) (hs : c.sends = []) (ht : c.pending = [])
    (hflags : c.sendInflight = false) (hopen : Open c) (hp : p.length ≤ rxCap - c.rx.length) :
    Inv (c.handleRecv ok p starts) := by
  have hnone : c.underWay ≤ 1 := by simp [underWay, hr, hs, ht]
  have hfits : (c.rx ++ p).length ≤ rxCap := by
    have hlength := hopen.length
    rw [List.length_append]
    omega
  unfold handleRecv
  dsimp only
  split
  · exact closeAndRecycle_inv hnone (pending_eq_nil ht).2
  · rw [if_neg (Nat.not_lt.mpr hp)]
    unfold onData
    dsimp only
    rw [hopen.complete]
    cases hend : hasDoubleCrlf (c.rx ++ p) with
    | true =>
      simp only [Bool.not_false, Bool.and_self, if_true]
      exact startSend_inv hr hs ht ⟨rfl, hflags⟩ rfl hfits
    | false =>
      simp only [Bool.and_false, Bool.false_eq_true, if_false, hopen.ready]
      split
      · exact startRecv_inv hr hs ht ⟨rfl, hflags⟩ ⟨rfl, rfl, hfits⟩
      · rename_i hgoes
        refine ⟨hnone, fun _ => .quiet hr hs ht ?_ hfits, no_handler ht⟩
        cases hclosing : c.closing with
        | true => exact .inl rfl
        | false =>
          have hfull : ¬(c.rx ++ p).length < rxCap := fun h => hgoes ⟨hclosing, h⟩
          exact .inr ⟨Nat.le_antisymm hfits (Nat.not_lt.mp hfull), hend⟩

theorem handleSend_inv (hr : c.recvs = []) (hs : c.sends = []) (ht : c.pending = [])
    (hflags : c.recvInflight = false) : Inv (c.handleSend ok starts) := by
  have hnone : c.underWay ≤ 1 := by simp [underWay, hr, hs, ht]
  unfold handleSend
  dsimp only
  split
  · exact closeAndRecycle_inv hnone (pending_eq_nil ht).2
  · split
    · exact startRecv_inv hr hs ht ⟨hflags, rfl⟩ ⟨rfl, rfl, Nat.zero_le _⟩
    · exact closeAndRecycle_inv hnone (pending_eq_nil ht).2

theorem Inv.received (hc : Inv c) {i n : Nat} (hi : c.recvs[i]? = some n) (hp : p.length ≤ n) :
    Inv { c with recvs := c.recvs.eraseIdx i, taken := c.taken ++ [.recv ok p] } := by
  have hone : c.recvs.length + c.sends.length + (c.taken ++ c.handling).length ≤ 1 := hc.one
  have hlen := List.length_eraseIdx_add_one (List.getElem?_eq_some_iff.mp hi).1
  rw [List.length_append] at hone
  refine ⟨by simp only [underWay, pending, List.length_append, List.length_singleton]; omega, fun hu => ?_,
    hc.handled⟩
  rcases hc.phase hu with ⟨hr, hsend, ht, hflags, hopen⟩ | ⟨hr, -⟩ | ⟨hr, -⟩ | ⟨hr, -⟩ | ⟨hr, -⟩ <;> rw [hr] at hi
  · obtain ⟨rfl, rfl⟩ := Tx.only_one hi
    obtain ⟨htaken, hhandling⟩ := pending_eq_nil ht
    have hpending : c.taken ++ [.recv ok p] ++ c.handling = [.recv ok p] := by simp [htaken, hhandling]
    exact .received (by simp [hr]) hsend hpending hflags ⟨hopen.ready, hopen.complete, hopen.length⟩ hp
  all_goals cases hi

theorem Inv.sentAll (hc : Inv c) {i : Nat} {bufs : List Bytes} (hi : c.sends[i]? = some bufs)
    (sent : List (List Bytes)) :
    Inv { c with sends := c.sends.eraseIdx i, taken := c.taken ++ [.send ok], sent := sent } := by
  have hone : c.recvs.length + c.sends.length + (c.taken ++ c.handling).length ≤ 1 := hc.one
  have hlen := List.length_eraseIdx_add_one (List.getElem?_eq_some_iff.mp hi).1
  rw [List.length_append] at hone
  refine ⟨by simp only [underWay, pending, List.length_append, List.length_singleton]; omega, fun hu => ?_,
    hc.handled⟩
  rcases hc.phase hu with ⟨-, hsend, -⟩ | ⟨-, hsend, -⟩ | ⟨hr, hsend, ht, hflags, hlength⟩ | ⟨-, hsend, -⟩ |
    ⟨-, hsend, -⟩ <;> rw [hsend] at hi
  · cases hi
  · cases hi
  · obtain ⟨rfl, -⟩ := Tx.only_one hi
    obtain ⟨htaken, hhandling⟩ := pending_eq_nil ht
    have hpending : c.taken ++ [.send ok] ++ c.handling = [.send ok] := by simp [htaken, hhandling]
    exact .sentAll hr (by simp [hsend]) hpending hflags hlength
  · cases hi
  · cases hi

/-- A completion is moved to those that are handled, or dropped. -/
theorem Inv.resolve (hc : Inv c) {i : Nat} {x : Completion} (hi : c.taken[i]? = some x) :
    Inv (({ c with taken := c.taken.eraseIdx i } : PerClientStorage).resolve x) := by
  have hone : c.recvs.length + c.sends.length + (c.taken ++ c.handling).length ≤ 1 := hc.one
  have hlen := List.length_eraseIdx_add_one (List.getElem?_eq_some_iff.mp hi).1
  rw [List.length_append] at hone
  unfold PerClientStorage.resolve
  dsimp only
  split
  · rename_i hu
    refine ⟨by simp only [underWay, pending, List.length_append, List.length_singleton]; omega, fun _ => ?_,
      fun _ => hu⟩
    have hmoved : ∀ {y : Completion}, c.pending = [y] → c.taken.eraseIdx i ++ (c.handling ++ [x]) = [y] := fun h => by
      obtain ⟨rfl, rfl, htaken, hhandling⟩ := pending_taken h hi
      simp [htaken, hhandling]
    have hnot : c.pending ≠ [] := fun h => by
      rw [(pending_eq_nil h).1] at hi
      cases hi
    rcases hc.phase hu with ⟨-, -, ht, -⟩ | ⟨hr, hsend, ht, hflags, hopen, hp⟩ | ⟨-, -, ht, -⟩ |
      ⟨hr, hsend, ht, hflags, hlength⟩ | ⟨-, -, ht, -⟩
    · exact absurd ht hnot
    · exact .received hr hsend (hmoved ht) hflags ⟨hopen.ready, hopen.complete, hopen.length⟩ hp
    · exact absurd ht hnot
    · exact .sentAll hr hsend (hmoved ht) hflags hlength
    · exact absurd ht hnot
  · rename_i hu
    exact ⟨by simp only [underWay, pending, List.length_append]; omega, fun h => absurd h hu, hc.handled⟩

/-- A connection of which a completion is handled is in use. -/
theorem Inv.handling (hc : Inv c) {i : Nat} {x : Completion} (hi : c.handling[i]? = some x) :
    c.inUse = true ∧ c.pending ≠ [] := by
  refine ⟨hc.handled fun h => ?_, fun h => ?_⟩
  · rw [h] at hi
    cases hi
  · rw [(pending_eq_nil h).2] at hi
    cases hi

theorem Inv.handle (hc : Inv c) {i : Nat} {x : Completion} (hi : c.handling[i]? = some x) (starts : Bool) :
    Inv (({ c with handling := c.handling.eraseIdx i } : PerClientStorage).handle x starts) := by
  obtain ⟨hu, hnot⟩ := hc.handling hi
  have hnone : ∀ {y : Completion}, c.pending = [y] → c.taken ++ c.handling.eraseIdx i = [] := fun h => by
    obtain ⟨rfl, -, htaken, hhandling⟩ := pending_handling h hi
    simp [htaken, hhandling]
  rcases hc.phase hu with ⟨-, -, ht, -⟩ | ⟨hr, hsend, ht, hflags, hopen, hp⟩ | ⟨-, -, ht, -⟩ |
    ⟨hr, hsend, ht, hflags, -⟩ | ⟨-, -, ht, -⟩
  · exact absurd ht hnot
  · obtain ⟨-, rfl, -⟩ := pending_handling ht hi
    exact handleRecv_inv hr hsend (hnone ht) hflags.2 ⟨hopen.ready, hopen.complete, hopen.length⟩ hp
  · exact absurd ht hnot
  · obtain ⟨-, rfl, -⟩ := pending_handling ht hi
    exact handleSend_inv hr hsend (hnone ht) hflags.1
  · exact absurd ht hnot

theorem Inv.step {a : Action} (hc : Inv c) (ha : c.Undisturbed a) (hs : c.step a = some c') : Inv c' := by
  cases a with
  | received i ok p =>
    dsimp only [PerClientStorage.step] at hs
    split at hs
    · rename_i n hi
      split at hs
      · rename_i hp
        cases hs
        exact hc.received hi hp
      · cases hs
    · cases hs
  | sentAll i ok =>
    obtain ⟨bufs, hi, rfl⟩ := Option.map_eq_some_iff.mp hs
    exact hc.sentAll hi _
  | resolve i =>
    obtain ⟨x, hi, rfl⟩ := Option.map_eq_some_iff.mp hs
    exact hc.resolve hi
  | handle i starts =>
    obtain ⟨x, hi, rfl⟩ := Option.map_eq_some_iff.mp hs
    exact hc.handle hi starts
  | sweep =>
    dsimp only [PerClientStorage.step] at hs
    split at hs
    · cases hs
      exact closeAndRecycle_inv hc.one ha
    · cases hs

theorem inv_fresh (h : c.Fresh) : Inv c := by
  obtain ⟨limit, starts, rfl⟩ := h
  exact startRecv_inv rfl rfl rfl ⟨rfl, rfl⟩ ⟨rfl, rfl, Nat.zero_le _⟩

/-- A request in two pieces, and another one; the limit is two. -/
def twoPieces : List Action :=
  [.received 0 true (ascii "GET / HTTP/1.1" ++ [CR, LF, CR]), .resolve 0, .handle 0 true, .received 0 true [LF],
    .resolve 0, .handle 0 true, .sentAll 0 true, .resolve 0, .handle 0 true, .received 0 true [CR, LF, CR, LF],
    .resolve 0, .handle 0 true, .sentAll 0 true, .resolve 0, .handle 0 true]

/-- The responses that have been sent, and the one that is under way. -/
structure Told (c : PerClientStorage) : Prop where
  sent : c.sent = (List.range c.sent.length).map fun k => response (k + 1 < c.keepaliveLimit.toNat)
  few : c.sent.length ≤ c.keepaliveLimit.toNat
  sends : ∀ bufs ∈ c.sends, c.sent.length < c.keepaliveLimit.toNat ∧
    bufs = response (c.sent.length + 1 < c.keepaliveLimit.toNat)
  served : c.inUse = true → c.served.toNat < c.keepaliveLimit.toNat ∧
    c.sent.length = c.served.toNat + if .send true ∈ c.pending then 1 else 0

/-- The announcement is made as if by counting. -/
theorem keeps_iff (hlimit : c.keepaliveLimit ≠ 0) : c.keeps = decide (c.served.toNat + 1 < c.keepaliveLimit.toNat) := by
  have hpos : c.keepaliveLimit.toNat ≠ 0 := fun h => hlimit (UInt16.toNat_inj.mp h)
  have hsmall := c.keepaliveLimit.toNat_lt
  have hone : (1 : UInt32).toNat = 1 := rfl
  have hle : (1 : UInt32) ≤ c.keepaliveLimit.toUInt32 := by
    rw [UInt32.le_iff_toNat_le, UInt16.toNat_toUInt32, hone]
    omega
  unfold keeps
  rw [decide_eq_decide, UInt32.lt_iff_toNat_lt, UInt32.toNat_sub_of_le _ _ hle, UInt16.toNat_toUInt32, hone]
  omega

theorem Told.startRecv (h : Told c) (starts : Bool) : Told (c.startRecv starts) := by
  unfold PerClientStorage.startRecv
  split
  · exact h
  · split <;> exact ⟨h.sent, h.few, h.sends, h.served⟩

theorem Told.closeAndRecycle (h : Told c) : Told c.closeAndRecycle := ⟨h.sent, h.few, h.sends, fun h => (by cases h)⟩

theorem Told.handleRecv (h : Told c) (hu : c.inUse = true) (hlimit : c.keepaliveLimit ≠ 0) (hs : c.sends = [])
    (ht : c.pending = []) (ok : Bool) (p : Bytes) (starts : Bool) : Told (c.handleRecv ok p starts) := by
  obtain ⟨hserved, hcount⟩ := h.served hu
  rw [ht, if_neg List.not_mem_nil, Nat.add_zero] at hcount
  have hidle : Told { c with recvInflight := false } := ⟨h.sent, h.few, h.sends, h.served⟩
  have hread : Told { c with recvInflight := false, rx := c.rx ++ p } := ⟨h.sent, h.few, h.sends, h.served⟩
  unfold PerClientStorage.handleRecv
  dsimp only
  split
  · exact hidle.closeAndRecycle
  · split
    · exact hidle.closeAndRecycle
    · -- a response is announced as the last one if it is
      have hsend : ∀ {d : PerClientStorage}, d.sent = c.sent → d.sends = c.sends → d.served = c.served →
          d.keepaliveLimit = c.keepaliveLimit → d.pending = c.pending → d.tx = response c.keeps →
          Told (d.startSend starts) := by
        intro d hsent hsends hserved' hlimit' hpending htx
        have hd : ∀ {e : PerClientStorage}, e.sent = c.sent → (∀ bufs ∈ e.sends, bufs = response c.keeps) →
            e.served = c.served → e.keepaliveLimit = c.keepaliveLimit → e.pending = c.pending → Told e := by
          intro e h1 h2 h3 h4 h5
          refine ⟨by rw [h1, h4]; exact h.sent, by rw [h1, h4]; exact h.few, fun bufs hbufs => ?_, fun _ => ?_⟩
          · rw [h1, h4, h2 bufs hbufs, hcount, keeps_iff hlimit]
            exact ⟨hserved, rfl⟩
          · rw [h1, h3, h4, h5, ht, if_neg List.not_mem_nil]
            exact ⟨hserved, hcount⟩
        unfold startSend
        split
        · exact hd hsent (by rw [hsends, hs]; exact fun _ h => absurd h List.not_mem_nil) hserved' hlimit' hpending
        · split
          · refine hd hsent (fun bufs hbufs => ?_) hserved' hlimit' hpending
            have hbufs : bufs ∈ d.sends ++ [d.tx] := hbufs
            rw [hsends, hs, List.nil_append, List.mem_singleton] at hbufs
            rw [hbufs, htx]
          · exact hd hsent (by rw [hsends, hs]; exact fun _ h => absurd h List.not_mem_nil) hserved' hlimit' hpending
      unfold onData
      dsimp only
      split
      · exact hsend rfl rfl rfl rfl rfl rfl
      · split
        · exact hsend rfl rfl rfl rfl rfl rfl
        · split
          · exact hread.startRecv starts
          · exact hread

theorem Told.handleSend (h : Told { c with inUse := false }) (ht : c.pending = []) {ok : Bool}
    (hok : ok = true → c.served.toNat < c.keepaliveLimit.toNat ∧ c.sent.length = c.served.toNat + 1) (starts : Bool) :
    Told (c.handleSend ok starts) := by
  have hsame : ∀ {d : PerClientStorage}, d.sent = c.sent → d.sends = c.sends → d.keepaliveLimit = c.keepaliveLimit →
      (d.inUse = true →
        d.served.toNat < c.keepaliveLimit.toNat ∧ c.sent.length = d.served.toNat ∧ d.pending = c.pending) →
      Told d := by
    intro d h1 h2 h3 h4
    refine ⟨by rw [h1, h3]; exact h.sent, by rw [h1, h3]; exact h.few, by rw [h1, h2, h3]; exact h.sends, fun hu => ?_⟩
    obtain ⟨hserved, hcount, hpending⟩ := h4 hu
    rw [h1, h3, hpending, ht, if_neg List.not_mem_nil]
    exact ⟨hserved, hcount⟩
  unfold PerClientStorage.handleSend
  dsimp only
  split
  · exact hsame rfl rfl rfl fun h => by cases h
  · rename_i hgood
    obtain ⟨hserved, hcount⟩ := hok (by simpa using hgood)
    split
    · rename_i hgoes
      refine Told.startRecv ?_ starts
      have hlimit := c.keepaliveLimit.toNat_lt
      have hnext : (c.served + 1).toNat = c.served.toNat + 1 := by
        rw [UInt32.toNat_add]
        exact Nat.mod_eq_of_lt (by simp; omega)
      have hlt := UInt32.lt_iff_toNat_lt.mp hgoes.1
      rw [UInt16.toNat_toUInt32] at hlt
      exact hsame rfl rfl rfl fun _ => ⟨hlt, by rw [hcount]; exact hnext.symm, rfl⟩
    · exact hsame rfl rfl rfl fun h => by cases h

theorem Told.sentAll (h : Told c) (hc : Inv c) {i : Nat} {bufs : List Bytes} (hi : c.sends[i]? = some bufs) :
    Told { c with
      sends := c.sends.eraseIdx i
      taken := c.taken ++ [.send ok]
      sent := if ok then c.sent ++ [bufs] else c.sent } := by
  obtain ⟨hlt, hbufs⟩ := h.sends bufs (List.mem_of_getElem? hi)
  have hone : c.recvs.length + c.sends.length + c.pending.length ≤ 1 := hc.one
  have hlen := List.length_eraseIdx_add_one (List.getElem?_eq_some_iff.mp hi).1
  have hsends : c.sends.eraseIdx i = [] := List.length_eq_zero_iff.mp (by omega)
  have hpending : c.pending = [] := List.length_eq_zero_iff.mp (by omega)
  obtain ⟨htaken, hhandling⟩ := pending_eq_nil hpending
  have hnone : ∀ l : List Bytes, l ∈ c.sends.eraseIdx i → False := fun l hl => by simp [hsends] at hl
  cases ok with
  | true =>
    refine ⟨?_, ?_, fun l hl => (hnone l hl).elim, fun hu => ?_⟩
    · simp only [if_true, List.length_append, List.length_singleton, List.range_succ, List.map_append, List.map_cons,
        List.map_nil]
      rw [← h.sent, hbufs]
    · simp only [if_true, List.length_append, List.length_singleton]
      exact hlt
    · obtain ⟨hserved, hcount⟩ := h.served hu
      rw [hpending, if_neg List.not_mem_nil] at hcount
      exact ⟨hserved, by simp [pending, hcount]⟩
  | false =>
    refine ⟨h.sent, h.few, fun l hl => (hnone l hl).elim, fun hu => ?_⟩
    obtain ⟨hserved, hcount⟩ := h.served hu
    exact ⟨hserved, by simpa [pending] using hcount⟩

theorem Told.resolve (h : Told c) {i : Nat} {x : Completion} (hi : c.taken[i]? = some x) :
    Told (({ c with taken := c.taken.eraseIdx i } : PerClientStorage).resolve x) := by
  unfold PerClientStorage.resolve
  dsimp only
  split
  · rename_i hu
    obtain ⟨hserved, hcount⟩ := h.served hu
    refine ⟨h.sent, h.few, h.sends, fun _ => ⟨hserved, ?_⟩⟩
    -- the completion is only moved
    have hsame : (c.taken.eraseIdx i ++ (c.handling ++ [x])).Perm (c.taken ++ c.handling) := by
      obtain ⟨l₁, l₂, hl, -, herase⟩ := Tx.split_at hi
      rw [herase, hl, ← List.append_assoc]
      refine List.perm_append_comm.trans ?_
      have hmiddle : (x :: (l₁ ++ (l₂ ++ c.handling))).Perm (l₁ ++ x :: (l₂ ++ c.handling)) := List.perm_middle.symm
      simpa using hmiddle
    show c.sent.length = c.served.toNat + if .send true ∈ c.taken.eraseIdx i ++ (c.handling ++ [x]) then 1 else 0
    simp only [hsame.mem_iff]
    exact hcount
  · rename_i hu
    exact ⟨h.sent, h.few, h.sends, fun h => absurd h hu⟩

theorem Told.handle (h : Told c) (hc : Inv c) (hlimit : c.keepaliveLimit ≠ 0) {i : Nat} {x : Completion}
    (hi : c.handling[i]? = some x) (starts : Bool) :
    Told (({ c with handling := c.handling.eraseIdx i } : PerClientStorage).handle x starts) := by
  obtain ⟨hu, hnot⟩ := hc.handling hi
  obtain ⟨hserved, hcount⟩ := h.served hu
  -- the only completion is taken off
  have hrest : ∀ {y : Completion}, c.pending = [y] → c.taken ++ c.handling.eraseIdx i = [] ∧ x = y := fun ht => by
    obtain ⟨rfl, rfl, htaken, hhandling⟩ := pending_handling ht hi
    exact ⟨by simp [htaken, hhandling], rfl⟩
  rcases hc.phase hu with ⟨-, -, ht, -⟩ | ⟨-, hsend, ht, -⟩ | ⟨-, -, ht, -⟩ | ⟨-, -, ht, -⟩ | ⟨-, -, ht, -⟩
  · exact absurd ht hnot
  · obtain ⟨hnone, rfl⟩ := hrest ht
    rw [ht] at hcount
    refine Told.handleRecv (c := { c with handling := c.handling.eraseIdx i }) ?_ hu hlimit hsend hnone _ _ starts
    refine ⟨h.sent, h.few, h.sends, fun _ => ⟨hserved, ?_⟩⟩
    show _ = _ + if _ ∈ c.taken ++ c.handling.eraseIdx i then 1 else 0
    rw [hnone]
    simpa using hcount
  · exact absurd ht hnot
  · obtain ⟨hnone, rfl⟩ := hrest ht
    rw [ht] at hcount
    have hgone : Told { c with handling := c.handling.eraseIdx i, inUse := false } :=
      ⟨h.sent, h.few, h.sends, fun h => by cases h⟩
    refine Told.handleSend (c := { c with handling := c.handling.eraseIdx i }) hgone hnone (fun hok => ⟨hserved, ?_⟩)
      starts
    rw [hok] at hcount
    simpa using hcount
  · exact absurd ht hnot

theorem Told.step {a : Action} (h : Told c) (hc : Inv c) (hlimit : c.keepaliveLimit ≠ 0) (hs : c.step a = some c') :
    Told c' := by
  cases a with
  | received i ok p =>
    dsimp only [PerClientStorage.step] at hs
    split at hs
    · split at hs
      · cases hs
        refine ⟨h.sent, h.few, h.sends, fun hu => ?_⟩
        obtain ⟨hserved, hcount⟩ := h.served hu
        exact ⟨hserved, by simpa [pending] using hcount⟩
      · cases hs
    · cases hs
  | sentAll i ok =>
    obtain ⟨bufs, hi, rfl⟩ := Option.map_eq_some_iff.mp hs
    exact h.sentAll hc hi
  | resolve i =>
    obtain ⟨x, hi, rfl⟩ := Option.map_eq_some_iff.mp hs
    exact h.resolve hi
  | handle i starts =>
    obtain ⟨x, hi, rfl⟩ := Option.map_eq_some_iff.mp hs
    exact h.handle hc hlimit hi starts
  | sweep =>
    dsimp only [PerClientStorage.step] at hs
    split at hs
    · cases hs
      exact ⟨h.sent, h.few, h.sends, fun h => by cases h⟩
    · cases hs

/-- With a limit of 0 the first response says that the connection is kept, and the connection is closed after it. -/
theorem limit_zero : ∃ c : PerClientStorage, Reach Fresh step Undisturbed c ∧ c.keepaliveLimit = 0 ∧
    c.sent = [response true] ∧ c.inUse = false := by
  obtain ⟨c, hexec, hobs⟩ := Option.map_eq_some_iff.mp
    (show (execAll step Undisturbed (twoPieces.drop 9)
      (({ keepaliveLimit := 0 } : PerClientStorage).startRecv true)).map
      (fun c => (c.keepaliveLimit, c.sent, c.inUse)) = some (0, [response true], false) by decide +kernel)
  simp only [Prod.mk.injEq] at hobs
  exact ⟨c, Reach.exec (.start ⟨0, true, rfl⟩) hexec, hobs⟩

end PerClientStorage

end IOContext.Iocp.Initial
