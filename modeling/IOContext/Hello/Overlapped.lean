import IOContext.Hello.Connection

/-!
# The greeting server on a completion port

A connection has a receive or a send submitted, and the next one is submitted when it has completed. Its parser is that
of the servers that are told what is ready, and so is its response.

- In every run a connection is where one of the server on epoll could be from which nothing is read as long as it has
  something to send (`refines_onEpoll`), so that all that is sent is whole responses.
- A connection that is open has exactly one operation submitted, unless one has failed: the loop goes on without a look
  at that one, and the connection stays open for ever.
-/

namespace IOContext.Hello.Overlapped

open Search
open Hello.Connection (response)

/-! ## Data -/

structure Connection where
  /-- The socket is not `INVALID_SOCKET`. -/
  isOpen : Bool := true
  state : ConnState := .readingHeaders
  readBuf : Bytes := []
  writeBuf : Bytes := []
  writeOffset : Nat := 0
  requestsServed : Nat := 0
  /-- The room of a receive that is submitted. -/
  reading : Option Nat := none
  /-- The bytes of a send that is submitted. -/
  writing : Option Bytes := none
  /-- An operation has failed after it was submitted. -/
  failed : Bool := false
  /-- The bytes that have been sent. -/
  sent : Bytes := []
deriving DecidableEq, Repr

def hasDoubleCrlf : Bytes → Bool
  | [] => false
  | b :: s => [CR, LF, CR, LF].isPrefixOf (b :: s) || hasDoubleCrlf s

namespace Connection

/-! ## The operations -/

def prepareResponse (c : Connection) : Connection :=
  { c with
    writeBuf := message (c.requestsServed < maxKeepaliveRequests)
    writeOffset := 0
    state := .writing }

def resetForNextRequest (c : Connection) : Connection :=
  { c with
    readBuf := []
    writeBuf := []
    writeOffset := 0
    state := .readingHeaders
    requestsServed := c.requestsServed + 1 }

def closeConn (c : Connection) : Connection := { c with isOpen := false }

/-- `fails` if the call fails at once. -/
def startRead (fails : Bool) (c : Connection) : Connection :=
  if fails then c.closeConn else { c with reading := some (readBufSize - c.readBuf.length) }

def startWrite (fails : Bool) (c : Connection) : Connection :=
  if fails then c.closeConn else { c with writing := some (c.writeBuf.drop c.writeOffset) }

/-- A completed receive of `worker_loop`. -/
def onRead (p : Bytes) (fails : Bool) (c : Connection) : Connection :=
  let c := { c with reading := none }
  if p = [] then c.closeConn
  else
    let c := { c with readBuf := c.readBuf ++ p }
    if hasDoubleCrlf c.readBuf then c.prepareResponse.startWrite fails else c.startRead fails

/-- A completed send of `worker_loop`, of `n` bytes of `bs`. -/
def onWrite (bs : Bytes) (n : Nat) (fails : Bool) (c : Connection) : Connection :=
  let c := { c with writing := none, writeOffset := c.writeOffset + n, sent := c.sent ++ bs.take n }
  if c.writeOffset < c.writeBuf.length then c.startWrite fails
  else if c.requestsServed + 1 < maxKeepaliveRequests then c.resetForNextRequest.startRead fails
  else c.closeConn

/-- The completions of a connection, with what the next call answers. -/
inductive Action
  | received (p : Bytes) (fails : Bool)
  | sent (n : Nat) (fails : Bool)
  | failed
deriving DecidableEq, Repr

/-- A completion is of what is submitted, and brings no more than there is room for. -/
def step (c : Connection) : Action → Option Connection
  | .received p fails =>
    match c.reading with
    | some room => if p.length ≤ room then some (c.onRead p fails) else none
    | none => none
  | .sent n fails =>
    match c.writing with
    | some bs => if n ≤ bs.length then some (c.onWrite bs n fails) else none
    | none => none
  | .failed =>
    if c.reading.isSome ∨ c.writing.isSome then some { c with reading := none, writing := none, failed := true }
    else none

/-- A connection that has just been accepted, with its first receive. -/
def Fresh (c : Connection) : Prop := ∃ fails, c = ({} : Connection).startRead fails

variable {c c' : Connection} {e : Hello.Connection} {p : Bytes} {fails : Bool} {n : Nat}

/-! ## The blank line -/

theorem hasDoubleCrlf_eq : ∀ s : Bytes, hasDoubleCrlf s = (find [CR, LF, CR, LF] s).isSome
  | [] => rfl
  | b :: s => by
    unfold hasDoubleCrlf
    by_cases hcrlf : [CR, LF, CR, LF] <+: b :: s
    · obtain ⟨v, hv⟩ := hcrlf
      rw [← hv, find_self, List.isPrefixOf_iff_prefix.mpr (List.prefix_append _ _)]
      rfl
    · have hne : ∀ v, b :: s ≠ [CR, LF, CR, LF] ++ v := fun v hv => hcrlf ⟨v, hv.symm⟩
      rw [find_cons hne rfl, Option.isSome_map, ← hasDoubleCrlf_eq s]
      cases hprefix : [CR, LF, CR, LF].isPrefixOf (b :: s) with
      | true => exact absurd (List.isPrefixOf_iff_prefix.mp hprefix) hcrlf
      | false => rfl

/-! ## The server on epoll -/

/-- Nothing is read as long as there is something to send. -/
def Waits (e : Hello.Connection) : Hello.Connection.Action → Prop
  | .readable _ => e.state ≠ .writing
  | .writable _ | .hangUp => True

/-- The connection `c` is where the connection `e` is. -/
structure Same (e : Hello.Connection) (c : Connection) : Prop where
  isOpen : e.isOpen = c.isOpen
  readBuf : e.readBuf = c.readBuf
  writeBuf : e.writeBuf = c.writeBuf
  writeOffset : e.writeOffset = c.writeOffset
  requestsServed : e.requestsServed = c.requestsServed
  sent : e.sent = c.sent
  state : c.isOpen = true → e.state = c.state

/-- And what is submitted is what the connection is about to do. -/
structure Sim (e : Hello.Connection) (c : Connection) : Prop extends Same e c where
  reading : ∀ room, c.reading = some room → c.isOpen = true ∧ c.writing = none ∧ c.state = .readingHeaders ∧
    room = readBufSize - c.readBuf.length
  writing : ∀ bs, c.writing = some bs → c.isOpen = true ∧ c.reading = none ∧ e.wantOut = true ∧
    bs = c.writeBuf.drop c.writeOffset ∧ c.writeOffset < c.writeBuf.length
  /-- An open connection is at work, unless an operation has failed. -/
  busy : c.reading.isSome = true ∨ c.writing.isSome = true ↔ c.isOpen = true ∧ c.failed = false

/-- The runs of the server on epoll. -/
def Epoll (e : Hello.Connection) : Prop :=
  Reach Hello.Connection.Fresh (Hello.Connection.step onEpoll) Waits e

theorem Same.closeConn (h : Same e c) : Same e.closeConn c.closeConn :=
  ⟨rfl, h.readBuf, h.writeBuf, h.writeOffset, h.requestsServed, h.sent, fun h => (by cases h)⟩

theorem Same.completed (h : Same e c) (reading : Option Nat) (writing : Option Bytes) (failed : Bool) :
    Same e { c with reading := reading, writing := writing, failed := failed } :=
  ⟨h.isOpen, h.readBuf, h.writeBuf, h.writeOffset, h.requestsServed, h.sent, h.state⟩

theorem Same.read (h : Same e c) (buf : Bytes) : Same { e with readBuf := buf } { c with readBuf := buf } :=
  ⟨h.isOpen, rfl, h.writeBuf, h.writeOffset, h.requestsServed, h.sent, h.state⟩

theorem Same.prepareResponse (h : Same e c) : Same { e.prepareResponse with wantOut := true } c.prepareResponse := by
  refine ⟨h.isOpen, h.readBuf, ?_, rfl, h.requestsServed, h.sent, fun _ => rfl⟩
  show message _ = message _
  rw [h.requestsServed]

theorem Same.reset (h : Same e c) : Same { e.resetForNextRequest with wantOut := false } c.resetForNextRequest :=
  ⟨h.isOpen, rfl, rfl, rfl, congrArg (· + 1) h.requestsServed, h.sent, fun _ => rfl⟩

theorem Same.advance (h : Same e c) (n : Nat) (bs : Bytes) :
    Same { e with writeOffset := e.writeOffset + n, sent := e.sent ++ bs.take n }
      { c with writeOffset := c.writeOffset + n, sent := c.sent ++ bs.take n } :=
  ⟨h.isOpen, h.readBuf, h.writeBuf, congrArg (· + n) h.writeOffset, h.requestsServed, congrArg (· ++ bs.take n) h.sent,
    h.state⟩

theorem length_message (keepAlive : Bool) : 0 < (message keepAlive).length := by
  cases keepAlive <;> decide +kernel

/-- A connection that is closed has nothing submitted. -/
theorem Same.sim_closed (h : Same e c) (hclosed : c.isOpen = false) (hread : c.reading = none)
    (hwrite : c.writing = none) : Sim e c := by
  refine { h with reading := fun room hroom => ?_, writing := fun bs hbs => ?_, busy := ?_ }
  · cases hread.symm.trans hroom
  · cases hwrite.symm.trans hbs
  · simp [hread, hwrite, hclosed]

theorem Epoll.hangUp (he : Epoll e) (hopen : e.isOpen = true) : Epoll e.closeConn := by
  refine Reach.next (a := .hangUp) he trivial ?_
  rw [Hello.Connection.step, if_pos hopen]

/-- The first call of the next operation, of either kind. -/
theorem startRead_sim (he : Epoll e) (h : Same e c) (hopen : c.isOpen = true) (hread : c.reading = none)
    (hwrite : c.writing = none) (hfailed : c.failed = false) (hstate : c.state = .readingHeaders) (fails : Bool) :
    ∃ e', Epoll e' ∧ Sim e' (c.startRead fails) := by
  cases fails with
  | true => exact ⟨_, he.hangUp (h.isOpen.trans hopen), h.closeConn.sim_closed rfl hread hwrite⟩
  | false =>
    refine ⟨e, he, { h with reading := fun room hroom => ?_, writing := fun bs hbs => ?_,
                            busy := ⟨fun _ => ⟨hopen, hfailed⟩, fun _ => .inl rfl⟩ }⟩
    · cases hroom
      exact ⟨hopen, hwrite, hstate, rfl⟩
    · cases hwrite.symm.trans hbs

theorem startWrite_sim (he : Epoll e) (h : Same e c) (hopen : c.isOpen = true) (hread : c.reading = none)
    (hwrite : c.writing = none) (hfailed : c.failed = false) (hwant : e.wantOut = true)
    (hlt : c.writeOffset < c.writeBuf.length) (fails : Bool) : ∃ e', Epoll e' ∧ Sim e' (c.startWrite fails) := by
  cases fails with
  | true => exact ⟨_, he.hangUp (h.isOpen.trans hopen), h.closeConn.sim_closed rfl hread hwrite⟩
  | false =>
    refine ⟨e, he, { h with reading := fun room hroom => ?_, writing := fun bs hbs => ?_,
                            busy := ⟨fun _ => ⟨hopen, hfailed⟩, fun _ => .inr rfl⟩ }⟩
    · cases hread.symm.trans hroom
    · cases hbs
      exact ⟨hopen, hread, hwant, rfl, hlt⟩

/-! ## A step -/

theorem onRead_sim {room : Nat} (he : Epoll e) (h : Sim e c) (hread : c.reading = some room) (hp : p.length ≤ room)
    (fails : Bool) : ∃ e', Epoll e' ∧ Sim e' (c.onRead p fails) := by
  obtain ⟨hopen, hwrite, hstate, rfl⟩ := h.reading room hread
  obtain ⟨-, hfailed⟩ := h.busy.mp (.inl (Option.isSome_of_eq_some hread))
  have hopen' : e.isOpen = true := h.isOpen.trans hopen
  have hstate' : e.state = .readingHeaders := (h.state hopen).trans hstate
  have htake : p.take (readBufSize - e.readBuf.length) = p := by
    rw [h.readBuf]
    exact List.take_of_length_le hp
  have hnext : Epoll (e.handleRead onEpoll [.received p]) := by
    refine Reach.next (a := .readable [.received p]) he ?_ ?_
    · show e.state ≠ .writing
      rw [hstate']
      exact fun h => by cases h
    · rw [Hello.Connection.step, if_pos hopen']
  unfold Hello.Connection.handleRead at hnext
  dsimp only at hnext
  rw [htake, h.readBuf, ← hasDoubleCrlf_eq] at hnext
  have hdone := h.completed none c.writing c.failed
  unfold onRead
  dsimp only
  split
  · rename_i hp
    rw [if_pos hp] at hnext
    exact ⟨_, hnext, hdone.closeConn.sim_closed rfl rfl hwrite⟩
  · rename_i hp
    rw [if_neg hp] at hnext
    have hread' := hdone.read (c.readBuf ++ p)
    split
    · rename_i hcrlf
      rw [if_pos (.inl hcrlf)] at hnext
      exact startWrite_sim hnext hread'.prepareResponse hopen rfl hwrite hfailed rfl (length_message _)
        fails
    · rename_i hcrlf
      rw [if_neg (by simpa [onEpoll] using hcrlf)] at hnext
      exact startRead_sim hnext hread' hopen rfl hwrite hfailed hstate fails

theorem onWrite_sim {bs : Bytes} (he : Epoll e) (h : Sim e c) (hwrite : c.writing = some bs) (hn : n ≤ bs.length)
    (fails : Bool) : ∃ e', Epoll e' ∧ Sim e' (c.onWrite bs n fails) := by
  obtain ⟨hopen, hread, hwant, rfl, hlt⟩ := h.writing bs hwrite
  obtain ⟨-, hfailed⟩ := h.busy.mp (.inr (Option.isSome_of_eq_some hwrite))
  have hopen' : e.isOpen = true := h.isOpen.trans hopen
  have hdone := h.completed c.reading none c.failed
  unfold onWrite
  dsimp only
  -- a send of nothing is no step of the server on epoll
  by_cases hzero : n = 0
  · subst hzero
    have hsame : Same e { c with
        writing := none
        writeOffset := c.writeOffset + 0
        sent := c.sent ++ (c.writeBuf.drop c.writeOffset).take 0 } :=
      { hdone with sent := h.sent.trans (List.append_nil _).symm }
    rw [if_pos (show c.writeOffset + 0 < c.writeBuf.length from hlt)]
    exact startWrite_sim he hsame hopen hread rfl hfailed hwant hlt fails
  · have hpiece : c.writeBuf.drop c.writeOffset = e.writeBuf.drop e.writeOffset := by rw [h.writeBuf, h.writeOffset]
    have hlen : n ≤ e.writeBuf.length - e.writeOffset := by
      rwa [hpiece, List.length_drop] at hn
    have hlt' : e.writeOffset < e.writeBuf.length := by rwa [h.writeBuf, h.writeOffset]
    have hnext : Epoll (e.handleWrite onEpoll [.sent n]) := by
      refine Reach.next (a := .writable [.sent n]) he trivial ?_
      rw [Hello.Connection.step, if_pos hopen', if_pos hwant]
    unfold Hello.Connection.handleWrite at hnext
    rw [if_pos hlt'] at hnext
    dsimp only at hnext
    rw [Nat.min_eq_left hlen, if_neg hzero, Hello.Connection.handleWrite] at hnext
    have hsame := hdone.advance n (e.writeBuf.drop e.writeOffset)
    rw [hpiece]
    by_cases hmore : c.writeOffset + n < c.writeBuf.length
    · have hmore' : e.writeOffset + n < e.writeBuf.length := by rwa [h.writeBuf, h.writeOffset]
      rw [if_pos hmore'] at hnext
      rw [if_pos hmore]
      exact startWrite_sim hnext hsame hopen hread rfl hfailed hwant hmore fails
    · have hmore' : ¬e.writeOffset + n < e.writeBuf.length := by rwa [h.writeBuf, h.writeOffset]
      rw [if_neg hmore', Hello.Connection.finishWriting] at hnext
      rw [if_neg hmore]
      dsimp only at hnext
      by_cases hfew : c.requestsServed + 1 < maxKeepaliveRequests
      · rw [if_pos (show e.requestsServed + 1 < maxKeepaliveRequests by rwa [h.requestsServed])] at hnext
        rw [if_pos hfew]
        exact startRead_sim hnext hsame.reset hopen hread rfl hfailed rfl fails
      · rw [if_neg (show ¬e.requestsServed + 1 < maxKeepaliveRequests by rwa [h.requestsServed])] at hnext
        rw [if_neg hfew]
        exact ⟨_, hnext, hsame.closeConn.sim_closed rfl hread rfl⟩

theorem Sim.step {a : Action} (he : Epoll e) (h : Sim e c) (hs : c.step a = some c') : ∃ e', Epoll e' ∧ Sim e' c' := by
  cases a with
  | received p fails =>
    unfold Connection.step at hs
    dsimp only at hs
    split at hs
    · rename_i room hread
      split at hs
      · rename_i hp
        cases hs
        exact onRead_sim he h hread hp fails
      · cases hs
    · cases hs
  | sent n fails =>
    unfold Connection.step at hs
    dsimp only at hs
    split at hs
    · rename_i bs hwrite
      split at hs
      · rename_i hn
        cases hs
        exact onWrite_sim he h hwrite hn fails
      · cases hs
    · cases hs
  | failed =>
    unfold Connection.step at hs
    dsimp only at hs
    split at hs
    · cases hs
      refine ⟨e, he, { h.completed none none true with reading := fun room hroom => ?_, writing := fun bs hbs => ?_,
                                                       busy := ?_ }⟩
      · cases hroom
      · cases hbs
      · simp
    · cases hs

theorem sim_fresh (h : Fresh c) : ∃ e, Epoll e ∧ Sim e c := by
  obtain ⟨fails, rfl⟩ := h
  exact startRead_sim (.start rfl) ⟨rfl, rfl, rfl, rfl, rfl, rfl, fun _ => rfl⟩ rfl rfl rfl rfl rfl fails

/-! ## Runs -/

theorem sim_of_reach (hs : Reach Fresh step (fun _ _ => True) c) : ∃ e, Epoll e ∧ Sim e c := by
  refine Reach.invariant (I := fun c => ∃ e, Epoll e ∧ Sim e c) (fun _ => sim_fresh) (fun _ _ _ h _ hs => ?_) c hs
  obtain ⟨e, he, hsim⟩ := h
  exact hsim.step he hs

/-- The connection is where one of the server on epoll is in a run in which nothing is read while there is something to
send; so all that has been sent is one whole response for each request that is counted, and what there is of the next
one. It has one operation submitted at most, and one exactly if it is open and none has failed. -/
theorem refines_onEpoll (hs : Reach Fresh step (fun _ _ => True) c) :
    (∃ e : Hello.Connection, Reach Hello.Connection.Fresh (Hello.Connection.step onEpoll) Waits e ∧
      e.isOpen = c.isOpen ∧ e.readBuf = c.readBuf ∧ e.writeBuf = c.writeBuf ∧ e.writeOffset = c.writeOffset ∧
      e.requestsServed = c.requestsServed ∧ e.sent = c.sent) ∧
    c.sent = (List.replicate c.requestsServed response).flatten ++ response.take c.writeOffset ∧
    c.requestsServed < maxKeepaliveRequests ∧ (c.reading = none ∨ c.writing = none) ∧
    (c.reading.isSome = true ∨ c.writing.isSome = true ↔ c.isOpen = true ∧ c.failed = false) := by
  obtain ⟨e, he, h⟩ := sim_of_reach hs
  have hpatient : Reach Hello.Connection.Fresh (Hello.Connection.step onEpoll) Hello.Connection.Patient e := by
    refine Reach.mono (fun e a ha => ?_) he
    cases a with
    | readable rs => exact fun hstate => absurd hstate ha
    | writable rs => trivial
    | hangUp => trivial
  obtain ⟨hi, hwhole⟩ := Hello.Connection.whole_of_reach hpatient
  refine ⟨⟨e, he, h.isOpen, h.readBuf, h.writeBuf, h.writeOffset, h.requestsServed, h.sent⟩, ?_, ?_, ?_, h.busy⟩
  · have hsent := Hello.Connection.sent_of_whole hi hwhole
    rwa [hi.rounds rfl, Nat.sub_zero, h.requestsServed, h.sent, h.writeOffset] at hsent
  · rw [← h.requestsServed]
    exact hi.few
  · cases hread : c.reading with
    | none => exact .inl rfl
    | some room => exact .inr (h.reading room hread).2.1

/-- Two requests in one receive are answered once; a send is cut in two; and then a receive fails. -/
theorem refines_onEpoll_failed : ∃ c : Connection,
    (c.requestsServed, c.sent, c.isOpen, c.failed) = (1, response, true, true) ∧
    c.sent = (List.replicate c.requestsServed response).flatten ++ response.take c.writeOffset ∧
    (c.reading.isSome = true ∨ c.writing.isSome = true ↔ c.isOpen = true ∧ c.failed = false) := by
  obtain ⟨c, hc, hobs⟩ := Option.map_eq_some_iff.mp
    (show (execAll step (fun _ _ => True)
        [.received (ascii "GET / HTTP/1.1\r\n\r\nGET / HTTP/1.1\r\n\r\n") false, .sent 50 false, .sent 53 false,
          .failed]
        (({} : Connection).startRead false)).map (fun c => (c.requestsServed, c.sent, c.isOpen, c.failed)) =
      some (1, response, true, true) by decide +kernel)
  obtain ⟨-, hsent, -, -, hbusy⟩ := refines_onEpoll (Reach.exec (.start ⟨false, rfl⟩) hc)
  exact ⟨c, hobs, hsent, hbusy⟩

end Connection

end IOContext.Hello.Overlapped
