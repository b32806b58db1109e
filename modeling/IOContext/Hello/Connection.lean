import IOContext.Base.Reach
import IOContext.Base.Search
import IOContext.Http.Machine

/-!
# The greeting servers: a connection and its readiness events

The servers on epoll, kqueue and poll have the same connection: a buffer that is read until it holds a blank line, and a
buffer with the response, of which `write_offset` bytes have been sent. A read event is handled in whatever state the
connection is, and begins the response anew while it is being sent.

- What is sent are pieces of the one response: the whole of it for each request that is counted as served, what had
  been sent of it each time it was begun anew, and what has been sent of the last one (`sent_pieces`). The server on
  poll also counts the rounds in which there was nothing to send.
- As long as nothing is read while a response has been sent in part, these are whole responses (`whole_responses`);
  otherwise a client gets the beginning of one and then another one.
-/

namespace IOContext.Hello

open Search

/-! ## Tunables and data -/

def readBufSize : Nat := 4096

def maxKeepaliveRequests : Nat := 100

inductive ConnState
  | readingHeaders
  | writing
  | closing
deriving DecidableEq, Repr

/-- The message of `prepare_response`. -/
def message (keepAlive : Bool) : Bytes :=
  ascii "HTTP/1.1 200 OK\r\nContent-Type: text/plain\r\nContent-Length: 14\r\n" ++
    (if keepAlive then ascii "Connection: keep-alive\r\n\r\n" else ascii "Connection: close\r\n\r\n") ++
    ascii "Hello, World!\n"

/-- A connection; `readBuf` and `writeBuf` are the first `read_len` and `write_len` bytes of its buffers. -/
structure Connection where
  /-- The descriptor is not -1. -/
  isOpen : Bool := true
  state : ConnState := .readingHeaders
  readBuf : Bytes := []
  writeBuf : Bytes := []
  writeOffset : Nat := 0
  requestsServed : Nat := 0
  /-- The kernel is asked for the events of a descriptor that can be written to. -/
  wantOut : Bool := false
  /-- The bytes that have been sent. -/
  sent : Bytes := []
  /-- How much of each response that is over had been sent. -/
  cuts : List Nat := []
  /-- The write events with nothing to send. -/
  rounds : Nat := 0
deriving DecidableEq, Repr

/-- What `recv` answers. -/
inductive RecvResult
  | received (p : Bytes)
  | wouldBlock
  | failed
deriving DecidableEq, Repr

/-- What `send` answers. -/
inductive SendResult
  | sent (n : Nat)
  | wouldBlock
  | failed
deriving DecidableEq, Repr

/-- Where the servers differ: whether a full buffer is answered, and whether write events are still asked for when a
response has been sent. -/
structure Variant where
  answersFull : Bool
  keepsOut : Bool
deriving DecidableEq, Repr

def onEpoll : Variant := ⟨false, false⟩

def onKqueue : Variant := ⟨true, false⟩

def onPoll : Variant := ⟨false, true⟩

namespace Connection

/-! ## The operations -/

/-- A response that is begun anew is over. -/
def prepareResponse (c : Connection) : Connection :=
  { c with
    writeBuf := message (c.requestsServed < maxKeepaliveRequests)
    writeOffset := 0
    state := .writing
    cuts := if c.state = .writing then c.cuts ++ [c.writeOffset] else c.cuts }

/-- A response that has been sent is over. -/
def resetForNextRequest (c : Connection) : Connection :=
  { c with
    readBuf := []
    writeBuf := []
    writeOffset := 0
    state := .readingHeaders
    requestsServed := c.requestsServed + 1
    cuts := if c.writeBuf = [] then c.cuts else c.cuts ++ [c.writeOffset]
    rounds := if c.writeBuf = [] then c.rounds + 1 else c.rounds }

/-- The servers on epoll and kqueue leave the state of a connection that hung up as it is; nothing looks at it again. -/
def closeConn (c : Connection) : Connection := { c with isOpen := false, state := .closing }

/-- The loop of `handle_read`; `recv` gets what there is room for, and answers 0 where there is none. -/
def handleRead (v : Variant) : List RecvResult → Connection → Connection
  | [], c => c
  | .received p :: rs, c =>
    let p := p.take (readBufSize - c.readBuf.length)
    if p = [] then c.closeConn
    else
      let c := { c with readBuf := c.readBuf ++ p }
      if (find [CR, LF, CR, LF] c.readBuf).isSome ∨ v.answersFull = true ∧ c.readBuf.length = readBufSize then
        { c.prepareResponse with wantOut := true }
      else handleRead v rs c
  | .wouldBlock :: _, c => c
  | .failed :: _, c => c.closeConn

/-- All of the response has been sent. -/
def finishWriting (v : Variant) (c : Connection) : Connection :=
  if c.requestsServed + 1 < maxKeepaliveRequests then { c.resetForNextRequest with wantOut := v.keepsOut }
  else c.closeConn

/-- The loop of `handle_write`; without an answer `send` would block. -/
def handleWrite (v : Variant) : List SendResult → Connection → Connection
  | [], c => if c.writeOffset < c.writeBuf.length then c else c.finishWriting v
  | r :: rs, c =>
    if c.writeOffset < c.writeBuf.length then
      match r with
      | .sent n =>
        let n := min n (c.writeBuf.length - c.writeOffset)
        if n = 0 then c.closeConn
        else
          handleWrite v rs
            { c with
              writeOffset := c.writeOffset + n
              sent := c.sent ++ (c.writeBuf.drop c.writeOffset).take n }
      | .wouldBlock => c
      | .failed => c.closeConn
    else c.finishWriting v

/-- The events of a connection; those that tell of an error or a hang-up close it, as its timeout does. -/
inductive Action
  | readable (rs : List RecvResult)
  | writable (rs : List SendResult)
  | hangUp
deriving DecidableEq, Repr

def step (v : Variant) (c : Connection) (a : Action) : Option Connection :=
  if c.isOpen then
    match a with
    | .readable rs => some (c.handleRead v rs)
    | .writable rs => if c.wantOut then some (c.handleWrite v rs) else none
    | .hangUp => some c.closeConn
  else none

/-- A connection that has just been accepted. -/
def Fresh (c : Connection) : Prop := c = {}

/-! ## Pieces of the response -/

/-- What is sent to every client. -/
def response : Bytes := message true

/-- The pieces, and how many of them are whole. -/
structure Inv (v : Variant) (c : Connection) : Prop where
  sent : c.sent = c.cuts.flatMap (fun k => response.take k) ++ response.take c.writeOffset
  whole : c.cuts.count response.length + c.rounds = c.requestsServed
  few : c.requestsServed < maxKeepaliveRequests
  rounds : v.keepsOut = false → c.rounds = 0
  writing : c.state = .writing → c.writeBuf = response ∧ c.writeOffset ≤ response.length
  reading : c.state = .readingHeaders → c.writeBuf = [] ∧ c.writeOffset = 0
  out : v.keepsOut = false → c.wantOut = true → c.state ≠ .readingHeaders
  live : c.isOpen = true → c.state ≠ .closing

variable {v : Variant} {c c' : Connection}

theorem length_response : response.length = 103 := by decide +kernel

theorem Inv.closeConn (h : Inv v c) : Inv v c.closeConn :=
  ⟨h.sent, h.whole, h.few, h.rounds, fun h => (by cases h), fun h => (by cases h), fun _ _ h => (by cases h),
    fun h => (by cases h)⟩

/-- A response is begun: the first one, or one in place of one that has not been sent to its end. -/
theorem Inv.prepareResponse (h : Inv v c) (hopen : c.state ≠ .closing)
    (hrest : c.state = .writing → c.writeOffset < response.length) :
    Inv v { c.prepareResponse with wantOut := true } := by
  have hkeep : decide (c.requestsServed < maxKeepaliveRequests) = true := decide_eq_true h.few
  unfold Connection.prepareResponse
  rw [hkeep]
  cases hstate : c.state with
  | closing => exact absurd hstate hopen
  | readingHeaders =>
    have hsent := h.sent
    rw [(h.reading hstate).2] at hsent
    exact ⟨by simpa using hsent, h.whole, h.few, h.rounds, fun _ => ⟨rfl, Nat.zero_le _⟩, fun h => (by cases h),
      fun _ _ h => (by cases h), fun _ h => (by cases h)⟩
  | writing =>
    have hlt := hrest hstate
    refine ⟨?_, ?_, h.few, h.rounds, fun _ => ⟨rfl, Nat.zero_le _⟩, fun h => (by cases h), fun _ _ h => (by cases h),
      fun _ h => (by cases h)⟩
    · have hsent := h.sent
      simpa using hsent
    · have hne : c.writeOffset ≠ response.length := Nat.ne_of_lt hlt
      have hwhole := h.whole
      simpa [List.count_append, List.count_singleton, hne] using hwhole

theorem Inv.handleRead : ∀ (rs : List RecvResult) {c : Connection}, Inv v c → c.state ≠ .closing →
    (c.state = .writing → c.writeOffset < response.length) → Inv v (c.handleRead v rs)
  | [], _, h, _, _ => h
  | .received p :: rs, c, h, hopen, hrest => by
    unfold Connection.handleRead
    dsimp only
    split
    · exact h.closeConn
    · have hread : ∀ buf, Inv v { c with readBuf := buf } := fun buf =>
        ⟨h.sent, h.whole, h.few, h.rounds, h.writing, h.reading, h.out, h.live⟩
      split
      · exact (hread _).prepareResponse hopen hrest
      · exact (hread _).handleRead rs hopen hrest
  | .wouldBlock :: _, _, h, _, _ => h
  | .failed :: _, _, h, _, _ => h.closeConn

theorem Inv.finishWriting (h : Inv v c) (hopen : c.state ≠ .closing) (hwant : c.wantOut = true)
    (hend : ¬c.writeOffset < c.writeBuf.length) : Inv v (c.finishWriting v) := by
  unfold Connection.finishWriting
  split
  · rename_i hfew
    unfold Connection.resetForNextRequest
    cases hstate : c.state with
    | closing => exact absurd hstate hopen
    | readingHeaders =>
      obtain ⟨hbuf, hoff⟩ := h.reading hstate
      rw [hbuf]
      simp only [if_true]
      refine ⟨?_, ?_, hfew, fun hv => absurd hstate (h.out hv hwant), fun h => (by cases h), fun _ => ⟨rfl, rfl⟩,
        fun hv hw => ?_, fun _ h => (by cases h)⟩
      · have hsent := h.sent
        rwa [hoff] at hsent
      · have hwhole := h.whole
        simp only
        omega
      · rw [hv] at hw
        cases hw
    | writing =>
      obtain ⟨hbuf, hle⟩ := h.writing hstate
      have hoff : c.writeOffset = response.length := by
        rw [hbuf] at hend
        omega
      have hne : response ≠ [] := fun h => by
        have hlen := length_response
        rw [h] at hlen
        cases hlen
      rw [hbuf]
      simp only [if_neg hne]
      refine ⟨?_, ?_, hfew, h.rounds, fun h => (by cases h), fun _ => ⟨rfl, rfl⟩, fun hv hw => ?_,
        fun _ h => (by cases h)⟩
      · have hsent := h.sent
        simpa using hsent
      · have hwhole := h.whole
        rw [hoff, List.count_append, List.count_singleton, beq_self_eq_true, if_pos rfl]
        simp only
        omega
      · rw [hv] at hw
        cases hw
  · exact h.closeConn

/-- Between two events a response that is being written has bytes left. -/
def Rest (c : Connection) : Prop := c.state = .writing → c.writeOffset < response.length

theorem rest_finishWriting (c : Connection) : Rest (c.finishWriting v) := by
  unfold Connection.finishWriting
  split <;> exact fun h => by cases h

theorem Inv.writing_of_lt (h : Inv v c) (hopen : c.state ≠ .closing) (hlt : c.writeOffset < c.writeBuf.length) :
    c.state = .writing := by
  cases hstate : c.state with
  | readingHeaders =>
    rw [(h.reading hstate).1] at hlt
    exact absurd hlt (Nat.not_lt_zero _)
  | writing => rfl
  | closing => exact absurd hstate hopen

/-- One more piece of the response is sent. -/
theorem Inv.advance {n : Nat} (h : Inv v c) (hstate : c.state = .writing) (hn : n ≤ c.writeBuf.length - c.writeOffset) :
    Inv v
      { c with
        writeOffset := c.writeOffset + n
        sent := c.sent ++ (c.writeBuf.drop c.writeOffset).take n } := by
  obtain ⟨hbuf, hle⟩ := h.writing hstate
  rw [hbuf] at hn
  refine ⟨?_, h.whole, h.few, h.rounds, fun _ => ⟨hbuf, ?_⟩, fun h => ?_, h.out, h.live⟩
  · have hpiece : response.take c.writeOffset ++ (response.drop c.writeOffset).take n =
        response.take (c.writeOffset + n) := by rw [List.take_add]
    dsimp only
    rw [h.sent, hbuf, List.append_assoc, hpiece]
  · dsimp only
    omega
  · cases hstate.symm.trans h

theorem Inv.handleWrite : ∀ (rs : List SendResult) {c : Connection}, Inv v c → c.state ≠ .closing → c.wantOut = true →
    Inv v (c.handleWrite v rs) ∧ Rest (c.handleWrite v rs)
  | [], c, h, hopen, hwant => by
    unfold Connection.handleWrite
    split
    · rename_i hlt
      refine ⟨h, fun hstate => ?_⟩
      rwa [(h.writing hstate).1] at hlt
    · rename_i hend
      exact ⟨h.finishWriting hopen hwant hend, rest_finishWriting c⟩
  | r :: rs, c, h, hopen, hwant => by
    unfold Connection.handleWrite
    split
    · rename_i hlt
      have hstate := h.writing_of_lt hopen hlt
      cases r with
      | sent n =>
        dsimp only
        split
        · exact ⟨h.closeConn, fun h => by cases h⟩
        · exact (h.advance hstate (Nat.min_le_right _ _)).handleWrite rs hopen hwant
      | wouldBlock =>
        rw [(h.writing hstate).1] at hlt
        exact ⟨h, fun _ => hlt⟩
      | failed => exact ⟨h.closeConn, fun h => by cases h⟩
    · rename_i hend
      exact ⟨h.finishWriting hopen hwant hend, rest_finishWriting c⟩

theorem rest_handleRead : ∀ (rs : List RecvResult) {c : Connection}, Rest c → Rest (c.handleRead v rs)
  | [], _, h => h
  | .received p :: rs, c, h => by
    unfold Connection.handleRead
    dsimp only
    split
    · exact fun h => by cases h
    · split
      · intro _
        show 0 < response.length
        rw [length_response]
        omega
      · exact rest_handleRead rs h
  | .wouldBlock :: _, _, h => h
  | .failed :: _, _, _ => fun h => by cases h

/-! ## Runs -/

/-- Nothing is read while a response has been sent in part. -/
def Patient (c : Connection) : Action → Prop
  | .readable _ => c.state = .writing → c.writeOffset = 0
  | .writable _ | .hangUp => True

instance (c : Connection) (a : Action) : Decidable (c.Patient a) := by
  cases a <;> unfold Patient <;> infer_instance

theorem Inv.step {a : Action} (h : Inv v c) (hrest : Rest c) (hs : c.step v a = some c') : Inv v c' ∧ Rest c' := by
  unfold Connection.step at hs
  split at hs
  · rename_i hopen
    cases a with
    | readable rs =>
      cases hs
      exact ⟨h.handleRead rs (h.live hopen) hrest, rest_handleRead rs hrest⟩
    | writable rs =>
      dsimp only at hs
      split at hs
      · rename_i hwant
        cases hs
        exact h.handleWrite rs (h.live hopen) hwant
      · cases hs
    | hangUp =>
      cases hs
      exact ⟨h.closeConn, fun h => by cases h⟩
  · cases hs

theorem inv_fresh (h : c.Fresh) : Inv v c ∧ Rest c := by
  rw [h]
  exact ⟨⟨rfl, rfl, Nat.zero_lt_succ _, fun _ => rfl, fun h => (by cases h), fun _ => ⟨rfl, rfl⟩,
    fun _ h => (by cases h), fun _ h => (by cases h)⟩, fun h => by cases h⟩

/-- In every run, whatever the events and the answers of the kernel: what has been sent are pieces of one and the same
response, which says that the connection is kept; each request that is counted as served has got a whole one, or is a
write event with nothing to send, which only the server on poll has; and the connection is closed before the count gets
to a hundred. -/
theorem sent_pieces (hs : Reach Fresh (step v) (fun _ _ => True) c) :
    c.sent = c.cuts.flatMap (fun k => response.take k) ++ response.take c.writeOffset ∧
      c.cuts.count response.length + c.rounds = c.requestsServed ∧ c.requestsServed < maxKeepaliveRequests ∧
      (v.keepsOut = false → c.rounds = 0) := by
  have h : Inv v c ∧ Rest c := Reach.invariant (fun _ => inv_fresh) (fun _ _ _ h _ hs => h.1.step h.2 hs) c hs
  exact ⟨h.1.sent, h.1.whole, h.1.few, h.1.rounds⟩

/-- A response that is partly sent when the client goes on sending is begun anew: 50 bytes of it, and then all of it. -/
theorem sent_pieces_anew :
    ∃ c : Connection, c.sent = response.take 50 ++ response ∧
      (c.sent = c.cuts.flatMap (fun k => response.take k) ++ response.take c.writeOffset ∧
        c.cuts.count response.length + c.rounds = c.requestsServed ∧ c.requestsServed < maxKeepaliveRequests ∧
        (onEpoll.keepsOut = false → c.rounds = 0)) := by
  obtain ⟨c, hc, hobs⟩ := Option.map_eq_some_iff.mp
    (show (execAll (step onEpoll) (fun _ _ => True)
        [.readable [.received (ascii "GET / HTTP/1.1\r\n\r\n")], .writable [.sent 50, .wouldBlock],
          .readable [.received (ascii "G"), .wouldBlock], .writable [.sent 103]] {}).map (fun c => c.sent) =
        some (response.take 50 ++ response) by decide +kernel)
  exact ⟨c, hobs, sent_pieces (Reach.exec (.start rfl) hc)⟩

/-! ## Clients that wait -/

/-- Each response that is over has been sent to its end, or not at all. -/
def Whole (c : Connection) : Prop := ∀ k ∈ c.cuts, k = 0 ∨ k = response.length

theorem flatMap_take_whole {cuts : List Nat} (h : ∀ k ∈ cuts, k = 0 ∨ k = response.length) :
    cuts.flatMap (fun k => response.take k) = (List.replicate (cuts.count response.length) response).flatten := by
  induction cuts with
  | nil => rfl
  | cons k cuts ih =>
    have ih := ih fun k hk => h k (List.mem_cons_of_mem _ hk)
    obtain rfl | rfl := h k List.mem_cons_self
    · have hne : (0 : Nat) ≠ response.length := by
        rw [length_response]
        omega
      rw [List.flatMap_cons, List.take_zero, List.nil_append, List.count_cons_of_ne hne, ih]
    · rw [List.flatMap_cons, List.take_length, List.count_cons_self, List.replicate_succ, List.flatten_cons, ih]

theorem Whole.append {cuts : List Nat} {n : Nat} (h : ∀ k ∈ cuts, k = 0 ∨ k = response.length)
    (hn : n = 0 ∨ n = response.length) : ∀ k ∈ cuts ++ [n], k = 0 ∨ k = response.length := by
  intro j hj
  obtain hj | hj := List.mem_append.mp hj
  · exact h j hj
  · rwa [List.mem_singleton.mp hj]

theorem Whole.handleRead : ∀ (rs : List RecvResult) {c : Connection}, Whole c →
    (c.state = .writing → c.writeOffset = 0) → Whole (c.handleRead v rs)
  | [], _, h, _ => h
  | .received p :: rs, c, h, hzero => by
    unfold Connection.handleRead
    dsimp only
    split
    · exact h
    · split
      · show ∀ k ∈ (if c.state = .writing then c.cuts ++ [c.writeOffset] else c.cuts), _
        split
        · rename_i hstate
          exact Whole.append h (.inl (hzero hstate))
        · exact h
      · exact Whole.handleRead rs h hzero
  | .wouldBlock :: _, _, h, _ => h
  | .failed :: _, _, h, _ => h

theorem Whole.finishWriting (hi : Inv v c) (h : Whole c) (hopen : c.state ≠ .closing)
    (hend : ¬c.writeOffset < c.writeBuf.length) : Whole (c.finishWriting v) := by
  unfold Connection.finishWriting
  split
  · show ∀ k ∈ (if c.writeBuf = [] then c.cuts else c.cuts ++ [c.writeOffset]), _
    split
    · exact h
    · rename_i hne
      cases hstate : c.state with
      | closing => exact absurd hstate hopen
      | readingHeaders => exact absurd (hi.reading hstate).1 hne
      | writing =>
        obtain ⟨hbuf, hle⟩ := hi.writing hstate
        rw [hbuf] at hend
        exact Whole.append h (.inr (Nat.le_antisymm hle (Nat.not_lt.mp hend)))
  · exact h

theorem Whole.handleWrite : ∀ (rs : List SendResult) {c : Connection}, Inv v c → Whole c → c.state ≠ .closing →
    Whole (c.handleWrite v rs)
  | [], c, hi, h, hopen => by
    unfold Connection.handleWrite
    split
    · exact h
    · rename_i hend
      exact h.finishWriting hi hopen hend
  | r :: rs, c, hi, h, hopen => by
    unfold Connection.handleWrite
    split
    · rename_i hlt
      have hstate := hi.writing_of_lt hopen hlt
      cases r with
      | sent n =>
        dsimp only
        split
        · exact h
        · exact Whole.handleWrite rs (hi.advance hstate (Nat.min_le_right _ _)) h hopen
      | wouldBlock => exact h
      | failed => exact h
    · rename_i hend
      exact h.finishWriting hi hopen hend

theorem Whole.step {a : Action} (hi : Inv v c) (h : Whole c) (ha : c.Patient a) (hs : c.step v a = some c') :
    Whole c' := by
  unfold Connection.step at hs
  split at hs
  · rename_i hopen
    cases a with
    | readable rs =>
      cases hs
      exact h.handleRead rs ha
    | writable rs =>
      dsimp only at hs
      split at hs
      · cases hs
        exact h.handleWrite rs hi (hi.live hopen)
      · cases hs
    | hangUp =>
      cases hs
      exact h
  · cases hs

theorem whole_of_reach (hs : Reach Fresh (step v) Patient c) : Inv v c ∧ Whole c := by
  have h : (Inv v c ∧ Rest c) ∧ Whole c := by
    refine Reach.invariant (I := fun c => (Inv v c ∧ Rest c) ∧ Whole c) (fun c h => ⟨inv_fresh h, ?_⟩)
      (fun _ _ _ h ha hs => ⟨h.1.1.step h.1.2 hs, h.2.step h.1.1 ha hs⟩) c hs
    intro k hk
    rw [h] at hk
    cases hk
  exact ⟨h.1.1, h.2⟩

theorem sent_of_whole (hi : Inv v c) (h : Whole c) :
    c.sent = (List.replicate (c.requestsServed - c.rounds) response).flatten ++ response.take c.writeOffset := by
  have hcount : c.requestsServed - c.rounds = c.cuts.count response.length := by
    rw [← hi.whole]
    exact Nat.add_sub_cancel _ _
  rw [hcount, ← flatMap_take_whole h]
  exact hi.sent

/-- To a client that sends nothing while a response is partly sent, whole responses are sent and what there is of the
next one: one for each request that is counted, the rounds with nothing to send apart. -/
theorem whole_responses (hs : Reach Fresh (step v) Patient c) :
    c.sent = (List.replicate (c.requestsServed - c.rounds) response).flatten ++ response.take c.writeOffset := by
  obtain ⟨hi, h⟩ := whole_of_reach hs
  exact sent_of_whole hi h

/-- On poll, with 90 rounds between two requests. -/
theorem whole_responses_idle :
    ∃ c : Connection, (c.requestsServed = 92 ∧ c.rounds = 90) ∧
      c.sent = (List.replicate (c.requestsServed - c.rounds) response).flatten ++ response.take c.writeOffset := by
  obtain ⟨c, hc, hobs⟩ := Option.map_eq_some_iff.mp
    (show (execAll (step onPoll) Patient
        ([.readable [.received (ascii "GET / HTTP/1.1\r\n\r\n")], .writable [.sent 103]] ++
          List.replicate 90 (.writable []) ++
          [.readable [.received (ascii "GET / HTTP/1.1\r\n\r\n")], .writable [.sent 50, .wouldBlock],
            .writable [.sent 53]]) {}).map (fun c => (c.requestsServed, c.rounds)) = some (92, 90) by decide +kernel)
  simp only [Prod.mk.injEq] at hobs
  exact ⟨c, hobs, whole_responses (Reach.exec (.start rfl) hc)⟩

end Connection

end IOContext.Hello
