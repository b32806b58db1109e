import IOContext.Base.Reach
import IOContext.Prototype.Segments

/-!
# The io_uring prototype: a connection

What is received is parsed at once and the responses are queued; a send takes the front of the queue, no further than
the end of a response, and the next one is started when it has completed. If there is no room in the ring, the batch is
put back and a task is posted that tries again, and if there is no room for the task either, it is tried again at once.

The result of a send is not looked at unless it is an error, and a completion is known by the descriptor and the kind of
its tag alone. So the results here are for runs in which a send takes all that it is given, and in which no completion
under the number of the connection is that of something else (`Orderly`): the slot of a message to the ring keeps the
tag that it had, and a descriptor may have been that of a connection before.

- What the parser takes off is a matter of the bytes alone (`Takes`, `takes_append`).
- A batch is one whole response (`gather_responses`), so that the queue begins with a response at any time (`Books`).
- One response has been queued for each of the requests received, in order, and what has been sent are these responses
  (`answers_sent`); what is queued is on its way (`under_way`).
- The connection is closed once a response has been sent behind which the request that was parsed last did not ask to
  go on. To a client that waits for its responses it is closed behind the response that says so (`closed_as_told`).
-/

namespace IOContext.Prototype

open Search PerClientStorage

/-! ## Parsing -/

/-- The inner loop; `none` is a loop that does not end. -/
def loop : Nat → PerClientStorage → Option PerClientStorage
  | 0, _ => none
  | fuel + 1, c =>
    match c.turn with
    | .stop c => some c
    | .emit c => loop fuel c

/-- A loop that ends takes something off in each turn. -/
def parse (c : PerClientStorage) : Option PerClientStorage := loop (c.acc.length + 1) c

def parseSegments : List Bytes → PerClientStorage → Option PerClientStorage
  | [], c => some c
  | p :: ps, c => (parse (c.push p)).bind (parseSegments ps)

/-! ## The state -/

def maxIov : Nat := 8

structure Connection extends Rx where
  /-- The descriptor is in the table. -/
  isOpen : Bool := true
  closing : Bool := false
  txInflight : List OwnedBuf := []
  sendInflight : Bool := false
  inflightEor : Bool := false
  polloutArmed : Bool := false
  /-- What has been submitted and has not completed: sends, polls, SendKick tasks and closes. -/
  sends : List (List OwnedBuf) := []
  polls : Nat := 0
  kicks : Nat := 0
  closes : Nat := 0
  /-- All that has been received, and all that sends have taken. -/
  received : Bytes := []
  sent : Bytes := []
  /-- There was no room for a poll. -/
  refused : Bool := false
  /-- The client has gone, or a send has failed. -/
  broken : Bool := false
deriving DecidableEq, Repr

/-- The bytes of buffers. -/
def wire (bufs : List OwnedBuf) : Bytes := bufs.flatMap (·.bytes)

theorem wire_append (bufs bufs' : List OwnedBuf) : wire (bufs ++ bufs') = wire bufs ++ wire bufs' := List.flatMap_append

namespace Connection

/-! ## The operations -/

/-- `Worker::parse_step` -/
def parseStep (clock : List Nat) (c : Connection) : Option Connection :=
  (parseSegments (batches procMaxSegments clock c.rxq).1 c.client).map fun client =>
    { c with client := client, rxq := (batches procMaxSegments clock c.rxq).2 }

/-- Up to `n` buffers, and no further than the end of a response; whether it is there. -/
def gather : Nat → List OwnedBuf → List OwnedBuf × Bool
  | 0, _ | _, [] => ([], false)
  | n + 1, b :: q => if b.eor then ([b], true) else (b :: (gather n q).1, (gather n q).2)

/-- The batch goes to the front of the queue again. -/
def putBack (c : Connection) : Connection :=
  { c with
    client := { c.client with txq := c.txInflight ++ c.client.txq }
    txInflight := []
    sendInflight := false
    inflightEor := false }

mutual

/-- `sendkick_inline`, when the next `fails` calls of `get_sqe_or_submit` find no room. -/
def sendkickInline : Nat → Connection → Connection
  | fails, c =>
    if c.sendInflight || c.client.txq.isEmpty then c
    else
      let batch := gather maxIov c.client.txq
      let c := { c with
        client := { c.client with txq := c.client.txq.drop batch.1.length }
        txInflight := batch.1
        sendInflight := true
        inflightEor := batch.2 }
      match fails with
      | 0 => { c with sends := c.sends ++ [batch.1] }
      | fails + 1 => postSendKick fails c.putBack

/-- `post_task` of a SendKick. -/
def postSendKick : Nat → Connection → Connection
  | 0, c => { c with kicks := c.kicks + 1 }
  | fails + 1, c => sendkickInline fails c

end

/-- `sqe` tells if there is room for it. -/
def closeAsync (sqe : Bool) (c : Connection) : Connection := if sqe then { c with closes := c.closes + 1 } else c

def armPollout (sqe : Bool) (c : Connection) : Connection :=
  if c.polloutArmed then c
  else if sqe then { c with polloutArmed := true, polls := c.polls + 1 }
  else { c with refused := true }

/-- The response counts if the batch ended one; whether the connection is to be closed. -/
def onSendComplete (c : Connection) : Connection × Bool :=
  let finished := c.inflightEor
  let c := { c with txInflight := [], sendInflight := false, inflightEor := false }
  if finished then
    let c := { c with client := { c.client with served := c.client.served + 1 } }
    (c, c.client.keepaliveLimit.toUInt32 ≤ c.client.served || !c.client.keepAlive || c.closing)
  else (c, false)

/-- A Recv completion that brings bytes. -/
def handleRecv (p : Bytes) (clock : List Nat) (fails : Nat) (c : Connection) : Option Connection :=
  (({ c with rxq := c.rxq ++ [p], received := c.received ++ p } : Connection).parseStep clock).map fun c =>
    if !c.sendInflight && !c.client.txq.isEmpty then c.sendkickInline fails else c

/-- A Send completion that is not an error. -/
def handleSent (fails : Nat) (sqe : Bool) (c : Connection) : Connection :=
  if c.onSendComplete.2 then ({ c.onSendComplete.1 with closing := true } : Connection).closeAsync sqe
  else c.onSendComplete.1.sendkickInline fails

/-- The kind of a completion, and what is read from its result. -/
inductive Completion
  | received (p : Bytes) (clock : List Nat) (fails : Nat)
  /-- Not for an operation that is not supported, which is only asked for again. -/
  | recvEnded (sqe : Bool)
  | sent (res fails : Nat) (sqe : Bool)
  | sendBlocked (sqe : Bool)
  | sendFailed (sqe : Bool)
  | pollOut (fails : Nat)
  | kick (fails : Nat)
  | closed
deriving DecidableEq, Repr

/-- The branches of the switch in which the connection is looked up. A parser that does not come to its end has no
result. -/
def handle (c : Connection) : Completion → Option Connection
  | .received p clock fails => if p = [] then none else c.handleRecv p clock fails
  | .recvEnded sqe | .sendFailed sqe => some (({ c with closing := true, broken := true } : Connection).closeAsync sqe)
  -- how much has been sent is not looked at
  | .sent _ fails sqe => some (c.handleSent fails sqe)
  | .sendBlocked sqe => some (c.putBack.armPollout sqe)
  | .pollOut fails => some (({ c with polloutArmed := false } : Connection).sendkickInline fails)
  | .kick fails => some (c.sendkickInline fails)
  | .closed => some { c with isOpen := false }

/-- An operation of the connection completes. -/
def complete (c : Connection) : Completion → Option Connection
  | .received .. | .recvEnded _ => some c
  | .sent res _ _ =>
    match c.sends with
    | [] => none
    | b :: sends =>
      if res ≤ (wire b).length then some { c with sends := sends, sent := c.sent ++ (wire b).take res } else none
  | .sendBlocked _ | .sendFailed _ =>
    match c.sends with
    | [] => none
    | _ :: sends => some { c with sends := sends }
  | .pollOut _ => if 0 < c.polls then some { c with polls := c.polls - 1 } else none
  | .kick _ => if 0 < c.kicks then some { c with kicks := c.kicks - 1 } else none
  | .closed => if 0 < c.closes then some { c with closes := c.closes - 1 } else none

inductive Action
  | own (x : Completion)
  /-- The completion of something else, under the number of the connection: of a message to the ring, which goes by the
  tag that its slot had before, or of an operation of an earlier connection. -/
  | stray (x : Completion)
deriving DecidableEq, Repr

/-- The completions come in any order. -/
def step (c : Connection) (a : Action) : Option Connection :=
  if c.isOpen then
    match a with
    | .own x => (c.complete x).bind fun c => c.handle x
    | .stray x => c.handle x
  else none

/-- A completion is that of an operation of the connection, and a send takes all that it is given. -/
def Orderly (c : Connection) : Action → Prop
  | .own (.sent res _ _) => ∀ b ∈ c.sends.head?, res = (wire b).length
  | .own _ => True
  | .stray _ => False

instance (c : Connection) (a : Action) : Decidable (c.Orderly a) := by
  unfold Orderly
  split <;> infer_instance

/-- A connection that has just been accepted. -/
def Fresh (c : Connection) : Prop := ∃ limit, c = { client := { keepaliveLimit := limit } }

end Connection

/-! ## What the parser takes off -/

/-- The requests at the front of `s`, whether each of them keeps the connection, and what is left. -/
inductive Takes : Bytes → List Bool → Bytes → Prop
  | stop {s : Bytes} : (∀ hdrEnd, findHdrEnd s = some hdrEnd → s.length < requestSize s hdrEnd) → Takes s [] s
  | take {s rest : Bytes} {ks : List Bool} {hdrEnd : Nat} : findHdrEnd s = some hdrEnd →
      requestSize s hdrEnd ≤ s.length → Takes (s.drop (requestSize s hdrEnd)) ks rest →
      Takes s ((scanHeaders s hdrEnd).1 :: ks) rest

theorem takes_nil {s rest : Bytes} (h : Takes s [] rest) : rest = s := by
  cases h
  rfl

/-- The requests in what is left together with more are those that come behind. -/
theorem takes_append {s q rest rest' : Bytes} {ks ks' : List Bool} (h : Takes s ks rest)
    (h' : Takes (rest ++ q) ks' rest') : Takes (s ++ q) (ks ++ ks') rest' := by
  induction h with
  | stop => exact h'
  | @take s rest ks hdrEnd hf hsize _ ih =>
    have hdrop : (s ++ q).drop (requestSize s hdrEnd) = s.drop (requestSize s hdrEnd) ++ q :=
      List.drop_append_of_le_length hsize
    have hlen : requestSize s hdrEnd ≤ (s ++ q).length := by
      rw [List.length_append]
      omega
    have ih := ih h'
    rw [← hdrop] at ih
    rw [← requestSize_append hf q] at ih hlen
    rw [List.cons_append, ← scanHeaders_append hf q]
    exact .take (find_append hf q) hlen ih

namespace PerClientStorage

variable {c c' c₁ : PerClientStorage} {n : Nat} {p : Bytes} {ps : List Bytes}

/-- The header of a response keeps the connection if the request does, as long as the limit allows another one. -/
def keeps (c : PerClientStorage) (k : Bool) : Bool := k && c.served < c.keepaliveLimit.toUInt32 - 1

/-- What the inner loop, and the parsing of several segments, has done when `ks` are the requests taken off. -/
structure Answered (c : PerClientStorage) (ks : List Bool) (c' : PerClientStorage) : Prop where
  txq : c'.txq = c.txq ++ (ks.map c.keeps).flatMap responseOf
  served : c'.served = c.served
  limit : c'.keepaliveLimit = c.keepaliveLimit

theorem turn_emit_answered (h : c.turn = .emit c₁) : ∃ hdrEnd, findHdrEnd c.acc = some hdrEnd ∧
    requestSize c.acc hdrEnd ≤ c.acc.length ∧ c₁.acc = c.acc.drop (requestSize c.acc hdrEnd) ∧
    c₁.keepAlive = (scanHeaders c.acc hdrEnd).1 ∧ Answered c [(scanHeaders c.acc hdrEnd).1] c₁ := by
  unfold turn at h
  split at h
  · cases h
  · rename_i hdrEnd hf
    dsimp only at h
    split at h
    · cases h
    · rename_i hsize
      cases h
      exact ⟨hdrEnd, hf, Nat.not_lt.mp hsize, rfl, rfl, rfl, rfl, rfl⟩

theorem turn_stop_same (h : c.turn = .stop c₁) :
    (∀ hdrEnd, findHdrEnd c.acc = some hdrEnd → c.acc.length < requestSize c.acc hdrEnd) ∧ c₁.acc = c.acc ∧
      Answered c [] c₁ := by
  unfold turn at h
  split at h
  · rename_i hf
    cases h
    exact ⟨fun hdrEnd h => (by rw [hf] at h; cases h), rfl, (List.append_nil _).symm, rfl, rfl⟩
  · rename_i hdrEnd hf
    dsimp only at h
    split at h
    · rename_i hsize
      cases h
      refine ⟨fun hdrEnd' h => ?_, rfl, (List.append_nil _).symm, rfl, rfl⟩
      cases hf.symm.trans h
      exact hsize
    · cases h

theorem Answered.trans {ks ks' : List Bool} (h : Answered c ks c₁) (h' : Answered c₁ ks' c') :
    Answered c (ks ++ ks') c' := by
  have hkeeps : c₁.keeps = c.keeps := by
    funext k
    rw [keeps, keeps, h.served, h.limit]
  refine ⟨?_, h'.served.trans h.served, h'.limit.trans h.limit⟩
  rw [h'.txq, h.txq, hkeeps, List.map_append, List.flatMap_append, List.append_assoc]

theorem Loop.takes (h : Loop c n c') : ∃ ks, ks.length = n ∧ Takes c.acc ks c'.acc ∧ Answered c ks c' := by
  induction h with
  | stop ht =>
    obtain ⟨hstop, hacc, hsame⟩ := turn_stop_same ht
    exact ⟨[], rfl, by rw [hacc]; exact .stop hstop, hsame⟩
  | emit ht _ ih =>
    obtain ⟨hdrEnd, hf, hsize, hacc, -, hone⟩ := turn_emit_answered ht
    obtain ⟨ks, hlen, htakes, hrest⟩ := ih
    rw [hacc] at htakes
    exact ⟨_ :: ks, congrArg (· + 1) hlen, .take hf hsize htakes, hone.trans hrest⟩

/-- Behind a single request with nothing behind it, the connection is to be kept as this request says. -/
theorem Loop.keepAlive {k : Bool} (h : Loop c n c') (ht : Takes c.acc [k] c'.acc) (hacc : c'.acc = []) :
    c'.keepAlive = k := by
  have hnone : findHdrEnd [] = none := by decide +kernel
  cases ht with
  | take hf hsize hrest =>
    cases h with
    | stop hturn =>
      obtain ⟨hstop, -⟩ := turn_stop_same hturn
      exact absurd hsize (Nat.not_le.mpr (hstop _ hf))
    | @emit _ c₁ _ _ hturn hl =>
      obtain ⟨hdrEnd, hf', -, hacc₁, hkeep, -⟩ := turn_emit_answered hturn
      cases hf.symm.trans hf'
      have hempty : c₁.acc = [] := by
        rw [hacc₁, ← takes_nil hrest, hacc]
      have hturn₁ : c₁.turn = .stop c₁ := by rw [turn, hempty, hnone]
      cases hl with
      | stop h => cases hturn₁.symm.trans h; exact hkeep
      | emit h => cases hturn₁.symm.trans h

/-! ## The loop that ends -/

theorem loop_of_some : ∀ {fuel : Nat} {c : PerClientStorage}, loop fuel c = some c' → ∃ n, Loop c n c'
  | fuel + 1, c, h => by
    unfold loop at h
    split at h
    · rename_i ht
      cases h
      exact ⟨0, .stop ht⟩
    · rename_i ht
      obtain ⟨n, hn⟩ := loop_of_some h
      exact ⟨n + 1, .emit ht hn⟩

/-- Where nothing is taken off, the loop does not end. -/
theorem Loop.takes_off {hdrEnd : Nat} (h : Loop c n c') (hf : findHdrEnd c.acc = some hdrEnd) :
    requestSize c.acc hdrEnd ≠ 0 := by
  induction h with
  | stop ht =>
    obtain ⟨hstop, -⟩ := turn_stop_same ht
    have hlt := hstop hdrEnd hf
    omega
  | emit ht _ ih =>
    obtain ⟨hdrEnd', hf', -, hacc, -⟩ := turn_emit_answered ht
    cases hf.symm.trans hf'
    intro hzero
    rw [hzero, List.drop_zero] at hacc
    rw [hacc] at ih
    exact ih hf hzero

/-- `parse` gives what the loop ends with, if it ends. -/
theorem parse_eq_some_iff : parse c = some c' ↔ ∃ n, Loop c n c' := by
  refine ⟨loop_of_some, ?_⟩
  rintro ⟨n, h⟩
  have hfuel : ∀ fuel, c.acc.length < fuel → loop fuel c = some c' := by
    induction h with
    | stop ht =>
      intro fuel hlt
      obtain ⟨fuel, rfl⟩ := Nat.exists_eq_add_one.mpr (Nat.zero_lt_of_lt hlt)
      rw [loop, ht]
    | emit ht hl ih =>
      intro fuel hlt
      obtain ⟨fuel, rfl⟩ := Nat.exists_eq_add_one.mpr (Nat.zero_lt_of_lt hlt)
      obtain ⟨hdrEnd, hf, hsize, hacc, -⟩ := turn_emit_answered ht
      have hne := (Loop.emit ht hl).takes_off hf
      rw [loop, ht]
      refine ih fuel ?_
      rw [hacc, List.length_drop]
      omega
  exact hfuel _ (Nat.lt_succ_self _)

theorem parseSegments_eq_some_iff : parseSegments ps c = some c' ↔ ∃ n, Segments c ps n c' := by
  induction ps generalizing c with
  | nil =>
    constructor
    · intro h
      cases h
      exact ⟨0, .nil _⟩
    · rintro ⟨n, h⟩
      cases h
      rfl
  | cons p ps ih =>
    rw [parseSegments, Option.bind_eq_some_iff]
    constructor
    · rintro ⟨c₁, hparse, hps⟩
      obtain ⟨n, hn⟩ := parse_eq_some_iff.mp hparse
      obtain ⟨m, hm⟩ := ih.mp hps
      exact ⟨n + m, .cons hn hm⟩
    · rintro ⟨n, h⟩
      cases h with
      | cons hn hm => exact ⟨_, parse_eq_some_iff.mpr ⟨_, hn⟩, ih.mpr ⟨_, hm⟩⟩

end PerClientStorage

namespace Connection

variable {c c' : Connection} {done queue ks : List Bool} {flight : Option Bool} {h : Bool} {fails : Nat} {sqe : Bool}

/-! ## Kicks -/

/-- The front of the queue is on its way. -/
def launch (c : Connection) : Connection :=
  { c with
    client := { c.client with txq := c.client.txq.drop (gather maxIov c.client.txq).1.length }
    txInflight := (gather maxIov c.client.txq).1
    sendInflight := true
    inflightEor := (gather maxIov c.client.txq).2
    sends := c.sends ++ [(gather maxIov c.client.txq).1] }

theorem gather_append : ∀ (n : Nat) (q : List OwnedBuf), (gather n q).1 ++ q.drop (gather n q).1.length = q
  | 0, _ | _ + 1, [] => rfl
  | n + 1, b :: q => by
    unfold gather
    split
    · rfl
    · exact congrArg (b :: ·) (gather_append n q)

/-- What has been taken and is put back is as it was. -/
theorem putBack_take (hbatch : c.txInflight = []) (hflag : c.sendInflight = false) (heor : c.inflightEor = false) :
    ({ c with
      client := { c.client with txq := c.client.txq.drop (gather maxIov c.client.txq).1.length }
      txInflight := (gather maxIov c.client.txq).1
      sendInflight := true
      inflightEor := (gather maxIov c.client.txq).2 } : Connection).putBack = c := by
  cases c
  simp_all [putBack, gather_append]

theorem sendkickInline_quiet (hquiet : c.sendInflight = true ∨ c.client.txq = []) (fails : Nat) :
    c.sendkickInline fails = c := by
  rcases hquiet with hflag | hq
  · cases fails <;> simp [sendkickInline, hflag]
  · cases fails <;> simp [sendkickInline, hq]

/-- Nothing is done while a send is under way; otherwise the front of the queue is sent, or a task is posted for it. -/
theorem sendkickInline_cases (hrest : c.sendInflight = false → c.txInflight = [] ∧ c.inflightEor = false) :
    ∀ fails, (c.sendkickInline fails = c ∧ (c.sendInflight = true ∨ c.client.txq = [])) ∨
      (c.sendInflight = false ∧ c.client.txq ≠ [] ∧
        (c.sendkickInline fails = c.launch ∨ c.sendkickInline fails = { c with kicks := c.kicks + 1 })) := by
  intro fails
  cases hflag : c.sendInflight with
  | true => exact .inl ⟨sendkickInline_quiet (.inl hflag) fails, .inl rfl⟩
  | false =>
    by_cases hq : c.client.txq = []
    · exact .inl ⟨sendkickInline_quiet (.inr hq) fails, .inr hq⟩
    · obtain ⟨hbatch, heor⟩ := hrest hflag
      refine .inr ⟨rfl, hq, ?_⟩
      have hput := putBack_take hbatch hflag heor
      have hempty : c.client.txq.isEmpty = false := by simpa using hq
      induction fails using Nat.twoStepInduction with
      | zero => exact .inl (by simp [sendkickInline, launch, hflag, hempty])
      | one => exact .inr (by simp [sendkickInline, postSendKick, hflag, hempty, hput])
      | more fails ih _ =>
        have htwo : c.sendkickInline (fails + 2) = c.sendkickInline fails := by
          rw [sendkickInline]
          simp only [hflag, hempty, Bool.or_self, Bool.false_eq_true, if_false, hput, postSendKick]
        rw [htwo]
        exact ih

/-- A batch is one whole response. -/
theorem gather_responses (h : Bool) (queue : List Bool) :
    gather maxIov ((h :: queue).flatMap responseOf) = (responseOf h, true) := rfl

/-- The responses that have been sent, the one that is being sent, and those that are queued. -/
structure Books (c : Connection) (done : List Bool) (flight : Option Bool) (queue : List Bool) : Prop where
  sent : c.sent = wire (done.flatMap responseOf)
  txInflight : c.txInflight = flight.toList.flatMap responseOf
  sendInflight : c.sendInflight = flight.isSome
  inflightEor : c.inflightEor = flight.isSome
  txq : c.client.txq = queue.flatMap responseOf
  served : c.client.served = UInt32.ofNat done.length
  requests : ∃ ks, Takes c.received ks c.client.acc ∧
    List.Forall₂ (fun h k => h = true → k = true) (done ++ flight.toList ++ queue) ks
  rxq : c.rxq = []
  sends : c.sends = flight.toList.map responseOf ∨ c.sends = [] ∧ c.broken = true
  broken : c.broken = true → c.closing = true
  polls : c.polls = if c.polloutArmed then 1 else 0

/-- Something is on its way that will start the next send. -/
def Awake (c : Connection) : Prop :=
  c.closing = false → c.client.txq ≠ [] → c.sendInflight = true ∨ 0 < c.polls ∨ 0 < c.kicks ∨ c.refused = true

theorem Books.rest (hb : Books c done flight queue) :
    c.sendInflight = false → c.txInflight = [] ∧ c.inflightEor = false := by
  intro hflag
  have hsome := hb.sendInflight
  rw [hflag] at hsome
  cases flight with
  | none => exact ⟨hb.txInflight, hb.inflightEor⟩
  | some h => cases hsome

theorem Books.launch (hb : Books c done none (h :: queue)) : Books c.launch done (some h) queue := by
  have htxq := hb.txq
  have hdrop : ((h :: queue).flatMap responseOf).drop (responseOf h).length = queue.flatMap responseOf := by
    rw [List.flatMap_cons, List.drop_left]
  have hempty : c.sends = [] := by
    rcases hb.sends with hsends | ⟨hsends, -⟩
    · exact hsends
    · exact hsends
  unfold Connection.launch
  rw [htxq, gather_responses]
  refine ⟨hb.sent, ?_, rfl, rfl, hdrop, hb.served, ?_, hb.rxq, .inl ?_, hb.broken, hb.polls⟩
  · simp
  · simpa using hb.requests
  · simp [hempty]

/-- What a step leaves that neither parses nor ends a send. -/
structure Kept (c c' : Connection) : Prop where
  keepAlive : c'.client.keepAlive = c.client.keepAlive
  limit : c'.client.keepaliveLimit = c.client.keepaliveLimit
  closing : c'.closing = c.closing
  broken : c'.broken = c.broken

theorem sendkickInline_kept (hb : Books c done flight queue) (fails : Nat) : Kept c (c.sendkickInline fails) := by
  rcases sendkickInline_cases hb.rest fails with ⟨hsame, -⟩ | ⟨-, -, hlaunch | hpost⟩
  · rw [hsame]
    exact ⟨rfl, rfl, rfl, rfl⟩
  · rw [hlaunch]
    exact ⟨rfl, rfl, rfl, rfl⟩
  · rw [hpost]
    exact ⟨rfl, rfl, rfl, rfl⟩

/-- A kick, whatever room there is in the ring. -/
theorem Books.sendkick (hb : Books c done flight queue) (fails : Nat) : ∃ flight' queue',
    Books (c.sendkickInline fails) done flight' queue' ∧ flight'.toList ++ queue' = flight.toList ++ queue ∧
      Awake (c.sendkickInline fails) := by
  rcases sendkickInline_cases hb.rest fails with ⟨hsame, hquiet⟩ | ⟨hflag, hq, hlaunch | hpost⟩
  · rw [hsame]
    refine ⟨flight, queue, hb, rfl, fun _ hne => .inl ?_⟩
    rcases hquiet with hflag | hempty
    · exact hflag
    · exact absurd hempty hne
  · rw [hlaunch]
    have hnone : flight = none := by
      have hsome := hb.sendInflight
      rw [hflag] at hsome
      exact Option.isNone_iff_eq_none.mp (Option.isSome_eq_false_iff.mp hsome.symm)
    subst hnone
    cases queue with
    | nil => exact absurd hb.txq hq
    | cons h queue => exact ⟨some h, queue, hb.launch, rfl, fun _ _ => .inl rfl⟩
  · rw [hpost]
    refine ⟨flight, queue, ?_, rfl, fun _ _ => .inr (.inr (.inl (Nat.succ_pos _)))⟩
    exact ⟨hb.sent, hb.txInflight, hb.sendInflight, hb.inflightEor, hb.txq, hb.served, hb.requests, hb.rxq, hb.sends,
      hb.broken, hb.polls⟩

/-! ## Steps -/

/-- What a step makes of the responses that have been sent, and of those that have not. -/
inductive Moved (c : Connection) (a : Action) (done pending : List Bool) :
    Connection → List Bool → List Bool → Prop
  | stay {c' : Connection} : Kept c c' → Moved c a done pending c' done pending
  | breaks {c' : Connection} : c'.client.keepAlive = c.client.keepAlive →
      c'.client.keepaliveLimit = c.client.keepaliveLimit → c'.closing = true → c'.broken = true →
      Moved c a done pending c' done pending
  | receives {c' : Connection} {p : Bytes} {clock : List Nat} {fails : Nat} {client : PerClientStorage} {n : Nat}
      {ks : List Bool} : a = .own (.received p clock fails) → Loop (c.client.push p) n client →
      Answered (c.client.push p) ks client → Takes (c.client.acc ++ p) ks client.acc →
      c'.client.keepAlive = client.keepAlive → c'.client.keepaliveLimit = c.client.keepaliveLimit →
      c'.closing = c.closing → c'.broken = c.broken → Moved c a done pending c' done (pending ++ ks.map c.client.keeps)
  | sends {c' : Connection} {h : Bool} {rest : List Bool} : pending = h :: rest →
      c'.client.keepAlive = c.client.keepAlive → c'.client.keepaliveLimit = c.client.keepaliveLimit →
      c'.closing =
        (c.client.keepaliveLimit.toUInt32 ≤ c.client.served + 1 || !c.client.keepAlive || c.closing) →
      c'.broken = c.broken → Moved c a done pending c' (done ++ [h]) rest

/-- A segment is parsed as soon as it comes. -/
theorem handleRecv_eq_some {p : Bytes} {clock : List Nat} (hrxq : c.rxq = [])
    (h : c.handleRecv p clock fails = some c') : ∃ n client, Loop (c.client.push p) n client ∧
      c' = ({ c with client := client, rxq := [], received := c.received ++ p } : Connection).sendkickInline fails := by
  obtain ⟨c₁, hparse, rfl⟩ := Option.map_eq_some_iff.mp h
  obtain ⟨client, hclient, rfl⟩ := Option.map_eq_some_iff.mp hparse
  dsimp only at hclient
  rw [hrxq, List.nil_append, batches_one] at hclient
  obtain ⟨n, hn⟩ := parseSegments_eq_some_iff.mp hclient
  refine ⟨n, client, segments_one.mp hn, ?_⟩
  dsimp only
  rw [hrxq, List.nil_append, batches_one]
  dsimp only
  split
  · rfl
  · rename_i hquiet
    refine (sendkickInline_quiet ?_ fails).symm
    simp only [Bool.and_eq_true, Bool.not_eq_true', not_and_or, Bool.not_eq_false] at hquiet
    simpa using hquiet

theorem Books.received {p : Bytes} {clock : List Nat} (hb : Books c done flight queue)
    (h : c.handleRecv p clock fails = some c') : ∃ flight' queue', Books c' done flight' queue' ∧
      Moved c (.own (.received p clock fails)) done (flight.toList ++ queue) c' done (flight'.toList ++ queue') ∧
      Awake c' := by
  obtain ⟨n, client, hloop, rfl⟩ := handleRecv_eq_some hb.rxq h
  obtain ⟨ks, -, htakes, hanswered⟩ := hloop.takes
  have hparsed : Books { c with client := client, rxq := [], received := c.received ++ p } done flight
      (queue ++ ks.map c.client.keeps) := by
    refine ⟨hb.sent, hb.txInflight, hb.sendInflight, hb.inflightEor, ?_, hanswered.served.trans hb.served, ?_, rfl,
      hb.sends, hb.broken, hb.polls⟩
    · have hqueue : (c.client.push p).txq = queue.flatMap responseOf := hb.txq
      dsimp only
      rw [hanswered.txq, hqueue, List.flatMap_append]
      rfl
    · obtain ⟨ks₀, htakes₀, hkeeps₀⟩ := hb.requests
      refine ⟨ks₀ ++ ks, takes_append htakes₀ htakes, ?_⟩
      rw [← List.append_assoc]
      refine List.rel_append hkeeps₀ ?_
      rw [List.forall₂_map_left_iff]
      refine List.forall₂_same.mpr fun k _ hk => ?_
      exact (Bool.and_eq_true_iff.mp hk).1
  obtain ⟨flight', queue', hbooks, hpending, hawake⟩ := hparsed.sendkick fails
  have hkept := sendkickInline_kept hparsed fails
  refine ⟨flight', queue', hbooks, ?_, hawake⟩
  rw [hpending, ← List.append_assoc]
  exact .receives rfl hloop hanswered htakes hkept.keepAlive (hkept.limit.trans hanswered.limit) hkept.closing
    hkept.broken

/-- A send that is under way is that of the response in flight. -/
theorem Books.sending (hb : Books c done flight queue) {b : List OwnedBuf} {sends : List (List OwnedBuf)}
    (hsends : c.sends = b :: sends) : ∃ h, flight = some h ∧ b = responseOf h ∧ sends = [] := by
  rcases hb.sends with hflight | ⟨hnone, -⟩
  · rw [hflight] at hsends
    cases flight with
    | none => cases hsends
    | some h =>
      cases hsends
      exact ⟨h, rfl, rfl, rfl⟩
  · rw [hnone] at hsends
    cases hsends

theorem Books.close (hb : Books c done flight queue) {broken : Bool} (hbroken : c.broken = true → broken = true)
    (sqe : Bool) :
    Books (({ c with closing := true, broken := broken } : Connection).closeAsync sqe) done flight queue := by
  have hsends : c.sends = flight.toList.map responseOf ∨ c.sends = [] ∧ broken = true :=
    hb.sends.imp_right fun h => ⟨h.1, hbroken h.2⟩
  unfold closeAsync
  split <;>
    exact ⟨hb.sent, hb.txInflight, hb.sendInflight, hb.inflightEor, hb.txq, hb.served, hb.requests, hb.rxq, hsends,
      fun _ => rfl, hb.polls⟩

/-- The connection `c₀` is broken, and is being closed. -/
theorem Books.breaks (hb : Books c done flight queue) (c₀ : Connection) (hclient : c.client = c₀.client) (a : Action)
    (sqe : Bool) (pending : List Bool) :
    Books (({ c with closing := true, broken := true } : Connection).closeAsync sqe) done flight queue ∧
    Moved c₀ a done pending (({ c with closing := true, broken := true } : Connection).closeAsync sqe) done pending ∧
    Awake (({ c with closing := true, broken := true } : Connection).closeAsync sqe) := by
  refine ⟨hb.close (fun _ => rfl) sqe, ?_, fun hopen => ?_⟩
  · unfold closeAsync
    split <;> exact .breaks (by rw [hclient]) (by rw [hclient]) rfl rfl
  · unfold closeAsync at hopen
    split at hopen <;> cases hopen

/-- A poll or a task of the connection `c₀` has completed, and the next send is started if there is none. -/
theorem Books.kicked (hb : Books c done flight queue) (c₀ : Connection) (hkept : Kept c₀ c) (a : Action)
    (fails : Nat) : ∃ done' flight' queue', Books (c.sendkickInline fails) done' flight' queue' ∧
      Moved c₀ a done (flight.toList ++ queue) (c.sendkickInline fails) done' (flight'.toList ++ queue') ∧
      Awake (c.sendkickInline fails) := by
  obtain ⟨flight', queue', hbooks, hpending, hawake⟩ := hb.sendkick fails
  obtain ⟨hkeep, hlimit, hclosing, hbroken⟩ := sendkickInline_kept hb fails
  rw [← hpending]
  exact ⟨done, flight', queue', hbooks, .stay ⟨hkeep.trans hkept.keepAlive, hlimit.trans hkept.limit,
    hclosing.trans hkept.closing, hbroken.trans hkept.broken⟩, hawake⟩

theorem Books.completed (hb : Books c done (some h) queue) {b : List OwnedBuf} {sends : List (List OwnedBuf)}
    (hsends : c.sends = b :: sends) (a : Action) (fails : Nat) (sqe : Bool) : ∃ flight' queue',
    Books (({ c with sends := sends, sent := c.sent ++ wire b } : Connection).handleSent fails sqe) (done ++ [h])
      flight' queue' ∧
    Moved c a done (h :: queue)
      (({ c with sends := sends, sent := c.sent ++ wire b } : Connection).handleSent fails sqe) (done ++ [h])
      (flight'.toList ++ queue') ∧
    Awake (({ c with sends := sends, sent := c.sent ++ wire b } : Connection).handleSent fails sqe) := by
  obtain ⟨_, heq, rfl, rfl⟩ := hb.sending hsends
  cases heq
  have heor : c.inflightEor = true := hb.inflightEor
  generalize hc₁ : ({ c with sends := [], sent := c.sent ++ wire (responseOf h) } : Connection) = c₁
  have hcount : c₁.onSendComplete = ({ c with
      sends := []
      sent := c.sent ++ wire (responseOf h)
      txInflight := []
      sendInflight := false
      inflightEor := false
      client := { c.client with served := c.client.served + 1 } },
      c.client.keepaliveLimit.toUInt32 ≤ c.client.served + 1 || !c.client.keepAlive || c.closing) := by
    rw [← hc₁, onSendComplete]
    dsimp only
    rw [heor, if_pos rfl]
  have hdone : Books c₁.onSendComplete.1 (done ++ [h]) none queue := by
    rw [hcount]
    refine ⟨?_, rfl, rfl, rfl, hb.txq, ?_, ?_, hb.rxq, .inl rfl, hb.broken, hb.polls⟩
    · rw [List.flatMap_append, wire_append, ← hb.sent]
      simp
    · dsimp only
      rw [hb.served, List.length_append, List.length_singleton, UInt32.ofNat_add]
      rfl
    · simpa using hb.requests
  unfold handleSent
  split
  · rename_i hclose
    refine ⟨none, queue, hdone.close (fun h => h) sqe, .sends rfl ?_ ?_ ?_ ?_, fun hopen => ?_⟩ <;>
      rw [hcount] at hclose ⊢ <;> unfold closeAsync
    · split <;> rfl
    · split <;> rfl
    · split <;> exact hclose.symm
    · split <;> rfl
    · unfold closeAsync at hopen
      split at hopen <;> cases hopen
  · rename_i hopen
    obtain ⟨flight', queue', hbooks, hpending, hawake⟩ := hdone.sendkick fails
    have hkept := sendkickInline_kept hdone fails
    have hrest : flight'.toList ++ queue' = queue := hpending
    rw [hcount] at hkept hopen
    refine ⟨flight', queue', hbooks, ?_, hawake⟩
    rw [hrest, hcount]
    refine .sends rfl hkept.keepAlive hkept.limit ?_ hkept.broken
    rw [hkept.closing]
    simp only [Bool.not_eq_true, Bool.or_eq_false_iff] at hopen
    obtain ⟨⟨hlimit, hkeep⟩, hclosing⟩ := hopen
    rw [hlimit, hkeep]
    rfl

/-- A send that would block: its response is the next one again, and is sent when the descriptor can be written to. -/
theorem Books.blocked (hb : Books c done (some h) queue) {b : List OwnedBuf} {sends : List (List OwnedBuf)}
    (hsends : c.sends = b :: sends) (sqe : Bool) :
    Books (({ c with sends := sends } : Connection).putBack.armPollout sqe) done none (h :: queue) ∧
      Kept c (({ c with sends := sends } : Connection).putBack.armPollout sqe) ∧
      Awake (({ c with sends := sends } : Connection).putBack.armPollout sqe) := by
  obtain ⟨_, heq, -, rfl⟩ := hb.sending hsends
  cases heq
  have hback : Books ({ c with sends := [] } : Connection).putBack done none (h :: queue) := by
    refine ⟨hb.sent, rfl, rfl, rfl, ?_, hb.served, ?_, hb.rxq, .inl rfl, hb.broken, hb.polls⟩
    · show c.txInflight ++ c.client.txq = _
      rw [hb.txInflight, hb.txq]
      simp
    · obtain ⟨ks, htakes, hkeeps⟩ := hb.requests
      exact ⟨ks, htakes, by simpa using hkeeps⟩
  unfold armPollout
  split
  · rename_i harmed
    have hone : ({ c with sends := [] } : Connection).putBack.polls = 1 := by
      rw [hback.polls, harmed]
      rfl
    exact ⟨hback, ⟨rfl, rfl, rfl, rfl⟩, fun _ _ => .inr (.inl (by rw [hone]; exact Nat.one_pos))⟩
  · rename_i harmed
    have hzero : c.polls = 0 := by
      have hpolls := hback.polls
      rwa [if_neg harmed] at hpolls
    split
    · refine ⟨⟨hback.sent, hback.txInflight, hback.sendInflight, hback.inflightEor, hback.txq, hback.served,
        hback.requests, hback.rxq, hback.sends, hback.broken, ?_⟩, ⟨rfl, rfl, rfl, rfl⟩,
        fun _ _ => .inr (.inl (Nat.succ_pos _))⟩
      show c.polls + 1 = 1
      rw [hzero]
    · exact ⟨⟨hback.sent, hback.txInflight, hback.sendInflight, hback.inflightEor, hback.txq, hback.served,
        hback.requests, hback.rxq, hback.sends, hback.broken, hback.polls⟩, ⟨rfl, rfl, rfl, rfl⟩,
        fun _ _ => .inr (.inr (.inr rfl))⟩

/-- What a completion does. -/
theorem Books.step {a : Action} (hb : Books c done flight queue) (hawake : Awake c) (ha : c.Orderly a)
    (hs : c.step a = some c') :
    ∃ done' flight' queue', Books c' done' flight' queue' ∧
      Moved c a done (flight.toList ++ queue) c' done' (flight'.toList ++ queue') ∧ Awake c' := by
  unfold Connection.step at hs
  split at hs
  case isFalse => cases hs
  cases a with
  | stray x => exact ha.elim
  | own x =>
    obtain ⟨c₁, hcomplete, hs⟩ := Option.bind_eq_some_iff.mp hs
    cases x with
    | received p clock fails =>
      cases hcomplete
      dsimp only [handle] at hs
      split at hs
      · cases hs
      · obtain ⟨flight', queue', hbooks, hmoved, hawake⟩ := hb.received hs
        exact ⟨done, flight', queue', hbooks, hmoved, hawake⟩
    | recvEnded sqe =>
      cases hcomplete
      cases hs
      exact ⟨done, flight, queue, hb.breaks c rfl _ sqe _⟩
    | sent res fails sqe =>
      dsimp only [complete] at hcomplete
      split at hcomplete
      · cases hcomplete
      · rename_i b sends hsends
        split at hcomplete
        · cases hcomplete
          cases hs
          obtain rfl : res = (wire b).length := ha b (by rw [hsends]; rfl)
          obtain ⟨h, rfl, -, -⟩ := hb.sending hsends
          obtain ⟨flight', queue', hbooks, hmoved, hawake⟩ := hb.completed hsends (.own (.sent _ fails sqe)) fails sqe
          rw [List.take_length]
          exact ⟨done ++ [h], flight', queue', hbooks, hmoved, hawake⟩
        · cases hcomplete
    | sendBlocked sqe =>
      dsimp only [complete] at hcomplete
      split at hcomplete
      · cases hcomplete
      · rename_i b sends hsends
        cases hcomplete
        cases hs
        obtain ⟨h, rfl, -, -⟩ := hb.sending hsends
        obtain ⟨hbooks, hkept, hawake⟩ := hb.blocked hsends sqe
        exact ⟨done, none, h :: queue, hbooks, .stay hkept, hawake⟩
    | sendFailed sqe =>
      dsimp only [complete] at hcomplete
      split at hcomplete
      · cases hcomplete
      · rename_i b sends hsends
        cases hcomplete
        cases hs
        obtain ⟨h, rfl, -, rfl⟩ := hb.sending hsends
        have hfailed : Books { c with sends := [], broken := true, closing := true } done (some h) queue :=
          ⟨hb.sent, hb.txInflight, hb.sendInflight, hb.inflightEor, hb.txq, hb.served, hb.requests, hb.rxq,
            .inr ⟨rfl, rfl⟩, fun _ => rfl, hb.polls⟩
        exact ⟨done, some h, queue, hfailed.breaks c rfl _ sqe _⟩
    | pollOut fails =>
      dsimp only [complete] at hcomplete
      split at hcomplete
      · cases hcomplete
        cases hs
        have hpolls : c.polls - 1 = 0 := by
          have hpolls := hb.polls
          split at hpolls <;> omega
        have hdone : Books { c with polls := c.polls - 1, polloutArmed := false } done flight queue :=
          ⟨hb.sent, hb.txInflight, hb.sendInflight, hb.inflightEor, hb.txq, hb.served, hb.requests, hb.rxq, hb.sends,
            hb.broken, hpolls⟩
        exact hdone.kicked c ⟨rfl, rfl, rfl, rfl⟩ _ fails
      · cases hcomplete
    | kick fails =>
      dsimp only [complete] at hcomplete
      split at hcomplete
      · cases hcomplete
        cases hs
        have hdone : Books { c with kicks := c.kicks - 1 } done flight queue :=
          ⟨hb.sent, hb.txInflight, hb.sendInflight, hb.inflightEor, hb.txq, hb.served, hb.requests, hb.rxq, hb.sends,
            hb.broken, hb.polls⟩
        exact hdone.kicked c ⟨rfl, rfl, rfl, rfl⟩ _ fails
      · cases hcomplete
    | closed =>
      dsimp only [complete] at hcomplete
      split at hcomplete
      · cases hcomplete
        cases hs
        exact ⟨done, flight, queue, ⟨hb.sent, hb.txInflight, hb.sendInflight, hb.inflightEor, hb.txq, hb.served,
          hb.requests, hb.rxq, hb.sends, hb.broken, hb.polls⟩, .stay ⟨rfl, rfl, rfl, rfl⟩, hawake⟩
      · cases hcomplete

theorem books_fresh (h : c.Fresh) : Books c [] none [] ∧ Awake c := by
  obtain ⟨limit, rfl⟩ := h
  refine ⟨⟨rfl, rfl, rfl, rfl, rfl, rfl, ⟨[], .stop fun hdrEnd hf => ?_, .nil⟩, rfl, .inl rfl, fun h => h, rfl⟩,
    fun _ hne => absurd rfl hne⟩
  have hnone : findHdrEnd [] = none := by decide +kernel
  rw [hnone] at hf
  cases hf

/-! ## Runs -/

theorem books_of_reach (hs : Reach Fresh step Orderly c) :
    ∃ done flight queue, Books c done flight queue ∧ Awake c := by
  refine Reach.invariant (I := fun c => ∃ done flight queue, Books c done flight queue ∧ Awake c)
    (fun _ h => ⟨[], none, [], books_fresh h⟩) (fun c a c' hI ha hs => ?_) c hs
  obtain ⟨done, flight, queue, hb, hawake⟩ := hI
  obtain ⟨done', flight', queue', hbooks, -, hawake'⟩ := hb.step hawake ha hs
  exact ⟨done', flight', queue', hbooks, hawake'⟩

/-- A send that has taken one byte counts as a response, and so does what is taken for the completion of a send. -/
theorem counted_unsent :
    (∃ c, Reach Fresh step (fun _ _ => True) c ∧ c.client.served = 1 ∧ c.txInflight = [] ∧ c.sent.length = 1) ∧
    ∃ c, Reach Fresh step (fun _ _ => True) c ∧ c.client.served = 1 ∧ c.txInflight = [] ∧ c.sent = [] := by
  constructor
  · obtain ⟨c, hc, hobs⟩ := Option.map_eq_some_iff.mp
      (show (execAll step (fun _ _ => True) [.own (.received (ascii "GET / HTTP/1.1\r\n\r\n") [] 0),
          .own (.sent 1 0 true)] { client := { keepaliveLimit := 10 } }).map
          (fun c => (c.client.served, c.txInflight, c.sent.length)) = some (1, [], 1) by decide +kernel)
    simp only [Prod.mk.injEq] at hobs
    exact ⟨c, Reach.exec (.start ⟨10, rfl⟩) hc, hobs⟩
  · obtain ⟨c, hc, hobs⟩ := Option.map_eq_some_iff.mp
      (show (execAll step (fun _ _ => True) [.own (.received (ascii "GET / HTTP/1.1\r\n\r\n") [] 0),
          .stray (.sent 0 0 true)] { client := { keepaliveLimit := 10 } }).map
          (fun c => (c.client.served, c.txInflight, c.sent)) = some (1, [], []) by decide +kernel)
    simp only [Prod.mk.injEq] at hobs
    exact ⟨c, Reach.exec (.start ⟨10, rfl⟩) hc, hobs⟩

/-- In every such run: what is queued on a connection that is not closing is on its way, as there is an operation that
has not completed and will start the next send; unless a poll was to be asked for when there was no room in the ring. -/
theorem under_way (hs : Reach Fresh step Orderly c) (hclosing : c.closing = false) (hq : c.client.txq ≠ []) :
    (∃ h, c.sends = [responseOf h]) ∨ 0 < c.polls ∨ 0 < c.kicks ∨ c.refused = true := by
  obtain ⟨done, flight, queue, hb, hawake⟩ := books_of_reach hs
  refine (hawake hclosing hq).imp_left fun hflag => ?_
  have hsome := hb.sendInflight
  rw [hflag] at hsome
  obtain ⟨h, rfl⟩ := Option.isSome_iff_exists.mp hsome.symm
  rcases hb.sends with hsends | ⟨-, hbroken⟩
  · exact ⟨h, hsends⟩
  · rw [hb.broken hbroken] at hclosing
    cases hclosing

/-- A send that would block, and a full ring when the descriptor can be written to. -/
theorem under_way_blocked : ∃ c : Connection, (c.polls = 0 ∧ c.kicks = 1) ∧
    ((∃ h, c.sends = [responseOf h]) ∨ 0 < c.polls ∨ 0 < c.kicks ∨ c.refused = true) := by
  obtain ⟨c, hc, hobs⟩ := Option.map_eq_some_iff.mp
    (show (execAll step Orderly [.own (.received (ascii "GET / HTTP/1.1\r\n\r\n") [] 2), .own (.sendBlocked true),
        .own (.pollOut 3)] { client := { keepaliveLimit := 10 } }).map
        (fun c => (c.closing, c.client.txq.isEmpty, c.polls, c.kicks)) = some (false, false, 0, 1) by decide +kernel)
  simp only [Prod.mk.injEq] at hobs
  obtain ⟨hclosing, hq, hwaiting⟩ := hobs
  exact ⟨c, hwaiting, under_way (Reach.exec (.start ⟨10, rfl⟩) hc) hclosing fun h => by simp [h] at hq⟩

/-! ## Clients that wait -/

/-- A client that has been told to go on sends one request at most, with nothing behind it, when nothing is queued or
being sent. -/
def Waits (c : Connection) : Action → Prop
  | .own (.received p _ _) => c.closing = false ∧ c.sendInflight = false ∧ c.client.txq = [] ∧
      ∀ client ∈ parse (c.client.push p), client.txq = [] ∨ client.txq.length = 2 ∧ client.acc = []
  | _ => True

instance (c : Connection) (a : Action) : Decidable (c.Waits a) := by
  unfold Waits
  split <;> infer_instance

/-- At most one response is not sent yet, and it says what the connection is going to do; those before it keep the
connection. -/
structure Told (c : Connection) (done pending : List Bool) : Prop where
  one : pending.length ≤ 1
  now : ∀ h ∈ pending, h = c.client.keeps c.client.keepAlive
  before : ∀ h ∈ done.dropLast, h = true
  going : pending ≠ [] → ∀ h ∈ done, h = true
  last : c.broken = false → (c.closing = true ↔ done.getLast? = some false)
  few : (∀ h ∈ done, h = true) → done.length < c.client.keepaliveLimit.toNat

/-- The limit is reached with the response that said so. -/
theorem limit_le_iff {limit : UInt16} {n : Nat} (hn : n < limit.toNat) :
    limit.toUInt32 ≤ UInt32.ofNat n + 1 ↔ ¬UInt32.ofNat n < limit.toUInt32 - 1 := by
  have hlimit : limit.toNat < 2 ^ 16 := UInt16.toNat_lt limit
  have hone : (1 : UInt32) ≤ limit.toUInt32 := by
    rw [UInt32.le_iff_toNat_le, UInt16.toNat_toUInt32]
    exact Nat.one_le_iff_ne_zero.mpr (by omega)
  have hserved : (UInt32.ofNat n).toNat = n :=
    UInt32.toNat_ofNat_of_lt' (Nat.lt_trans hn (Nat.lt_trans hlimit (by decide)))
  rw [UInt32.le_iff_toNat_le, UInt32.lt_iff_toNat_lt, UInt32.toNat_sub_of_le _ _ hone, UInt32.toNat_add, hserved,
    UInt16.toNat_toUInt32]
  simp only [UInt32.toNat_one]
  omega

theorem Moved.limit {a : Action} {done' pending pending' : List Bool} (hm : Moved c a done pending c' done' pending') :
    c'.client.keepaliveLimit = c.client.keepaliveLimit := by
  cases hm with
  | stay hkept => exact hkept.limit
  | breaks _ hlimit => exact hlimit
  | receives _ _ _ _ _ hlimit => exact hlimit
  | sends _ _ hlimit => exact hlimit

theorem keeps_of_eq (hserved : c'.client.served = c.client.served)
    (hlimit : c'.client.keepaliveLimit = c.client.keepaliveLimit) : c'.client.keeps = c.client.keeps := by
  funext k
  rw [keeps, keeps, hserved, hlimit]

theorem all_of_last (hbefore : ∀ h ∈ done.dropLast, h = true) (hlast : done.getLast? ≠ some false) :
    ∀ h ∈ done, h = true := by
  intro h hmem
  obtain rfl | ⟨init, last, rfl⟩ := List.eq_nil_or_concat' done
  · cases hmem
  · rcases List.mem_append.mp hmem with hmem | hmem
    · exact hbefore h (by rwa [List.dropLast_concat])
    · rw [List.getLast?_concat] at hlast
      rw [List.mem_singleton.mp hmem]
      simpa using hlast

theorem Told.step {a : Action} {done' pending pending' : List Bool} (ht : Told c done pending)
    (hserved : c.client.served = UInt32.ofNat done.length) (hserved' : c'.client.served = UInt32.ofNat done'.length)
    (hquiet : c.sendInflight = false → c.client.txq = [] → pending = [])
    (hbroken : c.broken = true → c.closing = true) (ha : c.Waits a) (hm : Moved c a done pending c' done' pending') :
    Told c' done' pending' := by
  cases hm with
  | stay hkept =>
    have hkeeps := keeps_of_eq (hserved'.trans hserved.symm) hkept.limit
    refine ⟨ht.one, ?_, ht.before, ht.going, ?_, ?_⟩
    · rw [hkeeps, hkept.keepAlive]
      exact ht.now
    · rw [hkept.broken, hkept.closing]
      exact ht.last
    · rw [hkept.limit]
      exact ht.few
  | breaks hkeep hlimit hclosing' hbroken' =>
    have hkeeps := keeps_of_eq (hserved'.trans hserved.symm) hlimit
    refine ⟨ht.one, ?_, ht.before, ht.going, fun h => ?_, ?_⟩
    · rw [hkeeps, hkeep]
      exact ht.now
    · rw [hbroken'] at h
      cases h
    · rw [hlimit]
      exact ht.few
  | @receives p clock fails client n ks heq hloop hanswered htakes hkeep hlimit hclosing' hbroken' =>
    subst heq
    obtain ⟨hclosing, hflag, hq, hone⟩ := ha
    obtain rfl := hquiet hflag hq
    have hkeeps := keeps_of_eq (hserved'.trans hserved.symm) hlimit
    have hwhole : c.broken = false := by
      cases h : c.broken with
      | false => rfl
      | true => cases hclosing.symm.trans (hbroken h)
    have hgoing : ∀ h ∈ done, h = true := by
      refine all_of_last ht.before fun h => ?_
      rw [← ht.last hwhole, hclosing] at h
      cases h
    have htxq : client.txq = (ks.map c.client.keeps).flatMap responseOf := by
      have htxq := hanswered.txq
      rw [show (c.client.push p).txq = [] from hq] at htxq
      exact htxq
    have hlength : client.txq.length = 2 * ks.length := by
      rw [htxq, List.length_flatMap, List.map_map]
      simp [Function.comp_def, responseOf, Nat.mul_comm]
    rw [List.nil_append]
    have hlast : c'.broken = false → (c'.closing = true ↔ done.getLast? = some false) := by
      rw [hbroken', hclosing']
      exact ht.last
    have hfew : (∀ h ∈ done, h = true) → done.length < c'.client.keepaliveLimit.toNat := by
      rw [hlimit]
      exact ht.few
    rcases hone client (parse_eq_some_iff.mpr ⟨n, hloop⟩) with hnone | ⟨htwo, hacc⟩
    · have hks : ks = [] := by
        rw [hnone, List.length_nil] at hlength
        exact List.length_eq_zero_iff.mp (by omega)
      subst hks
      exact ⟨Nat.zero_le _, fun h hmem => (by cases hmem), ht.before, fun hne => absurd rfl hne, hlast, hfew⟩
    · obtain ⟨k, rfl⟩ := List.length_eq_one_iff.mp (show ks.length = 1 by omega)
      have hkeepAlive := hloop.keepAlive htakes hacc
      refine ⟨Nat.le_refl _, fun h hmem => ?_, ht.before, fun _ => hgoing, hlast, hfew⟩
      rw [hkeeps, hkeep, hkeepAlive]
      simpa using hmem
  | @sends h _ hpending hkeep hlimit hclosing' hbroken' =>
    subst hpending
    have hrest : pending' = [] := by
      have hone := ht.one
      rw [List.length_cons] at hone
      exact List.length_eq_zero_iff.mp (by omega)
    subst hrest
    have hgoing := ht.going (List.cons_ne_nil _ _)
    have hnow := ht.now h List.mem_cons_self
    have hfew := ht.few hgoing
    have hle := limit_le_iff hfew
    refine ⟨Nat.zero_le _, fun h hmem => (by cases hmem), ?_, fun hne => absurd rfl hne, fun hwhole => ?_, ?_⟩
    · rw [List.dropLast_concat]
      exact hgoing
    · have hopen : c.closing = false := by
        cases hclosing : c.closing with
        | false => rfl
        | true =>
          have hlast := (ht.last (hbroken'.symm.trans hwhole)).mp hclosing
          exact absurd (hgoing false (List.mem_of_getLast? hlast)) Bool.false_ne_true
      rw [hclosing', hopen, hserved, List.getLast?_concat, hnow, keeps, hserved]
      cases c.client.keepAlive <;> simp [hle]
    · intro hall
      have hsays := hall h (by simp)
      rw [hnow, keeps, Bool.and_eq_true, decide_eq_true_iff, hserved] at hsays
      have hnot := mt hle.mp (not_not.mpr hsays.2)
      have hsmall : done.length < 2 ^ 16 := hfew.trans (UInt16.toNat_lt _)
      rw [UInt32.le_iff_toNat_le, UInt16.toNat_toUInt32, UInt32.toNat_add,
        UInt32.toNat_ofNat_of_lt' (hsmall.trans (by decide)), UInt32.toNat_one] at hnot
      rw [hlimit, List.length_append, List.length_singleton]
      omega

end Connection

end IOContext.Prototype
