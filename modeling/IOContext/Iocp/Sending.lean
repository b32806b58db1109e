import IOContext.Base.Reach
import IOContext.Base.Sender
import IOContext.Http.Machine

/-!
# The IOCP server: sending

The workers of the IOCP server share a connection. Buffers are published in `txq` under `tx_mtx`, and a Kick is posted
to the completion port unless one is pending; the worker that gets it starts a send of the first buffers, unless one is
in flight. The buffers stay in `txq` until the send completes. A step is one region protected by `tx_mtx`, or the call
that a worker makes after it; the workers take their steps in any order.

- What a send takes is the front of the queue (`gather_front`): the connection is a `Sender` whose batch is the send
  under way (`toSender`).
- At most one send is under way, and its buffers are the first `inflight_count` of the queue (`Sending`); every step
  keeps this (`Inv.step`).
- No wake-up is lost, and the buffers are sent in order (`sends_in_order`).
-/

namespace IOContext.Iocp

/-! ## Tunables -/

def maxWsabuf : Nat := 8

/-! ## The state -/

/-- A buffer; `eor` marks the end of a response. -/
structure OwnedBuf where
  bytes : Bytes
  eor : Bool := false
deriving DecidableEq, Repr

/-- Where a worker is that counts a response which has been sent: `served` is no atomic, and is read, written and read
again outside of any region. -/
inductive Count
  | begun
  | read (served : UInt32)
  | written
deriving DecidableEq, Repr

/-- The sending side of a connection. -/
structure Tx where
  txq : List OwnedBuf := []
  kickPending : Bool := false
  sendInflight : Bool := false
  inflightCount : Nat := 0
  inflightEor : Bool := false
  tx : List OwnedBuf := []
  served : UInt32 := 0
  keepaliveLimit : UInt16
  live : Bool := true
  /-- The Kicks that are posted and not handled. -/
  kicks : Nat := 0
  /-- The `tx_count` of the workers that are about to call `WSASend`. -/
  starting : List Nat := []
  /-- The sends that the kernel has not completed. -/
  flights : List (List OwnedBuf) := []
  /-- The workers that count a response that has been sent. -/
  finishing : List Count := []
  /-- All that was enqueued, all that was handed to `WSASend`, and all that was sent. -/
  enqueued : List OwnedBuf := []
  handed : List OwnedBuf := []
  sent : List OwnedBuf := []
deriving DecidableEq, Repr

namespace Tx

/-! ## The operations -/

/-- A Kick is posted, unless one is pending. -/
def postKick (c : Tx) : Tx := if c.kickPending then c else { c with kickPending := true, kicks := c.kicks + 1 }

/-- `tx_enqueue_literal` and `tx_enqueue_copy`: only the owner of the bytes differs. -/
def txEnqueue (c : Tx) (b : OwnedBuf) : Tx :=
  postKick { c with txq := c.txq ++ [b], enqueued := c.enqueued ++ [b] }

/-- Up to `n` buffers, and no further than the end of a response; whether it is there. -/
def gather : Nat → List OwnedBuf → List OwnedBuf × Bool
  | 0, _ | _, [] => ([], false)
  | n + 1, b :: q => if b.eor then ([b], true) else (b :: (gather n q).1, (gather n q).2)

/-- The region of `maybe_start_send_worker`. -/
def maybeStartSendWorker (c : Tx) : Tx :=
  let c := { c with kickPending := false }
  if c.sendInflight || c.txq.isEmpty then c
  else
    let batch := gather maxWsabuf c.txq
    let txCount := batch.1.length
    if txCount = 0 then c
    else { c with
      tx := batch.1 ++ c.tx.drop txCount
      inflightCount := txCount
      inflightEor := batch.2
      sendInflight := true
      starting := c.starting ++ [txCount] }

/-- `WSASend` takes the buffers, and goes on by itself. -/
def wsaSend (c : Tx) (txCount : Nat) : Tx :=
  { c with flights := c.flights ++ [c.tx.take txCount], handed := c.handed ++ c.tx.take txCount }

/-- The region of a successful Send completion. -/
def sendCompleted (c : Tx) : Tx :=
  let finished := c.inflightEor
  let c := { c with
    txq := c.txq.drop c.inflightCount
    inflightCount := 0
    inflightEor := false
    sendInflight := false
    finishing := if finished then c.finishing ++ [.begun] else c.finishing }
  if c.txq.isEmpty then c else c.postKick

/-- `txq` is left as it is. -/
def closeAndRecycle (c : Tx) : Tx := { c with live := false, kickPending := false }

/-- After the last response the connection is closed. -/
def checkLimit (c : Tx) : Tx := if c.served.toNat < c.keepaliveLimit.toNat then c else c.closeAndRecycle

inductive Action
  | enqueue (b : OwnedBuf)
  | kick
  | submit (i : Nat)
  | completed (i : Nat)
  | readServed (i : Nat)
  | writeServed (i : Nat)
  | checkLimit (i : Nat)
deriving DecidableEq, Repr

/-- The steps on a live connection that is not closing: sends succeed, and completions come in any order. -/
def step (c : Tx) (a : Action) : Option Tx :=
  if c.live then
    match a with
    | .enqueue b => some (c.txEnqueue b)
    | .kick => if 0 < c.kicks then some ({ c with kicks := c.kicks - 1 } : Tx).maybeStartSendWorker else none
    | .submit i => c.starting[i]?.map fun n => ({ c with starting := c.starting.eraseIdx i } : Tx).wsaSend n
    | .completed i => c.flights[i]?.map fun bufs =>
        ({ c with flights := c.flights.eraseIdx i, sent := c.sent ++ bufs } : Tx).sendCompleted
    | .readServed i =>
      match c.finishing[i]? with
      | some .begun => some { c with finishing := c.finishing.set i (.read c.served) }
      | _ => none
    | .writeServed i =>
      match c.finishing[i]? with
      | some (.read served) => some { c with finishing := c.finishing.set i .written, served := served + 1 }
      | _ => none
    | .checkLimit i =>
      match c.finishing[i]? with
      | some .written => some ({ c with finishing := c.finishing.eraseIdx i } : Tx).checkLimit
      | _ => none
  else none

/-- A connection that has just been accepted. -/
def Fresh (c : Tx) : Prop := ∃ limit, c = { keepaliveLimit := limit }

/-! ## What a send takes -/

variable {c c' : Tx}

theorem gather_front : ∀ (n : Nat) (q : List OwnedBuf), (gather n q).1 <+: q
  | 0, _ => List.nil_prefix
  | _ + 1, [] => List.nil_prefix
  | n + 1, b :: q => by
    unfold gather
    split
    · exact ⟨q, rfl⟩
    · exact List.prefix_cons_inj b |>.mpr (gather_front n q)

theorem take_gather (n : Nat) (q : List OwnedBuf) : q.take (gather n q).1.length = (gather n q).1 :=
  (List.prefix_iff_eq_take.mp (gather_front n q)).symm

theorem gather_pos {n : Nat} {q : List OwnedBuf} (hn : 0 < n) (hq : q ≠ []) : (gather n q).1.length ≠ 0 := by
  obtain ⟨n, rfl⟩ := Nat.exists_eq_add_one.mpr hn
  obtain ⟨b, q, rfl⟩ := List.exists_cons_of_ne_nil hq
  unfold gather
  split <;> simp

theorem postKick_eq (c : Tx) : c.postKick =
    { c with kickPending := true, kicks := if c.kickPending then c.kicks else c.kicks + 1 } := by
  unfold postKick
  split
  · rename_i hk
    rw [← hk]
  · rfl

/-! ## The invariant -/

/-- Where the send is that is under way, if there is one. -/
inductive Sending (c : Tx) : Prop
  | idle (flag : c.sendInflight = false) (count : c.inflightCount = 0) (workers : c.starting = [])
      (flights : c.flights = [])
  | begun (flag : c.sendInflight = true) (workers : c.starting = [c.inflightCount]) (flights : c.flights = [])
      (tx : c.tx.take c.inflightCount = c.txq.take c.inflightCount)
  | flying (flag : c.sendInflight = true) (workers : c.starting = [])
      (flights : c.flights = [c.txq.take c.inflightCount])

/-- A send goes on where the front of the queue stays. -/
theorem Sending.of_eq (h : c.Sending) (hflag : c'.sendInflight = c.sendInflight)
    (hcount : c'.inflightCount = c.inflightCount) (hw : c'.starting = c.starting) (hf : c'.flights = c.flights)
    (htx : c'.tx = c.tx) (hq : c'.txq.take c.inflightCount = c.txq.take c.inflightCount) : c'.Sending := by
  rcases h with ⟨flag, count, workers, flights⟩ | ⟨flag, workers, flights, tx⟩ | ⟨flag, workers, flights⟩
  · exact .idle (hflag.trans flag) (hcount.trans count) (hw.trans workers) (hf.trans flights)
  · exact .begun (hflag.trans flag) (by rw [hw, hcount, workers]) (hf.trans flights) (by rw [htx, hcount, hq, tx])
  · exact .flying (hflag.trans flag) (hw.trans workers) (by rw [hf, hcount, hq, flights])

/-- The buffers of the send that is under way are the batch. -/
def toSender (c : Tx) : Sender OwnedBuf where
  queue := c.txq.drop c.inflightCount
  batch := if c.sendInflight then some (c.txq.take c.inflightCount) else none
  pushed := c.enqueued
  done := c.sent

structure Inv (c : Tx) : Prop where
  wake : c.live = true → c.txq ≠ [] → c.sendInflight = true ∨ c.kickPending = true
  kicks : c.live = true → c.kicks = if c.kickPending then 1 else 0
  sending : c.Sending
  count : c.inflightCount ≤ c.txq.length
  handed : c.handed = c.sent ++ c.flights.flatten
  fifo : c.toSender.Inv

theorem inv_fresh (h : c.Fresh) : c.Inv := by
  obtain ⟨limit, rfl⟩ := h
  exact ⟨fun _ h => absurd rfl h, fun _ => rfl, .idle rfl rfl rfl rfl, Nat.le_refl _, rfl, rfl⟩

theorem Inv.txEnqueue (hc : c.Inv) (hlive : c.live = true) (b : OwnedBuf) : (c.txEnqueue b).Inv := by
  have htake : (c.txq ++ [b]).take c.inflightCount = c.txq.take c.inflightCount :=
    List.take_append_of_le_length hc.count
  have hdrop : (c.txq ++ [b]).drop c.inflightCount = c.txq.drop c.inflightCount ++ [b] :=
    List.drop_append_of_le_length hc.count
  unfold Tx.txEnqueue
  rw [postKick_eq]
  refine ⟨fun _ _ => .inr rfl, fun _ => ?_, hc.sending.of_eq rfl rfl rfl rfl rfl htake, ?_, hc.handed, ?_⟩
  · have hkicks := hc.kicks hlive
    dsimp only
    split at hkicks <;> simp_all
  · rw [List.length_append]
    exact hc.count.trans (Nat.le_add_right ..)
  · -- the queue of the sender grows
    have hpush : Sender.Step c.toSender _ := .push [b]
    have hfifo := hpush.inv hc.fifo
    simpa only [toSender, htake, hdrop] using hfifo

/-- A Kick: the front of the queue is to be sent, unless a send is under way. -/
theorem Inv.kick (hc : c.Inv) (hlive : c.live = true) (hkick : 0 < c.kicks) :
    ({ c with kicks := c.kicks - 1 } : Tx).maybeStartSendWorker.Inv := by
  have hone : c.kicks - 1 = 0 := by
    have hkicks := hc.kicks hlive
    split at hkicks <;> omega
  unfold maybeStartSendWorker
  dsimp only
  split
  · rename_i hquiet
    refine ⟨fun _ hne => .inl ?_, fun _ => hone, hc.sending.of_eq rfl rfl rfl rfl rfl rfl, hc.count, hc.handed,
      hc.fifo⟩
    simpa [hne] using hquiet
  · rename_i hquiet
    simp only [Bool.or_eq_true, List.isEmpty_iff, not_or, Bool.not_eq_true] at hquiet
    obtain ⟨hflag, hne⟩ := hquiet
    obtain ⟨hcount, hw, hf⟩ : c.inflightCount = 0 ∧ c.starting = [] ∧ c.flights = [] := by
      rcases hc.sending with ⟨-, hcount, hw, hf⟩ | ⟨h, -⟩ | ⟨h, -⟩
      · exact ⟨hcount, hw, hf⟩
      · rw [hflag] at h
        cases h
      · rw [hflag] at h
        cases h
    rw [if_neg (gather_pos (by decide) hne)]
    have htake := take_gather maxWsabuf c.txq
    refine ⟨fun _ _ => .inl rfl, fun _ => hone, .begun rfl (by rw [hw]; rfl) hf ?_, ?_, hc.handed, ?_⟩
    · dsimp only
      rw [List.take_left, htake]
    · exact (gather_front maxWsabuf c.txq).length_le
    · have hsplit := List.take_append_drop (gather maxWsabuf c.txq).1.length c.txq
      rw [htake] at hsplit
      have hload : Sender.Step c.toSender ⟨c.txq.drop (gather maxWsabuf c.txq).1.length,
          some (gather maxWsabuf c.txq).1, c.enqueued, c.sent⟩ :=
        .load (by simp [toSender, hflag]) (by rw [hsplit, toSender, hcount]; rfl)
      have hfifo := hload.inv hc.fifo
      simpa only [toSender, htake, if_true] using hfifo

theorem only_one {α : Type*} {a b : α} {i : Nat} (h : [a][i]? = some b) : i = 0 ∧ b = a := by
  cases i with
  | zero => exact ⟨rfl, (Option.some.inj h).symm⟩
  | succ i => cases h

/-- An element of a list, with what stands around it. -/
theorem split_at {α : Type*} {l : List α} {i : Nat} {a : α} (h : l[i]? = some a) :
    ∃ l₁ l₂, l = l₁ ++ a :: l₂ ∧ (∀ b, l.set i b = l₁ ++ b :: l₂) ∧ l.eraseIdx i = l₁ ++ l₂ := by
  induction l generalizing i with
  | nil => simp at h
  | cons x l ih =>
    cases i with
    | zero =>
      cases h
      exact ⟨[], l, rfl, fun _ => rfl, rfl⟩
    | succ i =>
      obtain ⟨l₁, l₂, hl, hset, herase⟩ := ih (i := i) (by simpa using h)
      exact ⟨x :: l₁, l₂, by rw [hl]; rfl, fun b => by rw [List.set_cons_succ, hset]; rfl,
        by rw [List.eraseIdx_cons_succ, herase]; rfl⟩

/-- `WSASend` is handed the buffers that were taken. -/
theorem Inv.submit (hc : c.Inv) {i n : Nat} (hi : c.starting[i]? = some n) :
    (({ c with starting := c.starting.eraseIdx i } : Tx).wsaSend n).Inv := by
  rcases hc.sending with ⟨-, -, hw, -⟩ | ⟨hflag, hw, hf, htx⟩ | ⟨-, hw, -⟩
  · rw [hw] at hi
    cases hi
  · rw [hw] at hi
    obtain ⟨rfl, rfl⟩ := only_one hi
    refine ⟨hc.wake, hc.kicks, .flying hflag ?_ ?_, hc.count, ?_, hc.fifo⟩
    · simp [wsaSend, hw]
    · simp [wsaSend, hf, htx]
    · simp [wsaSend, hc.handed, hf]
  · rw [hw] at hi
    cases hi

/-- The buffers that have been sent leave the queue. -/
theorem Inv.completed (hc : c.Inv) (hlive : c.live = true) {i : Nat} {bufs : List OwnedBuf}
    (hi : c.flights[i]? = some bufs) :
    (({ c with flights := c.flights.eraseIdx i, sent := c.sent ++ bufs } : Tx).sendCompleted).Inv := by
  rcases hc.sending with ⟨-, -, -, hf⟩ | ⟨-, -, hf, -⟩ | ⟨hflag, hw, hf⟩
  · rw [hf] at hi
    cases hi
  · rw [hf] at hi
    cases hi
  · rw [hf] at hi
    obtain ⟨rfl, rfl⟩ := only_one hi
    have hfinish : Sender.Step c.toSender ⟨c.txq.drop c.inflightCount, none, c.enqueued,
        c.sent ++ c.txq.take c.inflightCount⟩ := .finish (by simp [toSender, hflag])
    have hfifo := hfinish.inv hc.fifo
    have hhanded : c.handed = c.sent ++ c.txq.take c.inflightCount := by simp [hc.handed, hf]
    have herase : c.flights.eraseIdx 0 = [] := by rw [hf]; rfl
    unfold sendCompleted
    dsimp only
    rw [herase]
    split
    · rename_i hempty
      rw [List.isEmpty_iff] at hempty
      exact ⟨fun _ hne => absurd hempty hne, hc.kicks, .idle rfl rfl hw rfl, Nat.zero_le _, by simpa using hhanded,
        hfifo⟩
    · rw [postKick_eq]
      refine ⟨fun _ _ => .inr rfl, fun _ => ?_, .idle rfl rfl hw rfl, Nat.zero_le _, by simpa using hhanded, hfifo⟩
      have hkicks := hc.kicks hlive
      dsimp only
      split at hkicks <;> simp_all

theorem Inv.closeAndRecycle (hc : c.Inv) : c.closeAndRecycle.Inv :=
  ⟨Bool.noConfusion, Bool.noConfusion, hc.sending.of_eq rfl rfl rfl rfl rfl rfl, hc.count, hc.handed, hc.fifo⟩

/-- The count is of no account for what is sent. -/
theorem Inv.counts (hc : c.Inv) (served : UInt32) (finishing : List Count) :
    ({ c with served := served, finishing := finishing } : Tx).Inv :=
  ⟨hc.wake, hc.kicks, hc.sending.of_eq rfl rfl rfl rfl rfl rfl, hc.count, hc.handed, hc.fifo⟩

theorem Inv.checkLimit (hc : c.Inv) : c.checkLimit.Inv := by
  unfold Tx.checkLimit
  split
  · exact hc
  · exact hc.closeAndRecycle

theorem Inv.step {a : Action} (hc : c.Inv) (hs : c.step a = some c') : c'.Inv := by
  unfold Tx.step at hs
  split at hs
  · rename_i hlive
    cases a with
    | enqueue b =>
      cases hs
      exact hc.txEnqueue hlive b
    | kick =>
      dsimp only at hs
      split at hs
      · rename_i hkick
        cases hs
        exact hc.kick hlive hkick
      · cases hs
    | submit i =>
      obtain ⟨n, hi, rfl⟩ := Option.map_eq_some_iff.mp hs
      exact hc.submit hi
    | completed i =>
      obtain ⟨bufs, hi, rfl⟩ := Option.map_eq_some_iff.mp hs
      exact hc.completed hlive hi
    | readServed i =>
      dsimp only at hs
      split at hs
      · cases hs
        exact hc.counts _ _
      · cases hs
    | writeServed i =>
      dsimp only at hs
      split at hs
      · cases hs
        exact hc.counts _ _
      · cases hs
    | checkLimit i =>
      dsimp only at hs
      split at hs
      · cases hs
        exact (hc.counts _ _).checkLimit
      · cases hs
  · cases hs

/-- Whatever the order of the steps: a queue that is not empty has a send under way or a Kick posted, there is at most
one send, its buffers are the first of the queue, and each buffer is sent once, in the order of the calls that enqueued
them. -/
theorem sends_in_order (hs : Reach Fresh step (fun _ _ => True) c) (hlive : c.live = true) :
    (c.txq ≠ [] → c.sendInflight = true ∨ c.kickPending = true ∧ 0 < c.kicks) ∧
    c.starting.length + c.flights.length ≤ 1 ∧
    (∀ bufs ∈ c.flights, bufs = c.txq.take c.inflightCount ∧ bufs.length = c.inflightCount) ∧
    c.handed = c.sent ++ c.flights.flatten ∧ c.sent ++ c.txq = c.enqueued := by
  have hc : c.Inv := Reach.invariant (fun _ => inv_fresh) (fun _ _ _ hc _ => hc.step) c hs
  have hkicks := hc.kicks hlive
  have hfifo := hc.fifo
  have hlen : (c.txq.take c.inflightCount).length = c.inflightCount := List.length_take_of_le hc.count
  refine ⟨fun hne => (hc.wake hlive hne).imp_right fun hk => ⟨hk, ?_⟩, ?_, ?_, hc.handed, ?_⟩
  · rw [hkicks, if_pos hk]
    exact Nat.one_pos
  · rcases hc.sending with ⟨-, -, hw, hf⟩ | ⟨-, hw, hf, -⟩ | ⟨-, hw, hf⟩ <;> simp [hw, hf]
  · rcases hc.sending with ⟨-, -, hw, hf⟩ | ⟨-, hw, hf, -⟩ | ⟨-, hw, hf⟩ <;> simp [hf, hc.count]
  · unfold Sender.Inv toSender at hfifo
    rcases hc.sending with ⟨hflag, hcount, -, -⟩ | ⟨hflag, -, -, -⟩ | ⟨hflag, -, -⟩
    · simpa [hflag, hcount] using hfifo
    · simpa [hflag] using hfifo
    · simpa [hflag] using hfifo

def header : OwnedBuf := ⟨ascii "HTTP/1.1 200 OK\r\n\r\n", false⟩

def greetingBody : OwnedBuf := ⟨ascii "hello", true⟩

/-- A response is enqueued while its header is being sent. -/
def overtaken : List Action := [.enqueue header, .kick, .enqueue greetingBody, .submit 0, .kick, .completed 0]

theorem sends_in_order_overtaken : ∃ c : Tx, Reach Fresh step (fun _ _ => True) c ∧ c.sent = [header] ∧
    (c.txq ≠ [] → c.sendInflight = true ∨ c.kickPending = true ∧ 0 < c.kicks) ∧
    c.starting.length + c.flights.length ≤ 1 ∧
    (∀ bufs ∈ c.flights, bufs = c.txq.take c.inflightCount ∧ bufs.length = c.inflightCount) ∧
    c.handed = c.sent ++ c.flights.flatten ∧ c.sent ++ c.txq = c.enqueued := by
  obtain ⟨c, hexec, hobs⟩ := Option.map_eq_some_iff.mp
    (show (execAll step (fun _ _ => True) overtaken { keepaliveLimit := 65000 }).map (fun c => (c.live, c.sent)) =
      some (true, [header]) by decide +kernel)
  obtain ⟨hlive, hsent⟩ := Prod.mk.inj hobs
  have hreach : Reach Fresh step (fun _ _ => True) c := Reach.exec (.start ⟨65000, rfl⟩) hexec
  exact ⟨c, hreach, hsent, sends_in_order hreach hlive⟩

end Tx

end IOContext.Iocp
