import IOContext.Runs
import IOContext.Worker.Transfers

/-!
# The bytes that a connection sends

The runs of one connection with its kernel side: any branch of the switch is taken for it, in any order, and a send that
has been submitted completes with an error or with any number of the bytes of its batch taken.

- On the side of the abstract sender a completion is an unload or, when the whole batch has been taken, a finish
  (`Good.sent`); the other branches push and load (`Good.transfers`).
- As long as every successful send takes its whole batch, the bytes taken are a prefix of the bytes queued
  (`taken_prefix`).
-/

namespace IOContext

open Worker

/-- A connection and what the kernel knows of it. -/
structure Stream where
  w : Worker
  c : Ptr
  fd : Fd
  /-- The sends that have not completed. -/
  outstanding : List (List Bytes) := []
  /-- The bytes that the kernel has taken. -/
  taken : Bytes := []

namespace Stream

inductive Action
  /-- A completion of another kind than `send`; `bufPool` and `holds` are what the kernel has written. -/
  | handle (kind : Workflow) (cqe : Cqe) (bufPool holds : Nat → Bytes) (env : Env)
  /-- The `i`-th send completes with `res`. -/
  | sent (i : Nat) (res : Int32) (env : Env)

/-- The sends that `w'` has submitted and `w` had not. -/
def sendsSince (w w' : Worker) : List (List Bytes) := sendsOf (w'.trace.drop w.trace.length)

def step (s : Stream) (a : Action) : Option Stream :=
  if s.w.terminated then none
  else match a with
    | .handle kind cqe bufPool holds env =>
      if kind = .send then none
      else do
        let w' ← { s.w with bufPool := bufPool, holds := holds, env := env }.handleConn s.c s.fd kind cqe
        some { s with w := w', outstanding := s.outstanding ++ sendsSince s.w w' }
    | .sent i res env => do
      let iov ← s.outstanding[i]?
      if res.toInt ≤ iov.flatten.length then
        let w' ← { s.w with env := env }.handleConn s.c s.fd .send { res := res }
        some { s with
          w := w'
          outstanding := s.outstanding.eraseIdx i ++ sendsSince s.w w'
          taken := s.taken ++ iov.flatten.take res.toInt.toNat }
      else none

/-- A connection that nothing has been queued for. -/
def Init (s : Stream) : Prop :=
  s.w.At s.c s.fd ∧ (s.w.heap s.c).txq = [] ∧ (s.w.heap s.c).sendInflight = false ∧ queuedOf s.c s.w.trace = [] ∧
    s.outstanding = [] ∧ s.taken = []

/-- A send that succeeds takes its whole batch. -/
def WholeBatch (s : Stream) : Action → Prop
  | .sent i res _ => 0 ≤ res → ∀ iov ∈ s.outstanding[i]?, res.toInt = iov.flatten.length
  | _ => True

instance (s : Stream) (a : Action) : Decidable (s.WholeBatch a) := by
  unfold WholeBatch
  split <;> infer_instance

/-- The bytes that have been queued. -/
def queued (s : Stream) : Bytes := (queuedOf s.c s.w.trace).flatMap (·.wb)

/-! ## The invariant -/

/-- What the kernel has taken are the buffers that the sender is done with, and only the current batch can be
outstanding. -/
structure Good (w : Worker) (c : Ptr) (outstanding : List (List Bytes)) (taken : Bytes) : Prop where
  sender : ∃ done, taken = done.flatMap (·.wb) ∧ (w.sender c done).Inv
  outstanding : outstanding = [] ∨ ∃ b, (w.heap c).batch = some b ∧ outstanding = [b.map (·.wb)]

variable {w w' : Worker} {c : Ptr} {fd : Fd} {out : List (List Bytes)} {taken : Bytes}

/-- At most the current batch is outstanding, and stays so when batches are submitted. -/
theorem outstanding_transfers (hout : out = [] ∨ ∃ b, (w.heap c).batch = some b ∧ out = [b.map (·.wb)])
    (ht : Transfers c w w') :
    out ++ sendsSince w w' = [] ∨ ∃ b, (w'.heap c).batch = some b ∧ out ++ sendsSince w w' = [b.map (·.wb)] := by
  obtain ⟨evs, htrace, ht⟩ := ht
  rw [sendsSince, htrace, List.drop_left]
  rcases ht with ⟨hbatch, -, hsends⟩ | ⟨b, hnone, hbatch, -, hsends⟩
  · rw [hsends, List.append_nil, hbatch]
    exact hout
  · rw [hsends]
    rcases hout with rfl | ⟨b', hb', -⟩
    · exact .inr ⟨b, hbatch, rfl⟩
    · rw [hnone] at hb'
      cases hb'

theorem Good.transfers (h : Good w c out taken) (ht : Transfers c w w') : Good w' c (out ++ sendsSince w w') taken := by
  obtain ⟨⟨done, htaken, hinv⟩, hout⟩ := h
  exact ⟨⟨done, htaken, Sender.Steps.inv (ht.steps done) hinv⟩, outstanding_transfers hout ht⟩

/-- The send that completes is that of the current batch. -/
theorem Good.getElem (h : Good w c out taken) {i : Nat} {iov : List Bytes} (hi : out[i]? = some iov) :
    ∃ b, (w.heap c).batch = some b ∧ (w.heap c).txInflight = b ∧ iov = b.map (·.wb) ∧ out.eraseIdx i = [] := by
  rcases h.outstanding with rfl | ⟨b, hb, rfl⟩
  · simp at hi
  · obtain ⟨hlt, heq⟩ := List.getElem?_eq_some_iff.mp hi
    obtain rfl : i = 0 := by simpa using hlt
    refine ⟨b, hb, ?_, heq.symm, rfl⟩
    unfold PerClientStorage.batch at hb
    split at hb
    · exact Option.some.inj hb
    · cases hb

theorem onSendCompleted_batch (o : PerClientStorage) : o.onSendCompleted.2.batch = none := by
  unfold PerClientStorage.onSendCompleted
  dsimp only
  split <;> rfl

/-- A send that completes with a count is done with its whole batch, whatever the count. -/
theorem Good.completed (h : Good w c out taken) {i : Nat} {iov : List Bytes} (hi : out[i]? = some iov) {res : Int32}
    (hat : w.At c fd) (hw : w.handleConn c fd .send { res := res } = some w') :
    Good w' c (out.eraseIdx i ++ sendsSince w w') (taken ++ if res < 0 then [] else iov.flatten) := by
  obtain ⟨b, hb, hinflight, rfl, herase⟩ := h.getElem hi
  obtain ⟨done, rfl, hinv⟩ := h.sender
  rw [herase]
  have htr := handleSend_transfers hat hw
  split at htr
  · rename_i hneg
    rw [if_pos hneg, List.append_nil]
    split at htr
    · -- the batch goes back
      refine Good.transfers (w := w.modify c PerClientStorage.rollback) ⟨⟨done, rfl, ?_⟩, .inl rfl⟩ htr
      have hunload := (Sender.Step.unload (s := w.sender c done) hb).inv hinv
      simpa [Worker.sender, PerClientStorage.batch, PerClientStorage.rollback, hinflight] using hunload
    · exact Good.transfers ⟨⟨done, rfl, hinv⟩, .inl rfl⟩ htr
  · rename_i hneg
    -- the batch is done
    rw [if_neg hneg, ← List.flatMap_def, ← List.flatMap_append]
    refine Good.transfers (w := w.modify c fun _ => (w.heap c).onSendCompleted.2) ⟨⟨done ++ b, rfl, ?_⟩, .inl rfl⟩ htr
    have hfinish := (Sender.Step.finish (s := w.sender c done) hb).inv hinv
    simpa [Worker.sender, onSendCompleted_batch, onSendCompleted_txq] using hfinish

theorem Good.sent (h : Good w c out taken) {i : Nat} {iov : List Bytes} (hi : out[i]? = some iov) {res : Int32}
    (hwhole : 0 ≤ res → res.toInt = iov.flatten.length) (hat : w.At c fd)
    (hw : w.handleConn c fd .send { res := res } = some w') :
    Good w' c (out.eraseIdx i ++ sendsSince w w') (taken ++ iov.flatten.take res.toInt.toNat) := by
  have hdone := h.completed hi hat hw
  split at hdone
  · rename_i hneg
    have hnone : res.toInt.toNat = 0 := by
      have := Int32.lt_iff_toInt_lt.mp hneg
      simp at this
      omega
    rwa [hnone, List.take_zero]
  · rename_i hneg
    rwa [hwhole (Int32.not_lt.mp hneg), Int.toNat_natCast, List.take_length]

/-- What is done for other connections does not matter. -/
theorem Good.apart (h : Good w c out taken) {evs : List Event} (hheap : w'.heap c = w.heap c)
    (htrace : w'.trace = w.trace ++ evs) (hev : ∀ ev ∈ evs, ev.Apart c) : Good w' c out taken := by
  have hsender : ∀ done, w'.sender c done = w.sender c done := fun done => by
    simp [Worker.sender, hheap, htrace, queuedOf_apart hev]
  exact ⟨by simpa only [hsender] using h.sender, by rw [hheap]; exact h.outstanding⟩

theorem good_of_reach {s : Stream} (h : Reach Init step WholeBatch s) :
    s.w.At s.c s.fd ∧ Good s.w s.c s.outstanding s.taken := by
  refine Reach.invariant (I := fun s => s.w.At s.c s.fd ∧ Good s.w s.c s.outstanding s.taken)
    (fun s ⟨hat, htxq, hidle, hqueued, hout, htaken⟩ => ⟨hat, ⟨⟨[], by simpa using htaken, ?_⟩, .inl hout⟩⟩)
    (fun s a s' ⟨hat, hgood⟩ hwhole h => ?_) s h
  · simp [Sender.Inv, Worker.sender, htxq, hqueued, PerClientStorage.batch, hidle]
  · unfold step at h
    split at h
    · cases h
    · split at h
      · rename_i kind cqe bufPool holds env
        split at h
        · cases h
        · rename_i hkind
          obtain ⟨w', hw, h⟩ := Option.bind_eq_some_iff.mp h
          cases h
          have hat' : ({ s.w with bufPool := bufPool, holds := holds, env := env } : Worker).At s.c s.fd :=
            ⟨hat.table, hat.obj⟩
          have hgood' : Good { s.w with bufPool := bufPool, holds := holds, env := env } s.c s.outstanding s.taken :=
            ⟨hgood.sender, hgood.outstanding⟩
          exact ⟨hat'.prims (handleConn_prims hat' hw), hgood'.transfers (handleConn_transfers hkind hat' hw)⟩
      · rename_i i res env
        obtain ⟨iov, hi, h⟩ := Option.bind_eq_some_iff.mp h
        split at h
        · obtain ⟨w', hw, h⟩ := Option.bind_eq_some_iff.mp h
          cases h
          have hat' : ({ s.w with env := env } : Worker).At s.c s.fd := ⟨hat.table, hat.obj⟩
          have hgood' : Good { s.w with env := env } s.c s.outstanding s.taken := ⟨hgood.sender, hgood.outstanding⟩
          exact ⟨hat'.prims (handleConn_prims hat' hw), hgood'.sent hi (fun h => hwhole h iov hi) hat' hw⟩
        · cases h

/-! ## The bytes taken -/

/-- In every run of a connection in which every successful send takes its whole batch, the bytes taken are a prefix of
the bytes queued. -/
theorem taken_prefix {s : Stream} (h : Reach Init step WholeBatch s) : s.taken <+: s.queued := by
  obtain ⟨done, htaken, hinv⟩ := (good_of_reach h).2.sender
  rw [htaken]
  exact hinv.prefix _

/-- A connection that has been accepted as 5 by a worker without a buffer pool. -/
def accepted : Stream where
  w := {
    listenFd := 3
    cfg := {}
    routes := [(ascii "/", fun _ res => res)]
    table := fun fd => if fd = 5 then some 0 else none
    heap := fun c => if c = 0 then { fd := 5, hasOwner := true, rxHold := some 0 } else {}
    nextPtr := 1
    nextHold := 1 }
  c := 0
  fd := 5

theorem accepted_init : Init accepted := ⟨⟨rfl, rfl⟩, rfl, rfl, rfl, rfl, rfl⟩

/-- `GET / HTTP/1.1` arrives, the handler is found. -/
def requested : List Action :=
  [.handle .recv { res := 18 } (fun _ => []) (fun _ => ascii "GET / HTTP/1.1" ++ [CR, LF, CR, LF])
      { sqes := [true, true, true] },
    .handle .findHandler { res := 0 } (fun _ => []) (fun _ => []) {}]

/-- A response is generated and a send of it submitted. -/
def responded : List Action :=
  [.handle .generateResponse { res := 0 } (fun _ => []) (fun _ => []) { sqes := [true] },
    .handle .requestFlush { res := 0 } (fun _ => []) (fun _ => []) { sqes := [true] }]

theorem taken_prefix_responded : ∃ s, execAll step WholeBatch (requested ++ responded ++ [.sent 0 38 {}]) accepted =
    some s ∧ s.taken.length = 38 ∧ s.taken <+: s.queued := by
  obtain ⟨s, hs, htaken⟩ := Option.map_eq_some_iff.mp (show
    (execAll step WholeBatch (requested ++ responded ++ [.sent 0 38 {}]) accepted).map (·.taken.length) = some 38 by
      decide +kernel)
  exact ⟨s, hs, htaken, taken_prefix (.exec (.start accepted_init) hs)⟩

/-- The kernel takes one byte of a response; the rest of it is dropped, and the next response follows. -/
theorem taken_not_prefix : ∃ s, Reach Init step (fun _ _ => True) s ∧
    s.queued = s.queued.take 38 ++ s.queued.take 38 ∧ s.taken = s.queued.take 1 ++ s.queued.take 38 ∧
      ¬s.taken <+: s.queued := by
  obtain ⟨s, hs, hobs⟩ := Option.map_eq_some_iff.mp (show
    (execAll step (fun _ _ => True) (requested ++ responded ++ [.sent 0 1 {}] ++ requested ++ responded ++
      [.sent 0 38 {}]) accepted).map (fun s => (decide (s.queued = s.queued.take 38 ++ s.queued.take 38),
        decide (s.taken = s.queued.take 1 ++ s.queued.take 38), decide (s.taken <+: s.queued))) =
      some (true, true, false) by decide +kernel)
  simp only [Prod.mk.injEq] at hobs
  exact ⟨s, .exec (.start accepted_init) hs, of_decide_eq_true hobs.1, of_decide_eq_true hobs.2.1,
    of_decide_eq_false hobs.2.2⟩

end Stream

end IOContext
