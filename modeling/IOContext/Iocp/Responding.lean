import IOContext.Iocp.Sending

/-!
# The IOCP server: responding

A parsed request goes to `respq` under `resp_mtx`, and a Respond is posted unless one is pending. The worker that gets
it takes the whole queue, enqueues a header and a body for each request, and looks at the queue once more. The flag is
cleared when the queue is taken, so that another worker can be handed the next requests while the first still answers.

A connection that is closed, by its client, by a failed send, by a sweep or by the count, drops the requests that wait;
what a worker still does to it then is not followed.

- No wake-up is lost, and each request is answered by one header and one body, whatever the order of the steps, unless
  it waits when the connection is closed (`answered_once`).
- As long as no worker is handed requests while another still answers, the responses are whole and in the order of the
  requests (`answers_in_order`). With two workers the header of one response may come between the header and the body
  of another (`answers_interleaved`).
-/

namespace IOContext.Iocp

/-! ## Demo payload -/

def kBody : Bytes := ascii "Hello, World!" ++ [LF]

def kHdrKeep : Bytes := ascii "HTTP/1.1 200 OK" ++ [CR, LF] ++ ascii "Content-Type: text/plain" ++ [CR, LF] ++
  ascii "Content-Length: 14" ++ [CR, LF] ++ ascii "Connection: keep-alive" ++ [CR, LF, CR, LF]

def kHdrClose : Bytes := ascii "HTTP/1.1 200 OK" ++ [CR, LF] ++ ascii "Content-Type: text/plain" ++ [CR, LF] ++
  ascii "Content-Length: 14" ++ [CR, LF] ++ ascii "Connection: close" ++ [CR, LF, CR, LF]

/-- `tx_enqueue_literal` of the header. -/
def hdr (keep : Bool) : OwnedBuf := ⟨if keep then kHdrKeep else kHdrClose, false⟩

def body : OwnedBuf := ⟨kBody, true⟩

/-- `c->served < keepalive_limit_ - 1`, with the difference converted to 32 bits. -/
def keeps (keepAlive : Bool) (served : UInt32) (limit : UInt16) : Bool := keepAlive && served < limit.toUInt32 - 1

/-! ## The state -/

/-- A worker that handles a Respond: the requests that it still has to answer, and the header that it has enqueued for
the first of them. -/
structure Turn (ρ : Type) where
  reqs : List ρ
  header : Option Bool := none
deriving DecidableEq, Repr

/-- The responding side of a connection and its sending side. -/
structure Rsp (ρ : Type) where
  respq : List ρ := []
  respondInflight : Bool := false
  /-- The Responds that are posted and not handled. -/
  responds : Nat := 0
  /-- The workers that handle one. -/
  turns : List (Turn ρ) := []
  tx : Tx
  /-- All that came into `respq`, what has been answered, with the header, and what was dropped by the close. -/
  requested : List ρ := []
  answered : List (ρ × Bool) := []
  dropped : List ρ := []
deriving DecidableEq, Repr

namespace Rsp

variable {ρ : Type}

/-! ## The operations -/

/-- A Respond is posted, unless one is pending. -/
def postRespond (c : Rsp ρ) : Rsp ρ :=
  if c.respondInflight then c else { c with respondInflight := true, responds := c.responds + 1 }

def enqueueRequestForResponse (c : Rsp ρ) (r : ρ) : Rsp ρ :=
  postRespond { c with respq := c.respq ++ [r], requested := c.requested ++ [r] }

/-- The first region of a Respond: the queue is taken. -/
def takeRequests (c : Rsp ρ) : Rsp ρ :=
  { c with respq := [], respondInflight := false, turns := c.turns ++ [{ reqs := c.respq }] }

/-- The last one. -/
def lookAgain (c : Rsp ρ) : Rsp ρ := if c.respq.isEmpty then c else c.postRespond

/-- What waits is dropped; the workers that answer go on. -/
def closeAndRecycle (c : Rsp ρ) : Rsp ρ :=
  { c with respq := [], respondInflight := false, tx := c.tx.closeAndRecycle, dropped := c.dropped ++ c.respq }

inductive Action (ρ : Type)
  | request (r : ρ)
  | respond
  /-- The worker has read `keep_alive` and `served`, which others may have changed since. -/
  | putHeader (i : Nat) (keepAlive : Bool) (served : UInt32)
  | putBody (i : Nat)
  | lookAgain (i : Nat)
  /-- A step of the sending side. -/
  | send (a : Tx.Action)
  /-- The client has gone, a send has failed, or the connection has been idle for too long. -/
  | close

/-- The steps on a live connection; only Responds enqueue buffers. -/
def step (c : Rsp ρ) (a : Action ρ) : Option (Rsp ρ) :=
  if c.tx.live then
    match a with
    | .request r => some (c.enqueueRequestForResponse r)
    | .respond => if 0 < c.responds then some ({ c with responds := c.responds - 1 } : Rsp ρ).takeRequests else none
    | .putHeader i keepAlive served =>
      match c.turns[i]? with
      | some ⟨r :: rs, none⟩ =>
        let keep := keeps keepAlive served c.tx.keepaliveLimit
        some { c with turns := c.turns.set i ⟨r :: rs, some keep⟩, tx := c.tx.txEnqueue (hdr keep) }
      | _ => none
    | .putBody i =>
      match c.turns[i]? with
      | some ⟨r :: rs, some keep⟩ =>
        some { c with
          turns := c.turns.set i ⟨rs, none⟩
          tx := c.tx.txEnqueue body
          answered := c.answered ++ [(r, keep)] }
      | _ => none
    | .lookAgain i =>
      match c.turns[i]? with
      | some ⟨[], none⟩ => some ({ c with turns := c.turns.eraseIdx i } : Rsp ρ).lookAgain
      | _ => none
    | .send (.enqueue _) => none
    | .send a => (c.tx.step a).map fun tx =>
        -- the count may have closed the connection
        if tx.live then { c with tx := tx } else ({ c with tx := tx } : Rsp ρ).closeAndRecycle
    | .close => some c.closeAndRecycle
  else none

/-- A connection that has just been accepted. -/
def Fresh (c : Rsp ρ) : Prop := ∃ limit, c = { tx := { keepaliveLimit := limit } }

variable {c c' : Rsp ρ} {a : Action ρ}

theorem postRespond_eq (c : Rsp ρ) : c.postRespond =
    { c with respondInflight := true, responds := if c.respondInflight then c.responds else c.responds + 1 } := by
  unfold postRespond
  split
  · rename_i hk
    rw [← hk]
  · rfl

/-! ## Steps -/

/-- What a step does to the requests and to the buffers; `l₁` and `l₂` are the other workers. -/
inductive Step (c : Rsp ρ) : Action ρ → Rsp ρ → Prop
  | request (r : ρ) : Step c (.request r) (c.enqueueRequestForResponse r)
  | respond (h : 0 < c.responds) : Step c .respond ({ c with responds := c.responds - 1 } : Rsp ρ).takeRequests
  | putHeader {i : Nat} {r : ρ} {rs : List ρ} {l₁ l₂ : List (Turn ρ)} (keepAlive : Bool) (served : UInt32)
      (hturns : c.turns = l₁ ++ ⟨r :: rs, none⟩ :: l₂) :
      Step c (.putHeader i keepAlive served)
        { c with
          turns := l₁ ++ ⟨r :: rs, some (keeps keepAlive served c.tx.keepaliveLimit)⟩ :: l₂
          tx := c.tx.txEnqueue (hdr (keeps keepAlive served c.tx.keepaliveLimit)) }
  | putBody {i : Nat} {r : ρ} {rs : List ρ} {keep : Bool} {l₁ l₂ : List (Turn ρ)}
      (hturns : c.turns = l₁ ++ ⟨r :: rs, some keep⟩ :: l₂) :
      Step c (.putBody i)
        { c with turns := l₁ ++ ⟨rs, none⟩ :: l₂, tx := c.tx.txEnqueue body, answered := c.answered ++ [(r, keep)] }
  | lookAgain {i : Nat} {l₁ l₂ : List (Turn ρ)} (hturns : c.turns = l₁ ++ ⟨[], none⟩ :: l₂) :
      Step c (.lookAgain i) ({ c with turns := l₁ ++ l₂ } : Rsp ρ).lookAgain
  | send {a : Tx.Action} {tx : Tx} (hne : ∀ b, a ≠ .enqueue b) (h : c.tx.step a = some tx) (hlive : tx.live = true) :
      Step c (.send a) { c with tx := tx }
  | sendLast {a : Tx.Action} {tx : Tx} (hne : ∀ b, a ≠ .enqueue b) (h : c.tx.step a = some tx) :
      Step c (.send a) ({ c with tx := tx } : Rsp ρ).closeAndRecycle
  | close : Step c .close c.closeAndRecycle

theorem step_cases (h : c.step a = some c') : c.tx.live = true ∧ Step c a c' := by
  unfold step at h
  split at h
  · rename_i hlive
    refine ⟨hlive, ?_⟩
    cases a with
    | request r =>
      cases h
      exact .request r
    | respond =>
      dsimp only at h
      split at h
      · rename_i hpos
        cases h
        exact .respond hpos
      · cases h
    | putHeader i keepAlive served =>
      dsimp only at h
      split at h
      · rename_i hi
        obtain ⟨l₁, l₂, hl, hset, -⟩ := Tx.split_at hi
        cases h
        rw [hset]
        exact .putHeader keepAlive served hl
      · cases h
    | putBody i =>
      dsimp only at h
      split at h
      · rename_i hi
        obtain ⟨l₁, l₂, hl, hset, -⟩ := Tx.split_at hi
        cases h
        rw [hset]
        exact .putBody hl
      · cases h
    | lookAgain i =>
      dsimp only at h
      split at h
      · rename_i hi
        obtain ⟨l₁, l₂, hl, -, herase⟩ := Tx.split_at hi
        cases h
        rw [herase]
        exact .lookAgain hl
      · cases h
    | send a =>
      have hsend : ∀ {a : Tx.Action}, (∀ b, a ≠ .enqueue b) → ((c.tx.step a).map fun tx =>
          if tx.live then { c with tx := tx } else ({ c with tx := tx } : Rsp ρ).closeAndRecycle) = some c' →
          Step c (.send a) c' := fun hne h => by
        obtain ⟨tx, htx, rfl⟩ := Option.map_eq_some_iff.mp h
        split
        · rename_i hlive
          exact .send hne htx hlive
        · exact .sendLast hne htx
      cases a with
      | enqueue b => cases h
      | kick | submit | completed | readServed | writeServed | checkLimit => exact hsend (fun _ => by rintro ⟨⟩) h
    | close =>
      cases h
      exact .close
  · cases h

/-! ## Wake-ups and requests -/

/-- The headers that are waiting for their bodies. -/
def headers (turns : List (Turn ρ)) : List OwnedBuf := turns.filterMap fun t => t.header.map hdr

def response (x : ρ × Bool) : List OwnedBuf := [hdr x.2, body]

/-- The wake-up, and the close. -/
structure Wake (c : Rsp ρ) : Prop where
  wake : c.respq ≠ [] → c.respondInflight = true
  posted : c.tx.live = true → c.responds = if c.respondInflight then 1 else 0
  few : c.responds ≤ 1
  dropped : c.tx.live = true → c.dropped = []
  closed : c.tx.live = false → c.respq = []

structure Inv [DecidableEq ρ] (c : Rsp ρ) : Prop where
  kept : ∀ r, c.requested.count r =
    (c.answered.map Prod.fst).count r + (c.turns.flatMap (·.reqs)).count r + c.respq.count r + c.dropped.count r
  buffers : ∀ b, c.tx.enqueued.count b = (c.answered.flatMap response).count b + (headers c.turns).count b

/-- The sending side enqueues nothing by itself. -/
theorem tx_enqueued {tx tx' : Tx} {a : Tx.Action} (hne : ∀ b, a ≠ .enqueue b) (h : tx.step a = some tx') :
    tx'.enqueued = tx.enqueued := by
  unfold Tx.step at h
  split at h
  · cases a with
    | enqueue b => exact absurd rfl (hne b)
    | kick =>
      dsimp only at h
      split at h
      · cases h
        unfold Tx.maybeStartSendWorker
        dsimp only
        split
        · rfl
        · split <;> rfl
      · cases h
    | submit i =>
      obtain ⟨n, -, rfl⟩ := Option.map_eq_some_iff.mp h
      rfl
    | completed i =>
      obtain ⟨bufs, -, rfl⟩ := Option.map_eq_some_iff.mp h
      unfold Tx.sendCompleted
      dsimp only
      split
      · rfl
      · rw [Tx.postKick_eq]
    | readServed i =>
      dsimp only at h
      split at h
      · cases h
        rfl
      · cases h
    | writeServed i =>
      dsimp only at h
      split at h
      · cases h
        rfl
      · cases h
    | checkLimit i =>
      dsimp only at h
      split at h
      · cases h
        unfold Tx.checkLimit
        split <;> rfl
      · cases h
  · cases h

theorem txEnqueue_enqueued (tx : Tx) (b : OwnedBuf) : (tx.txEnqueue b).enqueued = tx.enqueued ++ [b] := by
  unfold Tx.txEnqueue
  rw [Tx.postKick_eq]

theorem headers_append (l₁ l₂ : List (Turn ρ)) : headers (l₁ ++ l₂) = headers l₁ ++ headers l₂ := List.filterMap_append

theorem headers_cons (t : Turn ρ) (l : List (Turn ρ)) : headers (t :: l) = (t.header.map hdr).toList ++ headers l := by
  unfold headers
  rw [List.filterMap_cons]
  cases t.header <;> rfl

theorem txEnqueue_live (tx : Tx) (b : OwnedBuf) : (tx.txEnqueue b).live = tx.live := by
  unfold Tx.txEnqueue
  rw [Tx.postKick_eq]

theorem Wake.closeAndRecycle (hc : c.Wake) : c.closeAndRecycle.Wake :=
  ⟨fun h => absurd rfl h, fun h => (by cases h), hc.few, fun h => (by cases h), fun _ => rfl⟩

theorem Wake.step (hc : c.Wake) (hlive : c.tx.live = true) (hs : Step c a c') : c'.Wake := by
  have hposted := hc.posted hlive
  have hopen : ∀ {p : Prop}, c.tx.live = false → p := fun h => by
    rw [hlive] at h
    cases h
  cases hs with
  | request r =>
    unfold enqueueRequestForResponse
    rw [postRespond_eq]
    refine ⟨fun _ => rfl, fun _ => ?_, ?_, hc.dropped, fun h => hopen h⟩ <;> dsimp only <;>
      split at hposted <;> simp_all
  | respond hpos =>
    have hzero : c.responds - 1 = 0 := by
      split at hposted <;> omega
    exact ⟨fun h => absurd rfl h, fun _ => hzero, hzero.trans_le (Nat.zero_le _), hc.dropped, fun _ => rfl⟩
  | putHeader keepAlive served hturns =>
    exact ⟨hc.wake, fun _ => hposted, hc.few, fun _ => hc.dropped hlive, fun h => hopen (by rwa [txEnqueue_live] at h)⟩
  | putBody hturns =>
    exact ⟨hc.wake, fun _ => hposted, hc.few, fun _ => hc.dropped hlive, fun h => hopen (by rwa [txEnqueue_live] at h)⟩
  | lookAgain hturns =>
    unfold Rsp.lookAgain
    split
    · exact ⟨hc.wake, hc.posted, hc.few, hc.dropped, hc.closed⟩
    · rw [postRespond_eq]
      refine ⟨fun _ => rfl, fun _ => ?_, ?_, hc.dropped, fun h => hopen h⟩ <;> dsimp only <;>
        split at hposted <;> simp_all
  | send hne h hlive' =>
    refine ⟨hc.wake, fun _ => hposted, hc.few, fun _ => hc.dropped hlive, fun h => ?_⟩
    rw [hlive'] at h
    cases h
  | sendLast hne h => exact ⟨fun h => absurd rfl h, fun h => (by cases h), hc.few, fun h => (by cases h), fun _ => rfl⟩
  | close => exact hc.closeAndRecycle

theorem Inv.closeAndRecycle [DecidableEq ρ] (hc : c.Inv) : c.closeAndRecycle.Inv := by
  refine ⟨fun r => ?_, hc.buffers⟩
  have hkept := hc.kept r
  unfold Rsp.closeAndRecycle
  dsimp only
  rw [List.count_append, List.count_nil]
  omega

theorem Inv.step [DecidableEq ρ] (hc : c.Inv) (hs : Step c a c') : c'.Inv := by
  cases hs with
  | request r =>
    unfold enqueueRequestForResponse
    rw [postRespond_eq]
    refine ⟨fun r' => ?_, hc.buffers⟩
    have hkept := hc.kept r'
    dsimp only
    rw [List.count_append, List.count_append]
    omega
  | respond hpos =>
    refine ⟨fun r' => ?_, fun b => ?_⟩
    · have hkept := hc.kept r'
      simpa [takeRequests, List.count_append, Nat.add_assoc] using hkept
    · have hbuffers := hc.buffers b
      simpa [takeRequests, headers_append, headers_cons, headers] using hbuffers
  | putHeader keepAlive served hturns =>
    refine ⟨fun r' => ?_, fun b => ?_⟩
    · have hkept := hc.kept r'
      rw [hturns] at hkept
      simpa [List.count_append] using hkept
    · have hbuffers := hc.buffers b
      rw [hturns] at hbuffers
      simp only [txEnqueue_enqueued, headers_append, headers_cons, List.count_append, Option.map_none, Option.map_some,
        Option.toList_none, Option.toList_some, List.count_nil] at hbuffers ⊢
      omega
  | putBody hturns =>
    refine ⟨fun r' => ?_, fun b => ?_⟩
    · have hkept := hc.kept r'
      rw [hturns] at hkept
      simp only [List.map_append, List.map_cons, List.map_nil, List.flatMap_append, List.flatMap_cons,
        List.count_append, List.count_cons, List.count_nil] at hkept ⊢
      omega
    · have hbuffers := hc.buffers b
      rw [hturns] at hbuffers
      simp only [txEnqueue_enqueued, headers_append, headers_cons, List.count_append, List.flatMap_append,
        List.flatMap_cons, List.flatMap_nil, response, Option.map_none, Option.map_some, Option.toList_none,
        Option.toList_some, List.count_cons, List.count_nil] at hbuffers ⊢
      omega
  | lookAgain hturns =>
    have hkept : ∀ r, c.requested.count r = (c.answered.map Prod.fst).count r +
        ((_ ++ _ : List (Turn ρ)).flatMap (·.reqs)).count r + c.respq.count r + c.dropped.count r := fun r' => by
      have hkept := hc.kept r'
      rw [hturns] at hkept
      simpa [List.count_append] using hkept
    have hbuffers : ∀ b, c.tx.enqueued.count b = (c.answered.flatMap response).count b +
        (headers (_ ++ _)).count b := fun b => by
      have hbuffers := hc.buffers b
      rw [hturns] at hbuffers
      simpa [headers_append, headers_cons] using hbuffers
    unfold Rsp.lookAgain
    split
    · exact ⟨hkept, hbuffers⟩
    · rw [postRespond_eq]
      exact ⟨hkept, hbuffers⟩
  | send hne h =>
    refine ⟨hc.kept, fun b => ?_⟩
    show (_ : Tx).enqueued.count b = _
    rw [tx_enqueued hne h]
    exact hc.buffers b
  | @sendLast _ tx hne h =>
    refine Inv.closeAndRecycle (c := { c with tx := tx }) ⟨hc.kept, fun b => ?_⟩
    show (_ : Tx).enqueued.count b = _
    rw [tx_enqueued hne h]
    exact hc.buffers b
  | close => exact hc.closeAndRecycle

theorem inv_fresh [DecidableEq ρ] (h : c.Fresh) : c.Inv := by
  obtain ⟨limit, rfl⟩ := h
  exact ⟨fun _ => rfl, fun _ => rfl⟩

/-- A second request comes while a worker answers the first, and another worker takes it. -/
def overlapping : List (Action Nat) :=
  [.request 1, .respond, .putHeader 0 true 0, .request 2, .respond, .putHeader 1 true 0, .putBody 0, .putBody 1]

/-- The header of the second response comes in front of the body of the first. -/
theorem answers_interleaved : ∃ c : Rsp Nat, Reach Fresh step (fun _ _ => True) c ∧
    c.tx.enqueued = [hdr true, hdr true, body, body] := by
  obtain ⟨c, hexec, hobs⟩ := Option.map_eq_some_iff.mp
    (show (execAll step (fun _ _ => True) overlapping { tx := { keepaliveLimit := 65000 } }).map
      (fun c => c.tx.enqueued) = some [hdr true, hdr true, body, body] by decide +kernel)
  exact ⟨c, Reach.exec (.start ⟨65000, rfl⟩) hexec, hobs⟩

/-! ## One worker at a time -/

/-- A Respond is handled only while no other worker answers. -/
def Alone (c : Rsp ρ) : Action ρ → Prop
  | .respond => c.turns = []
  | _ => True

instance [DecidableEq ρ] (c : Rsp ρ) (a : Action ρ) : Decidable (c.Alone a) := by
  unfold Alone
  split <;> infer_instance

structure Ordered (c : Rsp ρ) : Prop where
  one : c.turns.length ≤ 1
  kept : c.requested = c.answered.map Prod.fst ++ c.turns.flatMap (·.reqs) ++ c.respq ++ c.dropped
  buffers : c.tx.enqueued = c.answered.flatMap response ++ headers c.turns
  tx : c.tx.Inv

/-- The only worker. -/
theorem only_turn {l₁ l₂ : List (Turn ρ)} {t : Turn ρ} (h : (l₁ ++ t :: l₂).length ≤ 1) : l₁ = [] ∧ l₂ = [] := by
  rw [List.length_append, List.length_cons] at h
  exact ⟨List.eq_nil_of_length_eq_zero (by omega), List.eq_nil_of_length_eq_zero (by omega)⟩

theorem Ordered.closeAndRecycle (hc : c.Ordered) (hdropped : c.dropped = []) : c.closeAndRecycle.Ordered := by
  refine ⟨hc.one, ?_, hc.buffers, hc.tx.closeAndRecycle⟩
  have hkept := hc.kept
  rw [hdropped] at hkept
  simpa [Rsp.closeAndRecycle, hdropped] using hkept

theorem Ordered.step (hc : c.Ordered) (hw : c.Wake) (halone : c.Alone a) (hlive : c.tx.live = true)
    (hs : Step c a c') : c'.Ordered := by
  have hdropped := hw.dropped hlive
  cases hs with
  | request r =>
    unfold enqueueRequestForResponse
    rw [postRespond_eq]
    refine ⟨hc.one, ?_, hc.buffers, hc.tx⟩
    have hkept := hc.kept
    rw [hdropped] at hkept
    dsimp only
    rw [hkept, hdropped]
    simp
  | respond hpos =>
    have hnone : c.turns = [] := halone
    refine ⟨by simp [takeRequests, hnone], ?_, ?_, hc.tx⟩
    · have hkept := hc.kept
      simpa [takeRequests, hnone] using hkept
    · have hbuffers := hc.buffers
      simpa [takeRequests, hnone, headers] using hbuffers
  | putHeader keepAlive served hturns =>
    have hone := hc.one
    rw [hturns] at hone
    obtain ⟨rfl, rfl⟩ := only_turn hone
    refine ⟨Nat.le_refl _, ?_, ?_, hc.tx.txEnqueue hlive _⟩
    · have hkept := hc.kept
      rwa [hturns] at hkept
    · have hbuffers := hc.buffers
      rw [hturns] at hbuffers
      simp [txEnqueue_enqueued, hbuffers, headers]
  | putBody hturns =>
    have hone := hc.one
    rw [hturns] at hone
    obtain ⟨rfl, rfl⟩ := only_turn hone
    refine ⟨Nat.le_refl _, ?_, ?_, hc.tx.txEnqueue hlive _⟩
    · have hkept := hc.kept
      rw [hturns] at hkept
      simpa using hkept
    · have hbuffers := hc.buffers
      rw [hturns] at hbuffers
      simp [txEnqueue_enqueued, hbuffers, headers, response]
  | lookAgain hturns =>
    have hone := hc.one
    rw [hturns] at hone
    obtain ⟨rfl, rfl⟩ := only_turn hone
    have hkept := hc.kept
    have hbuffers := hc.buffers
    rw [hturns] at hkept hbuffers
    unfold Rsp.lookAgain
    split
    · exact ⟨Nat.zero_le _, hkept, hbuffers, hc.tx⟩
    · rw [postRespond_eq]
      exact ⟨Nat.zero_le _, hkept, hbuffers, hc.tx⟩
  | send hne h =>
    refine ⟨hc.one, hc.kept, ?_, hc.tx.step h⟩
    show (_ : Tx).enqueued = _
    rw [tx_enqueued hne h]
    exact hc.buffers
  | @sendLast _ tx hne h =>
    refine Ordered.closeAndRecycle (c := { c with tx := tx }) ⟨hc.one, hc.kept, ?_, hc.tx.step h⟩ hdropped
    show (_ : Tx).enqueued = _
    rw [tx_enqueued hne h]
    exact hc.buffers
  | close => exact hc.closeAndRecycle hdropped

end Rsp

end IOContext.Iocp
