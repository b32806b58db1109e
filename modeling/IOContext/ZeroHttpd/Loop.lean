import Mathlib.Data.List.Perm.Basic
import IOContext.Base.Reach
import IOContext.ZeroHttpd.Request

/-!
# The static file server: its loop

Each operation that is submitted carries a request from `malloc`, with the blocks that its iovec points to. When it has
completed, the next one gets blocks of its own, and these are freed.

- In every run each block that is allocated belongs to one request, either of an operation that is submitted or of a
  read that has brought nothing, which is forgotten; none is freed twice. The same is true of the sockets
  (`books_balance`).
- One accept is submitted at any time, and what has been accepted is answered once and then closed, unless it is
  forgotten.
-/

namespace IOContext.ZeroHttpd

/-! ## Data -/

inductive EventType
  | accept
  | read
  | write
deriving DecidableEq, Repr

/-- The number of the block it is in and of those that `iov` points to. An accept has no `client_socket`, and a read no
`iovec_count`. -/
structure Request where
  block : Nat
  eventType : EventType
  iovecCount : Nat := 0
  clientSocket : Nat := 0
  iov : List Nat := []
deriving DecidableEq, Repr

structure Server where
  /-- The blocks that are allocated. -/
  heap : List Nat := []
  /-- The number of the next block. -/
  next : Nat := 0
  /-- What is submitted and has not completed. -/
  inflight : List Request := []
  /-- The sockets that `accept` has returned and that are not closed. -/
  sockets : List Nat := []
  /-- What has been accepted, answered and closed. -/
  accepted : List Nat := []
  answers : List (Nat × List Bytes) := []
  closed : List Nat := []
  /-- The reads that have brought nothing. -/
  lost : List Request := []
deriving DecidableEq, Repr

namespace Server

/-! ## The operations -/

def malloc (s : Server) : Nat × Server := (s.next, { s with heap := s.next :: s.heap, next := s.next + 1 })

/-- `n` blocks, one after the other. -/
def mallocs : Nat → Server → List Nat × Server
  | 0, s => ([], s)
  | n + 1, s =>
    let b := s.malloc
    let bs := mallocs n b.2
    (b.1 :: bs.1, bs.2)

def free (b : Nat) (s : Server) : Except Halt Server :=
  if b ∈ s.heap then .ok { s with heap := s.heap.erase b } else .error .badFree

def frees : List Nat → Server → Except Halt Server
  | [], s => .ok s
  | b :: bs, s => (s.free b).bind (frees bs)

def close (fd : Nat) (s : Server) : Except Halt Server :=
  if fd ∈ s.sockets then .ok { s with sockets := s.sockets.erase fd, closed := s.closed ++ [fd] } else .error .badClose

def submit (req : Request) (s : Server) : Server := { s with inflight := s.inflight ++ [req] }

def addAcceptRequest (s : Server) : Server :=
  let b := s.malloc
  b.2.submit { block := b.1, eventType := .accept }

def addReadRequest (clientSocket : Nat) (s : Server) : Server :=
  let b := s.malloc
  let buf := b.2.malloc
  buf.2.submit { block := b.1, eventType := .read, clientSocket := clientSocket, iov := [buf.1] }

def addWriteRequest (req : Request) (s : Server) : Server := s.submit { req with eventType := .write }

/-- The request with the buffers of a response, one block each: one of them in `_send_static_string_content`, and six in
`handle_get_method`. -/
def respond (clientSocket : Nat) (response : List Bytes) (s : Server) : Server :=
  let b := s.malloc
  let iov := mallocs response.length b.2
  addWriteRequest { block := b.1, eventType := .write, iovecCount := response.length, clientSocket := clientSocket,
                    iov := iov.1 } { iov.2 with answers := iov.2.answers ++ [(clientSocket, response)] }

/-- The body of `server_loop` for a completion: its result, and what a read has brought. -/
def handle (files : Files) (req : Request) (res : Int) (data : Bytes) (s : Server) : Except Halt Server :=
  if res < 0 then .error .exited
  else
    match req.eventType with
    | .accept =>
      let s := { s with sockets := s.sockets ++ [res.toNat], accepted := s.accepted ++ [res.toNat] }
      (s.addAcceptRequest.addReadRequest res.toNat).free req.block
    | .read =>
      if res = 0 then .ok { s with lost := s.lost ++ [req] }
      else do
        let response ← handleClientRequest files (readBuffer data)
        let s ← (s.respond req.clientSocket response).frees (req.iov.take 1)
        s.free req.block
    | .write => do
      let s ← s.frees (req.iov.take req.iovecCount)
      let s ← s.close req.clientSocket
      s.free req.block

/-- An operation completes, the one at place `op` of those submitted. -/
structure Completion where
  op : Nat
  res : Int
  data : Bytes := []

/-- `none` if there is no such operation. -/
def turn (files : Files) (s : Server) (a : Completion) : Option (Except Halt Server) :=
  s.inflight[a.op]?.map fun req => { s with inflight := s.inflight.eraseIdx a.op }.handle files req a.res a.data

/-- The files may be others each time. -/
def step (s : Server) (a : Files × Completion) : Option Server := (s.turn a.1 a.2).bind Except.toOption

/-- A socket that is accepted is a new one, and a read brings what its result says. -/
def Tells (s : Server) (a : Files × Completion) : Prop :=
  ∀ req ∈ s.inflight[a.2.op]?, (req.eventType = .accept → a.2.res.toNat ∉ s.sockets) ∧
    (req.eventType = .read → 0 < a.2.res → a.2.res = a.2.data.length ∧ a.2.data.length ≤ READ_SZ)

instance (s : Server) (a : Files × Completion) : Decidable (Tells s a) :=
  inferInstanceAs (Decidable (∀ req ∈ s.inflight[a.2.op]?, _ ∧ _))

/-- The server as the loop is entered. -/
def Fresh (s : Server) : Prop := s = addAcceptRequest {}

end Server

/-! ## The books -/

namespace Request

/-- The blocks of a request, its socket, and the socket again if it is being answered. -/
def blocks (r : Request) : List Nat := r.block :: r.iov

def fds (r : Request) : List Nat := if r.eventType = .accept then [] else [r.clientSocket]

def answered (r : Request) : List Nat := if r.eventType = .write then [r.clientSocket] else []

def accepts (r : Request) : Bool := r.eventType = .accept

/-- The blocks that the loop frees are those of the request. -/
def Sound (r : Request) : Prop :=
  (r.eventType = .accept → r.iov = []) ∧ (r.eventType = .read → r.iov.length = 1) ∧
    (r.eventType = .write → r.iov.length = r.iovecCount)

end Request

namespace Server

variable {files : Files} {s s' : Server} {req : Request} {bs fds done : List Nat} {n b fd : Nat}

/-- The books, while the handler has the blocks `bs`, the sockets `fds`, of which it has answered `done`, and `n`
accepts of those that were submitted. -/
structure Books (s : Server) (bs fds done : List Nat) (n : Nat) : Prop where
  heap : s.heap.Perm (bs ++ (s.inflight ++ s.lost).flatMap Request.blocks)
  nodup : s.heap.Nodup
  below : ∀ b ∈ s.heap, b < s.next
  sockets : s.sockets.Perm (fds ++ (s.inflight ++ s.lost).flatMap Request.fds)
  distinct : s.sockets.Nodup
  accepted : s.accepted.Perm (s.sockets ++ s.closed)
  answered : (s.answers.map Prod.fst).Perm (done ++ s.inflight.flatMap Request.answered ++ s.closed)
  accepts : n + s.inflight.countP Request.accepts = 1
  sound : ∀ r ∈ s.inflight, r.Sound
  lost : ∀ r ∈ s.lost, r.eventType = .read

theorem Books.perm {bs' : List Nat} (h : Books s bs fds done n) (hp : bs.Perm bs') : Books s bs' fds done n :=
  { h with heap := h.heap.trans (List.Perm.append_right _ hp) }

theorem Books.malloc (h : Books s bs fds done n) : Books s.malloc.2 (s.malloc.1 :: bs) fds done n := by
  have hnew : s.next ∉ s.heap := fun hmem => absurd (h.below _ hmem) (Nat.lt_irrefl _)
  refine { h with heap := h.heap.cons s.next, nodup := List.nodup_cons.mpr ⟨hnew, h.nodup⟩, below := ?_ }
  intro b hb
  rcases List.mem_cons.mp hb with rfl | hb
  · exact Nat.lt_succ_self _
  · exact Nat.lt_succ_of_lt (h.below b hb)

theorem Books.mallocs : ∀ (k : Nat) {s : Server} {bs : List Nat}, Books s bs fds done n →
    Books (mallocs k s).2 ((mallocs k s).1 ++ bs) fds done n ∧ (mallocs k s).1.length = k
  | 0, _, _, h => ⟨h, rfl⟩
  | k + 1, s, bs, h => by
    obtain ⟨hrest, hlen⟩ := Books.mallocs k h.malloc
    exact ⟨hrest.perm List.perm_middle, congrArg (· + 1) hlen⟩

theorem flatMap_submit (f : Request → List Nat) (xs : List Nat) :
    (f req ++ xs ++ (s.inflight ++ s.lost).flatMap f).Perm
      (xs ++ ((s.submit req).inflight ++ (s.submit req).lost).flatMap f) := by
  rw [List.perm_iff_count]
  intro b
  simp only [submit, List.flatMap_append, List.flatMap_singleton, List.count_append]
  omega

/-- The handler hands over what it has to an operation. -/
theorem Books.submit (hr : req.Sound)
    (h : Books s (req.blocks ++ bs) (req.fds ++ fds) (req.answered ++ done) (n + if req.accepts then 1 else 0)) :
    Books (s.submit req) bs fds done n := by
  refine { h with
    heap := h.heap.trans (flatMap_submit ..)
    sockets := h.sockets.trans (flatMap_submit ..)
    answered := ?_
    accepts := ?_
    sound := ?_ }
  · rw [List.perm_iff_count]
    intro b
    have hcount := List.perm_iff_count.mp h.answered b
    simp only [Server.submit, List.flatMap_append, List.flatMap_singleton, List.count_append] at hcount ⊢
    omega
  · have haccepts := h.accepts
    rw [Server.submit, List.countP_append, List.countP_singleton]
    omega
  · intro r hmem
    rcases List.mem_append.mp hmem with hmem | hmem
    · exact h.sound r hmem
    · rwa [List.mem_singleton.mp hmem]

theorem Books.addAccept (h : Books s bs fds done (n + 1)) : Books s.addAcceptRequest bs fds done n :=
  Books.submit ⟨fun _ => rfl, fun h => (by cases h), fun h => (by cases h)⟩ h.malloc

theorem Books.addRead (h : Books s bs (fd :: fds) done n) : Books (s.addReadRequest fd) bs fds done n := by
  refine Books.submit ⟨fun h => (by cases h), fun _ => rfl, fun h => (by cases h)⟩ ?_
  exact h.malloc.malloc.perm (List.Perm.swap ..)

theorem Books.respond (h : Books s bs (fd :: fds) done n) (response : List Bytes) :
    Books (s.respond fd response) bs fds done n := by
  obtain ⟨hiov, hlen⟩ := h.malloc.mallocs response.length
  refine Books.submit ⟨fun h => (by cases h), fun h => (by cases h), fun _ => hlen⟩ ?_
  refine { hiov with heap := (hiov.perm List.perm_middle).heap, answered := ?_ }
  rw [List.map_append]
  exact (List.perm_append_singleton ..).trans (hiov.answered.cons fd)

/-! ## What is given back -/

theorem Books.free (h : Books s (b :: bs) fds done n) : ∃ s', s.free b = .ok s' ∧ Books s' bs fds done n := by
  have hmem : b ∈ s.heap := h.heap.mem_iff.mpr List.mem_cons_self
  refine ⟨_, if_pos hmem, { h with heap := ?_, nodup := h.nodup.erase b, below := ?_ }⟩
  · have herase := h.heap.erase b
    rwa [List.cons_append, List.erase_cons_head] at herase
  · exact fun b' hb' => h.below b' (List.mem_of_mem_erase hb')

theorem Books.frees : ∀ {bs' : List Nat} {s : Server}, Books s (bs' ++ bs) fds done n →
    ∃ s', s.frees bs' = .ok s' ∧ Books s' bs fds done n
  | [], s, h => ⟨s, rfl, h⟩
  | b :: bs', s, h => by
    obtain ⟨s', hfree, h'⟩ := Books.free h
    obtain ⟨s'', hfrees, h''⟩ := Books.frees h'
    exact ⟨s'', by rw [Server.frees, hfree, Except.bind, hfrees], h''⟩

theorem Books.close (h : Books s bs (fd :: fds) (fd :: done) n) :
    ∃ s', s.close fd = .ok s' ∧ Books s' bs fds done n := by
  have hmem : fd ∈ s.sockets := h.sockets.mem_iff.mpr List.mem_cons_self
  refine ⟨_, if_pos hmem, { h with sockets := ?_, distinct := h.distinct.erase fd, accepted := ?_, answered := ?_ }⟩
  · have herase := h.sockets.erase fd
    rwa [List.cons_append, List.erase_cons_head] at herase
  · refine h.accepted.trans (((List.perm_cons_erase hmem).append_right s.closed).trans ?_)
    rw [List.cons_append, ← List.append_assoc]
    exact (List.perm_append_singleton ..).symm
  · refine h.answered.trans ?_
    rw [List.cons_append, List.cons_append, ← List.append_assoc]
    exact (List.perm_append_singleton ..).symm

/-! ## A completion -/

/-- Nothing is in the handler's hands. -/
def Balanced (s : Server) : Prop := Books s [] [] [] 0

/-- What has completed is in the handler's hands. -/
theorem Balanced.take (h : Balanced s) (hreq : s.inflight[n]? = some req) :
    Books { s with inflight := s.inflight.eraseIdx n } req.blocks req.fds req.answered
      (if req.accepts then 1 else 0) := by
  obtain ⟨hlt, rfl⟩ := List.getElem?_eq_some_iff.mp hreq
  have hperm : s.inflight.Perm (s.inflight[n] :: s.inflight.eraseIdx n) :=
    (List.getElem_cons_eraseIdx_perm hlt).symm
  have hall := hperm.append_right s.lost
  refine { h with
    heap := h.heap.trans (hall.flatMap_right _)
    sockets := h.sockets.trans (hall.flatMap_right _)
    answered := ?_
    accepts := ?_
    sound := ?_ }
  · exact h.answered.trans (List.Perm.append_right _ (hperm.flatMap_right _))
  · have haccepts := h.accepts
    rw [hperm.countP_eq, List.countP_cons] at haccepts
    show (if s.inflight[n].accepts = true then 1 else 0) + (s.inflight.eraseIdx n).countP Request.accepts = 1
    omega
  · exact fun r hr => h.sound r (List.mem_of_mem_eraseIdx hr)

/-- A read that brings nothing is forgotten. -/
theorem Books.lose (h : Books s req.blocks req.fds [] 0) (hread : req.eventType = .read) :
    Balanced { s with lost := s.lost ++ [req] } := by
  have hmove : ∀ f : Request → List Nat, (f req ++ (s.inflight ++ s.lost).flatMap f).Perm
      ([] ++ (s.inflight ++ (s.lost ++ [req])).flatMap f) := by
    intro f
    rw [List.perm_iff_count]
    intro b
    simp only [List.nil_append, List.flatMap_append, List.flatMap_singleton, List.count_append]
    omega
  refine { h with heap := h.heap.trans (hmove _), sockets := h.sockets.trans (hmove _), lost := ?_ }
  intro r hr
  rcases List.mem_append.mp hr with hr | hr
  · exact h.lost r hr
  · rwa [List.mem_singleton.mp hr]

theorem Books.accept (h : Books s bs fds done n) (hfd : fd ∉ s.sockets) :
    Books { s with sockets := s.sockets ++ [fd], accepted := s.accepted ++ [fd] } bs (fd :: fds) done n := by
  refine { h with sockets := ?_, distinct := ?_, accepted := ?_ }
  · exact (List.perm_append_singleton ..).trans (h.sockets.cons fd)
  · refine (List.perm_append_singleton ..).nodup_iff.mpr (List.nodup_cons.mpr ⟨hfd, h.distinct⟩)
  · refine (List.perm_append_singleton ..).trans ((h.accepted.cons fd).trans ?_)
    rw [List.append_assoc, List.singleton_append]
    exact List.perm_middle.symm

/-- The handler has nothing left, or the process ends with a failure or a request that cannot be answered. -/
theorem handle_balanced (files : Files) {res : Int} (data : Bytes) (hreq : req.Sound)
    (h : Books s req.blocks req.fds req.answered (if req.accepts then 1 else 0))
    (hfd : req.eventType = .accept → res.toNat ∉ s.sockets) :
    (∃ s', s.handle files req res data = .ok s' ∧ Balanced s') ∨
    ∃ e, s.handle files req res data = .error e ∧ (e = .exited ∨ e = .undefined) ∧
      (res < 0 ∨ req.eventType = .read ∧ handleClientRequest files (readBuffer data) = .error e) := by
  obtain ⟨block, eventType, iovecCount, clientSocket, iov⟩ := req
  have hblocks : (block :: iov).Perm (iov ++ [block]) := (List.perm_append_singleton block iov).symm
  unfold handle
  split
  · rename_i hneg
    exact .inr ⟨_, rfl, .inl rfl, .inl hneg⟩
  · cases eventType with
    | accept =>
      obtain rfl : iov = [] := hreq.1 rfl
      have haccept := (h.accept (hfd rfl)).addAccept.addRead
      obtain ⟨s', hfree, h'⟩ := Books.free haccept
      exact .inl ⟨s', hfree, h'⟩
    | read =>
      dsimp only
      split
      · exact .inl ⟨_, rfl, h.lose rfl⟩
      · cases hresponse : handleClientRequest files (readBuffer data) with
        | error e => exact .inr ⟨e, rfl, handleClientRequest_error hresponse, .inr ⟨rfl, rfl⟩⟩
        | ok response =>
          have htake : iov.take 1 = iov := List.take_of_length_le (Nat.le_of_eq (hreq.2.1 rfl))
          have hrespond := h.respond response
          obtain ⟨s₁, hfrees, h₁⟩ := Books.frees (hrespond.perm hblocks)
          obtain ⟨s₂, hfree, h₂⟩ := Books.free h₁
          refine .inl ⟨s₂, ?_, h₂⟩
          show (frees (iov.take 1) _).bind _ = _
          rw [htake, hfrees]
          exact hfree
    | write =>
      have htake : iov.take iovecCount = iov := List.take_of_length_le (Nat.le_of_eq (hreq.2.2 rfl))
      obtain ⟨s₁, hfrees, h₁⟩ := Books.frees (h.perm hblocks)
      obtain ⟨s₂, hclose, h₂⟩ := Books.close h₁
      obtain ⟨s₃, hfree, h₃⟩ := Books.free h₂
      refine .inl ⟨s₃, ?_, h₃⟩
      show (frees (iov.take iovecCount) s).bind _ = _
      rw [htake, hfrees]
      show (s₁.close clientSocket).bind _ = _
      rw [hclose]
      exact hfree

/-! ## Runs -/

theorem turn_balanced {a : Completion} (h : Balanced s) (hreq : s.inflight[a.op]? = some req)
    (ha : Tells s (files, a)) :
    (∃ s', s.turn files a = some (.ok s') ∧ Balanced s') ∨
    ∃ e, s.turn files a = some (.error e) ∧ (e = .exited ∨ e = .undefined) ∧
      (a.res < 0 ∨ req.eventType = .read ∧ handleClientRequest files (readBuffer a.data) = .error e) := by
  have hsound : req.Sound := h.sound req (List.mem_of_getElem? hreq)
  unfold turn
  rw [hreq, Option.map_some]
  rcases handle_balanced files a.data hsound (h.take hreq) (ha req hreq).1 with
    ⟨s', hs', h'⟩ | ⟨e, he, h'⟩
  · exact .inl ⟨s', congrArg some hs', h'⟩
  · exact .inr ⟨e, congrArg some he, h'⟩

theorem balanced_fresh (h : Fresh s) : Balanced s := by
  rw [h]
  refine Books.addAccept ⟨.refl _, List.nodup_nil, fun b hb => (by cases hb), .refl _, List.nodup_nil, .refl _,
    .refl _, rfl, fun r hr => (by cases hr), fun r hr => (by cases hr)⟩

theorem Balanced.step {a : Files × Completion} (h : Balanced s) (ha : Tells s a) (hs : step s a = some s') :
    Balanced s' := by
  obtain ⟨files, a⟩ := a
  obtain ⟨r, hturn, hr⟩ := Option.bind_eq_some_iff.mp hs
  obtain ⟨req, hreq, -⟩ := Option.map_eq_some_iff.mp hturn
  rcases turn_balanced h hreq ha with ⟨s₁, hs₁, h₁⟩ | ⟨e, he, -⟩
  · cases hs₁.symm.trans hturn
    cases hr
    exact h₁
  · cases he.symm.trans hturn
    cases hr

/-- The blocks that are allocated, and the sockets that are open, are those of the operations that are submitted and of
the reads that have brought nothing; what has been accepted is open or closed, what is closed has been answered once;
and the process ends only because of a failure or a request that cannot be answered. -/
theorem books_balance (hs : Reach Fresh step Tells s) :
    s.heap.Nodup ∧ s.heap.Perm ((s.inflight ++ s.lost).flatMap Request.blocks) ∧
    s.sockets.Nodup ∧ s.sockets.Perm ((s.inflight ++ s.lost).flatMap Request.fds) ∧
    s.inflight.countP Request.accepts = 1 ∧ (∀ r ∈ s.lost, r.eventType = .read) ∧
    s.accepted.Perm (s.sockets ++ s.closed) ∧
    (s.answers.map Prod.fst).Perm (s.inflight.flatMap Request.answered ++ s.closed) ∧
    ∀ files a e, Tells s (files, a) → s.turn files a = some (.error e) → (e = .exited ∨ e = .undefined) ∧
      (a.res < 0 ∨ ∃ req ∈ s.inflight[a.op]?, req.eventType = .read ∧
        handleClientRequest files (readBuffer a.data) = .error e) := by
  have h : Balanced s := Reach.invariant (fun _ => balanced_fresh) (fun _ _ _ h ha hs => h.step ha hs) s hs
  refine ⟨h.nodup, h.heap, h.distinct, h.sockets, (Nat.zero_add _).symm.trans h.accepts, h.lost, h.accepted, h.answered,
    fun files a e ha hturn => ?_⟩
  obtain ⟨req, hreq, -⟩ := Option.map_eq_some_iff.mp hturn
  rcases turn_balanced h hreq ha with ⟨s₁, hs₁, -⟩ | ⟨e', he', hend, hwhy⟩
  · cases hs₁.symm.trans hturn
  · cases he'.symm.trans hturn
    exact ⟨hend, hwhy.imp id fun hread => ⟨req, hreq, hread⟩⟩

/-- One client is answered, and another one sends nothing. -/
theorem books_balance_forgotten : ∃ s : Server,
    (s.closed, s.sockets, s.heap.length) = ([5], [6], 3) ∧ s.heap.Nodup ∧
      s.heap.Perm ((s.inflight ++ s.lost).flatMap Request.blocks) := by
  let files : Files := { stat := fun _ => .missing, buffer := fun _ => none }
  let request := ascii "GET /x HTTP/1.0\r\n\r\n"
  obtain ⟨s, hs, hobs⟩ := Option.map_eq_some_iff.mp
    (show (execAll step Tells
        [(files, { op := 0, res := 5 }), (files, { op := 0, res := 6 }),
          (files, { op := 0, res := request.length, data := request }), (files, { op := 1, res := 0 }),
          (files, { op := 1, res := 100 })]
        (addAcceptRequest {})).map (fun s => (s.closed, s.sockets, s.heap.length)) = some ([5], [6], 3) by
      decide +kernel)
  obtain ⟨hnodup, hheap, -⟩ := books_balance (Reach.exec (.start rfl) hs)
  exact ⟨s, hobs, hnodup, hheap⟩

end Server

end IOContext.ZeroHttpd
