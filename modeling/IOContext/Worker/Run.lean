import IOContext.Worker.Ring

/-!
# The event loop

The functions of `Worker` and `PerClientStorage` that submit operations, and the switch of `Worker::run` on one
completion (`handle`). A pointer to a connection is its `Ptr`; a function that is given one reads and writes the
object in `heap`.

`post_task` and `sendkick_inline` call each other when the ring is full; the recursion is on the outcomes of
`get_sqe_or_submit` (`postTask`, `sendkickInline`).
-/

namespace IOContext

/-- A completion, as the loop reads it from the ring. -/
structure Cqe where
  res : Int32
  /-- `IORING_CQE_F_MORE`. -/
  more : Bool := false
  /-- `IORING_CQE_F_BUFFER` and the buffer id. -/
  buffer : Option Nat := none

namespace Worker

/-! ## Accepting, receiving, closing, polling -/

def postAccept (w : Worker) : Option (Bool × Worker) :=
  if w.useMsAccept then
    if w.msAcceptArmed then some (false, w)
    else do
      let (sqe, w) ← w.getSqeOrSubmit
      if sqe then
        let w := w.prep (.multishotAccept w.listenFd) none (some (packUd w.listenFd .accept))
        some (true, { w with msAcceptArmed := true })
      else some (false, w)
  else do
    let (sqe, w) ← w.getSqeOrSubmit
    if sqe then some (true, w.prep (.accept w.listenFd) none (some (packUd w.listenFd .accept))) else some (false, w)

def startRecv (w : Worker) (c : Ptr) : Option (Bool × Worker) :=
  if w.useMsRecv && w.haveBufPool then
    if (w.heap c).msRecvArmed then some (false, w)
    else do
      let (sqe, w) ← w.getSqeOrSubmit
      if sqe then
        let fd := (w.heap c).fd
        let w := w.prep (.recvMultishot fd) (some c) (some (packUd fd .recv))
        some (true, w.modify c fun o => { o with msRecvArmed := true })
      else some (false, w)
  else do
    -- make_shared of a vector of zeros
    let hold := w.nextHold
    let w := { w with holds := Function.update w.holds hold (List.replicate RX_CAP 0), nextHold := hold + 1 }
    let w := w.modify c fun o => { o with rxHold := some hold }
    let (sqe, w) ← w.getSqeOrSubmit
    if sqe then
      let fd := (w.heap c).fd
      some (true, w.prep (.recv fd hold) (some c) (some (packUd fd .recv)))
    else some (false, w.modify c fun o => { o with rxHold := none })

def closeAsync (w : Worker) (fd : Fd) : Option (Bool × Worker) := do
  let (sqe, w) ← w.getSqeOrSubmit
  if sqe then some (true, w.prep (.close fd) (w.table fd) (some (packUd fd .closed))) else some (false, w)

def updatePollout (w : Worker) (c : Ptr) : Option (Bool × Worker) :=
  if (w.heap c).polloutArmed then some (false, w)
  else do
    let (sqe, w) ← w.getSqeOrSubmit
    if sqe then
      let fd := (w.heap c).fd
      let w := w.prep (.pollAdd fd) (some c) (some (packUd fd .pollOut))
      some (true, w.modify c fun o => { o with polloutArmed := true })
    else some (false, w)

/-! ## Tasks and sends -/

/-- The outcomes that are left. -/
def withSqes (w : Worker) (sqes : List Bool) : Worker := { w with env := { w.env with sqes := sqes } }

mutual

def postTask (w : Worker) (fd : Fd) (kind : Workflow) : List Bool → Option Worker
  | [] => none
  | true :: sqes =>
    -- the slot keeps its old tag: only the message carries the tag of the task
    let w := (w.withSqes sqes).prep (.msgRing fd kind) (w.table fd) none
    some { w with needSubmit := w.needSubmit + 1 }
  | false :: sqes =>
    if kind = .requestFlush then
      match w.table fd with
      | some c => sendkickInline w c sqes
      | none => some (w.withSqes sqes)
    else some (w.withSqes sqes)

def sendkickInline (w : Worker) (c : Ptr) (sqes : List Bool) : Option Worker :=
  if (w.heap c).sendInflight || (w.heap c).txq.isEmpty then some (w.withSqes sqes)
  else
    let w := w.modify c PerClientStorage.takeBatch
    match sqes with
    | [] => none
    | true :: sqes =>
      let fd := (w.heap c).fd
      let iov := (w.heap c).batchedSendData.submitted
      let w := (w.withSqes sqes).prep (.sendmsg fd iov) (some c) (some (packUd fd .send))
      some { w with needSubmit := w.needSubmit + 1 }
    | false :: sqes =>
      let w := w.modify c PerClientStorage.rollback
      postTask w (w.heap c).fd .requestFlush sqes

end

/-- `PerClientStorage::post`. -/
def post (w : Worker) (c : Ptr) (kind : Workflow) : Option Worker := w.postTask (w.heap c).fd kind w.env.sqes

def sendkick (w : Worker) (c : Ptr) : Option Worker := w.sendkickInline c w.env.sqes

/-! ## Parsing -/

/-- The handler is looked up once the path has been parsed. -/
def postFindHandler (w : Worker) (c : Ptr) : Option Worker :=
  if ProcessingState.path.code < (w.heap c).parser.state.code then w.post c .findHandler else some w

/-- The response is generated once the body is as long as announced. An exception of `std::stoull` leaves the
worker. -/
def postGenerateResponse (w : Worker) (c : Ptr) : Option Worker :=
  let m := (w.heap c).parser
  if m.state = .body then
    if m.req.headers.contains (ascii "Content-Length") then
      match stoull (m.req.headers.get (ascii "Content-Length")) with
      | some len => if m.req.body.length = len.toNat then w.post c .generateResponse else some w
      | none => some { w with terminated := true }
    else w.post c .generateResponse
  else some w

/-- What follows a segment that has been parsed without error. -/
def postParsed (w : Worker) (c : Ptr) : Option Worker := do
  let w ← w.postFindHandler c
  w.postGenerateResponse c

/-- One segment; the flag tells whether `parse_step` returns here. -/
def parseSegment (w : Worker) (c : Ptr) : Option (Bool × Worker) :=
  match (w.heap c).rxq with
  | [] => some (true, w)
  | seg :: rxq => do
    let w := w.modify c fun o => { o with rxq := rxq, parser := o.parser.onSegment seg.wb }
    let w := w.log (.segment c seg.wb)
    if (w.heap c).parser.state = .errorState then
      let w := w.modify c fun o => { o with closing := true }
      let w ← w.post c .requestClose
      some (true, w)
    else
      let w ← w.postParsed c
      some (w.terminated, w)

/-- `n` segments. -/
def parseSegments (c : Ptr) : Nat → Worker → Option (Bool × Worker)
  | 0, w => some (false, w)
  | n + 1, w => do
    let (stop, w) ← w.parseSegment c
    if stop then some (true, w) else parseSegments c n w

/-- The number of segments of one pass, with the conversion of the queue's length to `int`. -/
def passLength (n : Nat) : Nat := (min (PROC_MAX_SEGMENTS : Int) (Int.bmod n (2 ^ 32))).toNat

/-- One pass of `parse_step`; the flag tells whether it was the last. -/
def parsePass (w : Worker) (c : Ptr) : Option (Bool × Worker) :=
  if (w.heap c).rxq.isEmpty then some (true, w)
  else parseSegments c (passLength (w.heap c).rxq.length) w

/-- At most `n` passes, after `k` of them. -/
def parsePasses (c : Ptr) : Nat → Nat → Worker → Option Worker
  | 0, _, w => some w
  | n + 1, k, w => do
    let (last, w) ← w.parsePass c
    if last then some w
    else if w.env.clock 0 + PROC_TIME_BUDGET ≤ w.env.clock (k + 1) then some w
    else parsePasses c n (k + 1) w

def parseStep (w : Worker) (c : Ptr) : Option Worker := parsePasses c PROC_MAX_SEGMENTS 0 w

/-! ## Responses -/

/-- `txq.emplace_back` of several buffers. -/
def enqueueAll (w : Worker) (c : Ptr) (bufs : List OwnedBuf) : Worker :=
  bufs.foldl (fun w b => (w.modify c fun o => { o with txq := o.txq ++ [b] }).log (.enqueue c b)) w

/-- `std::invoke`: the handler may change the response. -/
def invokeHandler (w : Worker) (c : Ptr) (h : Handler) : Worker :=
  let m := (w.heap c).parser
  (w.modify c fun o => { o with parser := { o.parser with res := h m.req m.res } }).log (.invoke c h m.req m.res)

def generateResponse (w : Worker) (c : Ptr) : Option Worker :=
  match (w.heap c).requestHandler with
  | none => some w
  | some h =>
    let w := w.invokeHandler c h
    (w.enqueueAll c (PerClientStorage.responseBufs (w.heap c).parser.res)).post c .requestFlush

/-! ## The switch -/

/-- `table_.add`, with the limit and the owner of the new object set. -/
def addConn (w : Worker) (cfd : Fd) : Ptr × Worker :=
  let (c, w) := w.tableAdd cfd
  (c, w.modify c fun o => { o with keepaliveLimit := w.cfg.maxKeepaliveRequests, hasOwner := true })

/-- An `Accept` completion that failed. -/
def acceptFailed (w : Worker) (res : Int32) : Option Worker := do
  let w := if res = -EINVAL ∨ res = -EOPNOTSUPP then { w with useMsAccept := false, msAcceptArmed := false } else w
  let (posted, w) ← w.postAccept
  some (w.submitLater posted)

/-- The accept that follows one that succeeded. -/
def rearmAccept (w : Worker) (cqe : Cqe) : Option Worker :=
  if !w.useMsAccept then do
    let (posted, w) ← w.postAccept
    some (w.submitLater posted)
  else if !cqe.more then do
    let (posted, w) ← { w with msAcceptArmed := false }.postAccept
    some (w.submitLater posted)
  else some w

def handleAccept (w : Worker) (cqe : Cqe) : Option Worker :=
  if cqe.res ≤ 0 then w.acceptFailed cqe.res
  else do
    -- set_nonblock and set_tcp_opts only change the kernel's socket
    let (c, w) := w.addConn cqe.res
    let (posted, w) ← w.startRecv c
    (w.submitLater posted).rearmAccept cqe

/-- `if (!c->closing && start_recv(c)) need_submit_++`. -/
def restartRecv (w : Worker) (c : Ptr) : Option Worker :=
  if (w.heap c).closing then some w
  else do
    let (posted, w) ← w.startRecv c
    some (w.submitLater posted)

/-- `c->closing = true` and `if (close_async(fd)) need_submit_++`. -/
def closeConn (w : Worker) (c : Ptr) (fd : Fd) : Option Worker := do
  let w := w.modify c fun o => { o with closing := true }
  let (posted, w) ← w.closeAsync fd
  some (w.submitLater posted)

/-- A `Recv` completion with `res <= 0`. -/
def recvFailed (w : Worker) (c : Ptr) (fd : Fd) (res : Int32) : Option Worker :=
  let w := w.modify c fun o => { o with msRecvArmed := false }
  if res = -EINVAL ∨ res = -EOPNOTSUPP then { w with useMsRecv := false }.restartRecv c else w.closeConn c fd

/-- The bytes go to the parser, and what is then to be sent is sent. -/
def parseAndKick (w : Worker) (c : Ptr) : Option Worker := do
  let w ← w.parseStep c
  if w.terminated then some w
  else if !(w.heap c).sendInflight && !(w.heap c).txq.isEmpty then w.sendkick c
  else some w

/-- `rxq.emplace_back` of the bytes received. -/
def pushSegment (w : Worker) (c : Ptr) (seg : Bytes) : Worker :=
  w.modify c fun o => { o with rxq := o.rxq ++ [⟨seg, false⟩] }

/-- The buffer is returned to the pool. -/
def returnBuffer (w : Worker) (bid : Nat) : Option Worker := do
  let (sqe, w) ← w.getSqeOrSubmit
  if sqe then
    let tag := packUdAux 0 .freeBuffer (UInt32.ofNat bid)
    some ((w.prep (.provideBuffers (bid * BUF_SZ) bid) none (some tag)).submitLater true)
  else some w

/-- A `Recv` completion into the provided buffer `bid`. -/
def recvProvided (w : Worker) (c : Ptr) (bid : Nat) (cqe : Cqe) : Option Worker := do
  let w := w.pushSegment c ((w.bufPool bid).take cqe.res.toInt.toNat)
  let w ← w.returnBuffer bid
  let w ← w.parseAndKick c
  if w.terminated || cqe.more then some w
  else (w.modify c fun o => { o with msRecvArmed := false }).restartRecv c

/-- A `Recv` completion into `rx_hold`, if there is one. -/
def recvHold (w : Worker) (c : Ptr) (cqe : Cqe) : Option Worker :=
  match (w.heap c).rxHold with
  | none => some w
  | some hold => do
    let w := w.modify c fun o => { o with rxHold := none }
    let w := w.pushSegment c ((w.holds hold).take cqe.res.toInt.toNat)
    let w ← w.parseAndKick c
    if w.terminated then some w else w.restartRecv c

def handleRecv (w : Worker) (c : Ptr) (fd : Fd) (cqe : Cqe) : Option Worker :=
  if cqe.res ≤ 0 then w.recvFailed c fd cqe.res
  else if w.useMsRecv && w.haveBufPool then
    match cqe.buffer with
    | some bid => w.recvProvided c bid cqe
    | none => w.recvHold c cqe
  else w.recvHold c cqe

def handleSend (w : Worker) (c : Ptr) (fd : Fd) (cqe : Cqe) : Option Worker :=
  if cqe.res < 0 then
    if cqe.res = -EAGAIN ∨ cqe.res = -EWOULDBLOCK then do
      let w := w.modify c PerClientStorage.rollback
      let (posted, w) ← w.updatePollout c
      some (w.submitLater posted)
    else w.closeConn c fd
  else
    let (finished, o) := (w.heap c).onSendCompleted
    let w := w.modify c fun _ => o
    if finished then w.closeConn c fd else w.sendkick c

/-- The branches of the switch that look the connection up, where the table has it. -/
def handleConn (w : Worker) (c : Ptr) (fd : Fd) (kind : Workflow) (cqe : Cqe) : Option Worker :=
  match kind with
  | .recv => w.handleRecv c fd cqe
  | .send => w.handleSend c fd cqe
  | .pollOut => (w.modify c fun o => { o with polloutArmed := false }).sendkick c
  | .parse => w.parseStep c
  | .findHandler => some (w.modify c fun o => o.findHandler w.routes)
  | .requestFlush => (w.modify c fun o => { o with sendkickPending := false }).sendkick c
  | .generateResponse => w.generateResponse c
  | .requestClose => w.closeConn c fd
  | .accept | .closed | .freeBuffer => some w

/-- The switch of `run` on a completion of descriptor `fd` and kind `kind`. -/
def handle (w : Worker) (fd : Fd) (kind : Workflow) (cqe : Cqe) : Option Worker :=
  match kind with
  | .accept => w.handleAccept cqe
  | .closed => some (w.tableErase fd)
  | .freeBuffer => some w
  | kind =>
    match w.table fd with
    | none => some w
    | some c => w.handleConn c fd kind cqe

/-- The body of the loop on one completion: the tag says which branch is taken. -/
def dispatch (w : Worker) (userData : UInt64) (cqe : Cqe) : Option Worker :=
  let (fd, op, _aux) := unpackUd userData
  w.handle fd op cqe

/-! ## Start-up -/

/-- `posted` counts the accepts of `post_initial_accepts` in singleshot mode. -/
def postAccepts : Nat → UInt16 → Worker → Option (UInt16 × Worker)
  | 0, posted, w => some (posted, w)
  | n + 1, posted, w => do
    let (ok, w) ← w.postAccept
    postAccepts n (if ok then posted + 1 else posted) w

def postInitialAccepts (w : Worker) : Option (UInt16 × Worker) :=
  if w.useMsAccept then do
    let (ok, w) ← w.postAccept
    some (if ok then 1 else 0, w)
  else postAccepts w.cfg.acceptsPerWorker.toNat 0 w

/-- The worker when it enters its loop: constructed, and `run` up to the loop. -/
def startUp (listenFd : Fd) (cfg : WorkerConfig) (routes : Routes) (allocated : Bool) (env : Env) : Option Worker := do
  let w : Worker := { listenFd := listenFd, cfg := cfg, routes := routes, env := env }
  let w ← w.initBufferPool allocated
  let (_posted, w) ← w.postInitialAccepts
  -- what has been posted is submitted and the counter reset
  some { w with needSubmit := 0 }

/-- The end of a batch of completions: submit, and reset the counter. -/
def endBatch (w : Worker) : Worker := { w with needSubmit := 0 }

end Worker

end IOContext
