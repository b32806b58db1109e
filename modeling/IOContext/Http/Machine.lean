import Mathlib.Algebra.Group.Nat.Defs
import Mathlib.Data.List.Basic

/-!
# The streaming request parser

`ProcessingMachine` reads a request byte by byte: `onSegment` runs the switch of `step` over a received segment.

- Bytes go in one at a time (`feed_append`), and nothing but `reset_parser`, which the library never calls, leaves
  the error state (`feed_error`).
- The parser never returns to `notStarted` (`step_ne_notStarted`), so only the first segment moves it to `method`.
-/

namespace IOContext

/-! ## Bytes and strings -/

abbrev Bytes := List UInt8

/-- The bytes of a string literal. -/
def ascii (s : String) : Bytes := s.toList.map fun c => c.toNat.toUInt8

/-- `std::to_string` of a `size_t`. -/
def toDecimal (n : Nat) : Bytes := (Nat.toDigits 10 n).map fun c => c.toNat.toUInt8

abbrev SP : UInt8 := 32
abbrev CR : UInt8 := 13
abbrev LF : UInt8 := 10
abbrev COLON : UInt8 := 58

/-- `isspace` in the C locale. -/
def isSpace (b : UInt8) : Bool := b == 32 || (9 ≤ b && b ≤ 13)

def isDigit (b : UInt8) : Bool := 48 ≤ b && b ≤ 57

/-- The value of a run of decimal digits. -/
def decimal (ds : Bytes) : Nat := ds.foldl (fun v d => 10 * v + (d.toNat - 48)) 0

/-- `std::stoull`: blanks, an optional sign, digits. `none` is an exception: no digits, or a value beyond 64 bits. -/
def stoull (s : Bytes) : Option UInt64 :=
  let s := s.dropWhile isSpace
  let (neg, s) := match s with
    | 45 :: s => (true, s)
    | 43 :: s => (false, s)
    | s => (false, s)
  let ds := s.takeWhile isDigit
  if ds = [] then none
  else if decimal ds < 2 ^ 64 then
    some (if neg then -(UInt64.ofNat (decimal ds)) else UInt64.ofNat (decimal ds))
  else none

/-! ## Requests and responses -/

/-- An `unordered_map` of headers: keys are distinct, and the order of the list stands for the iteration order, which
the map leaves open. -/
abbrev Headers := List (Bytes × Bytes)

namespace Headers

/-- `count(name) > 0`. -/
def contains (hs : Headers) (name : Bytes) : Bool := hs.any fun h => h.1 == name

/-- `emplace`: a name already present keeps its value. -/
def emplace (hs : Headers) (name value : Bytes) : Headers :=
  if hs.contains name then hs else hs ++ [(name, value)]

/-- `headers[name]` of a name that is present. -/
def get (hs : Headers) (name : Bytes) : Bytes := (hs.lookup name).getD []

end Headers

structure Request where
  method : Bytes := []
  path : Bytes := []
  protocol : Bytes := []
  headers : Headers := []
  body : Bytes := []
deriving DecidableEq, Repr

structure Response where
  protocol : Bytes := ascii "HTTP/1.1"
  code : Bytes := ascii "200 OK"
  headers : Headers := []
  body : Bytes := []
deriving DecidableEq, Repr

/-! ## The states of the parser -/

/-- `ProcessingState::type`: the named values of the 64-bit state, and the values that no constant names. -/
inductive ProcessingState
  | method
  | path
  | protocolVersion
  | headerName
  | headerValue
  | cr
  | crlf
  | crlfcr
  | crlfcrlf
  | body
  | errorState
  | notStarted
  | unnamed (v : UInt64) (h : 10 ≤ v ∧ v < -2)
deriving DecidableEq

/-- The 64-bit value of a state; `notStarted` is `-1` and `errorState` is `-2`. -/
def ProcessingState.code : ProcessingState → UInt64
  | method => 0
  | path => 1
  | protocolVersion => 2
  | headerName => 3
  | headerValue => 4
  | cr => 5
  | crlf => 6
  | crlfcr => 7
  | crlfcrlf => 8
  | body => 9
  | errorState => -2
  | notStarted => -1
  | unnamed v _ => v

/-! ## The parser -/

structure ProcessingMachine where
  req : Request := {}
  res : Response := {}
  state : ProcessingState := .notStarted
  tmpBuf0 : Bytes := []
  tmpBuf1 : Bytes := []
  bodyBytesNeeded : Nat := 0
  keepAlive : Bool := true
deriving DecidableEq

namespace ProcessingMachine

def resetParser (_m : ProcessingMachine) : ProcessingMachine := {}

/-- The switch of `on_segment` on one byte. -/
def step (m : ProcessingMachine) (c : UInt8) : ProcessingMachine :=
  match m.state with
  | .method =>
    if c = SP then { m with req := { m.req with method := m.tmpBuf0 }, tmpBuf0 := [], state := .path }
    else if c = CR ∨ c = LF then { m with state := .errorState }
    else { m with tmpBuf0 := m.tmpBuf0 ++ [c] }
  | .path =>
    if c = SP then { m with req := { m.req with path := m.tmpBuf0 }, tmpBuf0 := [], state := .protocolVersion }
    else if c = CR ∨ c = LF then { m with state := .errorState }
    else { m with tmpBuf0 := m.tmpBuf0 ++ [c] }
  | .protocolVersion =>
    if c = CR then { m with req := { m.req with protocol := m.tmpBuf0 }, tmpBuf0 := [], state := .cr }
    else if c = LF then { m with state := .errorState }
    else { m with tmpBuf0 := m.tmpBuf0 ++ [c] }
  | .headerName =>
    if c = COLON then { m with state := .headerValue }
    else if c = CR ∨ c = LF then { m with state := .errorState }
    else { m with tmpBuf0 := m.tmpBuf0 ++ [c] }
  | .headerValue =>
    if c = CR then
      { m with
        tmpBuf0 := []
        tmpBuf1 := []
        req := { m.req with headers := m.req.headers.emplace m.tmpBuf0 m.tmpBuf1 }
        state := .cr }
    else { m with tmpBuf1 := m.tmpBuf1 ++ [c] }
  | .cr => if c = LF then { m with state := .crlf } else { m with state := .errorState }
  | .crlf =>
    if c = CR then { m with state := .crlfcr }
    else { m with state := .headerName, tmpBuf0 := m.tmpBuf0 ++ [c] }
  | .crlfcr => if c = LF then { m with state := .body } else { m with state := .errorState }
  | .body => { m with req := { m.req with body := m.req.body ++ [c] } }
  -- the switch has no case for these
  | .crlfcrlf | .errorState | .notStarted | .unnamed _ _ => m

/-- The loop of `on_segment`. -/
def feed (m : ProcessingMachine) : Bytes → ProcessingMachine
  | [] => m
  | c :: p => if m.state = .errorState then m else feed (m.step c) p

/-- The first segment starts the request line. -/
def start (m : ProcessingMachine) : ProcessingMachine :=
  if m.state = .notStarted then { m with state := .method } else m

def onSegment (m : ProcessingMachine) (p : Bytes) : ProcessingMachine := m.start.feed p

/-! ## Feeding -/

@[simp] theorem feed_nil (m : ProcessingMachine) : m.feed [] = m := rfl

theorem feed_error {m : ProcessingMachine} (h : m.state = .errorState) (p : Bytes) : m.feed p = m := by
  cases p <;> simp [feed, h]

theorem feed_cons {m : ProcessingMachine} (h : m.state ≠ .errorState) (c : UInt8) (p : Bytes) :
    m.feed (c :: p) = (m.step c).feed p := by simp [feed, h]

theorem feed_append (m : ProcessingMachine) (p q : Bytes) : m.feed (p ++ q) = (m.feed p).feed q := by
  induction p generalizing m with
  | nil => rfl
  | cons c p ih =>
    by_cases h : m.state = .errorState
    · rw [feed_error h, feed_error h, feed_error h]
    · rw [List.cons_append, feed_cons h, feed_cons h, ih]

/-- No byte leads back to `notStarted`. -/
theorem step_ne_notStarted {m : ProcessingMachine} (h : m.state ≠ .notStarted) (c : UInt8) :
    (m.step c).state ≠ .notStarted := by
  unfold step
  cases hs : m.state with
  | notStarted => exact absurd hs h
  | crlfcrlf | errorState | unnamed => exact h
  | body => exact fun h => (by cases h)
  | _ =>
    dsimp only
    split_ifs <;> exact fun h => (by cases h)

theorem feed_ne_notStarted {m : ProcessingMachine} (h : m.state ≠ .notStarted) (p : Bytes) :
    (m.feed p).state ≠ .notStarted := by
  induction p generalizing m with
  | nil => exact h
  | cons c p ih =>
    by_cases he : m.state = .errorState
    · rw [feed_error he]; exact h
    · rw [feed_cons he]; exact ih (step_ne_notStarted h c)

theorem start_ne_notStarted (m : ProcessingMachine) : m.start.state ≠ .notStarted := by
  unfold start
  split
  · simp
  · assumption

theorem start_of_ne {m : ProcessingMachine} (h : m.state ≠ .notStarted) : m.start = m := by simp [start, h]

/-- A parser in error reads nothing. -/
theorem onSegment_error {m : ProcessingMachine} (h : m.state = .errorState) (p : Bytes) : m.onSegment p = m := by
  rw [onSegment, start_of_ne (by rw [h]; decide), feed_error h]

/-- Segments are read as their concatenation. -/
theorem onSegment_onSegment (m : ProcessingMachine) (p q : Bytes) :
    (m.onSegment p).onSegment q = m.onSegment (p ++ q) := by
  unfold onSegment
  rw [start_of_ne (feed_ne_notStarted (start_ne_notStarted m) p), feed_append]

end ProcessingMachine

end IOContext
