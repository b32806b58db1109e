import IOContext.Base.Search
import IOContext.Http.Machine

/-!
# The epoll server: its request parser

`RequestContext` gathers what it receives in `acc` and takes a start line, a header block and a body off its front, as
long as they are there; a complete request goes to the responder. What the responder does is left open: `respond` is
applied to the request, `keep_alive` and an `out` of any type. `reserves` says which lengths `body.reserve` accepts; it
raises for the others.

- A turn of the loop takes something off (`turn_lt`), so that the loop comes to an end (`loop_ends`).
- What a turn finds early it finds late (`turn_push`), so that the cuts between segments do not matter
  (`onSegment_push`).
-/

namespace IOContext.Epoll

open Search

/-! ## Strings -/

/-- `std::string::substr`; `none` is the exception of a position beyond the end. -/
def substr (s : Bytes) (pos n : Nat) : Option Bytes := if pos ≤ s.length then some ((s.drop pos).take n) else none

/-- `std::string::find` from a position on. -/
def findFrom (pat s : Bytes) (pos : Nat) : Option Nat := (find pat (s.drop pos)).map (pos + ·)

/-- `tolower` in the C locale. -/
def toLower (b : UInt8) : UInt8 := if 65 ≤ b && b ≤ 90 then b + 32 else b

/-- `std::strtoull`: without digits it is 0, beyond 64 bits it is the largest value, and after a minus sign the value
is negated. -/
def strtoull (s : Bytes) : Nat :=
  let s := s.dropWhile isSpace
  let (neg, s) := match s with
    | 45 :: s => (true, s)
    | 43 :: s => (false, s)
    | s => (false, s)
  let n := decimal (s.takeWhile isDigit)
  if 2 ^ 64 ≤ n then 2 ^ 64 - 1 else if neg then (2 ^ 64 - n) % 2 ^ 64 else n

/-! ## The parser -/

inductive PS
  | startLine
  | headers
  | body
deriving DecidableEq, Repr

structure RequestContext where
  state : PS := .startLine
  acc : Bytes := []
  bodyBytesNeeded : Nat := 0
  keepAlive : Bool := true
deriving DecidableEq, Repr

def findDoubleCrlf (s : Bytes) : Option Nat := find [CR, LF, CR, LF] s

def parseRequestLine (line : Bytes) (req : Request) : Option Request := do
  let p1 := find [SP] line
  let p2 := p1.bind fun p1 => findFrom [SP] line (p1 + 1)
  let method ← match p1 with
    | none => some line
    | some p1 => substr line 0 p1
  let path ← match p1, p2 with
    | some p1, some p2 => substr line (p1 + 1) (p2 - p1 - 1)
    | _, _ => some (ascii "/")
  let protocol ← match p2 with
    | none => some (ascii "HTTP/1.1")
    | some p2 => substr line (p2 + 1) line.length
  return { req with method := method, path := path, protocol := protocol }

/-- SP or TAB. -/
def isBlank (b : UInt8) : Bool := b == 32 || b == 9

/-- Past the blanks from `vbeg` on, up to `stop`. -/
def skipBlanks (block : Bytes) (vbeg stop : Nat) : Nat :=
  vbeg + (((block.take stop).drop vbeg).takeWhile isBlank).length

/-- The loop of `parse_headers`. Each turn but the last moves `start` on. -/
def headerLoop (block : Bytes) : Nat → Nat → Headers → Option Headers
  | 0, _, _ => none
  | fuel + 1, start, hs =>
    if block.length ≤ start then some hs
    else
      let stop := (findFrom [CR, LF] block start).getD block.length
      if stop = start then some hs
      else
        match findFrom [COLON] block start with
        | some colon =>
          if colon < stop then do
            let k ← substr block start (colon - start)
            let vbeg := skipBlanks block (colon + 1) stop
            let v ← substr block vbeg (stop - vbeg)
            headerLoop block fuel (stop + 2) (hs.emplace k v)
          else headerLoop block fuel (stop + 2) hs
        | none => headerLoop block fuel (stop + 2) hs

/-- The request with its headers, `keep_alive` and `content_len`. -/
def parseHeaders (block : Bytes) (req : Request) : Option (Request × Bool × Nat) := do
  let hs ← headerLoop block (block.length + 1) 0 req.headers
  let keepAlive := match hs.lookup (ascii "Connection") with
    | some v => (find (ascii "close") (v.map toLower)).isNone
    | none => true
  let contentLen := match hs.lookup (ascii "Content-Length") with
    | some v => strtoull v
    | none => 0
  return ({ req with headers := hs }, keepAlive, contentLen)

/-- The parser, the request it fills in, and what the responder has made of the requests before. -/
structure Parse (σ : Type*) where
  http : RequestContext := {}
  req : Request := {}
  out : σ

/-- What one of the stages of the loop does: it waits for more bytes, raises an exception, or goes on. -/
inductive Turn (σ : Type*)
  | wait (x : Parse σ)
  | throw (x : Parse σ)
  | next (x : Parse σ)

variable {σ : Type*} (reserves : Nat → Bool) (respond : Request → Bool → σ → σ)

def startLineStage (x : Parse σ) : Turn σ :=
  match find [CR, LF] x.http.acc with
  | none => .wait x
  | some eol =>
    match parseRequestLine (x.http.acc.take eol) x.req with
    | none => .throw x
    | some req =>
      .next { x with http := { x.http with state := .headers, acc := x.http.acc.drop (eol + 2) }, req := req }

def headersStage (x : Parse σ) : Turn σ :=
  match findDoubleCrlf x.http.acc with
  | none => .wait x
  | some hdrEnd =>
    match parseHeaders (x.http.acc.take (hdrEnd + 2)) x.req with
    | none => .throw x
    | some (req, keepAlive, contentLen) =>
      let x := { x with
        http := { x.http with acc := x.http.acc.drop (hdrEnd + 4), keepAlive := keepAlive }
        req := { req with body := [] } }
      if reserves contentLen then .next { x with http := { x.http with state := .body, bodyBytesNeeded := contentLen } }
      else .throw x

def bodyStage (x : Parse σ) : Turn σ :=
  let take := min x.http.bodyBytesNeeded x.http.acc.length
  let x := { x with
    http := { x.http with acc := x.http.acc.drop take, bodyBytesNeeded := x.http.bodyBytesNeeded - take }
    req := { x.req with body := x.req.body ++ x.http.acc.take take } }
  if 0 < x.http.bodyBytesNeeded then .wait x
  else .next { http := { x.http with state := .startLine }, req := {}, out := respond x.req x.http.keepAlive x.out }

/-- The three conditionals of the loop of `on_segment`, one after another: each is for one state, and leaves it for the
next one. -/
def turn (x : Parse σ) : Turn σ :=
  match x.http.state with
  | .startLine => startLineStage x
  | .headers => headersStage reserves x
  | .body => bodyStage respond x

/-- The loop of `on_segment`; an error is an exception that leaves it. -/
def loop : Nat → Parse σ → Except (Parse σ) (Parse σ)
  | 0, x => .error x
  | fuel + 1, x =>
    match turn reserves respond x with
    | .wait x => .ok x
    | .throw x => .error x
    | .next x => loop fuel x

/-- Bytes appended to `acc`. -/
def Parse.push (x : Parse σ) (p : Bytes) : Parse σ := { x with http := { x.http with acc := x.http.acc ++ p } }

def onSegment (p : Bytes) (x : Parse σ) : Except (Parse σ) (Parse σ) :=
  loop reserves respond (2 * (x.push p).http.acc.length + 2) (x.push p)

/-- Segments one after another. -/
def onSegments : List Bytes → Parse σ → Except (Parse σ) (Parse σ)
  | [], x => .ok x
  | p :: ps, x => onSegment reserves respond p x >>= onSegments ps

/-! ## Where the loop ends -/

/-- The result of the loop, whatever number of turns it takes. -/
inductive Ends : Parse σ → Except (Parse σ) (Parse σ) → Prop
  | wait {x y : Parse σ} : turn reserves respond x = .wait y → Ends x (.ok y)
  | throw {x y : Parse σ} : turn reserves respond x = .throw y → Ends x (.error y)
  | next {x y : Parse σ} {r : Except (Parse σ) (Parse σ)} :
      turn reserves respond x = .next y → Ends y r → Ends x r

/-- What is left to take off. -/
def Parse.work (x : Parse σ) : Nat := 2 * x.http.acc.length + if x.http.state = .body then 1 else 0

variable {reserves : Nat → Bool} {respond : Request → Bool → σ → σ} {x y : Parse σ} {r r' : Except (Parse σ) (Parse σ)}

theorem startLineStage_next (h : startLineStage x = .next y) :
    ∃ eol req, find [CR, LF] x.http.acc = some eol ∧ parseRequestLine (x.http.acc.take eol) x.req = some req ∧
      y = { x with http := { x.http with state := .headers, acc := x.http.acc.drop (eol + 2) }, req := req } := by
  unfold startLineStage at h
  split at h
  · cases h
  · rename_i eol hf
    split at h
    · cases h
    · rename_i req hp
      cases h
      exact ⟨eol, req, hf, hp, rfl⟩

theorem startLineStage_wait (h : startLineStage x = .wait y) : y = x := by
  unfold startLineStage at h
  split at h
  · cases h
    rfl
  · split at h <;> cases h

theorem headersStage_wait (h : headersStage reserves x = .wait y) : y = x := by
  unfold headersStage at h
  split at h
  · cases h
    rfl
  · split at h
    · cases h
    · dsimp only at h
      split at h <;> cases h

theorem headersStage_next (h : headersStage reserves x = .next y) :
    ∃ hdrEnd req keepAlive contentLen, findDoubleCrlf x.http.acc = some hdrEnd ∧
      parseHeaders (x.http.acc.take (hdrEnd + 2)) x.req = some (req, keepAlive, contentLen) ∧
      reserves contentLen = true ∧ y = { x with
        http := ⟨.body, x.http.acc.drop (hdrEnd + 4), contentLen, keepAlive⟩, req := { req with body := [] } } := by
  unfold headersStage at h
  split at h
  · cases h
  · rename_i hdrEnd hf
    split at h
    · cases h
    · rename_i req keepAlive contentLen hp
      dsimp only at h
      split at h
      · rename_i hr
        cases h
        exact ⟨hdrEnd, req, keepAlive, contentLen, hf, hp, hr, rfl⟩
      · cases h

/-- The body is there. -/
theorem bodyStage_next (h : bodyStage respond x = .next y) :
    x.http.bodyBytesNeeded ≤ x.http.acc.length ∧
    y = { http := ⟨.startLine, x.http.acc.drop x.http.bodyBytesNeeded, 0, x.http.keepAlive⟩
          req := {}
          out := respond { x.req with body := x.req.body ++ x.http.acc.take x.http.bodyBytesNeeded } x.http.keepAlive
            x.out } := by
  simp only [bodyStage] at h
  split at h
  · cases h
  · rename_i hn
    have hle : x.http.bodyBytesNeeded ≤ x.http.acc.length := by omega
    cases h
    simp [hle]

/-- A part of the body is there, and is taken. -/
theorem bodyStage_wait (h : bodyStage respond x = .wait y) :
    x.http.acc.length < x.http.bodyBytesNeeded ∧
    y = { x with
      http := { x.http with acc := [], bodyBytesNeeded := x.http.bodyBytesNeeded - x.http.acc.length }
      req := { x.req with body := x.req.body ++ x.http.acc } } := by
  simp only [bodyStage] at h
  split at h
  · rename_i hn
    have hlt : x.http.acc.length < x.http.bodyBytesNeeded := by omega
    cases h
    simp [hlt, Nat.le_of_lt hlt]
  · cases h

/-- The parser as the loop leaves it. -/
def left : Except (Parse σ) (Parse σ) → Parse σ
  | .ok x => x
  | .error x => x

theorem startLineStage_throw (h : startLineStage x = .throw y) : y = x := by
  unfold startLineStage at h
  split at h
  · cases h
  · split at h
    · cases h
      rfl
    · cases h

theorem headersStage_throw (h : headersStage reserves x = .throw y) : y.out = x.out := by
  unfold headersStage at h
  split at h
  · cases h
  · split at h
    · cases h
      rfl
    · dsimp only at h
      split at h
      · cases h
      · cases h
        rfl

theorem bodyStage_throw : bodyStage respond x ≠ .throw y := by
  simp only [bodyStage]
  split <;> exact fun h => by cases h

/-- What the responder keeps, parsing keeps. -/
theorem Ends.out {P : σ → Prop} (hP : ∀ req keepAlive s, P s → P (respond req keepAlive s))
    (h : Ends reserves respond x r) (hx : P x.out) : P (left r).out := by
  induction h with
  | @wait x y ht =>
    unfold turn at ht
    split at ht
    · rw [startLineStage_wait ht]
      exact hx
    · rw [headersStage_wait ht]
      exact hx
    · obtain ⟨-, rfl⟩ := bodyStage_wait ht
      exact hx
  | @throw x y ht =>
    unfold turn at ht
    split at ht
    · rw [startLineStage_throw ht]
      exact hx
    · rw [left, headersStage_throw ht]
      exact hx
    · exact absurd ht bodyStage_throw
  | @next x y r ht _ ih =>
    refine ih ?_
    unfold turn at ht
    split at ht
    · obtain ⟨-, -, -, -, rfl⟩ := startLineStage_next ht
      exact hx
    · obtain ⟨-, -, -, -, -, -, -, rfl⟩ := headersStage_next ht
      exact hx
    · obtain ⟨-, rfl⟩ := bodyStage_next ht
      exact hP _ _ _ hx

/-- A turn that goes on has taken something off. -/
theorem turn_lt (h : turn reserves respond x = .next y) : y.work < x.work := by
  unfold turn at h
  unfold Parse.work
  split at h
  · rename_i hs
    obtain ⟨eol, req, hf, -, rfl⟩ := startLineStage_next h
    have hlen := find_le hf
    simp only [List.length_drop, List.length_cons, List.length_nil, hs, reduceCtorEq, if_false] at hlen ⊢
    omega
  · rename_i hs
    obtain ⟨hdrEnd, req, keepAlive, contentLen, hf, -, -, rfl⟩ := headersStage_next h
    have hlen := find_le hf
    simp only [List.length_drop, List.length_cons, List.length_nil, hs, reduceCtorEq, if_false, if_true] at hlen ⊢
    omega
  · rename_i hs
    obtain ⟨-, rfl⟩ := bodyStage_next h
    simp only [List.length_drop, hs, reduceCtorEq, if_false, if_true]
    omega

/-- The loop ends, and its turns are enough. -/
theorem loop_ends : ∀ (n : Nat) {x : Parse σ}, x.work < n → Ends reserves respond x (loop reserves respond n x)
  | 0, x, h => absurd h (Nat.not_lt_zero _)
  | n + 1, x, h => by
    unfold loop
    cases ht : turn reserves respond x with
    | wait y => exact .wait ht
    | throw y => exact .throw ht
    | next y => exact .next ht (loop_ends n (Nat.lt_of_lt_of_le (turn_lt ht) (Nat.le_of_lt_succ h)))

theorem Ends.unique (h : Ends reserves respond x r) (h' : Ends reserves respond x r') : r = r' := by
  induction h with
  | wait ht => cases h' <;> grind
  | throw ht => cases h' <;> grind
  | next ht _ ih =>
    cases h' with
    | wait ht' => grind
    | throw ht' => grind
    | next ht' h' =>
      cases ht.symm.trans ht'
      exact ih h'

theorem ends_next_iff (h : turn reserves respond x = .next y) :
    Ends reserves respond x r ↔ Ends reserves respond y r := by
  refine ⟨fun hx => ?_, .next h⟩
  cases hx with
  | wait ht => cases ht.symm.trans h
  | throw ht => cases ht.symm.trans h
  | next ht hx =>
    cases ht.symm.trans h
    exact hx

theorem onSegment_ends (p : Bytes) (x : Parse σ) :
    Ends reserves respond (x.push p) (onSegment reserves respond p x) := by
  refine loop_ends _ ?_
  unfold Parse.work
  split <;> omega

theorem onSegment_eq_iff {p : Bytes} : onSegment reserves respond p x = r ↔ Ends reserves respond (x.push p) r :=
  ⟨fun h => h ▸ onSegment_ends p x, fun h => (onSegment_ends p x).unique h⟩

/-- Where two parsers do the same next, they end the same. -/
theorem Ends.congr (h : turn reserves respond x = turn reserves respond y) :
    Ends reserves respond x r ↔ Ends reserves respond y r := by
  have himp : ∀ {x y : Parse σ}, turn reserves respond x = turn reserves respond y → Ends reserves respond x r →
      Ends reserves respond y r := by
    intro x y h hx
    cases hx with
    | wait ht => exact .wait (h ▸ ht)
    | throw ht => exact .throw (h ▸ ht)
    | next ht hx => exact .next (h ▸ ht) hx
  exact ⟨himp h, himp h.symm⟩

/-! ## Bytes that come later -/

/-- A stage that waits would do with more bytes what it does once it has them; the others do what they do anyway. -/
def Later (f : Parse σ → Turn σ) (x : Parse σ) (q : Bytes) : Turn σ → Prop
  | .wait y => f (x.push q) = f (y.push q)
  | .throw y => f (x.push q) = .throw (y.push q)
  | .next y => f (x.push q) = .next (y.push q)

theorem startLineStage_push (x : Parse σ) (q : Bytes) : Later startLineStage x q (startLineStage x) := by
  cases hf : find [CR, LF] x.http.acc with
  | none =>
    have hx : startLineStage x = .wait x := by simp [startLineStage, hf]
    rw [hx]
    exact rfl
  | some eol =>
    have hlen := find_le hf
    simp only [List.length_cons, List.length_nil] at hlen
    have hlate : find [CR, LF] (x.http.acc ++ q) = some eol := find_append hf q
    have htake : (x.http.acc ++ q).take eol = x.http.acc.take eol := List.take_append_of_le_length (by omega)
    have hdrop : (x.http.acc ++ q).drop (eol + 2) = x.http.acc.drop (eol + 2) ++ q :=
      List.drop_append_of_le_length (by omega)
    cases hp : parseRequestLine (x.http.acc.take eol) x.req <;>
      simp [Later, startLineStage, Parse.push, hf, hlate, htake, hdrop, hp]

theorem headersStage_push (x : Parse σ) (q : Bytes) :
    Later (headersStage reserves) x q (headersStage reserves x) := by
  cases hf : findDoubleCrlf x.http.acc with
  | none =>
    have hx : headersStage reserves x = .wait x := by simp [headersStage, hf]
    rw [hx]
    exact rfl
  | some hdrEnd =>
    have hlen := find_le hf
    simp only [List.length_cons, List.length_nil] at hlen
    have hlate : findDoubleCrlf (x.http.acc ++ q) = some hdrEnd := find_append hf q
    have htake : (x.http.acc ++ q).take (hdrEnd + 2) = x.http.acc.take (hdrEnd + 2) :=
      List.take_append_of_le_length (by omega)
    have hdrop : (x.http.acc ++ q).drop (hdrEnd + 4) = x.http.acc.drop (hdrEnd + 4) ++ q :=
      List.drop_append_of_le_length (by omega)
    cases hp : parseHeaders (x.http.acc.take (hdrEnd + 2)) x.req with
    | none => simp [Later, headersStage, Parse.push, hf, hlate, htake, hp]
    | some v =>
      obtain ⟨req, keepAlive, contentLen⟩ := v
      cases hr : reserves contentLen <;> simp [Later, headersStage, Parse.push, hf, hlate, htake, hdrop, hp, hr]

theorem bodyStage_push (x : Parse σ) (q : Bytes) : Later (bodyStage respond) x q (bodyStage respond x) := by
  rcases Nat.lt_or_ge x.http.acc.length x.http.bodyBytesNeeded with hlt | hle
  · -- all of `acc` is body, and what comes later goes on with it
    have hx : bodyStage respond x = .wait { x with
        http := { x.http with acc := [], bodyBytesNeeded := x.http.bodyBytesNeeded - x.http.acc.length }
        req := { x.req with body := x.req.body ++ x.http.acc } } := by
      simp [bodyStage, Nat.min_eq_right (Nat.le_of_lt hlt), Nat.sub_pos_of_lt hlt]
    have hmin : min x.http.bodyBytesNeeded (x.http.acc.length + q.length) =
        x.http.acc.length + min (x.http.bodyBytesNeeded - x.http.acc.length) q.length := by omega
    have htake : ∀ m, (x.http.acc ++ q).take (x.http.acc.length + m) = x.http.acc ++ q.take m := fun m => by
      rw [List.take_length_add_append]
    have hdrop : ∀ m, (x.http.acc ++ q).drop (x.http.acc.length + m) = q.drop m := fun m => by
      rw [List.drop_length_add_append]
    rw [hx]
    simp only [Later, bodyStage, Parse.push, List.length_append, hmin, htake, hdrop, List.nil_append, List.append_assoc,
      Nat.sub_add_eq]
  · have hmin : min x.http.bodyBytesNeeded x.http.acc.length = x.http.bodyBytesNeeded := Nat.min_eq_left hle
    have hmin' : min x.http.bodyBytesNeeded (x.http.acc.length + q.length) = x.http.bodyBytesNeeded := by omega
    simp [Later, bodyStage, Parse.push, hmin, hmin', List.drop_append_of_le_length hle,
      List.take_append_of_le_length hle]

/-- A parser that waits has not changed its state. -/
theorem turn_wait (h : turn reserves respond x = .wait y) : y.http.state = x.http.state := by
  unfold turn at h
  split at h
  · rw [startLineStage_wait h]
  · rw [headersStage_wait h]
  · obtain ⟨-, rfl⟩ := bodyStage_wait h
    rfl

variable (reserves respond) in
/-- What a turn finds early it finds late. -/
theorem turn_push (x : Parse σ) (q : Bytes) : Later (turn reserves respond) x q (turn reserves respond x) := by
  have hstage : ∀ f : Parse σ → Turn σ, (∀ y, y.http.state = x.http.state → turn reserves respond y = f y) →
      Later f x q (f x) → Later (turn reserves respond) x q (turn reserves respond x) := by
    intro f hf h
    have hwait : ∀ y, f x = .wait y → y.http.state = x.http.state := fun y hy => turn_wait ((hf x rfl).trans hy)
    rw [hf x rfl]
    unfold Later at h ⊢
    split at h
    · rename_i y hy
      simp only [hf (x.push q) rfl, hf (y.push q) (hwait y hy), h]
    · simp only [hf (x.push q) rfl, h]
    · simp only [hf (x.push q) rfl, h]
  cases hs : x.http.state with
  | startLine => exact hstage startLineStage (fun y hy => by simp [turn, hy, hs]) (startLineStage_push x q)
  | headers => exact hstage (headersStage reserves) (fun y hy => by simp [turn, hy, hs]) (headersStage_push x q)
  | body => exact hstage (bodyStage respond) (fun y hy => by simp [turn, hy, hs]) (bodyStage_push x q)

variable (reserves respond) in
/-- A segment after one that has been parsed; after an exception nothing is parsed. -/
def resume (q : Bytes) : Except (Parse σ) (Parse σ) → Except (Parse σ) (Parse σ)
  | .ok y => onSegment reserves respond q y
  | .error y => .error (y.push q)

theorem Ends.push (h : Ends reserves respond x r) (q : Bytes) :
    Ends reserves respond (x.push q) (resume reserves respond q r) := by
  induction h with
  | @wait x y ht =>
    have hpush := turn_push reserves respond x q
    rw [ht] at hpush
    exact (Ends.congr hpush).mpr (onSegment_ends q y)
  | @throw x y ht =>
    have hpush := turn_push reserves respond x q
    rw [ht] at hpush
    exact .throw hpush
  | @next x y r ht _ ih =>
    have hpush := turn_push reserves respond x q
    rw [ht] at hpush
    exact .next hpush ih

@[simp] theorem Parse.push_push (x : Parse σ) (p q : Bytes) : (x.push p).push q = x.push (p ++ q) := by
  simp [Parse.push]

/-- Two segments, or one. -/
theorem onSegment_push (p q : Bytes) (x : Parse σ) :
    onSegment reserves respond (p ++ q) x = resume reserves respond q (onSegment reserves respond p x) := by
  rw [onSegment_eq_iff, ← Parse.push_push]
  exact (onSegment_ends p x).push q

/-- What has been parsed is not parsed again. -/
theorem onSegment_nil {p : Bytes} (h : onSegment reserves respond p x = .ok y) :
    onSegment reserves respond [] y = .ok y := by
  have hpush : onSegment reserves respond (p ++ []) x = _ := onSegment_push p [] x
  rw [List.append_nil, h] at hpush
  exact hpush.symm

/-- A fresh parser waits, and asks for nothing. -/
theorem onSegment_fresh (out : σ) : onSegment reserves respond [] { out := out } = .ok { out := out } := by
  rw [onSegment_eq_iff]
  exact .wait rfl

theorem onSegments_append (ps qs : List Bytes) (x : Parse σ) : onSegments reserves respond (ps ++ qs) x =
    onSegments reserves respond ps x >>= onSegments reserves respond qs := by
  induction ps generalizing x with
  | nil => rfl
  | cons p ps ih =>
    rw [List.cons_append, onSegments, onSegments]
    cases onSegment reserves respond p x with
    | error z => rfl
    | ok z => exact ih z

/-- Segments, or all their bytes at once. -/
theorem onSegments_iff {ps : List Bytes} (hx : onSegment reserves respond [] x = .ok x) :
    onSegments reserves respond ps x = .ok y ↔ onSegment reserves respond ps.flatten x = .ok y := by
  induction ps generalizing x with
  | nil => rw [List.flatten_nil, hx, onSegments]
  | cons p ps ih =>
    rw [List.flatten_cons, onSegment_push, onSegments]
    cases h : onSegment reserves respond p x with
    | error z =>
      constructor
      · intro h
        cases h
      · intro h
        cases h
    | ok z => exact ih (onSegment_nil h)

end IOContext.Epoll
