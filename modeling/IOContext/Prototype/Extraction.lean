import IOContext.Epoll.RequestContext
import Mathlib.Logic.Relation

/-!
# The io_uring prototype: requests taken off the accumulator

`parse_step` appends each segment to `acc`, and then takes requests off its front as long as there is a header block
with a body of the announced length behind it. The length to take off is a sum in 64 bits, and the length that a request
announces may be any 64-bit number.

- A header block is scanned to its end (`scanLoop_fuel`).
- Each turn of the loop takes off at least the header block that it answers, so that the loop ends with at most one
  response per blank line: exactly if no sum that is reached leaves the 64 bits (`frames_iff`).
-/

namespace IOContext.Prototype

open Search Epoll

/-! ## The state -/

structure OwnedBuf where
  bytes : Bytes
  eor : Bool := false
deriving DecidableEq, Repr

def kBody : Bytes := ascii "Hello, World!\n"

def kHdrKeep : Bytes :=
  ascii "HTTP/1.1 200 OK\r\nContent-Type: text/plain\r\nContent-Length: 14\r\nConnection: keep-alive\r\n\r\n"

def kHdrClose : Bytes :=
  ascii "HTTP/1.1 200 OK\r\nContent-Type: text/plain\r\nContent-Length: 14\r\nConnection: close\r\n\r\n"

/-- A connection, as far as its parser reads and writes it. -/
structure PerClientStorage where
  served : UInt32 := 0
  keepAlive : Bool := true
  bodyNeed : Nat := 0
  txq : List OwnedBuf := []
  keepaliveLimit : UInt16 := 65000
  acc : Bytes := []
deriving DecidableEq, Repr

/-! ## The headers -/

def findHdrEnd (a : Bytes) : Option Nat := find [CR, LF, CR, LF] a

/-- `strncasecmp` on names of the same length. -/
def sameName (k name : Bytes) : Bool := k.length == name.length && k.map toLower == name.map toLower

/-- A header line from `start` to `stop`; a later line of the same name counts. -/
def scanLine (acc : Bytes) (start stop : Nat) (keep : Bool) (clen : Nat) : Bool × Nat :=
  match findFrom [COLON] acc start with
  | none => (keep, clen)
  | some colon =>
    if colon < stop then
      let k := (acc.drop start).take (colon - start)
      let vbeg := skipBlanks acc (colon + 1) stop
      let v := (acc.drop vbeg).take (stop - vbeg)
      if sameName k (ascii "Connection") then ((find (ascii "close") (v.map toLower)).isNone, clen)
      else if sameName k (ascii "Content-Length") then (keep, strtoull v)
      else (keep, clen)
    else (keep, clen)

/-- The loop of `scan_headers`. Each turn moves `start` on. -/
def scanLoop (acc : Bytes) (hdrEnd : Nat) : Nat → Nat → Bool → Nat → Bool × Nat
  | 0, _, keep, clen => (keep, clen)
  | fuel + 1, start, keep, clen =>
    if start < hdrEnd then
      match findFrom [CR, LF] acc start with
      | none => (keep, clen)
      | some stop =>
        if hdrEnd < stop then (keep, clen)
        else
          let (keep, clen) := scanLine acc start stop keep clen
          scanLoop acc hdrEnd fuel (stop + 2) keep clen
    else (keep, clen)

/-- `keep` and `clen`. -/
def scanHeaders (acc : Bytes) (hdrEnd : Nat) : Bool × Nat := scanLoop acc hdrEnd hdrEnd 0 true 0

/-! ## The loop -/

/-- `body_off + clen` in `size_t`. -/
def requestSize (acc : Bytes) (hdrEnd : Nat) : Nat := (hdrEnd + 4 + (scanHeaders acc hdrEnd).2) % 2 ^ 64

/-- What a turn of the loop does: it leaves the loop, or emits a response and goes on. -/
inductive Turn
  | stop (c : PerClientStorage)
  | emit (c : PerClientStorage)
deriving DecidableEq, Repr

namespace PerClientStorage

/-- `served` and the limit less one are compared as unsigned numbers. -/
def respond (c : PerClientStorage) : PerClientStorage :=
  let keepconn := c.keepAlive && c.served < c.keepaliveLimit.toUInt32 - 1
  { c with txq := c.txq ++ [⟨if keepconn then kHdrKeep else kHdrClose, false⟩, ⟨kBody, true⟩] }

/-- The inner loop of `parse_step`, and of `parse_step_locked`. -/
def turn (c : PerClientStorage) : Turn :=
  match findHdrEnd c.acc with
  | none => .stop c
  | some hdrEnd =>
    let keep := (scanHeaders c.acc hdrEnd).1
    let size := requestSize c.acc hdrEnd
    if c.acc.length < size then .stop { c with keepAlive := keep, bodyNeed := size - c.acc.length }
    else .emit ({ c with acc := c.acc.drop size, keepAlive := keep, bodyNeed := 0 } : PerClientStorage).respond

/-- The loop ends, and has emitted `n` responses. -/
inductive Loop : PerClientStorage → Nat → PerClientStorage → Prop
  | stop {c c' : PerClientStorage} : c.turn = .stop c' → Loop c 0 c'
  | emit {c c₁ c' : PerClientStorage} {n : Nat} : c.turn = .emit c₁ → Loop c₁ n c' → Loop c (n + 1) c'

end PerClientStorage

/-! ## The scan -/

variable {acc s : Bytes} {hdrEnd start clen n : Nat} {keep : Bool}

/-- A scan that comes to its end does so with any number of turns. -/
theorem scanLoop_fuel : ∀ {fuel start : Nat} {keep : Bool} {clen : Nat} (extra : Nat), hdrEnd ≤ start + fuel →
    scanLoop acc hdrEnd (fuel + extra) start keep clen = scanLoop acc hdrEnd fuel start keep clen
  | 0, start, keep, clen, extra, h => by
    have hend : ¬start < hdrEnd := by omega
    cases extra with
    | zero => rfl
    | succ extra => simp [scanLoop, hend]
  | fuel + 1, start, keep, clen, extra, h => by
    rw [Nat.add_right_comm]
    unfold scanLoop
    split
    · split
      · rfl
      · rename_i stop hstop
        have hle : start ≤ stop := by
          obtain ⟨k, -, rfl⟩ := Option.map_eq_some_iff.mp hstop
          exact Nat.le_add_right ..
        split
        · rfl
        · exact scanLoop_fuel extra (by omega)
    · rfl

theorem strtoull_lt (s : Bytes) : strtoull s < 2 ^ 64 := by
  have hvalue : ∀ (neg : Bool) (n : Nat),
      (if 2 ^ 64 ≤ n then 2 ^ 64 - 1 else if neg then (2 ^ 64 - n) % 2 ^ 64 else n) < 2 ^ 64 := by
    intro neg n
    split
    · decide
    · cases neg with
      | false => exact Nat.lt_of_not_le ‹_›
      | true => exact Nat.mod_lt _ (by decide)
  unfold strtoull
  exact hvalue _ _

theorem scanLine_lt {stop : Nat} (h : clen < 2 ^ 64) : (scanLine acc start stop keep clen).2 < 2 ^ 64 := by
  unfold scanLine
  split
  · exact h
  · split
    · dsimp only
      split
      · exact h
      · split
        · exact strtoull_lt _
        · exact h
    · exact h

theorem scanLoop_lt : ∀ (fuel : Nat) {start : Nat} {keep : Bool} {clen : Nat}, clen < 2 ^ 64 →
    (scanLoop acc hdrEnd fuel start keep clen).2 < 2 ^ 64
  | 0, _, _, _, h => h
  | fuel + 1, start, keep, clen, h => by
    unfold scanLoop
    split
    · split
      · exact h
      · split
        · exact h
        · exact scanLoop_lt fuel (scanLine_lt h)
    · exact h

/-! ## Sums -/

/-- A header block is reached whose sum does not fit 64 bits; what comes before it is taken off by the true sums. -/
inductive Wraps : Bytes → Prop
  | here {s : Bytes} {hdrEnd : Nat} : findHdrEnd s = some hdrEnd →
      2 ^ 64 ≤ hdrEnd + 4 + (scanHeaders s hdrEnd).2 → Wraps s
  | later {s : Bytes} {hdrEnd : Nat} : findHdrEnd s = some hdrEnd →
      hdrEnd + 4 + (scanHeaders s hdrEnd).2 ≤ s.length → Wraps (s.drop (hdrEnd + 4 + (scanHeaders s hdrEnd).2)) →
      Wraps s

/-- There are `n` blank lines, one behind another. -/
inductive BlankLines : Nat → Bytes → Prop
  | zero (s : Bytes) : BlankLines 0 s
  | succ {n : Nat} {v : Bytes} (u : Bytes) : BlankLines n v → BlankLines (n + 1) (u ++ [CR, LF, CR, LF] ++ v)

theorem BlankLines.behind {v : Bytes} (u : Bytes) (h : BlankLines n v) : BlankLines n (u ++ v) := by
  cases h with
  | zero => exact .zero _
  | succ w h =>
    rw [← List.append_assoc, ← List.append_assoc]
    exact .succ (u ++ w) h

theorem requestSize_eq (h : hdrEnd + 4 + (scanHeaders s hdrEnd).2 < 2 ^ 64) :
    requestSize s hdrEnd = hdrEnd + 4 + (scanHeaders s hdrEnd).2 := Nat.mod_eq_of_lt h

/-- A sum that leaves the 64 bits is less than the header block. -/
theorem requestSize_lt (h : 2 ^ 64 ≤ hdrEnd + 4 + (scanHeaders s hdrEnd).2) : requestSize s hdrEnd < hdrEnd + 4 := by
  have hclen : (scanHeaders s hdrEnd).2 < 2 ^ 64 := scanLoop_lt _ (by decide)
  unfold requestSize
  omega

/-! ## The loop -/

namespace PerClientStorage

variable {c c' c₁ : PerClientStorage}

theorem turn_emits (hf : findHdrEnd c.acc = some hdrEnd) (hsize : requestSize c.acc hdrEnd ≤ c.acc.length) :
    ∃ c', c.turn = .emit c' ∧ c'.acc = c.acc.drop (requestSize c.acc hdrEnd) := by
  unfold turn
  rw [hf]
  dsimp only
  rw [if_neg (Nat.not_lt.mpr hsize)]
  exact ⟨_, rfl, rfl⟩

theorem turn_emit (h : c.turn = .emit c') : ∃ hdrEnd, findHdrEnd c.acc = some hdrEnd ∧
    requestSize c.acc hdrEnd ≤ c.acc.length ∧ c'.acc = c.acc.drop (requestSize c.acc hdrEnd) ∧
    c'.txq.length = c.txq.length + 2 := by
  unfold turn at h
  split at h
  · cases h
  · rename_i hdrEnd hf
    dsimp only at h
    split at h
    · cases h
    · rename_i hsize
      cases h
      exact ⟨hdrEnd, hf, Nat.not_lt.mp hsize, rfl, by simp [respond]⟩

theorem turn_stop (h : c.turn = .stop c') : c'.txq = c.txq := by
  unfold turn at h
  split at h
  · cases h
    rfl
  · dsimp only at h
    split at h
    · cases h
      rfl
    · cases h

/-- Where no sum wraps around, a turn takes off what it answers, and none wraps around behind that. -/
theorem turn_framed (h : c.turn = .emit c') (hwraps : ¬Wraps c.acc) : ∃ hdrEnd, findHdrEnd c.acc = some hdrEnd ∧
    ¬Wraps c'.acc ∧ c'.acc.length + (hdrEnd + 4) ≤ c.acc.length ∧ c'.acc <:+ c.acc.drop (hdrEnd + 4) := by
  obtain ⟨hdrEnd, hf, hsize, hacc, -⟩ := turn_emit h
  have hlt : hdrEnd + 4 + (scanHeaders c.acc hdrEnd).2 < 2 ^ 64 := Nat.lt_of_not_le fun hle => hwraps (.here hf hle)
  rw [requestSize_eq hlt] at hsize hacc
  refine ⟨hdrEnd, hf, ?_, ?_, ?_⟩
  · rw [hacc]
    exact fun h => hwraps (.later hf hsize h)
  · rw [hacc, List.length_drop]
    omega
  · rw [hacc, ← List.drop_drop]
    exact List.drop_suffix ..

/-- Each turn that is reached and emits a response takes off at least the header block. -/
def Frames (c : PerClientStorage) : Prop :=
  ∀ c₁ c₂ hdrEnd, Relation.ReflTransGen (fun c c' => c.turn = .emit c') c c₁ → findHdrEnd c₁.acc = some hdrEnd →
    c₁.turn = .emit c₂ → c₂.acc.length + (hdrEnd + 4) ≤ c₁.acc.length

/-- The loop ends, with at most one response, of two buffers, for each blank line. -/
def Drains (c : PerClientStorage) : Prop :=
  ∃ n c', Loop c n c' ∧ c'.txq.length = c.txq.length + 2 * n ∧ BlankLines n c.acc

theorem not_wraps_reached (hwraps : ¬Wraps c.acc)
    (h : Relation.ReflTransGen (fun c c' => c.turn = .emit c') c c₁) : ¬Wraps c₁.acc := by
  induction h with
  | refl => exact hwraps
  | tail _ hturn ih =>
    obtain ⟨-, -, hnext, -⟩ := turn_framed hturn ih
    exact hnext

theorem frames_of_not_wraps (hwraps : ¬Wraps c.acc) : Frames c := by
  intro c₁ c₂ hdrEnd hreached hf h
  obtain ⟨hdrEnd', hf', -, hlen, -⟩ := turn_framed h (not_wraps_reached hwraps hreached)
  cases hf.symm.trans hf'
  exact hlen

theorem drains_of_not_wraps (hwraps : ¬Wraps c.acc) : Drains c := by
  -- what is left becomes shorter with each response
  induction hlen : c.acc.length using Nat.strongRecOn generalizing c with
  | ind len ih =>
    subst hlen
    cases h : c.turn with
    | stop c' => exact ⟨0, c', .stop h, congrArg List.length (turn_stop h), .zero _⟩
    | emit c₁ =>
      obtain ⟨hdrEnd, hf, hnext, hlen, w, hw⟩ := turn_framed h hwraps
      obtain ⟨n, c', hloop, htxq, hlines⟩ := ih c₁.acc.length (by omega) hnext rfl
      obtain ⟨-, -, -, -, htxq₁⟩ := turn_emit h
      refine ⟨n + 1, c', .emit h hloop, by omega, ?_⟩
      have hsplit := find_split hf
      rw [hsplit]
      refine .succ _ ?_
      have hbehind : c.acc.drop (hdrEnd + [CR, LF, CR, LF].length) = w ++ c₁.acc := hw.symm
      rw [hbehind]
      exact hlines.behind w

/-- At a sum that wraps around, less than the header block is taken off. -/
theorem not_frames (hwraps : Wraps s) : ∀ c : PerClientStorage, c.acc = s → ¬Frames c := by
  have hshort : ∀ {c : PerClientStorage} {hdrEnd : Nat}, findHdrEnd c.acc = some hdrEnd →
      2 ^ 64 ≤ hdrEnd + 4 + (scanHeaders c.acc hdrEnd).2 → ¬Frames c := by
    intro c hdrEnd hf hsum hframes
    have hlt := requestSize_lt hsum
    have hle := find_le hf
    simp only [List.length_cons, List.length_nil] at hle
    obtain ⟨c', hturn, hacc⟩ := turn_emits hf (by omega)
    have hlen := hframes c c' hdrEnd .refl hf hturn
    rw [hacc, List.length_drop] at hlen
    omega
  induction hwraps with
  | here hf hsum =>
    rintro c rfl
    exact hshort hf hsum
  | later hf hle _ ih =>
    rintro c rfl hframes
    rename_i hdrEnd _
    rcases Nat.lt_or_ge (hdrEnd + 4 + (scanHeaders c.acc hdrEnd).2) (2 ^ 64) with hlt | hge
    · have hsize := requestSize_eq hlt
      obtain ⟨c', hturn, hacc⟩ := turn_emits hf (hsize ▸ hle)
      rw [hsize] at hacc
      exact ih c' hacc fun c₁ c₂ hdrEnd hreached => hframes c₁ c₂ hdrEnd (.head hturn hreached)
    · exact hshort hf hge hframes

/-- The loop frames what it answers, and ends with at most one response per blank line: exactly if no sum that is
reached leaves the 64 bits. -/
theorem frames_iff (c : PerClientStorage) : Frames c ∧ Drains c ↔ ¬Wraps c.acc :=
  ⟨fun h hwraps => not_frames hwraps c rfl h.1, fun h => ⟨frames_of_not_wraps h, drains_of_not_wraps h⟩⟩

/-- The length and the 39 bytes of the header block add up to `2 ^ 64`. -/
def minus39 : Bytes := ascii "GET / HTTP/1.1\r\nContent-Length: -39\r\n\r\n"

/-- Nothing is taken off, and the loop does not end. -/
theorem minus39_spins : ¬∀ c : PerClientStorage, Frames c ∧ Drains c := by
  intro h
  obtain ⟨-, n, c', hloop, -⟩ := h { acc := minus39 }
  have hf : findHdrEnd minus39 = some 35 := by decide +kernel
  have hsize : requestSize minus39 35 = 0 := by decide +kernel
  have hspins : ∀ {c c' : PerClientStorage} {n : Nat}, Loop c n c' → c.acc = minus39 → False := by
    intro c c' n hloop
    induction hloop with
    | stop hturn =>
      intro hacc
      obtain ⟨_, hemit, -⟩ := turn_emits (hacc ▸ hf) (by rw [hacc, hsize]; exact Nat.zero_le _)
      cases hturn.symm.trans hemit
    | emit hturn _ ih =>
      intro hacc
      obtain ⟨_, hemit, hsame⟩ := turn_emits (hacc ▸ hf) (by rw [hacc, hsize]; exact Nat.zero_le _)
      cases hturn.symm.trans hemit
      exact ih (by rw [hsame, hacc, hsize, List.drop_zero])
  exact hspins hloop rfl

end PerClientStorage

end IOContext.Prototype
