import IOContext.Base.Reach
import IOContext.Epoll.Lengths

/-!
# The IOCP server: received segments

Recv completions append to `rxq` and post a Process task, unless one is under way. The task takes segments out of `rxq`
in batches, each under `rx_mtx`, and passes them to `on_segment`; other workers may append between two of these regions.
Its budget of `PROC_MAX_SEGMENTS` is one for all its batches, but each batch may be that large. The parser is that of
the epoll server; nothing catches what its `body.reserve` raises, so that a segment that raises ends the process.

- A batch is passed on as far as the budget goes (`parse_ok`), or ends the process (`parse_error`); so are those of a
  task, one after another (`batches_spec`).
- A task drops nothing exactly if no batch goes beyond the budget and no length is refused (`process_keeps_iff`); to go
  beyond the budget takes a first batch smaller than it, and then more segments, in time, than it has left.
- Where every task is like this, all that arrives is parsed in order (`parsed_in_order`).
-/

namespace IOContext.Iocp

open Epoll (Asks Parse record)

/-! ## Tunables -/

def procMaxSegments : Nat := 16

/-- In nanoseconds, as the clock counts. -/
def procTimeBudget : Nat := 250000

/-! ## The state -/

/-- The receiving side of a connection. -/
structure Rx where
  rxq : List Bytes := []
  parseInflight : Bool := false
  /-- The Process tasks that are posted and not begun. -/
  posted : Nat := 0
  /-- The parser, and the requests that it has handed to `enqueue_request_for_response`. -/
  http : Parse (List Request) := { out := [] }
  /-- An exception has ended the process. -/
  terminated : Bool := false
  /-- All that came into `rxq`, all that was taken out, and all that was passed to `on_segment`. -/
  arrived : List Bytes := []
  taken : List Bytes := []
  parsed : List Bytes := []

namespace Rx

/-- The region of a Recv completion; `hold` is the buffer that was received into, if there still is one. -/
def recv (c : Rx) (hold : Option Bytes) : Rx :=
  let c := match hold with
    | some seg => { c with rxq := c.rxq ++ [seg], arrived := c.arrived ++ [seg] }
    | none => c
  if c.parseInflight then c else { c with parseInflight := true, posted := c.posted + 1 }

/-- Recv completions one after another. -/
def recvs (c : Rx) (holds : List (Option Bytes)) : Rx := holds.foldl recv c

/-- A batch is taken. -/
def take (c : Rx) : List Bytes × Rx :=
  let take := min procMaxSegments c.rxq.length
  (c.rxq.take take, { c with rxq := c.rxq.drop take, taken := c.taken ++ c.rxq.take take })

section

-- the lengths that `body.reserve` accepts
variable (reserves : Nat → Bool)

/-- The loop over a batch, and how many segments have been processed. -/
def parse : List Bytes → Nat → Rx → Nat × Rx
  | [], processed, c => (processed, c)
  | seg :: segs, processed, c =>
    let c := { c with parsed := c.parsed ++ [seg] }
    match Epoll.onSegment reserves record seg c.http with
    | .error http => (processed, { c with http := http, terminated := true })
    | .ok http =>
      let c := { c with http := http }
      if procMaxSegments ≤ processed + 1 then (processed + 1, c) else parse segs (processed + 1) c

/-- What happens while a task runs: the Recv completions before each of its regions, and the readings of the clock, the
first of them at the start. -/
structure Schedule where
  recvs : Nat → List (Option Bytes)
  clock : Nat → Nat

/-- The batches of a task, from the `n`th on; then the number of batches. Each batch but the last has a segment. -/
def batches (t : Schedule) : Nat → Nat → Nat → Rx → Nat × Rx
  | 0, n, _, c => (n, c)
  | fuel + 1, n, processed, c =>
    let (segs, c) := (c.recvs (t.recvs n)).take
    if segs.isEmpty then (n + 1, c)
    else
      let (processed, c) := parse reserves segs processed c
      if c.terminated then (n + 1, c)
      else if procMaxSegments ≤ processed then (n + 1, c)
      else if procTimeBudget ≤ t.clock (n + 1) - t.clock 0 then (n + 1, c)
      else batches t fuel (n + 1) processed c

/-- The last region: the task is posted again, or it is over. -/
def finish (c : Rx) : Rx :=
  if c.rxq.isEmpty then { c with parseInflight := false } else { c with posted := c.posted + 1 }

/-- A Process task, from its completion on. -/
def process (c : Rx) (t : Schedule) : Rx :=
  let (n, c) := batches reserves t (procMaxSegments + 1) 0 0 { c with posted := c.posted - 1 }
  if c.terminated then c else (c.recvs (t.recvs n)).finish

inductive Action
  | recv (hold : Option Bytes)
  | process (t : Schedule)

/-- The Recv completions that come while a task runs are part of its schedule. -/
def step (c : Rx) (a : Action) : Option Rx :=
  if c.terminated then none
  else
    match a with
    | .recv hold => some (c.recv hold)
    | .process t => if 0 < c.posted then some (c.process reserves t) else none

end

/-- A connection that has just been accepted. -/
def Fresh (c : Rx) : Prop := c = {}

/-! ## What a task does -/

variable {reserves : Nat → Bool} {t : Schedule} {c c₀ c₁ c' : Rx} {rxq : List Bytes} {n : Nat}

/-- The segments that Recv completions bring. -/
def segments (holds : List (Option Bytes)) : List Bytes := holds.filterMap id

/-- What was taken out of `rxq` between two states was passed to `on_segment`, once and in order. -/
def PassedOn (c c' : Rx) : Prop := ∃ segs, c'.taken = c.taken ++ segs ∧ c'.parsed = c.parsed ++ segs

/-- The segments that there are for the `i`th batch, if those before it have left none. -/
def came (t : Schedule) (rxq : List Bytes) (i : Nat) : List Bytes := (if i = 0 then rxq else []) ++ segments (t.recvs i)

/-- The segments for the first `i` batches. -/
def upTo (t : Schedule) (rxq : List Bytes) : Nat → List Bytes
  | 0 => []
  | i + 1 => upTo t rxq i ++ came t rxq i

/-- After the `i`th batch there is still time. -/
def InTime (t : Schedule) (i : Nat) : Prop := t.clock (i + 1) - t.clock 0 < procTimeBudget

/-- The batches before the `i`th one do not end the task: they have segments, but not for the whole budget, and there is
time. -/
def Reached (t : Schedule) (rxq : List Bytes) (i : Nat) : Prop :=
  (∀ j < i, came t rxq j ≠ [] ∧ InTime t j) ∧ (upTo t rxq i).length < procMaxSegments

/-- Some batch but the first is reached, with segments for more than what the batches before have left of the budget. -/
def Overflows (t : Schedule) (rxq : List Bytes) : Prop :=
  ∃ i, 0 < i ∧ Reached t rxq i ∧ procMaxSegments < (upTo t rxq (i + 1)).length

/-- Some batch is reached with which a request announces a length that `body.reserve` does not accept. -/
def Refused (reserves : Nat → Bool) (t : Schedule) (c : Rx) : Prop :=
  ∃ i n, Reached t c.rxq i ∧ Asks (c.parsed ++ (upTo t c.rxq (i + 1)).take procMaxSegments).flatten n ∧
    reserves n = false

/-- While a task runs, Recv completions do nothing but append. -/
theorem recvs_eq (holds : List (Option Bytes)) (hc : c.parseInflight = true) : c.recvs holds =
    { c with rxq := c.rxq ++ segments holds, arrived := c.arrived ++ segments holds } := by
  unfold recvs
  induction holds generalizing c with
  | nil => simp [segments]
  | cons hold holds ih =>
    cases hold with
    | none =>
      have hrecv : c.recv none = c := by simp [recv, hc]
      rw [List.foldl_cons, hrecv, ih hc]
      rfl
    | some seg =>
      have hrecv : c.recv (some seg) = { c with rxq := c.rxq ++ [seg], arrived := c.arrived ++ [seg] } := by
        simp [recv, hc]
      rw [List.foldl_cons, hrecv, ih (by exact hc)]
      simp [segments]

/-- A batch that raises nothing is passed on as far as the budget goes. -/
theorem parse_ok : ∀ (segs : List Bytes) {processed : Nat} {c : Rx} {http : Parse (List Request)},
    processed < procMaxSegments →
    Epoll.onSegments reserves record (segs.take (procMaxSegments - processed)) c.http = .ok http →
    parse reserves segs processed c = (min procMaxSegments (processed + segs.length),
      { c with parsed := c.parsed ++ segs.take (procMaxSegments - processed), http := http })
  | [], processed, c, http, hlt, h => by
    rw [List.take_nil] at h
    cases h
    simp [parse, Nat.min_eq_right (Nat.le_of_lt hlt)]
  | seg :: segs, processed, c, http, hlt, h => by
    obtain ⟨m, hm⟩ : ∃ m, procMaxSegments - processed = m + 1 := Nat.exists_eq_add_one.mpr (by omega)
    rw [hm, List.take_succ_cons, Epoll.onSegments] at h
    unfold parse
    dsimp only
    cases hseg : Epoll.onSegment reserves record seg c.http with
    | error z =>
      rw [hseg] at h
      cases h
    | ok z =>
      rw [hseg] at h
      dsimp only
      split
      · have hm0 : m = 0 := by omega
        have hmin : min procMaxSegments (processed + (segs.length + 1)) = processed + 1 := by omega
        rw [hm0, List.take_zero] at h
        cases h
        simp [hm, hm0, hmin]
      · have hm' : procMaxSegments - (processed + 1) = m := by omega
        rw [parse_ok segs (by omega) (by rw [hm']; exact h), hm, hm']
        simp [Nat.add_right_comm, Nat.add_assoc]

/-- A batch that raises ends the process; nothing is posted. -/
theorem parse_error : ∀ (segs : List Bytes) {processed : Nat} {c : Rx} {http : Parse (List Request)},
    processed < procMaxSegments →
    Epoll.onSegments reserves record (segs.take (procMaxSegments - processed)) c.http = .error http →
    (parse reserves segs processed c).2.terminated = true ∧ (parse reserves segs processed c).2.posted = c.posted ∧
      (parse reserves segs processed c).2.parseInflight = c.parseInflight
  | [], processed, c, http, hlt, h => by
    rw [List.take_nil] at h
    cases h
  | seg :: segs, processed, c, http, hlt, h => by
    obtain ⟨m, hm⟩ : ∃ m, procMaxSegments - processed = m + 1 := Nat.exists_eq_add_one.mpr (by omega)
    rw [hm, List.take_succ_cons, Epoll.onSegments] at h
    unfold parse
    dsimp only
    cases hseg : Epoll.onSegment reserves record seg c.http with
    | error z => exact ⟨rfl, rfl, rfl⟩
    | ok z =>
      rw [hseg] at h
      dsimp only
      split
      · have hm0 : m = 0 := by omega
        rw [hm0, List.take_zero] at h
        cases h
      · have hm' : procMaxSegments - (processed + 1) = m := by omega
        exact parse_error segs (by omega) (by rw [hm']; exact h)

theorem PassedOn.refl (c : Rx) : PassedOn c c := ⟨[], by simp, by simp⟩

/-- What has been passed on so far does not matter for what is still to be. -/
theorem PassedOn.iff_of (h : PassedOn c c₁) (ht : c₁.taken <+: c'.taken) (hp : c₁.parsed <+: c'.parsed) :
    PassedOn c c' ↔ PassedOn c₁ c' := by
  obtain ⟨segs, htaken, hparsed⟩ := h
  constructor
  · rintro ⟨all, htaken', hparsed'⟩
    obtain ⟨more, hmore⟩ := ht
    obtain ⟨more', hmore'⟩ := hp
    rw [← hmore, htaken, List.append_assoc] at htaken'
    rw [← hmore', hparsed, List.append_assoc] at hparsed'
    have hsame : segs ++ more = segs ++ more' :=
      (List.append_cancel_left htaken').trans (List.append_cancel_left hparsed').symm
    exact ⟨more, hmore.symm, by rw [List.append_cancel_left hsame, hmore']⟩
  · rintro ⟨more, htaken', hparsed'⟩
    exact ⟨segs ++ more, by rw [htaken', htaken, List.append_assoc], by rw [hparsed', hparsed, List.append_assoc]⟩

theorem upTo_mono (t : Schedule) (rxq : List Bytes) {i j : Nat} (h : i ≤ j) : upTo t rxq i <+: upTo t rxq j := by
  induction h with
  | refl => exact List.prefix_rfl
  | step _ ih => exact ih.trans (List.prefix_append ..)

/-! ## Where a task ends -/

/-- The task ends with the `n`th batch. -/
def EndsAt (t : Schedule) (rxq : List Bytes) (n : Nat) : Prop :=
  came t rxq n = [] ∨ ¬InTime t n ∨ procMaxSegments ≤ (upTo t rxq (n + 1)).length

theorem EndsAt.le (hend : EndsAt t rxq n) {i : Nat} (hi : Reached t rxq i) : i ≤ n := by
  by_contra hlt
  obtain ⟨hcame, htime⟩ := hi.1 n (by omega)
  rcases hend with h | h | h
  · exact hcame h
  · exact h htime
  · have hle := (upTo_mono t rxq (show n + 1 ≤ i by omega)).length_le
    have hbudget := hi.2
    omega

/-- A task that ends with the `n`th batch has gone beyond its budget there, or nowhere. -/
theorem EndsAt.overflows_iff (hend : EndsAt t rxq n) (hreached : Reached t rxq n) :
    Overflows t rxq ↔ 0 < n ∧ procMaxSegments < (upTo t rxq (n + 1)).length := by
  refine ⟨?_, fun h => ⟨n, h.1, hreached, h.2⟩⟩
  rintro ⟨i, hpos, hi, hgt⟩
  rcases Nat.lt_or_eq_of_le (hend.le hi) with hlt | rfl
  · have hle := (upTo_mono t rxq (show i + 1 ≤ n by omega)).length_le
    have hbudget := hreached.2
    omega
  · exact ⟨hpos, hgt⟩

/-- A new parser that is given `segs` raises exactly if a length in them is refused. -/
theorem parses_iff (segs : List Bytes) :
    (∃ http, Epoll.onSegments reserves record segs { out := [] } = .ok http) ↔
      ¬∃ n, Asks segs.flatten n ∧ reserves n = false := by
  rw [Epoll.returns_iff]
  simp only [not_exists, not_and, Bool.not_eq_false]

/-- If the segments up to where the task ends are parsed, no length is refused. -/
theorem EndsAt.not_refused (hend : EndsAt t c.rxq n) {http : Parse (List Request)}
    (h : Epoll.onSegments reserves record (c.parsed ++ (upTo t c.rxq (n + 1)).take procMaxSegments) { out := [] } =
      .ok http) : ¬Refused reserves t c := by
  rintro ⟨i, m, hi, hasks, hrefused⟩
  obtain ⟨rest, hrest⟩ := (upTo_mono t c.rxq (Nat.succ_le_succ (hend.le hi))).take procMaxSegments
  rw [← hrest, ← List.append_assoc, Epoll.onSegments_append] at h
  cases hfirst : Epoll.onSegments reserves record (c.parsed ++ (upTo t c.rxq (i + 1)).take procMaxSegments)
      { out := [] } with
  | error z =>
    rw [hfirst] at h
    cases h
  | ok z => exact (parses_iff _).mp ⟨z, hfirst⟩ ⟨m, hasks, hrefused⟩

/-! ## The batches -/

variable (reserves t c₀) in
/-- Before the `n`th batch: `processed` segments have come in the batches before it, which were all reached, and have
been parsed. -/
structure Before (n processed : Nat) (c : Rx) : Prop where
  inflight : c.parseInflight = true
  running : c.terminated = false
  total : (upTo t c₀.rxq n).length = processed
  reached : Reached t c₀.rxq n
  /-- The batches before it have left nothing. -/
  queue : n = 0 ∧ c.rxq = c₀.rxq ∨ 0 < n ∧ 0 < processed ∧ c.rxq = []
  parsed : c.parsed = c₀.parsed ++ upTo t c₀.rxq n
  http : Epoll.onSegments reserves record c.parsed { out := [] } = .ok c.http

theorem Before.budget {processed : Nat} (h : Before reserves t c₀ n processed c) : processed < procMaxSegments :=
  h.total ▸ h.reached.2

theorem Before.came_eq {processed : Nat} (h : Before reserves t c₀ n processed c) :
    c.rxq ++ segments (t.recvs n) = came t c₀.rxq n := by
  rw [came]
  rcases h.queue with ⟨rfl, hq⟩ | ⟨hpos, -, hq⟩
  · rw [if_pos rfl, hq]
  · rw [if_neg (Nat.ne_of_gt hpos), hq]

/-- The segments of the `n`th batch that the budget is for. -/
theorem Before.take_eq {processed : Nat} (h : Before reserves t c₀ n processed c) :
    c.parsed ++ (came t c₀.rxq n).take (procMaxSegments - processed) =
      c₀.parsed ++ (upTo t c₀.rxq (n + 1)).take procMaxSegments := by
  have hle : (upTo t c₀.rxq n).length ≤ procMaxSegments := Nat.le_of_lt h.reached.2
  rw [h.parsed, List.append_assoc, upTo, List.take_append, h.total, List.take_of_length_le hle]

/-- Segments were appended, taken and passed on while the task ran. -/
structure Batched (reserves : Nat → Bool) (c c' : Rx) : Prop where
  taken : c.taken <+: c'.taken
  parsed : c.parsed <+: c'.parsed
  arrived : c'.arrived = c'.taken ++ c'.rxq
  inflight : c'.parseInflight = true
  running : c'.terminated = false
  posted : c'.posted = c.posted
  http : Epoll.onSegments reserves record c'.parsed { out := [] } = .ok c'.http

theorem Batched.trans (h : Batched reserves c c₁) (h' : Batched reserves c₁ c') : Batched reserves c c' :=
  ⟨h.taken.trans h'.taken, h.parsed.trans h'.parsed, h'.arrived, h'.inflight, h'.running, h'.posted.trans h.posted,
    h'.http⟩

/-- One batch: it raises, or all of it is passed on exactly if it is within the budget. -/
theorem batch_spec {processed : Nat} (h : Before reserves t c₀ n processed c)
    (harrived : c.arrived = c.taken ++ c.rxq) :
    ∃ segs c₁, (c.recvs (t.recvs n)).take = (segs, c₁) ∧
      segs.length = min procMaxSegments (came t c₀.rxq n).length ∧
      (((parse reserves segs processed c₁).2.terminated = true ∧ Refused reserves t c₀ ∧
          (parse reserves segs processed c₁).2.posted = c.posted ∧
          (parse reserves segs processed c₁).2.parseInflight = true) ∨
        ∃ c₂, parse reserves segs processed c₁ = (min procMaxSegments (processed + segs.length), c₂) ∧
          c₂.rxq.length = (came t c₀.rxq n).length - segs.length ∧
          c₂.parsed = c₀.parsed ++ (upTo t c₀.rxq (n + 1)).take procMaxSegments ∧ Batched reserves c c₂ ∧
          (PassedOn c c₂ ↔ processed + segs.length ≤ procMaxSegments)) := by
  have hbudget := h.budget
  have htake := h.take_eq
  rw [recvs_eq _ h.inflight, h.came_eq]
  generalize hq : came t c₀.rxq n = q at htake ⊢
  have hlen : (q.take (min procMaxSegments q.length)).length = min procMaxSegments q.length := by
    rw [List.length_take]
    omega
  -- the rest of the budget is less than a whole batch
  have hcut : (q.take (min procMaxSegments q.length)).take (procMaxSegments - processed) =
      q.take (procMaxSegments - processed) := by
    rw [List.take_take, List.take_eq_take_iff]
    omega
  refine ⟨_, _, rfl, hlen, ?_⟩
  have hparse : Epoll.onSegments reserves record (c.parsed ++ q.take (procMaxSegments - processed)) { out := [] } =
      Epoll.onSegments reserves record (q.take (procMaxSegments - processed)) c.http := by
    rw [Epoll.onSegments_append, h.http]
    rfl
  cases hrest : Epoll.onSegments reserves record (q.take (procMaxSegments - processed)) c.http with
  | error z =>
    rw [← hcut] at hrest
    obtain ⟨hterm, hposted, hinflight⟩ := parse_error _ (c := { c with
      rxq := q.drop (min procMaxSegments q.length)
      arrived := c.arrived ++ segments (t.recvs n)
      taken := c.taken ++ q.take (min procMaxSegments q.length) }) hbudget hrest
    refine .inl ⟨hterm, ?_, hposted, hinflight.trans h.inflight⟩
    rw [hcut] at hrest
    rw [hrest, htake] at hparse
    have hraises : ¬∃ http, Epoll.onSegments reserves record
        (c₀.parsed ++ (upTo t c₀.rxq (n + 1)).take procMaxSegments) { out := [] } = .ok http := by
      rw [hparse]
      rintro ⟨http, hhttp⟩
      cases hhttp
    rw [parses_iff, not_not] at hraises
    obtain ⟨m, hasks, hrefused⟩ := hraises
    exact ⟨n, m, h.reached, hasks, hrefused⟩
  | ok http =>
    rw [← hcut] at hrest
    refine .inr ⟨_, parse_ok _ hbudget hrest, ?_, ?_, ⟨?_, ?_, ?_, h.inflight, h.running, rfl, ?_⟩, ?_⟩
    · simp
    · dsimp only
      rw [hcut, htake]
    · exact List.prefix_append ..
    · exact List.prefix_append ..
    · dsimp only
      rw [harrived, List.append_assoc, List.append_assoc, h.came_eq, hq, List.take_append_drop]
    · dsimp only
      rw [hcut] at hrest ⊢
      rw [hparse, hrest]
    · dsimp only
      generalize q.take (min procMaxSegments q.length) = segs
      constructor
      · rintro ⟨segs', htaken, hparsed⟩
        -- `segs` has not been cut
        have hwhole : segs = segs.take (procMaxSegments - processed) :=
          (List.append_cancel_left htaken).trans (List.append_cancel_left hparsed).symm
        have hle := congrArg List.length hwhole
        rw [List.length_take] at hle
        omega
      · intro hle
        exact ⟨segs, rfl, by rw [List.take_of_length_le (by omega)]⟩

/-- The batches raise something if a length is refused; otherwise they pass on what they take exactly if none goes
beyond the budget, and Recv completions only append. -/
theorem batches_spec : ∀ (fuel : Nat) {n processed : Nat} {c : Rx}, procMaxSegments - processed < fuel →
    Before reserves t c₀ n processed c → c.arrived = c.taken ++ c.rxq →
    ((batches reserves t fuel n processed c).2.terminated = true ∧ Refused reserves t c₀ ∧
      (batches reserves t fuel n processed c).2.posted = c.posted ∧
      (batches reserves t fuel n processed c).2.parseInflight = true) ∨
    (¬Refused reserves t c₀ ∧ Batched reserves c (batches reserves t fuel n processed c).2 ∧
      (PassedOn c (batches reserves t fuel n processed c).2 ↔ ¬Overflows t c₀.rxq))
  | 0, _, _, _, hfuel, _, _ => absurd hfuel (Nat.not_lt_zero _)
  | fuel + 1, n, processed, c, hfuel, h, harrived => by
    have hbudget := h.budget
    obtain ⟨segs, c₁, htake, hlen, hparse⟩ := batch_spec h harrived
    have htotal : (upTo t c₀.rxq (n + 1)).length = processed + (came t c₀.rxq n).length := by
      rw [upTo, List.length_append, h.total]
    unfold batches
    rw [htake]
    dsimp only
    rcases hparse with ⟨hterm, hrefused, hposted, hinflight⟩ | ⟨c₂, hparse, hleft, hparsed, hbatched, hpassed⟩
    · -- a batch that raises is not empty
      split
      · rename_i hempty
        rw [List.isEmpty_iff.mp hempty] at hterm hposted hinflight
        exact .inl ⟨hterm, hrefused, hposted, hinflight⟩
      · exact .inl ⟨hterm, hrefused, hposted, hinflight⟩
    · have hends : EndsAt t c₀.rxq n → ¬Refused reserves t c₀ ∧ Batched reserves c c₂ ∧
          (PassedOn c c₂ ↔ ¬Overflows t c₀.rxq) := fun hend => by
        refine ⟨hend.not_refused (hparsed ▸ hbatched.http), hbatched, hpassed.trans ?_⟩
        rw [hend.overflows_iff h.reached, htotal]
        rcases h.queue with ⟨rfl, -⟩ | ⟨hpos, hprocessed, -⟩
        · have hzero : processed = 0 := h.total.symm
          omega
        · omega
      rw [hparse]
      dsimp only
      split
      · rename_i hempty
        obtain rfl := List.isEmpty_iff.mp hempty
        obtain rfl : c₁ = c₂ := congrArg Prod.snd hparse
        have hcame : came t c₀.rxq n = [] := by
          simp only [List.length_nil] at hlen
          have hpos : 0 < procMaxSegments := by decide
          exact List.length_eq_zero_iff.mp (by omega)
        exact .inr (hends (.inl hcame))
      · rename_i hne
        rw [if_neg (by rw [hbatched.running]; exact Bool.false_ne_true)]
        split
        · exact .inr (hends (.inr (.inr (by omega))))
        · rename_i hmore
          split
          · rename_i hlate
            exact .inr (hends (.inr (.inl (by unfold InTime; omega))))
          · rename_i htime
            have hsegs : 0 < segs.length := List.length_pos_iff.mpr (mt List.isEmpty_iff.mpr hne)
            have hmin : min procMaxSegments (processed + segs.length) = processed + (came t c₀.rxq n).length := by omega
            rw [hmin] at hmore ⊢
            have hnext : Before reserves t c₀ (n + 1) (processed + (came t c₀.rxq n).length) c₂ := by
              refine ⟨hbatched.inflight, hbatched.running, htotal, ⟨fun j hj => ?_, by omega⟩,
                .inr ⟨Nat.succ_pos _, by omega, ?_⟩, ?_, hbatched.http⟩
              · rcases Nat.lt_succ_iff_lt_or_eq.mp hj with hj | rfl
                · exact h.reached.1 j hj
                · exact ⟨List.ne_nil_of_length_pos (by omega), by unfold InTime; omega⟩
              · exact List.length_eq_zero_iff.mp (by omega)
              · rw [hparsed, List.take_of_length_le (by omega)]
            rcases batches_spec fuel (by omega) hnext hbatched.arrived with
              ⟨hterm, hrefused, hposted, hinflight⟩ | ⟨hnone, hrest, hiff⟩
            · exact .inl ⟨hterm, hrefused, hposted.trans hbatched.posted, hinflight⟩
            · exact .inr ⟨hnone, hbatched.trans hrest,
                (PassedOn.iff_of (hpassed.mpr (by omega)) hrest.taken hrest.parsed).trans hiff⟩

/-! ## Tasks one after another -/

/-- A Process task is posted as long as one is needed, and only one. -/
structure Inv (reserves : Nat → Bool) (c : Rx) : Prop where
  running : c.terminated = false
  arrived : c.arrived = c.taken ++ c.rxq
  posted : c.posted = if c.parseInflight then 1 else 0
  waiting : c.rxq ≠ [] → c.parseInflight = true
  http : Epoll.onSegments reserves record c.parsed { out := [] } = .ok c.http

theorem Inv.recv (hc : c.Inv reserves) (hold : Option Bytes) : (c.recv hold).Inv reserves := by
  have happend : ∀ c : Rx, c.terminated = false → c.arrived = c.taken ++ c.rxq →
      (c.posted = if c.parseInflight then 1 else 0) →
      Epoll.onSegments reserves record c.parsed { out := [] } = .ok c.http →
      (if c.parseInflight then c else { c with parseInflight := true, posted := c.posted + 1 } : Rx).Inv reserves := by
    intro c hrunning harrived hposted hhttp
    split
    · rename_i hinflight
      exact ⟨hrunning, harrived, hposted, fun _ => hinflight, hhttp⟩
    · rename_i hquiet
      refine ⟨hrunning, harrived, ?_, fun _ => rfl, hhttp⟩
      rw [if_pos rfl, hposted, if_neg hquiet]
  unfold Rx.recv
  cases hold with
  | none => exact happend c hc.running hc.arrived hc.posted hc.http
  | some seg => exact happend _ hc.running (by simp [hc.arrived]) hc.posted hc.http

/-- What is done to all that has arrived when a task ends: it is taken out, or another task is posted; unless a length
has been refused. -/
theorem process_spec (hc : c.Inv reserves) (hposted : 0 < c.posted) (t : Schedule) :
    ((c.process reserves t).terminated = true ∧ Refused reserves t c ∧ (c.process reserves t).posted = 0 ∧
      (c.process reserves t).parseInflight = true) ∨
    (¬Refused reserves t c ∧ (c.process reserves t).Inv reserves ∧
      (PassedOn c (c.process reserves t) ↔ ¬Overflows t c.rxq) ∧
      ((c.process reserves t).rxq = [] ∧ (c.process reserves t).parseInflight = false ∨
        0 < (c.process reserves t).posted)) := by
  have hinflight : c.parseInflight = true := by
    by_contra hquiet
    rw [hc.posted, if_neg hquiet] at hposted
    exact Nat.lt_irrefl _ hposted
  have hnone : c.posted - 1 = 0 := by rw [hc.posted, if_pos hinflight]
  have hbefore : Before reserves t c 0 0 { c with posted := c.posted - 1 } :=
    ⟨hinflight, hc.running, rfl, ⟨fun j hj => absurd hj (Nat.not_lt_zero j), Nat.succ_pos 15⟩, .inl ⟨rfl, rfl⟩,
      (List.append_nil _).symm, hc.http⟩
  have hspec := batches_spec (procMaxSegments + 1) (by decide) hbefore hc.arrived
  unfold process
  generalize batches reserves t (procMaxSegments + 1) 0 0 { c with posted := c.posted - 1 } = r at hspec ⊢
  obtain ⟨n, c₁⟩ := r
  rcases hspec with ⟨hterm, hrefused, hposted₁, hinflight₁⟩ | ⟨hnorefuse, hbatched, hiff⟩
  · dsimp only at hterm ⊢
    rw [if_pos hterm]
    exact .inl ⟨hterm, hrefused, hposted₁.trans hnone, hinflight₁⟩
  · have hzero : c₁.posted = 0 := hbatched.posted.trans hnone
    have hinflight₁ : c₁.parseInflight = true := hbatched.inflight
    have hrunning : c₁.terminated = false := hbatched.running
    have hhttp : Epoll.onSegments reserves record c₁.parsed { out := [] } = .ok c₁.http := hbatched.http
    have harrived : c₁.arrived ++ segments (t.recvs n) = c₁.taken ++ (c₁.rxq ++ segments (t.recvs n)) := by
      rw [hbatched.arrived, List.append_assoc]
    dsimp only
    rw [if_neg (by rw [hrunning]; exact Bool.false_ne_true), recvs_eq _ hinflight₁]
    unfold finish
    dsimp only
    split
    · rename_i hempty
      rw [List.isEmpty_iff] at hempty
      exact .inr ⟨hnorefuse, ⟨hrunning, harrived, by simp [hzero], fun hne => absurd hempty hne, hhttp⟩, hiff,
        .inl ⟨hempty, rfl⟩⟩
    · exact .inr ⟨hnorefuse, ⟨hrunning, harrived, by simp [hzero, hinflight₁], fun _ => hinflight₁, hhttp⟩, hiff,
        .inr (Nat.succ_pos _)⟩

theorem step_cases {a : Action} (h : c.step reserves a = some c') : c.terminated = false ∧
    ((∃ hold, a = .recv hold ∧ c' = c.recv hold) ∨ ∃ t, a = .process t ∧ 0 < c.posted ∧ c' = c.process reserves t) := by
  unfold Rx.step at h
  split at h
  · cases h
  · rename_i hrunning
    refine ⟨by simpa using hrunning, ?_⟩
    cases a with
    | recv hold =>
      cases h
      exact .inl ⟨hold, rfl, rfl⟩
    | process t =>
      dsimp only at h
      split at h
      · rename_i hposted
        cases h
        exact .inr ⟨t, rfl, hposted, rfl⟩
      · cases h

/-- As long as the process runs, and when it has ended. -/
def Tasks (reserves : Nat → Bool) (c : Rx) : Prop := c.Inv reserves ∨ c.terminated = true ∧ c.posted = 0

theorem Tasks.step {a : Action} (hc : c.Tasks reserves) (hs : c.step reserves a = some c') : c'.Tasks reserves := by
  obtain ⟨hrunning, hs⟩ := step_cases hs
  rcases hc with hc | ⟨hterm, -⟩
  · rcases hs with ⟨hold, -, rfl⟩ | ⟨t, -, hposted, rfl⟩
    · exact .inl (hc.recv hold)
    · rcases process_spec hc hposted t with ⟨hterm, -, hzero, -⟩ | ⟨-, hinv, -⟩
      · exact .inr ⟨hterm, hzero⟩
      · exact .inl hinv
  · rw [hrunning] at hterm
    cases hterm

theorem inv_fresh (h : c.Fresh) : c.Inv reserves := by
  rw [Fresh] at h
  rw [h]
  exact ⟨rfl, rfl, rfl, fun hne => absurd rfl hne, rfl⟩

/-- A task whose batches stay within the budget, with lengths that are accepted. -/
def Within (reserves : Nat → Bool) (c : Rx) : Action → Prop
  | .recv _ => True
  | .process t => ¬Overflows t c.rxq ∧ ¬Refused reserves t c

/-- Where every task stays within its budget and no length is refused, all that has arrived is parsed in order, or
waits for a task. -/
theorem parsed_in_order (hs : Reach Fresh (step reserves) (Within reserves) c) :
    c.terminated = false ∧ c.arrived = c.parsed ++ c.rxq ∧ (c.rxq ≠ [] → 0 < c.posted) := by
  have hinv : c.Inv reserves ∧ c.parsed = c.taken := by
    refine Reach.invariant (I := fun c => c.Inv reserves ∧ c.parsed = c.taken)
      (fun c h => ⟨inv_fresh h, by rw [Fresh] at h; rw [h]⟩) (fun c a c' hI hok hs => ?_) c hs
    obtain ⟨hc, hsame⟩ := hI
    obtain ⟨-, ⟨hold, rfl, rfl⟩ | ⟨t, rfl, hposted, rfl⟩⟩ := step_cases hs
    · refine ⟨hc.recv hold, ?_⟩
      unfold Rx.recv
      cases hold <;> dsimp only <;> split <;> exact hsame
    · rcases process_spec hc hposted t with ⟨-, hrefused, -⟩ | ⟨-, hinv, hiff, -⟩
      · exact absurd hrefused hok.2
      · obtain ⟨segs, htaken, hpassed⟩ := hiff.mpr hok.1
        exact ⟨hinv, by rw [htaken, hpassed, hsame]⟩
  obtain ⟨hc, hsame⟩ := hinv
  refine ⟨hc.running, by rw [hsame, hc.arrived], fun hne => ?_⟩
  rw [hc.posted, if_pos (hc.waiting hne)]
  decide

/-- What is promised of a task: it passes on what it takes, in the order of arrival, and ends only with an empty queue
or with another task posted. -/
structure Kept (c c' : Rx) : Prop where
  passedOn : PassedOn c c'
  arrived : c'.arrived = c'.taken ++ c'.rxq
  ended : c'.rxq = [] ∧ c'.parseInflight = false ∨ 0 < c'.posted

/-- A task drops nothing: exactly if none of its batches goes beyond the budget, and no length is refused. -/
theorem process_keeps_iff (hs : Reach Fresh (step reserves) (fun _ _ => True) c) (hposted : 0 < c.posted)
    (t : Schedule) : Kept c (c.process reserves t) ↔ ¬Overflows t c.rxq ∧ ¬Refused reserves t c := by
  have htasks : c.Tasks reserves :=
    Reach.invariant (fun _ h => .inl (inv_fresh h)) (fun _ _ _ hc _ => hc.step) c hs
  rcases htasks with hc | ⟨-, hzero⟩
  · rcases process_spec hc hposted t with ⟨-, hrefused, hzero, hinflight⟩ | ⟨hnone, hinv, hiff, hended⟩
    · refine ⟨fun hkept => ?_, fun h => absurd hrefused h.2⟩
      rcases hkept.ended with ⟨-, hquiet⟩ | hposted'
      · rw [hinflight] at hquiet
        cases hquiet
      · rw [hzero] at hposted'
        cases hposted'
    · exact ⟨fun hkept => ⟨hiff.mp hkept.passedOn, hnone⟩, fun h => ⟨hiff.mpr h.1, hinv.arrived, hended⟩⟩
  · rw [hzero] at hposted
    cases hposted

/-- While the first batch is parsed, `k` segments come. -/
def later (k : Nat) : Schedule where
  recvs n := if n = 1 then List.replicate k (some [65]) else []
  clock _ := 0

theorem reach_one (reserves : Nat → Bool) : Reach Fresh (step reserves) (fun _ _ => True) (recv {} (some [65])) :=
  .next (a := .recv (some [65])) (.start rfl) trivial rfl

theorem process_keeps_fifteen :
    Kept (recv {} (some [65])) (process (fun n => n < 2 ^ 62) (recv {} (some [65])) (later 15)) ↔
      ¬Overflows (later 15) [[65]] ∧ ¬Refused (fun n => n < 2 ^ 62) (later 15) (recv {} (some [65])) :=
  process_keeps_iff (reach_one _) (by decide) (later 15)

/-- A head that announces a length of `2 ^ 64 - 1`, and another segment. -/
def refused : List (Option Bytes) := [some (ascii "GET / HTTP/1.1\r\nContent-Length: -1\r\n\r\n"), some [65]]

/-- The sixteenth of the segments that come later is taken, and dropped, though every length is accepted. A segment
that is taken with one that raises is never passed on, and no task is posted for what comes after it. -/
theorem process_drops :
    (¬∀ (c : Rx) (t : Schedule), Reach Fresh (step fun _ => true) (fun _ _ => True) c → 0 < c.posted →
      Kept c (c.process (fun _ => true) t)) ∧
    ∃ c : Rx, Reach Fresh (step fun n => n < 2 ^ 62) (fun _ _ => True) c ∧ c.rxq.length = 2 ∧ c.posted = 1 ∧
      ¬Kept c (c.process (fun n => n < 2 ^ 62) (later 0)) ∧
      (c.process (fun n => n < 2 ^ 62) (later 0)).taken.length = 2 ∧
      (c.process (fun n => n < 2 ^ 62) (later 0)).parsed.length = 1 ∧
      (c.process (fun n => n < 2 ^ 62) (later 0)).posted = 0 := by
  refine ⟨fun h => ?_, recvs {} refused, ?_, rfl, rfl, fun hkept => ?_, ?_⟩
  · obtain ⟨segs, htaken, hparsed⟩ := (h _ (later 16) (reach_one _) (by decide)).passedOn
    have hlost : ((process (fun _ => true) (recv {} (some [65])) (later 16)).taken.length,
        (process (fun _ => true) (recv {} (some [65])) (later 16)).parsed.length) = (17, 16) := by decide +kernel
    have hlen := congrArg List.length htaken
    have hlen' := congrArg List.length hparsed
    obtain ⟨htaken17, hparsed16⟩ := Prod.mk.inj hlost
    rw [htaken17] at hlen
    rw [hparsed16] at hlen'
    exact absurd (hlen.trans hlen'.symm) (by decide)
  · exact .next (a := .recv (some [65])) (.next (a := .recv refused.head!) (.start rfl) trivial rfl) trivial rfl
  · have hended : (process (fun n => n < 2 ^ 62) (recvs {} refused) (later 0)).parseInflight = true ∧
        (process (fun n => n < 2 ^ 62) (recvs {} refused) (later 0)).posted = 0 := by decide +kernel
    rcases hkept.ended with ⟨-, hquiet⟩ | hposted
    · rw [hended.1] at hquiet
      cases hquiet
    · rw [hended.2] at hposted
      cases hposted
  · decide +kernel

end Rx

end IOContext.Iocp
