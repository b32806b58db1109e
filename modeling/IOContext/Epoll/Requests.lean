import IOContext.Epoll.RequestContext
import IOContext.Http.Framing
import IOContext.Http.Grammar

/-!
# The epoll server: one response request per request

The parser takes the start line off with its CRLF and then looks for CRLFCRLF. Behind a header line the CRLF of that
line is still there; behind the start line it is not, so that a request without header lines is taken to end with the
next one.

- What the parser reads of a rendered request (`parseRequestLine_render`, `headerLoop_lines`, `find_blank_line`); a
  request with a header line is taken off as a whole (`request_taken`).
- A parser that has missed the end of a request does not catch up (`no_catch_up`), whatever the bodies hold.
- One request for a response per request: exactly if each has a header line and a length that is accepted
  (`one_each_iff`).
-/

namespace IOContext.Epoll

open Search WireRequest

variable {reserves : Nat → Bool} {r : WireRequest} {rs : List WireRequest} {t : Bytes}

/-! ## Lines -/

/-- Lines, each with its CRLF. -/
def lineBytes (ls : List Bytes) : Bytes := ls.flatMap fun l => l ++ [CR, LF]

/-- Neither empty, nor with a CR. -/
def Line (l : Bytes) : Prop := l ≠ [] ∧ ∀ b ∈ l, b ≠ CR

/-- The first blank line is the one behind the last of the lines, whatever follows. -/
theorem find_blank_line {ls : List Bytes} (hne : ls ≠ []) (hls : ∀ l ∈ ls, Line l) (t : Bytes) :
    ∃ k, findDoubleCrlf (lineBytes ls ++ [CR, LF] ++ t) = some k ∧ k + 2 = (lineBytes ls).length := by
  induction ls with
  | nil => exact absurd rfl hne
  | cons l ls ih =>
    obtain ⟨-, hcr⟩ := hls l List.mem_cons_self
    cases ls with
    | nil =>
      have hbytes : lineBytes [l] ++ [CR, LF] ++ t = l ++ ([CR, LF, CR, LF] ++ t) := by simp [lineBytes]
      refine ⟨l.length, ?_, by simp [lineBytes]⟩
      rw [hbytes]
      exact find_first hcr t
    | cons l' ls =>
      obtain ⟨k, hk, hlen⟩ := ih (List.cons_ne_nil _ _) fun l hl => hls l (List.mem_cons_of_mem _ hl)
      obtain ⟨hne', hcr'⟩ := hls l' (List.mem_cons_of_mem _ List.mem_cons_self)
      obtain ⟨c, l', rfl⟩ := List.exists_cons_of_ne_nil hne'
      have hc : c ≠ CR := hcr' c List.mem_cons_self
      generalize hrest : lineBytes ((c :: l') :: ls) ++ [CR, LF] ++ t = rest at hk
      obtain ⟨rest', hrest'⟩ : ∃ rest', rest = c :: rest' := ⟨_, by rw [← hrest]; simp [lineBytes]; rfl⟩
      have hbytes : lineBytes (l :: (c :: l') :: ls) ++ [CR, LF] ++ t = l ++ CR :: LF :: rest := by
        rw [← hrest]
        simp [lineBytes]
      have hcrlf : ∀ v, CR :: LF :: rest ≠ [CR, LF, CR, LF] ++ v := by
        intro v h
        rw [hrest'] at h
        exact hc (List.cons.inj (List.cons.inj (List.cons.inj h).2).2).1
      have hlf : ∀ v, LF :: rest ≠ [CR, LF, CR, LF] ++ v :=
        fun v h => absurd (List.cons.inj h).1 (by decide)
      refine ⟨k + 1 + 1 + l.length, ?_, ?_⟩
      · rw [findDoubleCrlf] at hk ⊢
        rw [hbytes, find_skip hcr, find_cons hcrlf rfl, find_cons hlf rfl, hk]
        rfl
      · simp only [lineBytes, List.flatMap_cons, List.length_append, List.length_cons, List.length_nil] at hlen ⊢
        omega

def headerLine (h : Bytes × Bytes) : Bytes := h.1 ++ [COLON] ++ h.2

theorem headers_lineBytes (hs : List (Bytes × Bytes)) : hs.flatMap renderHeader = lineBytes (hs.map headerLine) := by
  rw [lineBytes, List.flatMap_map]
  rfl

def startLine (r : WireRequest) : Bytes := r.method ++ [SP] ++ (r.path ++ [SP]) ++ r.protocol

/-- What comes before the body. -/
def head (r : WireRequest) : Bytes := lineBytes (startLine r :: r.headers.map headerLine) ++ [CR, LF]

theorem render_eq_head (r : WireRequest) : r.render = head r ++ r.body := by
  simp [render, head, headers_lineBytes, lineBytes, startLine]

theorem startLine_line (r : WireRequest) : Line (startLine r) := by
  refine ⟨by simp [startLine], fun b hb => ?_⟩
  simp only [startLine, List.mem_append, List.mem_singleton] at hb
  rcases hb with ((hb | rfl) | hb | rfl) | hb
  · exact (r.method_free b hb).2.1
  · decide
  · exact (r.path_free b hb).2.1
  · decide
  · exact (r.protocol_free b hb).1

theorem headerLine_line {h : Bytes × Bytes} (hh : h ∈ r.headers) : Line (headerLine h) := by
  refine ⟨by simp [headerLine], fun b hb => ?_⟩
  simp only [headerLine, List.mem_append, List.mem_singleton] at hb
  rcases hb with (hb | rfl) | hb
  · exact (r.names_free h hh b hb).2.1
  · decide
  · exact (r.values_free h hh b hb).1

theorem lines_line (r : WireRequest) : ∀ l ∈ startLine r :: r.headers.map headerLine, Line l := by
  intro l hl
  rcases List.mem_cons.mp hl with rfl | hl
  · exact startLine_line r
  · obtain ⟨h, hh, rfl⟩ := List.mem_map.mp hl
    exact headerLine_line hh

/-- The head of a request begins with neither CR nor LF. -/
theorem head_first {c : UInt8} {p : Bytes} (h : head r = c :: p) : c ∉ [CR, LF, CR, LF] := by
  have hc : c ≠ CR ∧ c ≠ LF := by
    unfold head lineBytes startLine at h
    cases hm : r.method with
    | nil =>
      rw [hm] at h
      rw [← (List.cons.inj h).1]
      decide
    | cons m ms =>
      rw [hm] at h
      rw [← (List.cons.inj h).1]
      exact (r.method_free m (by rw [hm]; exact List.mem_cons_self)).2
  simp [hc]

/-- The head of a request ends with the only blank line in it. -/
theorem head_blank_line (r : WireRequest) {p q : Bytes} (h : head r = p ++ q) (hq : q ≠ []) :
    ¬[CR, LF, CR, LF] <:+: p := by
  rintro ⟨u, v, huv⟩
  obtain ⟨k, hk, hlen⟩ := find_blank_line (List.cons_ne_nil _ _) (lines_line r) []
  rw [List.append_nil] at hk
  obtain ⟨-, hfirst⟩ := find_eq_some_iff.mp hk
  have hle := hfirst u (v ++ q) (by rw [← head, h, ← huv]; simp)
  have hlen' := congrArg List.length h
  have hpos := List.length_pos_iff.mpr hq
  rw [← huv] at hlen'
  simp only [head, List.length_append, List.length_cons, List.length_nil] at hlen' hle
  omega

/-! ## The start line -/

theorem parseRequestLine_render (r : WireRequest) (req : Request) : parseRequestLine (startLine r) req =
    some { req with method := r.method, path := r.path, protocol := r.protocol } := by
  have hp1 : find [SP] (startLine r) = some r.method.length := by
    have hline : startLine r = r.method ++ ([SP] ++ (r.path ++ [SP] ++ r.protocol)) := by simp [startLine]
    rw [hline]
    exact find_first (fun b hb => (r.method_free b hb).1) _
  have hrest : (startLine r).drop (r.method.length + 1) = r.path ++ ([SP] ++ r.protocol) := by simp [startLine]
  have hp2 : findFrom [SP] (startLine r) (r.method.length + 1) = some (r.method.length + 1 + r.path.length) := by
    rw [findFrom, hrest, find_first fun b hb => (r.path_free b hb).1]
    rfl
  have hlen : (startLine r).length = r.method.length + 1 + (r.path.length + 1) + r.protocol.length := by
    simp only [startLine, List.length_append, List.length_cons, List.length_nil]
  have hmethod : substr (startLine r) 0 r.method.length = some r.method := by
    rw [substr, if_pos (Nat.zero_le _)]
    simp [startLine]
  have hpath : substr (startLine r) (r.method.length + 1) (r.method.length + 1 + r.path.length - r.method.length - 1) =
      some r.path := by
    have hn : r.method.length + 1 + r.path.length - r.method.length - 1 = r.path.length := by omega
    rw [substr, if_pos (by omega), hrest, hn]
    simp
  have hprotocol : substr (startLine r) (r.method.length + 1 + r.path.length + 1) (startLine r).length =
      some r.protocol := by
    have hdrop : (startLine r).drop (r.method.length + 1 + r.path.length + 1) = r.protocol := by
      rw [Nat.add_assoc, ← List.drop_drop, hrest]
      simp
    rw [substr, if_pos (by omega), hdrop, List.take_of_length_le (by omega)]
  simp [parseRequestLine, hp1, hp2, hmethod, hpath, hprotocol]

/-! ## The headers -/

/-- A value without the blanks before it. -/
def trimmed (v : Bytes) : Bytes := v.dropWhile isBlank

/-- One turn for one header line. -/
theorem headerLoop_line {block rest : Bytes} {h : Bytes × Bytes} {start : Nat}
    (hblock : block.drop start = renderHeader h ++ rest) (hname : ∀ b ∈ h.1, b ≠ COLON ∧ b ≠ CR)
    (hvalue : ∀ b ∈ h.2, b ≠ CR) (fuel : Nat) (hs : Headers) : headerLoop block (fuel + 1) start hs =
      headerLoop block fuel (start + (renderHeader h).length) (hs.emplace h.1 (trimmed h.2)) := by
  obtain ⟨n, v⟩ := h
  have hat : ∀ i, block.drop (start + i) = (renderHeader (n, v) ++ rest).drop i := fun i => by
    rw [← List.drop_drop, hblock]
  have hlen : start + (n.length + 1 + v.length + 2) ≤ block.length := by
    have hlen := congrArg List.length hblock
    simp only [renderHeader, List.length_drop, List.length_append, List.length_cons, List.length_nil] at hlen
    omega
  have hstop : findFrom [CR, LF] block start = some (start + (n.length + 1 + v.length)) := by
    have hline : renderHeader (n, v) ++ rest = (n ++ [COLON] ++ v) ++ ([CR, LF] ++ rest) := by simp [renderHeader]
    have hcr : ∀ b ∈ n ++ [COLON] ++ v, b ≠ CR := by
      intro b hb
      rcases List.mem_append.mp hb with hb | hb
      · rcases List.mem_append.mp hb with hb | hb
        · exact (hname b hb).2
        · rw [List.mem_singleton.mp hb]
          decide
      · exact hvalue b hb
    have hlen' : (n ++ [COLON] ++ v).length = n.length + 1 + v.length := by
      simp only [List.length_append, List.length_cons, List.length_nil]
    rw [findFrom, hblock, hline, find_first hcr, hlen']
    rfl
  have hcolon : findFrom [COLON] block start = some (start + n.length) := by
    have hline : renderHeader (n, v) ++ rest = n ++ ([COLON] ++ (v ++ [CR, LF] ++ rest)) := by simp [renderHeader]
    rw [findFrom, hblock, hline, find_first fun b hb => (hname b hb).1]
    rfl
  have hk : substr block start n.length = some n := by
    rw [substr, if_pos (by omega), hblock]
    simp [renderHeader]
  have hv : block.drop (start + n.length + 1) = v ++ ([CR, LF] ++ rest) := by
    rw [Nat.add_assoc, hat]
    simp [renderHeader]
  -- the value, cut where its blanks end
  have hsplit := List.takeWhile_append_dropWhile (p := isBlank) (l := v)
  have hblanks : skipBlanks block (start + n.length + 1) (start + (n.length + 1 + v.length)) =
      start + n.length + 1 + (v.takeWhile isBlank).length := by
    have hsub : start + (n.length + 1 + v.length) - (start + n.length + 1) = v.length := by omega
    rw [skipBlanks, List.drop_take, hv, hsub, List.take_left]
  have hval : substr block (start + n.length + 1 + (v.takeWhile isBlank).length)
      (start + (n.length + 1 + v.length) -
        (start + n.length + 1 + (v.takeWhile isBlank).length)) = some (trimmed v) := by
    have hsum := congrArg List.length hsplit
    rw [List.length_append] at hsum
    have hsub : start + (n.length + 1 + v.length) -
        (start + n.length + 1 + (v.takeWhile isBlank).length) = (trimmed v).length := by
      unfold trimmed
      omega
    have hcut : v ++ ([CR, LF] ++ rest) =
        (v.takeWhile isBlank) ++ (trimmed v ++ ([CR, LF] ++ rest)) := by
      rw [trimmed, ← List.append_assoc (List.takeWhile _ v), hsplit]
    rw [substr, if_pos (by omega), ← List.drop_drop, hv, hsub, hcut, List.drop_left, List.take_left]
  have hnext : start + (n.length + 1 + v.length) + 2 = start + (renderHeader (n, v)).length := by
    simp [renderHeader]
    omega
  have hlt : start + n.length < start + (n.length + 1 + v.length) := by omega
  have hgt : ¬block.length ≤ start := by omega
  simp [headerLoop, hstop, hcolon, hk, hblanks, hval, hnext, hlt, hgt]

/-- The loop stores the header lines one after another. -/
theorem headerLoop_lines {block : Bytes} : ∀ (ls : List (Bytes × Bytes)) {start fuel : Nat} (hs : Headers),
    block.drop start = ls.flatMap renderHeader → (∀ h ∈ ls, (∀ b ∈ h.1, b ≠ COLON ∧ b ≠ CR) ∧ ∀ b ∈ h.2, b ≠ CR) →
    ls.length < fuel →
    headerLoop block fuel start hs = some (ls.foldl (fun hs h => hs.emplace h.1 (trimmed h.2)) hs)
  | _, _, 0, _, _, _, hfuel => absurd hfuel (Nat.not_lt_zero _)
  | [], start, fuel + 1, hs, hblock, _, _ => by
    have hend : block.length ≤ start := List.drop_eq_nil_iff.mp hblock
    simp [headerLoop, hend]
  | h :: ls, start, fuel + 1, hs, hblock, hls, hfuel => by
    have hfree := hls h List.mem_cons_self
    have hline : block.drop start = renderHeader h ++ ls.flatMap renderHeader := hblock
    rw [headerLoop_line hline hfree.1 hfree.2, List.foldl_cons]
    refine headerLoop_lines ls _ ?_ (fun h hh => hls h (List.mem_cons_of_mem _ hh)) (Nat.lt_of_succ_lt_succ hfuel)
    rw [← List.drop_drop, hblock, List.flatMap_cons, List.drop_left]

theorem length_le_headers (ls : List (Bytes × Bytes)) : ls.length ≤ (ls.flatMap renderHeader).length := by
  induction ls with
  | nil => exact Nat.zero_le _
  | cons h ls ih =>
    simp only [List.flatMap_cons, renderHeader, List.length_append, List.length_cons, List.length_nil]
    omega

/-- Where `std::stoull` returns, `std::strtoull` returns the same. -/
theorem strtoull_of_stoull {s : Bytes} {v : UInt64} (h : stoull s = some v) : strtoull s = v.toNat := by
  have hvalue : ∀ (neg : Bool) (ds : Bytes), (if ds = [] then none
      else if decimal ds < 2 ^ 64 then some (if neg then -(UInt64.ofNat (decimal ds)) else UInt64.ofNat (decimal ds))
      else none) = some v →
      (if 2 ^ 64 ≤ decimal ds then 2 ^ 64 - 1 else if neg then (2 ^ 64 - decimal ds) % 2 ^ 64 else decimal ds) =
        v.toNat := by
    intro neg ds h
    split at h
    · cases h
    · split at h
      · rename_i hlt
        rw [if_neg (by omega), ← Option.some.inj h]
        cases neg with
        | false => exact (UInt64.toNat_ofNat_of_lt' hlt).symm
        | true => simp [UInt64.toNat_neg, UInt64.toNat_ofNat_of_lt' hlt]
      · cases h
  unfold stoull at h
  unfold strtoull
  exact hvalue _ _ h

theorem strtoull_trimmed (v : Bytes) : strtoull (trimmed v) = strtoull v := by
  have hdrop : (trimmed v).dropWhile isSpace = v.dropWhile isSpace := by
    unfold trimmed
    induction v with
    | nil => rfl
    | cons b v ih =>
      by_cases hb : isBlank b = true
      · have hspace : isSpace b = true := by
          simp only [isBlank, Bool.or_eq_true, beq_iff_eq] at hb
          rcases hb with rfl | rfl <;> decide
        rw [List.dropWhile_cons_of_pos hb, ih, List.dropWhile_cons_of_pos hspace]
      · rw [List.dropWhile_cons_of_neg hb]
  unfold strtoull
  rw [hdrop]

theorem lookup_trimmed (ls : List (Bytes × Bytes)) (name : Bytes) :
    (ls.foldl (fun hs h => Headers.emplace hs h.1 (trimmed h.2)) []).lookup name = (ls.lookup name).map trimmed := by
  have hmap : ls.foldl (fun hs h => Headers.emplace hs h.1 (trimmed h.2)) [] =
      (ls.map fun h => (h.1, trimmed h.2)).foldl (fun hs h => Headers.emplace hs h.1 h.2) [] := by
    rw [List.foldl_map]
  rw [hmap, Headers.lookup_foldl, List.lookup_nil, Option.none_or]
  clear hmap
  induction ls with
  | nil => rfl
  | cons h ls ih =>
    rw [List.map_cons, List.lookup_cons, List.lookup_cons]
    cases name == h.1 with
    | true => rfl
    | false => exact ih

/-- The length that a framed request announces. -/
theorem announced_length (hr : r.Framed) : (match (r.headers.lookup (ascii "Content-Length")).map trimmed with
    | some v => strtoull v
    | none => 0) = r.body.length := by
  have hlookup := r.toRequest_holds.headers (ascii "Content-Length")
  rcases hr with ⟨hnone, hbody⟩ | ⟨hsome, hlen, blanks, hblanks, hvalue⟩
  · have hno : r.toRequest.headers.lookup (ascii "Content-Length") = none := by
      rw [List.lookup_eq_none_iff]
      intro h hh
      have hne := mt (Headers.contains_iff _ _).mpr (by rw [hnone]; exact Bool.false_ne_true)
      simpa using fun heq : ascii "Content-Length" = h.1 => hne (heq ▸ List.mem_map_of_mem hh)
    rw [← hlookup, hno, hbody]
    rfl
  · cases hv : r.headers.lookup (ascii "Content-Length") with
    | none =>
      rw [hv] at hlookup
      obtain ⟨h, hh, hname⟩ := List.mem_map.mp ((Headers.contains_iff _ _).mp hsome)
      have hno := List.lookup_eq_none_iff.mp hlookup h hh
      rw [hname] at hno
      simp at hno
    | some v =>
      rw [Headers.get, hlookup, hv, Option.getD_some] at hvalue
      rw [Option.map_some]
      dsimp only
      rw [strtoull_trimmed, hvalue, strtoull_of_stoull (stoull_toDecimal hblanks hlen), UInt64.toNat_ofNat_of_lt' hlen]

/-- Whether a request keeps the connection: its `Connection` header, if it has one, does not say `close`. -/
def keepsAlive (r : WireRequest) : Bool :=
  match r.headers.lookup (ascii "Connection") with
  | some v => (find (ascii "close") (v.map toLower)).isNone
  | none => true

theorem close_trimmed (v : Bytes) :
    (find (ascii "close") ((trimmed v).map toLower)).isNone = (find (ascii "close") (v.map toLower)).isNone := by
  have hc : ascii "close" = 99 :: ascii "lose" := by decide +kernel
  have hblanks : ∀ b ∈ (v.takeWhile isBlank).map toLower, b ≠ 99 := by
    intro b hb
    obtain ⟨a, ha, rfl⟩ := List.mem_map.mp hb
    have hblank := List.mem_takeWhile_imp ha
    simp only [isBlank, Bool.or_eq_true, beq_iff_eq] at hblank
    rcases hblank with rfl | rfl <;> decide
  have hsplit : v.map toLower = (v.takeWhile isBlank).map toLower ++ (trimmed v).map toLower := by
    rw [trimmed, ← List.map_append, List.takeWhile_append_dropWhile]
  rw [hsplit, hc, find_skip hblanks, Option.isNone_map]

/-- The `keep_alive` that a request announces. -/
theorem announced_keepAlive (r : WireRequest) : (match (r.headers.lookup (ascii "Connection")).map trimmed with
    | some v => (find (ascii "close") (v.map toLower)).isNone
    | none => true) = keepsAlive r := by
  unfold keepsAlive
  cases r.headers.lookup (ascii "Connection") with
  | none => rfl
  | some v => exact close_trimmed v

theorem parseHeaders_render (hr : r.Framed) {req : Request} (hreq : req.headers = []) : ∃ hs,
    parseHeaders (r.headers.flatMap renderHeader) req =
      some ({ req with headers := hs }, keepsAlive r, r.body.length) := by
  have hfree : ∀ h ∈ r.headers, (∀ b ∈ h.1, b ≠ COLON ∧ b ≠ CR) ∧ ∀ b ∈ h.2, b ≠ CR := fun h hh =>
    ⟨fun b hb => ⟨(r.names_free h hh b hb).1, (r.names_free h hh b hb).2.1⟩, fun b hb => (r.values_free h hh b hb).1⟩
  have hloop : headerLoop (r.headers.flatMap renderHeader) ((r.headers.flatMap renderHeader).length + 1) 0 [] = _ :=
    headerLoop_lines r.headers [] rfl hfree (Nat.lt_succ_of_le (length_le_headers r.headers))
  have hlength := announced_length hr
  have hkeep := announced_keepAlive r
  rw [← lookup_trimmed] at hlength hkeep
  unfold parseHeaders
  rw [hreq, hloop]
  exact ⟨_, by rw [← hlength, ← hkeep]; rfl⟩

/-! ## Requests one after another -/

/-- A responder that records the requests. -/
def record (req : Request) (_ : Bool) (out : List Request) : List Request := out ++ [req]

/-- Between two requests: `t` is still to be parsed. -/
structure Between {σ : Type*} (x : Parse σ) (t : Bytes) : Prop where
  state : x.http.state = .startLine
  acc : x.http.acc = t
  req : x.req = {}

/-- What a responder is to see of a request. -/
def seen (q : Request) : Bytes × Bytes × Bytes := (q.method, q.path, q.body)

/-- Each segmentation of the requests makes the parser ask for one response each, in order. -/
def OneEach (reserves : Nat → Bool) (rs : List WireRequest) : Prop :=
  ∀ segs : List Bytes, segs.flatten = renderAll rs → ∃ y, onSegments reserves record segs { out := [] } = .ok y ∧
    y.out.map seen = rs.map fun r => seen r.toRequest

section Taking

variable {σ : Type*} {respond : Request → Bool → σ → σ} {x y : Parse σ} {res : Except (Parse σ) (Parse σ)}

variable (reserves) in
/-- The start line of a request is taken off, with its CRLF. -/
theorem turn_startLine (hx : Between x (r.render ++ t)) : ∃ x₁, turn reserves respond x = .next x₁ ∧
    x₁.http.state = .headers ∧ x₁.http.acc = lineBytes (r.headers.map headerLine) ++ [CR, LF] ++ (r.body ++ t) ∧
    x₁.req = { method := r.method, path := r.path, protocol := r.protocol } ∧ x₁.out = x.out := by
  have hacc : x.http.acc = startLine r ++ ([CR, LF] ++
      (lineBytes (r.headers.map headerLine) ++ [CR, LF] ++ (r.body ++ t))) := by
    rw [hx.acc, render_eq_head]
    simp [head, lineBytes]
  have hfind : find [CR, LF] x.http.acc = some (startLine r).length := by
    rw [hacc, find_first (startLine_line r).2]
  have htake : x.http.acc.take (startLine r).length = startLine r := by rw [hacc, List.take_left]
  have hdrop : x.http.acc.drop ((startLine r).length + 2) =
      lineBytes (r.headers.map headerLine) ++ [CR, LF] ++ (r.body ++ t) := by
    rw [hacc, ← List.drop_drop, List.drop_left]
    rfl
  have hturn : turn reserves respond x = .next { x with
      http := { x.http with state := .headers, acc := x.http.acc.drop ((startLine r).length + 2) }
      req := { x.req with method := r.method, path := r.path, protocol := r.protocol } } := by
    simp only [turn, hx.state, startLineStage, hfind, htake, parseRequestLine_render]
  exact ⟨_, hturn, rfl, hdrop, by rw [hx.req], rfl⟩

variable (reserves) in
/-- A request with a header line: its headers are read, and then its length is accepted or not. -/
theorem turn_headers (hr : r.Framed) (hh : r.headers ≠ []) (hs : x.http.state = .headers)
    (hacc : x.http.acc = lineBytes (r.headers.map headerLine) ++ [CR, LF] ++ (r.body ++ t))
    (hreq : x.req.headers = []) :
    ∃ hs, turn reserves respond x =
      if reserves r.body.length then .next { x with
        http := ⟨.body, r.body ++ t, r.body.length, keepsAlive r⟩, req := { x.req with headers := hs, body := [] } }
      else .throw { x with
        http := { x.http with acc := r.body ++ t, keepAlive := keepsAlive r }
        req := { x.req with headers := hs, body := [] } } := by
  have hls : ∀ l ∈ r.headers.map headerLine, Line l := fun l hl => lines_line r l (List.mem_cons_of_mem _ hl)
  obtain ⟨k, hk, hlen⟩ := find_blank_line (by simpa using hh) hls (r.body ++ t)
  rw [← hacc] at hk
  have htake : x.http.acc.take (k + 2) = r.headers.flatMap renderHeader := by
    rw [hacc, hlen, List.append_assoc, List.take_left, headers_lineBytes]
  have hdrop : x.http.acc.drop (k + 4) = r.body ++ t := by
    have hfour : k + 4 = (lineBytes (r.headers.map headerLine) ++ [CR, LF]).length := by
      rw [List.length_append, ← hlen]
      rfl
    rw [hacc, hfour, List.drop_left]
  obtain ⟨hs', hparse⟩ := parseHeaders_render hr hreq
  refine ⟨hs', ?_⟩
  simp only [turn, hs, headersStage, hk, htake, hdrop, hparse]

/-- The body is taken off, and the request goes to the responder. -/
theorem turn_body {body : Bytes} (hs : x.http.state = .body) (hacc : x.http.acc = body ++ t)
    (hn : x.http.bodyBytesNeeded = body.length) (hb : x.req.body = []) : turn reserves respond x =
    .next { http := ⟨.startLine, t, 0, x.http.keepAlive⟩
            req := {}
            out := respond { x.req with body := body } x.http.keepAlive x.out } := by
  simp [turn, hs, bodyStage, hn, hacc, hb]

/-- A framed request that has a header line, and a length that is accepted, is taken off as a whole. -/
theorem request_taken (hr : r.Framed) (hh : r.headers ≠ []) (hres : reserves r.body.length = true)
    (hx : Between x (r.render ++ t)) : ∃ x' req, Between x' t ∧ x'.out = respond req (keepsAlive r) x.out ∧
      seen req = seen r.toRequest ∧
      ∀ res, Ends reserves respond x res ↔ Ends reserves respond x' res := by
  obtain ⟨x₁, h1, hs1, hacc1, hreq1, hout1⟩ := turn_startLine reserves hx
  obtain ⟨hs, h2⟩ := turn_headers reserves hr hh hs1 hacc1 (by rw [hreq1])
  rw [if_pos hres] at h2
  exact ⟨_, _, ⟨rfl, rfl, rfl⟩, by rw [hout1], by rw [hreq1]; rfl, fun res =>
    (ends_next_iff h1).trans ((ends_next_iff h2).trans (ends_next_iff (turn_body rfl rfl rfl rfl)))⟩

/-- A length that is not accepted raises an exception. -/
theorem request_refused (hr : r.Framed) (hh : r.headers ≠ []) (hres : reserves r.body.length = false)
    (hx : Between x (r.render ++ t)) : ¬Ends reserves respond x (.ok y) := by
  obtain ⟨x₁, h1, hs1, hacc1, hreq1, hout1⟩ := turn_startLine reserves hx
  obtain ⟨hs, h2⟩ := turn_headers reserves hr hh hs1 hacc1 (by rw [hreq1])
  rw [if_neg (by rw [hres]; exact Bool.false_ne_true)] at h2
  intro h
  cases ((ends_next_iff h1).mp h).unique (.throw h2)

end Taking

/-! ## Requests that are asked for -/

variable {x y : Parse (List Request)}

/-- Requests are only added to those asked for. -/
theorem out_prefix (h : Ends reserves record x (.ok y)) : x.out <+: y.out :=
  h.out (fun _ _ _ hs => hs.trans (List.prefix_append ..)) List.prefix_rfl

/-- The next request that is asked for: a start line, a head that ends with a blank line, and the body. -/
theorem next_request (hs : x.http.state = .startLine) (h : Ends reserves record x (.ok y)) : y.out = x.out ∨
    ∃ eol hdrEnd req x', find [CR, LF] x.http.acc = some eol ∧
      findDoubleCrlf (x.http.acc.drop (eol + 2)) = some hdrEnd ∧ x'.http.state = .startLine ∧
      x'.out = x.out ++ [req] ∧ (x.http.acc.drop (eol + 2)).drop (hdrEnd + 4) = req.body ++ x'.http.acc ∧
      Ends reserves record x' (.ok y) := by
  cases h with
  | wait ht =>
    rw [turn, hs] at ht
    rw [startLineStage_wait ht]
    exact .inl rfl
  | next ht h =>
    rw [turn, hs] at ht
    obtain ⟨eol, req₁, heol, -, rfl⟩ := startLineStage_next ht
    cases h with
    | wait ht =>
      rw [headersStage_wait ht]
      exact .inl rfl
    | next ht h =>
      obtain ⟨hdrEnd, req₂, keepAlive, contentLen, hhdr, -, -, rfl⟩ := headersStage_next ht
      cases h with
      | wait ht =>
        obtain ⟨-, rfl⟩ := bodyStage_wait ht
        exact .inl rfl
      | next ht h =>
        obtain ⟨hle, rfl⟩ := bodyStage_next ht
        exact .inr ⟨eol, hdrEnd, _, _, heol, hhdr, rfl, rfl, by simp, h⟩

/-- What is left behind the next request, and what has been asked for with it. -/
theorem next_message {k : Bytes × Bytes × Bytes} {ks : List (Bytes × Bytes × Bytes)} (hs : x.http.state = .startLine)
    (h : Ends reserves record x (.ok y)) (hout : y.out.map seen =
      x.out.map seen ++ k :: ks) :
    ∃ eol hdrEnd x', find [CR, LF] x.http.acc = some eol ∧
      findDoubleCrlf (x.http.acc.drop (eol + 2)) = some hdrEnd ∧ x'.http.state = .startLine ∧
      (x.http.acc.drop (eol + 2)).drop (hdrEnd + 4) = k.2.2 ++ x'.http.acc ∧ Ends reserves record x' (.ok y) ∧
      y.out.map seen = x'.out.map seen ++ ks := by
  rcases next_request hs h with heq | ⟨eol, hdrEnd, req, x', heol, hhdr, hs', hout', hrest, h'⟩
  · rw [heq] at hout
    have hlen := congrArg List.length hout
    simp only [List.length_append, List.length_cons] at hlen
    omega
  · obtain ⟨more, hmore⟩ := out_prefix h'
    rw [← hmore, hout'] at hout
    simp only [List.map_append, List.map_cons, List.append_assoc, List.cons_append, List.nil_append,
      List.append_cancel_left_eq, List.cons.injEq] at hout
    obtain ⟨rfl, rfl⟩ := hout
    refine ⟨eol, hdrEnd, x', heol, hhdr, hs', hrest, h', ?_⟩
    rw [← hmore]
    simp

/-- A parser that has missed the end of the head of `r` cannot ask for `r` and all the requests after it: it would have
to find the body of `r` a second time behind a blank line. -/
theorem no_catch_up : ∀ (rs : List WireRequest) {r : WireRequest} {x : Parse (List Request)},
    x.http.state = .startLine → x.http.acc <:+ r.body ++ renderAll rs → Ends reserves record x (.ok y) →
    y.out.map seen ≠
      x.out.map seen ++ (r :: rs).map fun r => seen r.toRequest := by
  intro rs r x hs hacc h hout
  obtain ⟨eol, hdrEnd, x', heol, hhdr, hs', hrest, h', hout'⟩ := next_message hs h hout
  replace hrest : (x.http.acc.drop (eol + 2)).drop (hdrEnd + 4) = r.body ++ x'.http.acc := hrest
  -- the bytes taken off: something that ends with a blank line, and the body
  obtain ⟨u, hu⟩ : ∃ u, x.http.acc = u ++ [CR, LF, CR, LF] ++ r.body ++ x'.http.acc := by
    have h1 := find_split heol
    have h2 := find_split hhdr
    rw [show hdrEnd + [CR, LF, CR, LF].length = hdrEnd + 4 from rfl, hrest] at h2
    rw [show eol + [CR, LF].length = eol + 2 from rfl, h2] at h1
    exact ⟨x.http.acc.take eol ++ [CR, LF] ++ (x.http.acc.drop (eol + 2)).take hdrEnd, by
      refine h1.trans ?_
      simp⟩
  have hlen := congrArg List.length hu
  simp only [List.length_append, List.length_cons, List.length_nil] at hlen
  have hle := hacc.length_le
  rw [List.length_append] at hle
  cases rs with
  | nil =>
    simp only [renderAll, List.flatMap_nil, List.length_nil] at hle
    omega
  | cons r' rs =>
    have hall : r.body ++ renderAll (r' :: rs) = r.body ++ head r' ++ (r'.body ++ renderAll rs) := by
      simp [renderAll, render_eq_head]
    have hsuffix : x'.http.acc <:+ r.body ++ head r' ++ (r'.body ++ renderAll rs) :=
      hall ▸ List.IsSuffix.trans ⟨_, hu.symm⟩ hacc
    rcases Nat.lt_or_ge (r'.body ++ renderAll rs).length x'.http.acc.length with hlong | hshort
    · -- the rest begins inside the head of the next request
      obtain ⟨p₁, hp₁⟩ : r'.body ++ renderAll rs <:+ x'.http.acc :=
        List.suffix_of_suffix_length_le ⟨_, rfl⟩ hsuffix (Nat.le_of_lt hlong)
      have hne : p₁ ≠ [] := by
        rintro rfl
        rw [← hp₁] at hlong
        exact Nat.lt_irrefl _ hlong
      have hheadlen := congrArg List.length hall
      have hplen := congrArg List.length hp₁
      simp only [List.length_append] at hheadlen hplen hle
      obtain ⟨p, hp⟩ : p₁ <:+ head r' := by
        have hsuf : p₁ <:+ r.body ++ head r' := by
          obtain ⟨z, hz⟩ := hsuffix
          rw [← hp₁, ← List.append_assoc] at hz
          exact ⟨z, List.append_cancel_right hz⟩
        refine List.suffix_of_suffix_length_le hsuf ⟨_, rfl⟩ ?_
        omega
      have hpcons : p ≠ [] := by
        rintro rfl
        rw [List.nil_append] at hp
        rw [hp] at hplen
        omega
      obtain ⟨z, hz⟩ := hacc
      have hagain : r.body ++ p = (z ++ u) ++ [CR, LF, CR, LF] ++ r.body := by
        rw [hu, hall, ← hp, ← hp₁] at hz
        have hz' : (z ++ u ++ [CR, LF, CR, LF] ++ r.body) ++ (p₁ ++ (r'.body ++ renderAll rs)) =
            (r.body ++ p) ++ (p₁ ++ (r'.body ++ renderAll rs)) := by
          simpa using hz
        exact (List.append_cancel_right hz').symm
      obtain ⟨c, p, rfl⟩ := List.exists_cons_of_ne_nil hpcons
      have hc : c ∉ [CR, LF, CR, LF] := head_first hp.symm
      exact ne_delimited_append hc (head_blank_line r' hp.symm hne) _ (Nat.le_refl _) hagain
    · have hsuf : x'.http.acc <:+ r'.body ++ renderAll rs :=
        List.suffix_of_suffix_length_le hsuffix ⟨_, rfl⟩ hshort
      exact no_catch_up rs hs' hsuf h' hout'

/-- Behind a request without a header line the end of the next one is taken for its own. -/
theorem merged_request (hh : r.headers = []) (hb : r.body = []) {r' : WireRequest}
    (hx : Between x (renderAll (r :: r' :: rs))) (h : Ends reserves record x (.ok y)) :
    y.out.map seen ≠ x.out.map seen ++
      (r :: r' :: rs).map fun r => seen r.toRequest := by
  intro hout
  obtain ⟨eol, hdrEnd, x', heol, hhdr, hs', hrest, h', hout'⟩ := next_message hx.state h hout
  have hacc : x.http.acc = startLine r ++ ([CR, LF] ++ ([CR, LF] ++ (head r' ++ (r'.body ++ renderAll rs)))) := by
    rw [hx.acc]
    simp [renderAll, render_eq_head, head, lineBytes, hh, hb]
  rw [hacc, find_first (startLine_line r).2] at heol
  cases heol
  have hdrop : x.http.acc.drop ((startLine r).length + 2) =
      [CR, LF] ++ (head r' ++ (r'.body ++ renderAll rs)) := by
    rw [hacc, ← List.drop_drop, List.drop_left]
    rfl
  rw [hdrop] at hhdr hrest
  obtain ⟨k, hk, hlen⟩ := find_blank_line (List.cons_ne_nil _ _) (lines_line r') (r'.body ++ renderAll rs)
  obtain ⟨c, p, hp⟩ : ∃ c p, head r' = c :: p :=
    List.exists_cons_of_ne_nil (by simp [head])
  have hc := head_first hp
  have hcrlf : ∀ v, CR :: LF :: (head r' ++ (r'.body ++ renderAll rs)) ≠ [CR, LF, CR, LF] ++ v := by
    intro v hv
    rw [hp] at hv
    have heq : c = CR := (List.cons.inj (List.cons.inj (List.cons.inj hv).2).2).1
    exact hc (by simp [heq])
  have hlf : ∀ v, LF :: (head r' ++ (r'.body ++ renderAll rs)) ≠ [CR, LF, CR, LF] ++ v :=
    fun v hv => absurd (List.cons.inj hv).1 (by decide)
  have hfind : findDoubleCrlf ([CR, LF] ++ (head r' ++ (r'.body ++ renderAll rs))) = some (k + 1 + 1) := by
    rw [findDoubleCrlf] at hk ⊢
    rw [List.cons_append, List.cons_append, List.nil_append, find_cons hcrlf rfl, find_cons hlf rfl, head, hk]
    rfl
  rw [hfind] at hhdr
  cases hhdr
  have hend : k + 1 + 1 + 4 = ([CR, LF] ++ head r').length := by
    simp only [head, List.length_append, List.length_cons, List.length_nil] at hlen ⊢
    omega
  have hleft : r'.body ++ renderAll rs = r.body ++ x'.http.acc := by
    rw [hend, ← List.append_assoc, List.drop_left] at hrest
    exact hrest
  rw [hb, List.nil_append] at hleft
  exact no_catch_up rs hs' (hleft ▸ List.suffix_rfl) h' hout'

/-- Behind the last request, without a header line, nothing is asked for. -/
theorem missed_request (hh : r.headers = []) (hb : r.body = []) (hx : Between x (renderAll [r]))
    (h : Ends reserves record x (.ok y)) :
    y.out.map seen ≠ x.out.map seen ++ [r].map fun r => seen r.toRequest := by
  intro hout
  obtain ⟨eol, hdrEnd, x', heol, hhdr, -⟩ := next_message hx.state h hout
  have hacc : x.http.acc = startLine r ++ ([CR, LF] ++ [CR, LF]) := by
    rw [hx.acc]
    simp [renderAll, render_eq_head, head, lineBytes, hh, hb]
  rw [hacc, find_first (startLine_line r).2] at heol
  cases heol
  rw [hacc, ← List.drop_drop, List.drop_left] at hhdr
  have hnone : findDoubleCrlf (([CR, LF] ++ [CR, LF]).drop 2) = none := by decide
  rw [hnone] at hhdr
  cases hhdr

/-- A request that the parser takes off. -/
def Taken (reserves : Nat → Bool) (r : WireRequest) : Prop := r.headers ≠ [] ∧ reserves r.body.length = true

/-- Requests that are all taken off all go to the responder, in order. -/
theorem all_taken {σ β : Type*} {respond : Request → Bool → σ → σ} {noted : σ → List β} {note : WireRequest → β}
    (hnote : ∀ r req s, seen req = seen r.toRequest → noted (respond req (keepsAlive r) s) = noted s ++ [note r]) :
    ∀ (rs : List WireRequest) {x : Parse σ}, (∀ r ∈ rs, r.Framed) → (∀ r ∈ rs, Taken reserves r) →
    Between x (renderAll rs) → ∃ y, Ends reserves respond x (.ok y) ∧ noted y.out = noted x.out ++ rs.map note
  | [], x, _, _, hx => by
    have hwait : turn reserves respond x = .wait x := by
      have hnone : find [CR, LF] ([] : Bytes) = none := find_none (by simp)
      have hacc : x.http.acc = [] := hx.acc
      simp [turn, hx.state, startLineStage, hacc, hnone]
    exact ⟨x, .wait hwait, by simp⟩
  | r :: rs, x, hrs, htaken, hx => by
    obtain ⟨hh, hres⟩ := htaken r List.mem_cons_self
    obtain ⟨x', req, hx', hout, hseen, hends⟩ := request_taken (hrs r List.mem_cons_self) hh hres hx
    obtain ⟨y, hy, hrest⟩ := all_taken hnote rs (fun r hr => hrs r (List.mem_cons_of_mem _ hr))
      (fun r hr => htaken r (List.mem_cons_of_mem _ hr)) hx'
    exact ⟨y, (hends _).mpr hy, by simp [hrest, hout, hnote r req _ hseen]⟩

theorem seen_record (r : WireRequest) (req : Request) (reqs : List Request) (h : seen req = seen r.toRequest) :
    (record req (keepsAlive r) reqs).map seen = reqs.map seen ++ [seen r.toRequest] := by
  rw [record, List.map_append, List.map_singleton, h]

/-- Requests that are all asked for have all been taken off. -/
theorem taken_of_asked : ∀ (rs : List WireRequest) {x : Parse (List Request)}, (∀ r ∈ rs, r.Framed) →
    Between x (renderAll rs) → Ends reserves record x (.ok y) →
    y.out.map seen = x.out.map seen ++ (rs.map fun r => seen r.toRequest) → ∀ r ∈ rs, Taken reserves r
  | [], _, _, _, _, _ => fun _ hr => absurd hr List.not_mem_nil
  | r :: rs, x, hrs, hx, h, hout => by
    have hr := hrs r List.mem_cons_self
    by_cases hh : r.headers = []
    · have hb : r.body = [] := by
        rcases hr with ⟨-, hb⟩ | ⟨hsome, -⟩
        · exact hb
        · rw [toRequest, hh] at hsome
          cases hsome
      cases rs with
      | nil => exact absurd hout (missed_request hh hb hx h)
      | cons r' rs => exact absurd hout (merged_request hh hb hx h)
    · cases hres : reserves r.body.length with
      | false => exact absurd h (request_refused hr hh hres hx)
      | true =>
        obtain ⟨x', req, hx', hout', hseen, hends⟩ := request_taken hr hh hres hx
        have hrest := taken_of_asked rs (fun r hr => hrs r (List.mem_cons_of_mem _ hr)) hx' ((hends _).mp h)
          (by rw [hout, hout', seen_record r req _ hseen]; simp)
        intro r₁ hr₁
        rcases List.mem_cons.mp hr₁ with rfl | hr₁
        · exact ⟨hh, hres⟩
        · exact hrest r₁ hr₁

/-- One request for a response per request, however the requests are cut: exactly if each has a header line and a
length that is accepted. -/
theorem one_each_iff (reserves : Nat → Bool) (rs : List WireRequest) (hrs : ∀ r ∈ rs, r.Framed) :
    OneEach reserves rs ↔ ∀ r ∈ rs, r.headers ≠ [] ∧ reserves r.body.length = true := by
  have hx : Between (({ out := [] } : Parse (List Request)).push (renderAll rs)) (renderAll rs) := ⟨rfl, rfl, rfl⟩
  constructor
  · intro h
    obtain ⟨y, hy, hout⟩ := h [renderAll rs] (by simp)
    rw [onSegments_iff (onSegment_fresh []), onSegment_eq_iff] at hy
    simp only [List.flatten_cons, List.flatten_nil, List.append_nil] at hy
    exact taken_of_asked rs hrs hx hy hout
  · intro h segs hsegs
    obtain ⟨y, hy, hout⟩ := all_taken seen_record rs hrs h hx
    exact ⟨y, (onSegments_iff (onSegment_fresh [])).mpr (onSegment_eq_iff.mpr (hsegs ▸ hy)), hout⟩

/-- A request with a header line and a body. -/
def upload : WireRequest where
  method := ascii "PUT"
  path := ascii "/a"
  protocol := ascii "HTTP/2"
  headers := [(ascii "Content-Length", ascii " 4")]
  body := [CR, LF, CR, LF]
  method_free := by decide +kernel
  path_free := by decide +kernel
  protocol_free := by decide +kernel
  names_ne := by decide +kernel
  names_free := by decide +kernel
  values_free := by decide +kernel

theorem one_each_iff_upload : OneEach (fun n => n < 2 ^ 62) [upload, upload] :=
  have hframed : upload.Framed :=
    .inr ⟨by decide +kernel, by decide +kernel, [SP], by decide +kernel, by decide +kernel⟩
  (one_each_iff _ [upload, upload] (by simpa using hframed)).mpr (by decide +kernel)

/-- `PUT /a HTTP/2` and the blank line: the upload without its header line and its body. -/
def barePut : WireRequest :=
  { upload with
    headers := upload.headers.drop 1
    body := []
    names_ne := by decide +kernel
    names_free := by decide +kernel
    values_free := by decide +kernel }

/-- A request without header lines is not answered, and two of them are taken for one. -/
theorem one_each_bare : ¬∀ rs : List WireRequest, (∀ r ∈ rs, r.Framed) → OneEach (fun n => n < 2 ^ 62) rs := by
  intro h
  have hframed : barePut.Framed := .inl ⟨by decide +kernel, rfl⟩
  obtain ⟨y, hy, hout⟩ := h [barePut, barePut] (by simpa using hframed) [barePut.render, barePut.render]
    (by simp [renderAll])
  have hone : (match onSegments (fun n => n < 2 ^ 62) record [barePut.render, barePut.render] { out := [] } with
      | .ok y => y.out.length
      | .error _ => 0) = 1 := by decide +kernel
  rw [hy] at hone
  have hlen := congrArg List.length hout
  rw [List.length_map] at hlen
  exact absurd (hone.symm.trans hlen) (by decide)

end IOContext.Epoll
