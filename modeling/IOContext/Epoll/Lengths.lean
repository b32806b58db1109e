import IOContext.Epoll.Requests

/-!
# The epoll server: lengths that are asked for

- Every position that the parser hands to `substr` lies inside the string (`parseRequestLine_some`,
  `parseHeaders_some`), so that only `reserve` can raise an exception.
- The lengths that an input announces are those of its heads, one behind the body of another (`Asks`). The parser
  returns exactly if all of them are accepted (`returns_iff`).
- With such an input the cuts between segments do not matter at all (`cuts_alike`).
-/

namespace IOContext.Epoll

open Search

/-! ## Positions -/

theorem findFrom_le {pat s : Bytes} {pos k : Nat} (h : findFrom pat s pos = some k) (hpos : pos ≤ s.length) :
    pos ≤ k ∧ k + pat.length ≤ s.length := by
  obtain ⟨i, hi, rfl⟩ := Option.map_eq_some_iff.mp h
  have hle := find_le hi
  rw [List.length_drop] at hle
  omega

/-- A start line is always read, and leaves the headers. -/
theorem parseRequestLine_some (line : Bytes) (req : Request) :
    ∃ req', parseRequestLine line req = some req' ∧ req'.headers = req.headers := by
  rw [← Option.map_eq_some_iff]
  cases hp1 : find [SP] line with
  | none => simp [parseRequestLine, hp1]
  | some p1 =>
    have hle1 := find_le hp1
    simp only [List.length_cons, List.length_nil] at hle1
    cases hp2 : findFrom [SP] line (p1 + 1) with
    | none => simp [parseRequestLine, hp1, hp2, substr]
    | some p2 =>
      obtain ⟨-, hle2⟩ := findFrom_le hp2 hle1
      simp only [List.length_cons, List.length_nil] at hle2
      simp [parseRequestLine, hp1, hp2, substr, hle1, hle2]

theorem skipBlanks_le {block : Bytes} {vbeg stop : Nat} (h : vbeg ≤ stop) : skipBlanks block vbeg stop ≤ stop := by
  have hle : (((block.take stop).drop vbeg).takeWhile isBlank).length ≤ stop - vbeg := by
    refine (List.takeWhile_sublist _).length_le.trans ?_
    rw [List.length_drop]
    have htake : (block.take stop).length ≤ stop := List.length_take_le ..
    omega
  unfold skipBlanks
  omega

/-- The loop reads the block to its end. -/
theorem headerLoop_some {block : Bytes} : ∀ (fuel : Nat) {start : Nat} (hs : Headers), block.length - start < fuel →
    ∃ hs', headerLoop block fuel start hs = some hs'
  | 0, _, _, hfuel => absurd hfuel (Nat.not_lt_zero _)
  | fuel + 1, start, hs, hfuel => by
    unfold headerLoop
    split
    · exact ⟨hs, rfl⟩
    · rename_i hlt
      have hstop : start ≤ (findFrom [CR, LF] block start).getD block.length ∧
          (findFrom [CR, LF] block start).getD block.length ≤ block.length := by
        cases hf : findFrom [CR, LF] block start with
        | none => exact ⟨by simp only [Option.getD_none]; omega, Nat.le_refl _⟩
        | some stop =>
          have hle := findFrom_le hf (by omega)
          simp only [Option.getD_some]
          omega
      dsimp only
      generalize (findFrom [CR, LF] block start).getD block.length = stop at hstop ⊢
      split
      · exact ⟨hs, rfl⟩
      · rename_i hne
        have hnext : ∀ hs, ∃ hs', headerLoop block fuel (stop + 2) hs = some hs' := fun hs =>
          headerLoop_some fuel hs (by omega)
        cases hc : findFrom [COLON] block start with
        | none => exact hnext hs
        | some colon =>
          dsimp only
          split
          · rename_i hcolon
            have hblanks : skipBlanks block (colon + 1) stop ≤ block.length := (skipBlanks_le hcolon).trans hstop.2
            have hstart : start ≤ block.length := by omega
            simpa [substr, hblanks, hstart] using hnext _
          · exact hnext hs

/-- The length that a header block announces, where no header line has come before. -/
def announced (block : Bytes) : Option Nat := (parseHeaders block {}).map (·.2.2)

/-- A header block is always read. -/
theorem parseHeaders_some (block : Bytes) {req : Request} (hreq : req.headers = []) :
    ∃ req' keepAlive n, parseHeaders block req = some (req', keepAlive, n) ∧ announced block = some n := by
  obtain ⟨hs, hloop⟩ : ∃ hs, headerLoop block (block.length + 1) 0 [] = some hs :=
    headerLoop_some _ [] (Nat.lt_succ_self _)
  unfold announced parseHeaders
  rw [hreq, hloop]
  exact ⟨_, _, _, rfl, rfl⟩

/-! ## Heads -/

/-- The bytes `s` begin with a start line and a header block that announces `n`; `t` comes behind them. -/
def Head (s : Bytes) (n : Nat) (t : Bytes) : Prop :=
  ∃ eol hdrEnd, find [CR, LF] s = some eol ∧ findDoubleCrlf (s.drop (eol + 2)) = some hdrEnd ∧
    announced ((s.drop (eol + 2)).take (hdrEnd + 2)) = some n ∧ t = (s.drop (eol + 2)).drop (hdrEnd + 4)

/-- `n` is among the lengths that are announced in `s`, where each body is as long as announced. -/
inductive Asks : Bytes → Nat → Prop
  | here {s t : Bytes} {n : Nat} : Head s n t → Asks s n
  | later {s t : Bytes} {n m : Nat} : Head s n t → n ≤ t.length → Asks (t.drop n) m → Asks s m

theorem Head.unique {s t t' : Bytes} {n n' : Nat} (h : Head s n t) (h' : Head s n' t') : n = n' ∧ t = t' := by
  obtain ⟨eol, hdrEnd, he, hd, hn, rfl⟩ := h
  obtain ⟨eol', hdrEnd', he', hd', hn', rfl⟩ := h'
  cases he.symm.trans he'
  cases hd.symm.trans hd'
  cases hn.symm.trans hn'
  exact ⟨rfl, rfl⟩

theorem Head.length_lt {s t : Bytes} {n : Nat} (h : Head s n t) : t.length < s.length := by
  obtain ⟨eol, hdrEnd, he, -, -, rfl⟩ := h
  have hle := find_le he
  simp only [List.length_cons, List.length_nil] at hle
  simp only [List.length_drop]
  omega

/-- A body of the announced length, or the heads behind it. -/
theorem asks_iff {s t : Bytes} {n m : Nat} (h : Head s n t) :
    Asks s m ↔ m = n ∨ n ≤ t.length ∧ Asks (t.drop n) m := by
  constructor
  · rintro (h' | ⟨h', hle, hm⟩)
    · exact .inl (h'.unique h).1
    · obtain ⟨rfl, rfl⟩ := h'.unique h
      exact .inr ⟨hle, hm⟩
  · rintro (rfl | ⟨hle, hm⟩)
    · exact .here h
    · exact .later h hle hm

/-! ## What is returned -/

variable {σ : Type*} {reserves : Nat → Bool} {respond : Request → Bool → σ → σ} {x y : Parse σ} {s t : Bytes} {n : Nat}

variable (reserves respond) in
/-- A whole line is taken off. -/
theorem line_taken {eol : Nat} (hs : x.http.state = .startLine) (hreq : x.req.headers = [])
    (he : find [CR, LF] x.http.acc = some eol) : ∃ req, req.headers = [] ∧ turn reserves respond x = .next
      { x with http := { x.http with state := .headers, acc := x.http.acc.drop (eol + 2) }, req := req } := by
  obtain ⟨req, hparse, hheaders⟩ := parseRequestLine_some (x.http.acc.take eol) x.req
  exact ⟨req, hheaders.trans hreq, by simp [turn, hs, startLineStage, he, hparse]⟩

theorem headersStage_eq {hdrEnd : Nat} {req : Request} {keepAlive : Bool} (hd : findDoubleCrlf x.http.acc = some hdrEnd)
    (hparse : parseHeaders (x.http.acc.take (hdrEnd + 2)) x.req = some (req, keepAlive, n)) :
    headersStage reserves x = if reserves n then .next { x with
        http := ⟨.body, x.http.acc.drop (hdrEnd + 4), n, keepAlive⟩, req := { req with body := [] } }
      else .throw { x with
        http := { x.http with acc := x.http.acc.drop (hdrEnd + 4), keepAlive := keepAlive }
        req := { req with body := [] } } := by
  simp only [headersStage, hd, hparse]

/-- Without a whole head the parser waits. -/
theorem no_head (hs : x.http.state = .startLine) (hreq : x.req.headers = []) (h : ∀ n t, ¬Head x.http.acc n t) :
    ∃ y, Ends reserves respond x (.ok y) := by
  cases he : find [CR, LF] x.http.acc with
  | none => exact ⟨x, .wait (by simp [turn, hs, startLineStage, he])⟩
  | some eol =>
    obtain ⟨req, hheaders, h1⟩ := line_taken reserves respond hs hreq he
    cases hd : findDoubleCrlf (x.http.acc.drop (eol + 2)) with
    | none => exact ⟨_, .next h1 (.wait (by simp only [turn, headersStage, hd]; rfl))⟩
    | some hdrEnd =>
      obtain ⟨_, _, n, -, hn⟩ := parseHeaders_some ((x.http.acc.drop (eol + 2)).take (hdrEnd + 2)) hreq
      exact absurd ⟨eol, hdrEnd, he, hd, hn, rfl⟩ (h n _)

variable (reserves respond) in
/-- A whole head is taken off; then its length is accepted or not. -/
theorem head_taken (hs : x.http.state = .startLine) (hreq : x.req.headers = []) (h : Head x.http.acc n t) :
    (reserves n = false → ∃ y, Ends reserves respond x (.error y)) ∧
    (reserves n = true → ∃ y, y.http.state = .body ∧ y.http.acc = t ∧ y.http.bodyBytesNeeded = n ∧
      ∀ r, Ends reserves respond x r ↔ Ends reserves respond y r) := by
  obtain ⟨eol, hdrEnd, he, hd, hn, rfl⟩ := h
  obtain ⟨req, hheaders, h1⟩ := line_taken reserves respond hs hreq he
  obtain ⟨req', keepAlive, n', hparse, hn'⟩ :=
    parseHeaders_some ((x.http.acc.drop (eol + 2)).take (hdrEnd + 2)) hheaders
  cases hn.symm.trans hn'
  have h2 : headersStage reserves { x with
      http := { x.http with state := .headers, acc := x.http.acc.drop (eol + 2) }, req := req } = _ :=
    headersStage_eq hd hparse
  constructor
  · intro hres
    rw [if_neg (by simp [hres])] at h2
    exact ⟨_, .next h1 (.throw h2)⟩
  · intro hres
    rw [if_pos hres] at h2
    exact ⟨_, rfl, rfl, rfl, fun r => (ends_next_iff h1).trans (ends_next_iff h2)⟩

/-- Without a whole body the parser waits. -/
theorem no_body (hs : x.http.state = .body) (h : x.http.acc.length < x.http.bodyBytesNeeded) :
    ∃ y, Ends reserves respond x (.ok y) := by
  cases hbody : bodyStage respond x with
  | wait y => exact ⟨y, .wait (by simp [turn, hs, hbody])⟩
  | throw y => exact absurd hbody bodyStage_throw
  | next y => exact absurd (bodyStage_next hbody).1 (Nat.not_le.mpr h)

variable (reserves respond) in
/-- A whole body is taken off, and the parser starts again. -/
theorem body_taken (hs : x.http.state = .body) (h : x.http.bodyBytesNeeded ≤ x.http.acc.length) :
    ∃ y, y.http.state = .startLine ∧ y.req.headers = [] ∧ y.http.acc = x.http.acc.drop x.http.bodyBytesNeeded ∧
      ∀ r, Ends reserves respond x r ↔ Ends reserves respond y r := by
  cases hbody : bodyStage respond x with
  | wait y => exact absurd (bodyStage_wait hbody).1 (Nat.not_lt.mpr h)
  | throw y => exact absurd hbody bodyStage_throw
  | next y =>
    have hturn : turn reserves respond x = .next y := by simp [turn, hs, hbody]
    obtain ⟨-, rfl⟩ := bodyStage_next hbody
    exact ⟨_, rfl, rfl, rfl, fun r => ends_next_iff hturn⟩

/-- The parser returns exactly if every length that is announced is accepted. -/
theorem ends_ok_iff (hs : x.http.state = .startLine) (hreq : x.req.headers = []) :
    (∃ y, Ends reserves respond x (.ok y)) ↔ ∀ n, Asks x.http.acc n → reserves n = true := by
  -- the body that is taken off makes `acc` shorter
  induction hlen : x.http.acc.length using Nat.strongRecOn generalizing x with
  | ind len ih =>
    subst hlen
    by_cases hhead : ∃ n t, Head x.http.acc n t
    · obtain ⟨n, t, hhead⟩ := hhead
      obtain ⟨hrefused, haccepted⟩ := head_taken reserves respond hs hreq hhead
      cases hres : reserves n with
      | false =>
        obtain ⟨z, hz⟩ := hrefused hres
        constructor
        · rintro ⟨y, hy⟩
          cases hz.unique hy
        · intro hall
          exact absurd (hall n (.here hhead)) (by simp [hres])
      | true =>
        obtain ⟨z, hzs, rfl, rfl, hiff⟩ := haccepted hres
        simp only [hiff]
        rcases Nat.lt_or_ge z.http.acc.length z.http.bodyBytesNeeded with hlt | hle
        · -- the body is not all there: nothing is announced behind it
          refine ⟨fun _ m hm => ?_, fun _ => no_body hzs hlt⟩
          rcases (asks_iff hhead).mp hm with rfl | ⟨hle, -⟩
          · exact hres
          · omega
        · obtain ⟨v, hvs, hvreq, hvacc, hiff'⟩ := body_taken reserves respond hzs hle
          have hshorter : v.http.acc.length < x.http.acc.length := by
            rw [hvacc, List.length_drop]
            exact Nat.lt_of_le_of_lt (Nat.sub_le ..) hhead.length_lt
          simp only [hiff']
          rw [ih _ hshorter hvs hvreq rfl, hvacc]
          constructor
          · intro hall m hm
            rcases (asks_iff hhead).mp hm with rfl | ⟨-, hm⟩
            · exact hres
            · exact hall m hm
          · exact fun hall m hm => hall m (.later hhead hle hm)
    · have hno : ∀ n t, ¬Head x.http.acc n t := fun n t h => hhead ⟨n, t, h⟩
      refine ⟨fun _ n hn => ?_, fun _ => no_head hs hreq hno⟩
      cases hn with
      | here h => exact absurd h (hno _ _)
      | later h => exact absurd h (hno _ _)

theorem onSegment_ok_iff (s : Bytes) (out : σ) : (∃ y, onSegment reserves respond s { out := out } = .ok y) ↔
    ∀ n, Asks s n → reserves n = true := by
  simp only [onSegment_eq_iff]
  exact ends_ok_iff rfl rfl

/-- No exception leaves the parser, however its input is cut: exactly if every length that the input announces is
accepted. -/
theorem returns_iff (reserves : Nat → Bool) (respond : Request → Bool → σ → σ) (segs : List Bytes) (out : σ) :
    (∃ y, onSegments reserves respond segs { out := out } = .ok y) ↔
      ∀ n, Asks segs.flatten n → reserves n = true := by
  simp only [onSegments_iff (onSegment_fresh out)]
  exact onSegment_ok_iff _ out

/-- A length that is read as `2 ^ 64 - 1`. -/
def negative : Bytes := ascii "GET / HTTP/1.1\r\nContent-Length: -1\r\n\r\n"

/-- The length is asked for before a byte of the body is there. -/
theorem negative_raises : ¬∀ segs : List Bytes, ∃ y, onSegments (fun n => n < 2 ^ 62) (fun _ _ out => out) segs
    { out := () } = .ok y := by
  intro h
  obtain ⟨y, hy⟩ := h [negative]
  have hraised : (match onSegments (fun n => n < 2 ^ 62) (fun _ _ out => out) [negative] { out := () } with
      | .ok _ => false
      | .error _ => true) = true := by decide +kernel
  rw [hy] at hraised
  cases hraised

/-- Two segments or one: from every state in which `on_segment` returns, with lengths that are accepted, both return,
with the same requests and the same parser. -/
theorem cuts_alike {segs : List Bytes} {s₁ s₂ : Bytes} {out : σ}
    (hx : onSegments reserves respond segs { out := out } = .ok x)
    (haccepted : ∀ n, Asks (segs.flatten ++ s₁ ++ s₂) n → reserves n = true) :
    ∃ y, (onSegment reserves respond s₁ x >>= onSegment reserves respond s₂) = .ok y ∧
      onSegment reserves respond (s₁ ++ s₂) x = .ok y := by
  rw [onSegments_iff (onSegment_fresh out)] at hx
  have hlater : ∀ q, onSegment reserves respond (segs.flatten ++ q) { out := out } = onSegment reserves respond q x :=
    fun q => by
      rw [onSegment_push, hx]
      rfl
  obtain ⟨y, hy⟩ := (onSegment_ok_iff _ out).mpr haccepted
  rw [List.append_assoc, hlater] at hy
  refine ⟨y, ?_, hy⟩
  rw [onSegment_push] at hy
  cases h1 : onSegment reserves respond s₁ x with
  | error z =>
    rw [h1] at hy
    cases hy
  | ok z =>
    rw [h1] at hy
    exact hy

/-- The start of a request, and the rest of it with the start of the next one. -/
def opening : Bytes := ascii "PUT /a HTTP/1.1\r\nContent-Le"

def continued : Bytes := ascii "ngth: 3\r\n\r\nabcGET / HTTP/1.0\r"

theorem cuts_alike_opening : ∃ x y : Parse (List Request),
    onSegments (fun n => n < 2 ^ 62) record [opening] { out := [] } = .ok x ∧
    (onSegment (fun n => n < 2 ^ 62) record (continued.take 11) x >>=
      onSegment (fun n => n < 2 ^ 62) record (continued.drop 11)) = .ok y ∧
    onSegment (fun n => n < 2 ^ 62) record (continued.take 11 ++ continued.drop 11) x = .ok y := by
  have hok : ∀ {r : Except (Parse (List Request)) (Parse (List Request))}, r.isOk = true → ∃ y, r = .ok y := by
    rintro (z | z) h
    · cases h
    · exact ⟨z, rfl⟩
  obtain ⟨x, hx⟩ := hok (show (onSegments (fun n => n < 2 ^ 62) record [opening] { out := [] }).isOk = true by
    decide +kernel)
  have hall := hok (show (onSegment (fun n => n < 2 ^ 62) record
    ([opening].flatten ++ continued.take 11 ++ continued.drop 11) { out := [] }).isOk = true by decide +kernel)
  obtain ⟨y, hy⟩ := cuts_alike hx ((onSegment_ok_iff _ _).mp hall)
  exact ⟨x, y, hx, hy⟩

end IOContext.Epoll
