import IOContext.Http.Render
import Mathlib.Data.List.Chain
import Mathlib.Data.List.Nodup
import Mathlib.Data.List.TakeWhile

/-!
# The grammar of the parser

- How a request is cut into segments does not matter (`segmentation_independent`).
- A state that only stores its bytes is left by another byte (`feed_leave`); so what a fresh parser takes for a request
  is a request line, header lines that it lets through and a body (`accepted`).
- The parser reads back what was rendered (`parse_render`). The converse fails for header lines that begin with `:` or
  LF, and for LF in a value; `Clean` excludes them, and is what makes accepted bytes a rendered request
  (`accepted_rendered_iff`).
-/

namespace IOContext

/-! ## Headers as a map -/

theorem Headers.contains_iff (hs : Headers) (name : Bytes) : hs.contains name = true ↔ name ∈ hs.map (·.1) := by
  simp [contains, List.any_eq_true]

/-- The value of a name after `emplace`. -/
theorem Headers.lookup_emplace (hs : Headers) (n v name : Bytes) :
    (hs.emplace n v).lookup name = (hs.lookup name).or (List.lookup name [(n, v)]) := by
  unfold emplace
  split
  · rename_i hc
    by_cases hn : name = n
    · subst hn
      obtain ⟨⟨n', v'⟩, hmem, hn'⟩ := List.mem_map.mp ((contains_iff hs name).mp hc)
      have hne : hs.lookup name ≠ none := fun h => by
        have := List.lookup_eq_none_iff.mp h _ hmem
        simp_all
      obtain ⟨v', hv'⟩ := Option.ne_none_iff_exists'.mp hne
      simp [hv']
    · have hb : (name == n) = false := by simpa using hn
      simp [List.lookup_cons, hb]
  · rw [List.lookup_append]

theorem Headers.keys_emplace {hs : Headers} (h : (hs.map (·.1)).Nodup) (n v : Bytes) :
    ((hs.emplace n v).map (·.1)).Nodup := by
  unfold emplace
  split
  · exact h
  · rename_i hc
    rw [contains_iff] at hc
    rw [List.map_append, List.nodup_append]
    refine ⟨h, by simp, ?_⟩
    rintro a ha b hb rfl
    exact hc (by simpa [List.mem_singleton.mp hb] using ha)

/-- Headers stored one after another: the first occurrence of a name counts. -/
theorem Headers.lookup_foldl (ls : List (Bytes × Bytes)) (hs : Headers) (name : Bytes) :
    (ls.foldl (fun hs h => hs.emplace h.1 h.2) hs).lookup name = (hs.lookup name).or (ls.lookup name) := by
  induction ls generalizing hs with
  | nil => simp
  | cons l ls ih =>
    rw [List.foldl_cons, ih, lookup_emplace, Option.or_assoc, ← List.lookup_append]
    rfl

theorem Headers.keys_foldl (ls : List (Bytes × Bytes)) {hs : Headers} (h : (hs.map (·.1)).Nodup) :
    ((ls.foldl (fun hs h => hs.emplace h.1 h.2) hs).map (·.1)).Nodup := by
  induction ls generalizing hs with
  | nil => exact h
  | cons l ls ih => exact ih (keys_emplace h l.1 l.2)

/-- A request object has the fields of a request on the wire; of a repeated header it has the first occurrence. -/
structure Request.Holds (req : Request) (r : WireRequest) : Prop where
  method : req.method = r.method
  path : req.path = r.path
  protocol : req.protocol = r.protocol
  body : req.body = r.body
  headers : ∀ name, req.headers.lookup name = r.headers.lookup name
  keys : (req.headers.map (·.1)).Nodup

theorem WireRequest.toRequest_holds (r : WireRequest) : r.toRequest.Holds r :=
  ⟨rfl, rfl, rfl, rfl, fun name => by simp [toRequest, Headers.lookup_foldl], Headers.keys_foldl _ List.nodup_nil⟩

namespace ProcessingMachine

/-! ## Segments -/

/-- The parser reads the concatenation of its segments, from any of its states; without a segment nothing is read. -/
theorem segmentation_independent (m : ProcessingMachine) :
    (∀ s₁ s₂, (m.onSegment s₁).onSegment s₂ = m.onSegment (s₁ ++ s₂)) ∧
    ∀ segs : List Bytes, segs.foldl onSegment m = if segs = [] then m else m.onSegment segs.flatten := by
  refine ⟨onSegment_onSegment m, fun segs => ?_⟩
  cases segs with
  | nil => rfl
  | cons seg segs =>
    rw [if_neg (List.cons_ne_nil _ _)]
    induction segs generalizing seg with
    | nil => simp
    | cons seg' segs ih =>
      have hrest := ih (seg ++ seg')
      simp only [List.foldl_cons, List.flatten_cons, List.append_assoc] at hrest ⊢
      rw [onSegment_onSegment, hrest]

/-- Parsing undoes rendering. -/
theorem parse_render (r : WireRequest) :
    (({} : ProcessingMachine).onSegment r.render).state = .body ∧
    (({} : ProcessingMachine).onSegment r.render).req.Holds r ∧
    (({} : ProcessingMachine).onSegment r.render).tmpBuf0 = [] ∧
    (({} : ProcessingMachine).onSegment r.render).tmpBuf1 = [] := by
  have hparse := feed_render_append r []
  rw [List.append_nil, List.append_nil] at hparse
  rw [hparse]
  exact ⟨rfl, r.toRequest_holds, rfl, rfl⟩

/-- A repeated name, an empty value, a value with a colon, and CRLF in the body. -/
example : ({} : ProcessingMachine).onSegment
      (ascii "P /x y" ++ [CR, LF] ++ (ascii "A:1" ++ [CR, LF] ++ (ascii "A:2" ++ [CR, LF])) ++
        (ascii "B:" ++ [CR, LF] ++ (ascii "C::" ++ [CR, LF])) ++ [CR, LF] ++ [CR, LF]) =
    { req := ⟨ascii "P", ascii "/x", ascii "y", [(ascii "A", ascii "1"), (ascii "B", []), (ascii "C", ascii ":")],
        [CR, LF]⟩
      state := .body } := by decide

/-! ## What is accepted -/

/-- A state that stores each of the bytes `P` is left by another byte. -/
theorem feed_leave {P : UInt8 → Prop} [DecidablePred P] {s : ProcessingState}
    {f : ProcessingMachine → Bytes → ProcessingMachine} (hs : s ≠ .errorState) (hbody : s ≠ .body)
    (hstate : ∀ m p, (f m p).state = m.state) (hfeed : ∀ m p, m.state = s → (∀ b ∈ p, P b) → m.feed p = f m p)
    {m : ProcessingMachine} {q : Bytes} (hm : m.state = s) (h : (m.feed q).state = .body) :
    ∃ p c q', q = p ++ c :: q' ∧ (∀ b ∈ p, P b) ∧ ¬P c ∧ (((f m p).step c).feed q').state = .body := by
  have hp : ∀ b ∈ q.takeWhile (fun b => decide (P b)), P b := fun b hb => by
    simpa using List.mem_takeWhile_imp hb
  have hq := List.takeWhile_append_dropWhile (p := fun b => decide (P b)) (l := q)
  rw [← hq, feed_append, hfeed m _ hm hp] at h
  cases hd : q.dropWhile (fun b => decide (P b)) with
  | nil =>
    rw [hd, feed_nil, hstate, hm] at h
    exact absurd h hbody
  | cons c q' =>
    have hc : ¬P c := by
      have := List.head_dropWhile_not (fun b => decide (P b)) (l := q) (by simp [hd])
      simpa [hd] using this
    rw [hd, feed_cons (by rw [hstate, hm]; exact hs)] at h
    exact ⟨_, c, q', by rw [← hd, hq], hp, hc, h⟩

/-- A byte after which the parser reaches `body` has not led to the error state. -/
theorem step_ne_error {m : ProcessingMachine} {q : Bytes} (h : (m.feed q).state = .body) : m.state ≠ .errorState := by
  intro he
  rw [feed_error he, he] at h
  cases h

theorem leave_method {m : ProcessingMachine} {q : Bytes} (hm : m.state = .method) (h : (m.feed q).state = .body) :
    ∃ p q', q = p ++ SP :: q' ∧ (∀ b ∈ p, b ≠ SP ∧ b ≠ CR ∧ b ≠ LF) ∧
      (({ m with req := { m.req with method := m.tmpBuf0 ++ p }, tmpBuf0 := [], state := .path } :
        ProcessingMachine).feed q').state = .body := by
  obtain ⟨p, c, q', rfl, hp, hc, h⟩ := feed_leave (s := .method) (f := scratch) (by decide) (by decide)
    (fun _ _ => rfl) (fun m p => feed_method) hm h
  have he := step_ne_error h
  have hsp : c = SP := by
    by_contra hne
    have hend : c = CR ∨ c = LF := by grind
    exact he (by simp [step, scratch, hm, hne, hend])
  subst hsp
  exact ⟨p, q', rfl, hp, by simpa [step, scratch, hm] using h⟩

theorem leave_path {m : ProcessingMachine} {q : Bytes} (hm : m.state = .path) (h : (m.feed q).state = .body) :
    ∃ p q', q = p ++ SP :: q' ∧ (∀ b ∈ p, b ≠ SP ∧ b ≠ CR ∧ b ≠ LF) ∧
      (({ m with req := { m.req with path := m.tmpBuf0 ++ p }, tmpBuf0 := [], state := .protocolVersion } :
        ProcessingMachine).feed q').state = .body := by
  obtain ⟨p, c, q', rfl, hp, hc, h⟩ := feed_leave (s := .path) (f := scratch) (by decide) (by decide)
    (fun _ _ => rfl) (fun m p => feed_path) hm h
  have he := step_ne_error h
  have hsp : c = SP := by
    by_contra hne
    have hend : c = CR ∨ c = LF := by grind
    exact he (by simp [step, scratch, hm, hne, hend])
  subst hsp
  exact ⟨p, q', rfl, hp, by simpa [step, scratch, hm] using h⟩

/-- After a CR nothing but LF goes on. -/
theorem leave_cr {m : ProcessingMachine} {q : Bytes} (hm : m.state = .cr) (h : (m.feed q).state = .body) :
    ∃ q', q = LF :: q' ∧ (({ m with state := .crlf } : ProcessingMachine).feed q').state = .body := by
  cases q with
  | nil =>
    rw [feed_nil, hm] at h
    cases h
  | cons c q' =>
    rw [feed_cons (by simp [hm])] at h
    have he := step_ne_error h
    have hlf : c = LF := by
      by_contra hne
      exact he (by simp [step, hm, hne])
    subst hlf
    exact ⟨q', rfl, by simpa [step, hm] using h⟩

theorem leave_protocol {m : ProcessingMachine} {q : Bytes} (hm : m.state = .protocolVersion)
    (h : (m.feed q).state = .body) :
    ∃ p q', q = p ++ CR :: LF :: q' ∧ (∀ b ∈ p, b ≠ CR ∧ b ≠ LF) ∧
      (({ m with req := { m.req with protocol := m.tmpBuf0 ++ p }, tmpBuf0 := [], state := .crlf } :
        ProcessingMachine).feed q').state = .body := by
  obtain ⟨p, c, q', rfl, hp, hc, h⟩ := feed_leave (s := .protocolVersion) (f := scratch) (by decide) (by decide)
    (fun _ _ => rfl) (fun m p => feed_protocol) hm h
  have he := step_ne_error h
  have hcr : c = CR := by
    by_contra hne
    have hend : c = LF := by grind
    exact he (by simp [step, scratch, hm, hend, show LF ≠ CR by decide])
  subst hcr
  have hstep : (m.scratch p).step CR =
      { m with req := { m.req with protocol := m.tmpBuf0 ++ p }, tmpBuf0 := [], state := .cr } := by
    simp [step, scratch, hm]
  rw [hstep] at h
  obtain ⟨q', rfl, h⟩ := leave_cr rfl h
  exact ⟨p, q', rfl, hp, h⟩

/-- At the beginning of a line there is the end of the headers, or a header that is let through. -/
theorem leave_line {m : ProcessingMachine} {q : Bytes} (hm : m.state = .crlf) (h0 : m.tmpBuf0 = [])
    (h1 : m.tmpBuf1 = []) (h : (m.feed q).state = .body) :
    (∃ body, q = CR :: LF :: body) ∨
    ∃ hd q', TakesHeader hd ∧ q = WireRequest.renderHeader hd ++ q' ∧
      (({ m with req := { m.req with headers := m.req.headers.emplace hd.1 hd.2 } } :
        ProcessingMachine).feed q').state = .body := by
  cases q with
  | nil =>
    rw [feed_nil, hm] at h
    cases h
  | cons c q =>
    have hline := h
    rw [feed_cons (by simp [hm])] at h
    by_cases hc : c = CR
    · subst hc
      have hcr : m.step CR = { m with state := .crlfcr } := by simp [step, hm]
      rw [hcr] at h
      cases q with
      | nil => cases h
      | cons d q =>
        rw [feed_cons (by simp)] at h
        have he := step_ne_error h
        have hlf : d = LF := by
          by_contra hne
          exact he (by simp [step, hne])
        exact .inl ⟨q, by rw [hlf]⟩
    · have hname : m.step c = { m with state := .headerName, tmpBuf0 := [c] } := by simp [step, hm, hc, h0]
      rw [hname] at h
      obtain ⟨n, d, q₁, rfl, hn, hd, h⟩ := feed_leave (s := .headerName) (f := scratch) (by decide) (by decide)
        (fun _ _ => rfl) (fun m p => feed_headerName) rfl h
      have he := step_ne_error h
      have hcolon : d = COLON := by
        by_contra hne
        have hend : d = CR ∨ d = LF := by grind
        exact he (by simp [step, scratch, hne, hend])
      subst hcolon
      obtain ⟨v, d, q₂, rfl, hv, hd, h⟩ := feed_leave (s := .headerValue)
        (f := fun m p => { m with tmpBuf1 := m.tmpBuf1 ++ p }) (by decide) (by decide) (fun _ _ => rfl)
        (fun m p => feed_headerValue) (by simp [step, scratch]) h
      have hcr : d = CR := by simpa using hd
      subst hcr
      obtain ⟨q₃, rfl, -⟩ := leave_cr (by simp [step, scratch]) h
      have hh : TakesHeader (c :: n, v) := ⟨⟨c, n, rfl, hc, hn⟩, hv⟩
      have hq : c :: (n ++ COLON :: (v ++ CR :: LF :: q₃)) = WireRequest.renderHeader (c :: n, v) ++ q₃ := by
        simp [WireRequest.renderHeader]
      rw [hq, feed_append, feed_header hm h0 h1 hh] at hline
      exact .inr ⟨(c :: n, v), q₃, hh, hq, hline⟩

/-- From the beginning of a line on there are header lines, the blank line and the body. -/
theorem leave_headers : ∀ (n : Nat) {m : ProcessingMachine} {q : Bytes}, q.length ≤ n → (m.feed q).state = .body →
    m.state = .crlf → m.tmpBuf0 = [] → m.tmpBuf1 = [] →
    ∃ (hs : List (Bytes × Bytes)) (body : Bytes), (∀ h ∈ hs, TakesHeader h) ∧
      q = hs.flatMap WireRequest.renderHeader ++ [CR, LF] ++ body
  | n, m, q, hn, h, hm, h0, h1 => by
    obtain ⟨body, rfl⟩ | ⟨hd, q', hh, rfl, hrest⟩ := leave_line hm h0 h1 h
    · exact ⟨[], body, fun _ hmem => absurd hmem List.not_mem_nil, rfl⟩
    · cases n with
      | zero => simp [WireRequest.renderHeader] at hn
      | succ n =>
        have hlen : q'.length ≤ n := by
          simp only [WireRequest.renderHeader, List.length_append, List.length_cons, List.length_nil] at hn
          omega
        obtain ⟨hs, body, hhs, rfl⟩ := leave_headers n hlen hrest hm h0 h1
        refine ⟨hd :: hs, body, ?_, by simp⟩
        intro h' hmem
        rcases List.mem_cons.mp hmem with rfl | hmem
        · exact hh
        · exact hhs h' hmem

/-- What a fresh parser takes for a request. -/
theorem accepted {s : Bytes} (h : (({} : ProcessingMachine).onSegment s).state = .body) :
    ∃ method path protocol headers body, (∀ b ∈ method, b ≠ SP ∧ b ≠ CR ∧ b ≠ LF) ∧
      (∀ b ∈ path, b ≠ SP ∧ b ≠ CR ∧ b ≠ LF) ∧ (∀ b ∈ protocol, b ≠ CR ∧ b ≠ LF) ∧
      (∀ h ∈ headers, TakesHeader h) ∧ s = requestBytes method path protocol headers body := by
  obtain ⟨method, q, rfl, hmethod, h⟩ := leave_method (m := ({} : ProcessingMachine).start) rfl h
  obtain ⟨path, q, rfl, hpath, h⟩ := leave_path rfl h
  obtain ⟨protocol, q, rfl, hprotocol, h⟩ := leave_protocol rfl h
  obtain ⟨headers, body, hheaders, rfl⟩ := leave_headers _ (Nat.le_refl _) h rfl rfl rfl
  exact ⟨method, path, protocol, headers, body, hmethod, hpath, hprotocol, hheaders, by simp [requestBytes]⟩

end ProcessingMachine

/-! ## Clean heads -/

/-- What comes before the first blank line. -/
def headOf : Bytes → Bytes
  | [] => []
  | b :: s => if [CR, LF, CR, LF].isPrefixOf (b :: s) then [CR, LF] else b :: headOf s

/-- LF only after CR, and no colon after LF. -/
def CleanPair (a b : UInt8) : Prop := (b = LF → a = CR) ∧ (a = LF → b ≠ COLON)

instance (a b : UInt8) : Decidable (CleanPair a b) := by
  unfold CleanPair
  infer_instance

/-- Before the first blank line LF comes only after CR, and no line begins with a colon. -/
def Clean (s : Bytes) : Prop := (headOf s).IsChain CleanPair

instance (s : Bytes) : Decidable (Clean s) := inferInstanceAs (Decidable ((headOf s).IsChain CleanPair))

theorem headOf_append {p : Bytes} (hp : ∀ b ∈ p, b ≠ CR) (t : Bytes) : headOf (p ++ t) = p ++ headOf t := by
  induction p with
  | nil => rfl
  | cons b p ih =>
    have hb : (CR == b) = false := by simpa using (hp b List.mem_cons_self).symm
    simp only [List.cons_append, headOf, List.isPrefixOf, hb, Bool.false_and, Bool.false_eq_true, if_false]
    rw [ih fun b hb => hp b (List.mem_cons_of_mem _ hb)]

theorem headOf_line {b : UInt8} (hb : b ≠ CR) (t : Bytes) :
    headOf (CR :: LF :: b :: t) = CR :: LF :: headOf (b :: t) := by
  have hb' : (CR == b) = false := by simpa using hb.symm
  have hlf : (CR == LF) = false := by decide
  simp only [headOf, List.isPrefixOf, hb', hlf, Bool.false_and, Bool.and_false, Bool.false_eq_true, if_false]

theorem headOf_blank (t : Bytes) : headOf (CR :: LF :: CR :: LF :: t) = [CR, LF] := by
  simp [headOf, List.isPrefixOf]

/-- The head of header lines that are let through is all of them. -/
theorem headOf_headers {hs : List (Bytes × Bytes)} (hh : ∀ h ∈ hs, ProcessingMachine.TakesHeader h) (body : Bytes) :
    headOf (CR :: LF :: (hs.flatMap WireRequest.renderHeader ++ CR :: LF :: body)) =
      CR :: LF :: hs.flatMap WireRequest.renderHeader := by
  induction hs with
  | nil => exact headOf_blank body
  | cons h hs ih =>
    obtain ⟨⟨c, n, hname, hc, hn⟩, hv⟩ := hh h List.mem_cons_self
    have hfree : ∀ b ∈ c :: n ++ COLON :: h.2, b ≠ CR := by
      intro b hb
      rcases List.mem_append.mp hb with hb | hb
      · rcases List.mem_cons.mp hb with rfl | hb
        · exact hc
        · exact (hn b hb).2.1
      · rcases List.mem_cons.mp hb with rfl | hb
        · decide
        · exact hv b hb
    have hrest := ih fun h' hh' => hh h' (List.mem_cons_of_mem _ hh')
    have hline : CR :: LF :: ((h :: hs).flatMap WireRequest.renderHeader ++ CR :: LF :: body) =
        CR :: LF :: c :: (n ++ COLON :: h.2 ++
          CR :: LF :: (hs.flatMap WireRequest.renderHeader ++ CR :: LF :: body)) := by
      simp [WireRequest.renderHeader, hname]
    rw [hline, headOf_line hc]
    have hcons : c :: (n ++ COLON :: h.2 ++ CR :: LF :: (hs.flatMap WireRequest.renderHeader ++ CR :: LF :: body)) =
        (c :: n ++ COLON :: h.2) ++ CR :: LF :: (hs.flatMap WireRequest.renderHeader ++ CR :: LF :: body) := by simp
    rw [hcons, headOf_append hfree, hrest]
    simp [WireRequest.renderHeader, hname]

/-- Bytes without LF are clean. -/
theorem chain_of_free {p : Bytes} (hp : ∀ b ∈ p, b ≠ LF) : p.IsChain CleanPair := by
  induction p with
  | nil => exact .nil
  | cons a p ih =>
    refine List.isChain_cons.mpr ⟨fun b hb => ?_, ih fun b hb => hp b (List.mem_cons_of_mem _ hb)⟩
    exact ⟨fun h => absurd h (hp b (List.mem_cons_of_mem _ (List.mem_of_mem_head? hb))),
      fun h => absurd h (hp a List.mem_cons_self)⟩

/-- Clean bytes without CR have no LF, the first byte excepted. -/
theorem free_of_chain {a : UInt8} {p : Bytes} (ha : a ≠ CR) (hp : ∀ b ∈ p, b ≠ CR)
    (h : (a :: p).IsChain CleanPair) : ∀ b ∈ p, b ≠ LF := by
  induction p generalizing a with
  | nil => simp
  | cons b p ih =>
    obtain ⟨hab, h⟩ := List.isChain_cons_cons.mp h
    intro d hd
    rcases List.mem_cons.mp hd with rfl | hd
    · exact fun hlf => ha (hab.1 hlf)
    · exact ih (hp b List.mem_cons_self) (fun b hb => hp b (List.mem_cons_of_mem _ hb)) h d hd

/-- A header line of a request on the wire. -/
def StrictHeader (h : Bytes × Bytes) : Prop :=
  h.1 ≠ [] ∧ (∀ b ∈ h.1, b ≠ COLON ∧ b ≠ CR ∧ b ≠ LF) ∧ ∀ b ∈ h.2, b ≠ CR ∧ b ≠ LF

/-- Clean header lines are those of a request on the wire. -/
theorem chain_headers_iff {hs : List (Bytes × Bytes)} (hh : ∀ h ∈ hs, ProcessingMachine.TakesHeader h) :
    (LF :: hs.flatMap WireRequest.renderHeader).IsChain CleanPair ↔ ∀ h ∈ hs, StrictHeader h := by
  induction hs with
  | nil => simp
  | cons h hs ih =>
    obtain ⟨⟨c, n, hname, hc, hn⟩, hv⟩ := hh h List.mem_cons_self
    have hrest := ih fun h' hh' => hh h' (List.mem_cons_of_mem _ hh')
    have hline : LF :: (h :: hs).flatMap WireRequest.renderHeader =
        LF :: c :: (n ++ COLON :: h.2 ++ CR :: LF :: hs.flatMap WireRequest.renderHeader) := by
      simp [WireRequest.renderHeader, hname]
    have hsplit : c :: (n ++ COLON :: h.2 ++ CR :: LF :: hs.flatMap WireRequest.renderHeader) =
        (c :: (n ++ COLON :: h.2)) ++ CR :: LF :: hs.flatMap WireRequest.renderHeader := by simp
    have hnv : ∀ b ∈ n ++ COLON :: h.2, b ≠ CR := by
      intro b hb
      rcases List.mem_append.mp hb with hb | hb
      · exact (hn b hb).2.1
      · rcases List.mem_cons.mp hb with rfl | hb
        · decide
        · exact hv b hb
    rw [hline, List.isChain_cons_cons, hsplit, List.isChain_append_cons_cons, hrest, List.forall_mem_cons]
    constructor
    · rintro ⟨⟨hlf, hcolon⟩, hchain, -, hhs⟩
      have hcr : c ≠ LF := fun h => absurd (hlf h) (by decide)
      have hfree := free_of_chain hc hnv hchain.left_of_append
      refine ⟨⟨by simp [hname], ?_, fun b hb => ⟨hv b hb, hfree b (by simp [hb])⟩⟩, hhs⟩
      rw [hname]
      intro b hb
      rcases List.mem_cons.mp hb with rfl | hb
      · exact ⟨hcolon rfl, hc, hcr⟩
      · exact hn b hb
    · rintro ⟨⟨-, hnames, hvalues⟩, hhs⟩
      have hfirst := hnames c (by simp [hname])
      refine ⟨⟨fun h => absurd h hfirst.2.2, fun _ => hfirst.1⟩, chain_of_free ?_, ⟨fun _ => rfl, by decide⟩, hhs⟩
      intro b hb
      simp only [List.cons_append, List.append_assoc, List.mem_cons, List.mem_append, List.not_mem_nil, or_false] at hb
      rcases hb with rfl | hb | rfl | hb | rfl
      · exact hfirst.2.2
      · exact (hn b hb).2.2
      · decide
      · exact (hvalues b hb).2
      · decide

/-- A request that is taken is clean if and only if its headers are those of a request on the wire. -/
theorem clean_requestBytes_iff {method path protocol body : Bytes} {headers : List (Bytes × Bytes)}
    (hmethod : ∀ b ∈ method, b ≠ SP ∧ b ≠ CR ∧ b ≠ LF) (hpath : ∀ b ∈ path, b ≠ SP ∧ b ≠ CR ∧ b ≠ LF)
    (hprotocol : ∀ b ∈ protocol, b ≠ CR ∧ b ≠ LF) (hheaders : ∀ h ∈ headers, ProcessingMachine.TakesHeader h) :
    Clean (requestBytes method path protocol headers body) ↔ ∀ h ∈ headers, StrictHeader h := by
  have hfront : ∀ b ∈ method ++ SP :: (path ++ SP :: protocol), b ≠ CR ∧ b ≠ LF := by
    intro b hb
    simp only [List.mem_append, List.mem_cons] at hb
    rcases hb with hb | rfl | hb | rfl | hb
    · exact (hmethod b hb).2
    · decide
    · exact (hpath b hb).2
    · decide
    · exact hprotocol b hb
  have hbytes : requestBytes method path protocol headers body = (method ++ SP :: (path ++ SP :: protocol)) ++
      CR :: LF :: (headers.flatMap WireRequest.renderHeader ++ CR :: LF :: body) := by simp [requestBytes]
  rw [Clean, hbytes, headOf_append fun b hb => (hfront b hb).1, headOf_headers hheaders,
    List.isChain_append_cons_cons, chain_headers_iff hheaders]
  constructor
  · exact fun h => h.2.2
  · refine fun h => ⟨chain_of_free ?_, ⟨fun _ => rfl, by decide⟩, h⟩
    intro b hb
    rcases List.mem_append.mp hb with hb | hb
    · exact (hfront b hb).2
    · rw [List.mem_singleton.mp hb]
      decide

theorem WireRequest.clean_render (r : WireRequest) : Clean r.render :=
  have hstrict : ∀ h ∈ r.headers, StrictHeader h := fun h hh => ⟨r.names_ne h hh, r.names_free h hh, r.values_free h hh⟩
  (clean_requestBytes_iff r.method_free r.path_free r.protocol_free r.takesHeader).mpr hstrict

/-! ## What is accepted, and what is rendered -/

namespace ProcessingMachine

/-- Accepted bytes are a rendered request, and the request object holds its fields, exactly if they are clean. -/
theorem accepted_rendered_iff (s : Bytes) (h : (({} : ProcessingMachine).onSegment s).state = .body) :
    (∃ r : WireRequest, s = r.render ∧ (({} : ProcessingMachine).onSegment s).req.Holds r) ↔ Clean s := by
  constructor
  · rintro ⟨r, rfl, -⟩
    exact r.clean_render
  · intro hclean
    obtain ⟨method, path, protocol, headers, body, hmethod, hpath, hprotocol, hheaders, rfl⟩ := accepted h
    have hstrict := (clean_requestBytes_iff hmethod hpath hprotocol hheaders).mp hclean
    let r : WireRequest := ⟨method, path, protocol, headers, body, hmethod, hpath, hprotocol,
      fun h hh => (hstrict h hh).1, fun h hh => (hstrict h hh).2.1, fun h hh => (hstrict h hh).2.2⟩
    refine ⟨r, rfl, ?_⟩
    rw [feed_requestBytes hmethod hpath hprotocol hheaders]
    exact r.toRequest_holds

theorem accepted_rendered_iff_get : ∃ r : WireRequest,
    ascii "GET / HTTP/1.1" ++ [CR, LF] ++ ascii "A: b" ++ [CR, LF, CR, LF] = r.render ∧
      (({} : ProcessingMachine).onSegment
        (ascii "GET / HTTP/1.1" ++ [CR, LF] ++ ascii "A: b" ++ [CR, LF, CR, LF])).req.Holds r :=
  (accepted_rendered_iff _ (by decide)).mpr (by decide)

/-- A header line that begins with a colon is accepted. -/
theorem accepted_not_rendered : ¬∀ s : Bytes, (({} : ProcessingMachine).onSegment s).state = .body →
    ∃ r : WireRequest, s = r.render ∧ (({} : ProcessingMachine).onSegment s).req.Holds r := by
  intro h
  obtain ⟨r, hr, -⟩ := h (ascii "GET / HTTP/1.1" ++ [CR, LF] ++ ascii ":a:b" ++ [CR, LF, CR, LF]) (by decide)
  have hclean := r.clean_render
  rw [← hr] at hclean
  exact absurd hclean (by decide)

/-- So is one with LF in its value, which holds a second header for a reader that takes LF as the end of a line. -/
example : (({} : ProcessingMachine).onSegment
      (ascii "GET / HTTP/1.1" ++ [CR, LF] ++ (ascii "A:b" ++ [LF] ++ ascii "C:d") ++ [CR, LF, CR, LF])).req.headers =
    [(ascii "A", ascii "b" ++ [LF] ++ ascii "C:d")] := by decide

end ProcessingMachine

end IOContext
