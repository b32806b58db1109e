import IOContext.Http.Machine

/-!
# Requests on the wire

A `WireRequest` has its fields free of the delimiters that end them; `render` writes it as
`method SP path SP protocol CRLF (name ':' value CRLF)* CRLF body`.

- A state that only stores its bytes is left by its delimiter alone (`feed_store`), which gives the request line
  (`feed_requestLine`) and one header after another (`feed_headers`).
- The parser reads a rendered request back and then takes every further byte as body (`feed_render_append`).
-/

namespace IOContext

/-- A request on the wire; no field holds the byte that ends it. -/
structure WireRequest where
  method : Bytes
  path : Bytes
  protocol : Bytes
  headers : List (Bytes × Bytes)
  body : Bytes
  method_free : ∀ b ∈ method, b ≠ SP ∧ b ≠ CR ∧ b ≠ LF
  path_free : ∀ b ∈ path, b ≠ SP ∧ b ≠ CR ∧ b ≠ LF
  protocol_free : ∀ b ∈ protocol, b ≠ CR ∧ b ≠ LF
  names_ne : ∀ h ∈ headers, h.1 ≠ []
  names_free : ∀ h ∈ headers, ∀ b ∈ h.1, b ≠ COLON ∧ b ≠ CR ∧ b ≠ LF
  values_free : ∀ h ∈ headers, ∀ b ∈ h.2, b ≠ CR ∧ b ≠ LF

namespace WireRequest

def renderHeader (h : Bytes × Bytes) : Bytes := h.1 ++ [COLON] ++ h.2 ++ [CR, LF]

/-- The bytes of the request. -/
def render (r : WireRequest) : Bytes :=
  r.method ++ [SP] ++ (r.path ++ [SP]) ++ (r.protocol ++ [CR, LF]) ++ r.headers.flatMap renderHeader ++ [CR, LF] ++
    r.body

/-- The request that a handler is to see: of a repeated header the first occurrence counts. -/
def toRequest (r : WireRequest) : Request where
  method := r.method
  path := r.path
  protocol := r.protocol
  headers := r.headers.foldl (fun hs h => hs.emplace h.1 h.2) []
  body := r.body

/-- The body is announced: it is empty and there is no `Content-Length`, or the first `Content-Length` is its length
in decimal after some blanks. -/
def Framed (r : WireRequest) : Prop :=
  (r.toRequest.headers.contains (ascii "Content-Length") = false ∧ r.body = []) ∨
  (r.toRequest.headers.contains (ascii "Content-Length") = true ∧ r.body.length < 2 ^ 64 ∧
    ∃ blanks : Bytes, (∀ b ∈ blanks, isSpace b = true) ∧
      r.toRequest.headers.get (ascii "Content-Length") = blanks ++ toDecimal r.body.length)

/-- A body is a proper part of its request. -/
theorem body_lt_render (r : WireRequest) : r.body.length < r.render.length := by
  simp only [render, List.length_append, List.length_cons, List.length_nil]
  omega

/-- Requests one after another. -/
def renderAll (rs : List WireRequest) : Bytes := rs.flatMap render

end WireRequest

namespace ProcessingMachine

/-! ## Bytes that are only stored -/

/-- A state that stores each of the bytes `P` keeps storing them. -/
theorem feed_store {P : UInt8 → Prop} {s : ProcessingState} {f : ProcessingMachine → Bytes → ProcessingMachine}
    (hs : s ≠ .errorState) (h0 : ∀ m, f m [] = m)
    (h1 : ∀ m c p, m.state = s → P c → (m.step c).state = s ∧ f (m.step c) p = f m (c :: p)) :
    ∀ (p : Bytes) (m : ProcessingMachine), m.state = s → (∀ c ∈ p, P c) → m.feed p = f m p
  | [], m, _, _ => (h0 m).symm
  | c :: p, m, hm, hp => by
    obtain ⟨hstate, hstore⟩ := h1 m c p hm (hp c List.mem_cons_self)
    rw [feed_cons (by rw [hm]; exact hs), feed_store hs h0 h1 p _ hstate fun d hd => hp d (List.mem_cons_of_mem _ hd),
      hstore]

/-- Appending to the first scratch buffer. -/
def scratch (m : ProcessingMachine) (p : Bytes) : ProcessingMachine := { m with tmpBuf0 := m.tmpBuf0 ++ p }

theorem feed_method {m : ProcessingMachine} {p : Bytes} (hm : m.state = .method)
    (hp : ∀ b ∈ p, b ≠ SP ∧ b ≠ CR ∧ b ≠ LF) : m.feed p = m.scratch p :=
  feed_store (s := .method) (by decide) (by simp [scratch])
    (by rintro m c p hm ⟨h1, h2, h3⟩; simp [step, hm, h1, h2, h3, scratch]) p m hm hp

theorem feed_path {m : ProcessingMachine} {p : Bytes} (hm : m.state = .path)
    (hp : ∀ b ∈ p, b ≠ SP ∧ b ≠ CR ∧ b ≠ LF) : m.feed p = m.scratch p :=
  feed_store (s := .path) (by decide) (by simp [scratch])
    (by rintro m c p hm ⟨h1, h2, h3⟩; simp [step, hm, h1, h2, h3, scratch]) p m hm hp

theorem feed_protocol {m : ProcessingMachine} {p : Bytes} (hm : m.state = .protocolVersion)
    (hp : ∀ b ∈ p, b ≠ CR ∧ b ≠ LF) : m.feed p = m.scratch p :=
  feed_store (s := .protocolVersion) (by decide) (by simp [scratch])
    (by rintro m c p hm ⟨h1, h2⟩; simp [step, hm, h1, h2, scratch]) p m hm hp

theorem feed_headerName {m : ProcessingMachine} {p : Bytes} (hm : m.state = .headerName)
    (hp : ∀ b ∈ p, b ≠ COLON ∧ b ≠ CR ∧ b ≠ LF) : m.feed p = m.scratch p :=
  feed_store (s := .headerName) (by decide) (by simp [scratch])
    (by rintro m c p hm ⟨h1, h2, h3⟩; simp [step, hm, h1, h2, h3, scratch]) p m hm hp

theorem feed_headerValue {m : ProcessingMachine} {p : Bytes} (hm : m.state = .headerValue) (hp : ∀ b ∈ p, b ≠ CR) :
    m.feed p = { m with tmpBuf1 := m.tmpBuf1 ++ p } :=
  feed_store (s := .headerValue) (f := fun m p => { m with tmpBuf1 := m.tmpBuf1 ++ p }) (by decide) (by simp)
    (by intro m c p hm h; simp [step, hm, h]) p m hm hp

/-- Once the headers are complete every byte is body. -/
theorem feed_body {m : ProcessingMachine} (hm : m.state = .body) (p : Bytes) :
    m.feed p = { m with req := { m.req with body := m.req.body ++ p } } :=
  feed_store (P := fun _ => True) (s := .body)
    (f := fun m p => { m with req := { m.req with body := m.req.body ++ p } }) (by decide) (by simp)
    (by intro m c p hm _; simp [step, hm]) p m hm fun _ _ => trivial

theorem onSegment_body {m : ProcessingMachine} (hm : m.state = .body) (p : Bytes) :
    m.onSegment p = { m with req := { m.req with body := m.req.body ++ p } } := by
  rw [onSegment, start_of_ne (by rw [hm]; decide), feed_body hm]

/-! ## The request line and the headers -/

theorem feed_methodPath {m : ProcessingMachine} {method path : Bytes} (hm : m.state = .method) (ht : m.tmpBuf0 = [])
    (hmethod : ∀ b ∈ method, b ≠ SP ∧ b ≠ CR ∧ b ≠ LF) (hpath : ∀ b ∈ path, b ≠ SP ∧ b ≠ CR ∧ b ≠ LF) :
    m.feed (method ++ [SP] ++ (path ++ [SP])) =
      { m with req := { m.req with method := method, path := path }, state := .protocolVersion } := by
  have h1 : m.feed (method ++ [SP]) =
      { m with req := { m.req with method := method }, tmpBuf0 := [], state := .path } := by
    rw [feed_append, feed_method hm hmethod]
    simp [feed, step, scratch, hm, ht]
  have h2 : ∀ m : ProcessingMachine, m.state = .path → m.tmpBuf0 = [] → m.feed (path ++ [SP]) =
      { m with req := { m.req with path := path }, state := .protocolVersion } := by
    intro m hm ht
    rw [feed_append, feed_path hm hpath]
    simp [feed, step, scratch, hm, ht]
  rw [feed_append, h1, h2 _ rfl rfl]
  simp [ht]

theorem feed_requestLine {m : ProcessingMachine} {method path protocol : Bytes} (hm : m.state = .method)
    (ht : m.tmpBuf0 = []) (hmethod : ∀ b ∈ method, b ≠ SP ∧ b ≠ CR ∧ b ≠ LF)
    (hpath : ∀ b ∈ path, b ≠ SP ∧ b ≠ CR ∧ b ≠ LF) (hprotocol : ∀ b ∈ protocol, b ≠ CR ∧ b ≠ LF) :
    m.feed (method ++ [SP] ++ (path ++ [SP]) ++ (protocol ++ [CR, LF])) =
      { m with req := { m.req with method := method, path := path, protocol := protocol }, state := .crlf } := by
  have hend : ∀ m : ProcessingMachine, m.state = .protocolVersion → m.tmpBuf0 = [] →
      m.feed (protocol ++ [CR, LF]) = { m with req := { m.req with protocol := protocol }, state := .crlf } := by
    intro m hm ht
    rw [feed_append, feed_protocol hm hprotocol]
    simp [feed, step, scratch, hm, ht]
  rw [feed_append, feed_methodPath hm ht hmethod hpath]
  exact hend _ rfl ht

/-- A header line that the parser lets through: any byte but CR may begin the name, and a value ends at a CR. -/
structure TakesHeader (h : Bytes × Bytes) : Prop where
  name : ∃ c n, h.1 = c :: n ∧ c ≠ CR ∧ ∀ b ∈ n, b ≠ COLON ∧ b ≠ CR ∧ b ≠ LF
  value : ∀ b ∈ h.2, b ≠ CR

/-- One header line. -/
theorem feed_header {m : ProcessingMachine} {h : Bytes × Bytes} (hm : m.state = .crlf) (h0 : m.tmpBuf0 = [])
    (h1 : m.tmpBuf1 = []) (hh : TakesHeader h) :
    m.feed (WireRequest.renderHeader h) =
      { m with req := { m.req with headers := m.req.headers.emplace h.1 h.2 } } := by
  obtain ⟨c, n, hname, hc, hn⟩ := hh.name
  have hfirst : m.step c = { m with state := .headerName, tmpBuf0 := [c] } := by simp [step, hm, hc, h0]
  simp only [WireRequest.renderHeader, hname, List.append_assoc, List.cons_append, List.nil_append]
  rw [feed_cons (by simp [hm]), hfirst, feed_append, feed_headerName rfl hn, feed_cons (by simp [scratch]), feed_append,
    feed_headerValue (by simp [step, scratch]) hh.value]
  simp [feed, step, scratch, h0, h1, hm]

theorem feed_headers : ∀ (hs : List (Bytes × Bytes)) {m : ProcessingMachine}, m.state = .crlf → m.tmpBuf0 = [] →
    m.tmpBuf1 = [] → (∀ h ∈ hs, TakesHeader h) →
    m.feed (hs.flatMap WireRequest.renderHeader) =
      { m with req := { m.req with headers := hs.foldl (fun hs h => hs.emplace h.1 h.2) m.req.headers } }
  | [], m, _, _, _, _ => rfl
  | h :: hs, m, hm, h0, h1, hh => by
    rw [List.flatMap_cons, feed_append, feed_header hm h0 h1 (hh _ List.mem_cons_self)]
    exact feed_headers hs hm h0 h1 fun h hh' => hh h (List.mem_cons_of_mem _ hh')

end ProcessingMachine

/-- The headers of a request on the wire are let through. -/
theorem WireRequest.takesHeader (r : WireRequest) : ∀ h ∈ r.headers, ProcessingMachine.TakesHeader h := by
  intro h hh
  obtain ⟨c, n, hname⟩ := List.exists_cons_of_ne_nil (r.names_ne h hh)
  have hfree := r.names_free h hh
  rw [hname] at hfree
  exact ⟨⟨c, n, hname, (hfree c List.mem_cons_self).2.1, fun b hb => hfree b (List.mem_cons_of_mem _ hb)⟩,
    fun b hb => (r.values_free h hh b hb).1⟩

/-- The bytes of a request with these fields. -/
def requestBytes (method path protocol : Bytes) (headers : List (Bytes × Bytes)) (body : Bytes) : Bytes :=
  method ++ [SP] ++ (path ++ [SP]) ++ (protocol ++ [CR, LF]) ++ headers.flatMap WireRequest.renderHeader ++ [CR, LF] ++
    body

namespace ProcessingMachine

/-- What a fresh parser makes of a request whose headers it lets through. -/
theorem feed_requestBytes {method path protocol body : Bytes} {headers : List (Bytes × Bytes)}
    (hmethod : ∀ b ∈ method, b ≠ SP ∧ b ≠ CR ∧ b ≠ LF) (hpath : ∀ b ∈ path, b ≠ SP ∧ b ≠ CR ∧ b ≠ LF)
    (hprotocol : ∀ b ∈ protocol, b ≠ CR ∧ b ≠ LF) (hheaders : ∀ h ∈ headers, TakesHeader h) :
    ({} : ProcessingMachine).onSegment (requestBytes method path protocol headers body) =
      { req := ⟨method, path, protocol, headers.foldl (fun hs h => hs.emplace h.1 h.2) [], body⟩, state := .body } := by
  have hstart : ({} : ProcessingMachine).start = { state := .method } := rfl
  have hend : ∀ m : ProcessingMachine, m.state = .crlf → m.feed [CR, LF] = { m with state := .body } := by
    intro m hm
    simp [feed, step, hm]
  rw [onSegment, hstart, requestBytes, feed_append _ _ body, feed_append _ _ [CR, LF],
    feed_append _ _ (headers.flatMap _), feed_requestLine rfl rfl hmethod hpath hprotocol,
    feed_headers headers rfl rfl rfl hheaders, hend _ rfl, feed_body rfl]
  rfl

/-- A fresh parser reads a rendered request back; what follows it is appended to its body. -/
theorem feed_render_append (r : WireRequest) (p : Bytes) :
    ({} : ProcessingMachine).onSegment (r.render ++ p) =
      { req := { r.toRequest with body := r.body ++ p }, state := .body } := by
  have hbytes : r.render ++ p = requestBytes r.method r.path r.protocol r.headers (r.body ++ p) :=
    List.append_assoc ..
  rw [hbytes, feed_requestBytes r.method_free r.path_free r.protocol_free r.takesHeader]
  rfl

end ProcessingMachine

end IOContext
