import IOContext.Base.Search
import IOContext.Http.Framing
import IOContext.Http.Grammar
import IOContext.Transmission

/-!
# Responses are decodable

`generate_response` builds a message of buffers: a status line with the `Content-Length`, a buffer for each header, the
empty line and the body. `readMessage` reads such a message back: lines up to the first empty one, where the first
occurrence of a name counts, and the rest.

- A header line is read back as a whole (`readHeaders_line`), so that all of them are (`readHeaders_lines`), and the
  body begins where it should, whatever it holds.
- The buffers of every response whose status and headers can be told apart are read back as that response
  (`read_responseBufs`, `response_decodes`).
-/

namespace IOContext

open Search

/-! ## Reading -/

structure Message where
  status : Bytes
  headers : Headers
  body : Bytes
deriving DecidableEq, Repr

/-- The blank that follows the colon. -/
def dropBlank : Bytes → Bytes
  | b :: v => if b = SP then v else b :: v
  | [] => []

/-- Header lines, up to the first empty line. -/
def readHeaders : Nat → Bytes → Headers → Option (Headers × Bytes)
  | 0, _, _ => none
  | fuel + 1, s, hs => do
    let eol ← find [CR, LF] s
    if eol = 0 then some (hs, s.drop 2)
    else
      let line := s.take eol
      let colon ← find [COLON] line
      readHeaders fuel (s.drop (eol + 2)) (hs.emplace (line.take colon) (dropBlank (line.drop (colon + 1))))

/-- Each line takes at least two bytes. -/
def readMessage (s : Bytes) : Option Message := do
  let eol ← find [CR, LF] s
  let (hs, body) ← readHeaders s.length (s.drop (eol + 2)) []
  return ⟨s.take eol, hs, body⟩

/-! ## Reading what was written -/

/-- Status and headers keep to their lines, and the names have no colon. -/
structure Response.Printable (res : Response) : Prop where
  code : ∀ b ∈ res.code, b ≠ CR ∧ b ≠ LF
  names : ∀ h ∈ res.headers, ∀ b ∈ h.1, b ≠ COLON ∧ b ≠ CR ∧ b ≠ LF
  values : ∀ h ∈ res.headers, ∀ b ∈ h.2, b ≠ CR ∧ b ≠ LF

def headerBytes (h : Bytes × Bytes) : Bytes := h.1 ++ ascii ": " ++ h.2 ++ [CR, LF]

/-- The line is found, and what comes behind it. -/
theorem find_line {p : Bytes} (hp : ∀ b ∈ p, b ≠ CR) (t : Bytes) :
    find [CR, LF] (p ++ [CR, LF] ++ t) = some p.length ∧ (p ++ [CR, LF] ++ t).take p.length = p ∧
      (p ++ [CR, LF] ++ t).drop (p.length + 2) = t := by
  refine ⟨?_, ?_, ?_⟩
  · rw [List.append_assoc]
    exact find_first hp t
  · rw [List.append_assoc, List.take_left]
  · have hlen : p.length + 2 = (p ++ [CR, LF]).length := by simp
    rw [hlen, List.drop_left]

/-- A header line. -/
theorem readHeaders_line {fuel : Nat} {name value t : Bytes} {hs : Headers}
    (hname : ∀ b ∈ name, b ≠ COLON ∧ b ≠ CR ∧ b ≠ LF) (hvalue : ∀ b ∈ value, b ≠ CR ∧ b ≠ LF) :
    readHeaders (fuel + 1) (headerBytes (name, value) ++ t) hs = readHeaders fuel t (hs.emplace name value) := by
  have hline : ∀ b ∈ name ++ COLON :: SP :: value, b ≠ CR := by
    intro b hb
    rcases List.mem_append.mp hb with hb | hb
    · exact (hname b hb).2.1
    · rcases List.mem_cons.mp hb with rfl | hb
      · decide
      · rcases List.mem_cons.mp hb with rfl | hb
        · decide
        · exact (hvalue b hb).1
  have hbytes : headerBytes (name, value) = name ++ COLON :: SP :: value ++ [CR, LF] := by
    have hsep : ascii ": " = [COLON, SP] := by decide +kernel
    simp [headerBytes, hsep]
  obtain ⟨heol, htake, hdrop⟩ := find_line hline t
  have hcolon : find [COLON] (name ++ COLON :: SP :: value) = some name.length :=
    find_first (fun b hb => (hname b hb).1) (SP :: value)
  have hpos : (name ++ COLON :: SP :: value).length ≠ 0 := by simp
  rw [hbytes, readHeaders, heol]
  simp only [Option.bind_eq_bind, Option.bind_some, if_neg hpos, htake, hdrop, hcolon]
  congr 2
  · exact List.take_left' rfl
  · have hafter : (name ++ COLON :: SP :: value).drop (name.length + 1) = SP :: value := by
      rw [← List.drop_drop, List.drop_left]
      rfl
    rw [hafter]
    rfl

theorem readHeaders_lines (body : Bytes) : ∀ (ls : List (Bytes × Bytes)) {fuel : Nat} (hs : Headers),
    ls.length < fuel → (∀ h ∈ ls, ∀ b ∈ h.1, b ≠ COLON ∧ b ≠ CR ∧ b ≠ LF) →
    (∀ h ∈ ls, ∀ b ∈ h.2, b ≠ CR ∧ b ≠ LF) → readHeaders fuel (ls.flatMap headerBytes ++ [CR, LF] ++ body) hs =
    some (ls.foldl (fun hs h => hs.emplace h.1 h.2) hs, body)
  | [], fuel + 1, hs, _, _, _ => by
    obtain ⟨heol, -, hdrop⟩ := find_line (p := []) (by simp) body
    rw [List.flatMap_nil, readHeaders, heol]
    exact congrArg (fun b => some (hs, b)) hdrop
  | h :: ls, fuel + 1, hs, hlen, hnames, hvalues => by
    have hbytes : (h :: ls).flatMap headerBytes ++ [CR, LF] ++ body =
        headerBytes (h.1, h.2) ++ (ls.flatMap headerBytes ++ [CR, LF] ++ body) := by simp
    rw [hbytes, readHeaders_line (hnames h List.mem_cons_self) (hvalues h List.mem_cons_self),
      readHeaders_lines body ls _ (Nat.lt_of_succ_lt_succ hlen) (fun l hl => hnames l (List.mem_cons_of_mem _ hl))
        fun l hl => hvalues l (List.mem_cons_of_mem _ hl)]
    rfl

/-- Every line has bytes. -/
theorem length_le_flatMap (ls : List (Bytes × Bytes)) : ls.length ≤ (ls.flatMap headerBytes).length := by
  induction ls with
  | nil => exact Nat.le_refl _
  | cons h ls ih =>
    rw [List.flatMap_cons, List.length_append, List.length_cons]
    have hpos : 0 < (headerBytes h).length := by simp [headerBytes]
    omega

namespace PerClientStorage

/-- The message read back: status, `Content-Length`, the headers of the response other than that, and the body. -/
def Decoded (res : Response) (msg : Message) : Prop :=
  msg.status = ascii "HTTP/1.1 " ++ res.code ∧ msg.body = res.body ∧
    ∀ name, msg.headers.lookup name =
      if name = ascii "Content-Length" then some (toDecimal res.body.length) else res.headers.lookup name

theorem read_responseBufs {res : Response} (hres : res.Printable) :
    ∃ msg, readMessage ((responseBufs res).flatMap (·.wb)) = some msg ∧ Decoded res msg := by
  generalize hn : toDecimal res.body.length = n
  have hbytes : (responseBufs res).flatMap (·.wb) = ascii "HTTP/1.1 " ++ res.code ++ [CR, LF] ++
      (((ascii "Content-Length", n) :: res.headers).flatMap headerBytes ++ [CR, LF] ++ res.body) := by
    have hlength : ascii "Content-Length: " = ascii "Content-Length" ++ ascii ": " := by decide +kernel
    have hheader : headerBytes = fun h : Bytes × Bytes => h.1 ++ (ascii ": " ++ (h.2 ++ [CR, LF])) :=
      funext fun h => by simp [headerBytes]
    simp [responseBufs, OwnedBuf.literal, hheader, List.flatMap_map, hn, hlength]
  have hstatus : ∀ b ∈ ascii "HTTP/1.1 " ++ res.code, b ≠ CR := by
    intro b hb
    rcases List.mem_append.mp hb with hb | hb
    · have hfree : ∀ b ∈ ascii "HTTP/1.1 ", b ≠ CR := by decide +kernel
      exact hfree b hb
    · exact (hres.code b hb).1
  have hdigit : ∀ b ∈ n, b ≠ CR ∧ b ≠ LF := by
    intro b hb
    have hb := toDecimal_digit (hn ▸ hb)
    constructor <;> rintro rfl <;> cases hb
  have hname : ∀ b ∈ ascii "Content-Length", b ≠ COLON ∧ b ≠ CR ∧ b ≠ LF := by decide +kernel
  obtain ⟨heol, htake, hdrop⟩ := find_line hstatus
    (((ascii "Content-Length", n) :: res.headers).flatMap headerBytes ++ [CR, LF] ++ res.body)
  have hfuel : ((ascii "Content-Length", n) :: res.headers).length < ((responseBufs res).flatMap (·.wb)).length := by
    rw [hbytes]
    have hlines := length_le_flatMap ((ascii "Content-Length", n) :: res.headers)
    simp only [List.length_append, List.length_cons] at hlines ⊢
    omega
  have hread := readHeaders_lines res.body ((ascii "Content-Length", n) :: res.headers) [] hfuel
    (List.forall_mem_cons.mpr ⟨hname, hres.names⟩) (List.forall_mem_cons.mpr ⟨hdigit, hres.values⟩)
  generalize hhs : List.foldl (fun (hs : Headers) h => hs.emplace h.1 h.2) []
    ((ascii "Content-Length", n) :: res.headers) = hs at hread
  refine ⟨⟨_, hs, res.body⟩, ?_, rfl, rfl, fun name => ?_⟩
  · rw [hbytes] at hread ⊢
    rw [readMessage, heol]
    simp only [Option.bind_eq_bind, Option.bind_some, htake, hdrop, hread]
    rfl
  · rw [← hhs, Headers.lookup_foldl, List.lookup_nil, Option.none_or, hn, List.lookup_cons]
    by_cases h : name = ascii "Content-Length"
    · simp [h]
    · have hne : (name == ascii "Content-Length") = false := by simpa using h
      simp [h, hne]

end PerClientStorage

namespace Worker

variable {c : Ptr} {fd : Fd} {w w' : Worker} {hd : Handler}

/-- What `generate_response` queues. -/
theorem generateResponse_queued (hat : w.At c fd) (hh : (w.heap c).requestHandler = some hd)
    (h : w.generateResponse c = some w') :
    Stream.queuedSince c w w' = PerClientStorage.responseBufs (hd (w.heap c).parser.req (w.heap c).parser.res) := by
  obtain ⟨w₁, sqes, -, hat₁, htrace, -, -, hflush⟩ := generateResponse_eq hat hh h
  have hsends := flushTask_prims hat₁ hflush
  obtain ⟨evs, htrace', -⟩ := hsends.trace
  have hnone : queuedOf c evs = [] := hsends.queuedOf_nil (fun h => by cases h) htrace'
  generalize PerClientStorage.responseBufs (hd (w.heap c).parser.req (w.heap c).parser.res) = bufs at htrace ⊢
  rw [Stream.queuedSince, htrace', htrace, List.append_assoc, List.drop_left, queuedOf_append, hnone, List.append_nil,
    ← List.singleton_append, queuedOf_append]
  simp [queuedOf, List.filterMap_map]

/-- The buffers that `generate_response` queues are read back as the response that the handler has left. -/
theorem response_decodes (hat : w.At c fd) (hh : (w.heap c).requestHandler = some hd)
    (h : w.generateResponse c = some w') (hres : (hd (w.heap c).parser.req (w.heap c).parser.res).Printable) :
    ∃ msg, readMessage ((Stream.queuedSince c w w').flatMap (·.wb)) = some msg ∧
      PerClientStorage.Decoded (hd (w.heap c).parser.req (w.heap c).parser.res) msg := by
  rw [generateResponse_queued hat hh h]
  exact PerClientStorage.read_responseBufs hres

/-- A handler that sets the length itself, a value that begins with a blank, and a body like the end of a head. -/
def cookie : Handler := fun _ res =>
  { res with
    headers := [(ascii "Content-Length", ascii "9"), (ascii "Set-Cookie", ascii " a: b")]
    body := [CR, LF, CR, LF] }

/-- A connection whose handler has been found. -/
def responding : Worker :=
  ((({ listenFd := 3, cfg := {}, routes := [], env := { sqes := [true] } } : Worker).addConn 5).2).modify 0 fun o =>
    { o with requestHandler := some cookie }

theorem response_decodes_cookie : ∃ w', responding.generateResponse 0 = some w' ∧
    ∃ msg, readMessage ((Stream.queuedSince 0 responding w').flatMap (·.wb)) = some msg ∧
      PerClientStorage.Decoded (cookie {} {}) msg := by
  have hobj : responding.heap 0 =
      { fd := 5, keepaliveLimit := 65000, hasOwner := true, requestHandler := some cookie } := rfl
  have hat : responding.At 0 5 := ⟨rfl, rfl⟩
  have hres : (cookie (responding.heap 0).parser.req (responding.heap 0).parser.res).Printable := by
    rw [hobj]
    exact ⟨by decide +kernel, by decide +kernel, by decide +kernel⟩
  obtain ⟨w', hw⟩ := Option.isSome_iff_exists.mp
    (show (responding.generateResponse 0).isSome = true by decide +kernel)
  have hdec := response_decodes hat (by rw [hobj]) hw hres
  rw [hobj] at hdec
  exact ⟨w', hw, hdec⟩

end Worker

end IOContext
