import IOContext.Base.Sequence
import IOContext.Delivery

/-!
# Responses on one connection

A client that keeps its connection reads one message after another: a head, and as many bytes of body as the first
`Content-Length` of the head says (`readFramed`).

- A response is read back like this whatever follows it (`read_response`).
- So a client to which nothing is left to send has read the responses of its calls, and nothing else
  (`clients_read_replies`).
-/

namespace IOContext

open Search

/-- A message, and what follows it. -/
def readFramed (s : Bytes) : Option (Message × Bytes) := do
  let eol ← find [CR, LF] s
  let (hs, rest) ← readHeaders s.length (s.drop (eol + 2)) []
  let len := decimal (hs.get (ascii "Content-Length"))
  if len ≤ rest.length then some (⟨s.take eol, hs, rest.take len⟩, rest.drop len) else none

/-- All the messages. -/
def readMessages (s : Bytes) : Option (List Message) := readAll readFramed s.length s

namespace PerClientStorage

def responseBytes (res : Response) : Bytes := (responseBufs res).flatMap (·.wb)

/-- The head of a response in front of its body. -/
theorem responseBytes_eq (res : Response) : responseBytes res = ascii "HTTP/1.1 " ++ res.code ++ [CR, LF] ++
    (((ascii "Content-Length", toDecimal res.body.length) :: res.headers).flatMap headerBytes ++ [CR, LF] ++
      res.body) := by
  generalize hn : toDecimal res.body.length = n
  have hlength : ascii "Content-Length: " = ascii "Content-Length" ++ ascii ": " := by decide +kernel
  have hheader : headerBytes = fun h : Bytes × Bytes => h.1 ++ (ascii ": " ++ (h.2 ++ [CR, LF])) :=
    funext fun h => by simp [headerBytes]
  simp [responseBytes, responseBufs, OwnedBuf.literal, hheader, List.flatMap_map, hn, hlength]

/-- The lines of the head of a printable response can be told apart. -/
theorem Printable.lines {res : Response} (hres : res.Printable) :
    (∀ b ∈ ascii "HTTP/1.1 " ++ res.code, b ≠ CR) ∧
    (∀ h ∈ (ascii "Content-Length", toDecimal res.body.length) :: res.headers,
      ∀ b ∈ h.1, b ≠ COLON ∧ b ≠ CR ∧ b ≠ LF) ∧
    ∀ h ∈ (ascii "Content-Length", toDecimal res.body.length) :: res.headers, ∀ b ∈ h.2, b ≠ CR ∧ b ≠ LF := by
  have hname : ∀ b ∈ ascii "Content-Length", b ≠ COLON ∧ b ≠ CR ∧ b ≠ LF := by decide +kernel
  refine ⟨fun b hb => ?_, List.forall_mem_cons.mpr ⟨hname, hres.names⟩,
    List.forall_mem_cons.mpr ⟨fun b hb => ?_, hres.values⟩⟩
  · rcases List.mem_append.mp hb with hb | hb
    · have hfree : ∀ b ∈ ascii "HTTP/1.1 ", b ≠ CR := by decide +kernel
      exact hfree b hb
    · exact (hres.code b hb).1
  · have hb := toDecimal_digit hb
    constructor <;> rintro rfl <;> cases hb

theorem read_response {res : Response} (hres : res.Printable) (t : Bytes) :
    ∃ msg, readFramed (responseBytes res ++ t) = some (msg, t) ∧ Decoded res msg := by
  obtain ⟨hstatus, hnames, hvalues⟩ := Printable.lines hres
  have hbytes : responseBytes res ++ t = ascii "HTTP/1.1 " ++ res.code ++ [CR, LF] ++
      (((ascii "Content-Length", toDecimal res.body.length) :: res.headers).flatMap headerBytes ++ [CR, LF] ++
        (res.body ++ t)) := by
    rw [responseBytes_eq]
    simp only [List.append_assoc]
  obtain ⟨heol, htake, hdrop⟩ := find_line hstatus
    (((ascii "Content-Length", toDecimal res.body.length) :: res.headers).flatMap headerBytes ++ [CR, LF] ++
      (res.body ++ t))
  have hfuel : ((ascii "Content-Length", toDecimal res.body.length) :: res.headers).length <
      (responseBytes res ++ t).length := by
    have hlines := length_le_flatMap ((ascii "Content-Length", toDecimal res.body.length) :: res.headers)
    rw [hbytes]
    simp only [List.length_append, List.length_cons] at hlines ⊢
    omega
  have hread := readHeaders_lines (res.body ++ t) _ [] hfuel hnames hvalues
  generalize hhs : List.foldl (fun (hs : Headers) h => hs.emplace h.1 h.2) []
    ((ascii "Content-Length", toDecimal res.body.length) :: res.headers) = hs at hread
  have hlookup : ∀ name, hs.lookup name = if name = ascii "Content-Length" then some (toDecimal res.body.length)
      else res.headers.lookup name := fun name => by
    rw [← hhs, Headers.lookup_foldl, List.lookup_nil, Option.none_or, List.lookup_cons]
    by_cases h : name = ascii "Content-Length"
    · simp [h]
    · have hne : (name == ascii "Content-Length") = false := by simpa using h
      simp [h, hne]
  have hlen : decimal (hs.get (ascii "Content-Length")) = res.body.length := by
    rw [Headers.get, hlookup, if_pos rfl, Option.getD_some, decimal_toDecimal]
  refine ⟨⟨_, hs, res.body⟩, ?_, rfl, rfl, hlookup⟩
  rw [hbytes] at hread ⊢
  rw [readFramed, heol]
  simp only [Option.bind_eq_bind, Option.bind_some, htake, hdrop, hread, hlen]
  rw [if_pos (by simp), List.take_left, List.drop_left]

theorem responseBytes_ne (res : Response) : responseBytes res ≠ [] := by
  rw [responseBytes_eq]
  simp

end PerClientStorage

namespace Delivery

open PerClientStorage

/-- A client to which nothing is left to send has read the responses that the calls for it have left, and nothing
else, if these can be told apart from their heads. -/
theorem clients_read_replies {x : Delivery}
    (h : Reach Init (step .posted) (fun x a => x.s.OwnEntry a ∧ x.WholeSends a) x) {c : Ptr} {fd : Fd}
    (hfd : x.s.w.table fd = some c) (htxq : (x.s.w.heap c).txq = []) (hidle : (x.s.w.heap c).sendInflight = false)
    (hprint : ∀ k ∈ invocationsOf c x.s.w.trace, k.left.Printable) :
    ∃ msgs, readMessages (x.taken c) = some msgs ∧
      List.Forall₂ (fun k => Decoded k.left) (invocationsOf c x.s.w.trace) msgs := by
  have hall : x.taken c = (invocationsOf c x.s.w.trace).flatMap Call.bytes :=
    taken_all h hfd htxq hidle
  rw [hall]
  exact readAll_flatMap (fun k _ => responseBytes_ne k.left) fun k hk t => read_response (hprint k hk) t

/-- A client sends its request twice; the handler appends to the body that it finds. -/
def asksTwice : List Action :=
  Sys.request ++ Sys.response ++ [
    .complete 5 { res := 40 } [] {},
    .complete 3 { res := 18 } Sys.getRoot.render { sqes := [true, true, true, true] },
    .complete 4 { res := 0 } [] {},
    .complete 5 { res := 0 } [] { sqes := [true] },
    .complete 7 { res := 0 } [] { sqes := [true] },
    .complete 8 { res := 42 } [] {}]

/-- The client reads two messages, the second with the body of the first in front. -/
theorem clients_read_replies_twice : ∃ x : Delivery,
    (invocationsOf 0 x.s.w.trace).map (·.left.body) = [ascii "hi", ascii "hihi"] ∧
    ∃ msgs, readMessages (x.taken 0) = some msgs ∧
      List.Forall₂ (fun k => Decoded k.left) (invocationsOf 0 x.s.w.trace) msgs := by
  obtain ⟨s, hs, hobs⟩ := Option.bind_eq_some_iff.mp (show
    ((Sys.withoutPool [(ascii "/", fun _ res => { res with body := res.body ++ ascii "hi" })]).bind
      fun s => (execAll (step .posted) (fun x a => x.s.OwnEntry a ∧ x.WholeSends a) asksTwice { s := s }).map fun x =>
        (x.s.w.table 5, (x.s.w.heap 0).txq, (x.s.w.heap 0).sendInflight, (invocationsOf 0 x.s.w.trace).map Call.left)) =
    some (some 0, [], false, [{ body := ascii "hi" }, { body := ascii "hihi" }]) by decide +kernel)
  obtain ⟨x, hx, hobs⟩ := Option.map_eq_some_iff.mp hobs
  simp only [Prod.mk.injEq] at hobs
  obtain ⟨hfd, htxq, hidle, hleft⟩ := hobs
  have hinit : Init { s := s } := ⟨Sys.start_init (show Sys.start 3 {} _ _ _ _ = some s from hs), rfl⟩
  have hprint : ∀ k ∈ invocationsOf 0 x.s.w.trace, k.left.Printable := fun k hk => by
    have hmem := List.mem_map_of_mem (f := Call.left) hk
    rw [hleft, List.mem_cons, List.mem_singleton] at hmem
    rcases hmem with hmem | hmem <;> rw [hmem] <;> exact ⟨by decide +kernel, by decide +kernel, by decide +kernel⟩
  refine ⟨x, ?_, clients_read_replies (.exec (.start hinit) hx) hfd htxq hidle hprint⟩
  have hbodies := congrArg (List.map Response.body) hleft
  rwa [List.map_map] at hbodies

end Delivery

end IOContext
