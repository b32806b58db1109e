import IOContext.Http.Render
import Mathlib.Data.List.TakeWhile

/-!
# Where a request ends

`parse_step` takes a request for complete when the headers are, and the body is as long as `Content-Length` says, if
there is one.

- `std::stoull` reads back what `std::to_string` has written, after blanks (`stoull_toDecimal`).
- A framed request is complete with its last byte (`Framed.complete`) and not before (`Framed.prefix_incomplete`).
-/

namespace IOContext

/-! ## Decimal numbers -/

/-- The digits of a number, as characters. -/
theorem toDigits_bounds {n : Nat} {c : Char} (h : c ∈ Nat.toDigits 10 n) : 48 ≤ c.toNat ∧ c.toNat ≤ 57 := by
  have hdigit := Nat.isDigit_of_mem_toDigits (by decide) (by decide) h
  simpa [Char.isDigit, UInt32.le_iff_toNat_le] using hdigit

theorem toNat_toUInt8 {n : Nat} {c : Char} (h : c ∈ Nat.toDigits 10 n) : c.toNat.toUInt8.toNat = c.toNat := by
  obtain ⟨-, hle⟩ := toDigits_bounds h
  exact Nat.mod_eq_of_lt (by omega)

theorem toDecimal_digit {n : Nat} {b : UInt8} (h : b ∈ toDecimal n) : isDigit b = true := by
  obtain ⟨c, hc, rfl⟩ := List.mem_map.mp h
  obtain ⟨h1, h2⟩ := toDigits_bounds hc
  simp only [isDigit, Bool.and_eq_true, decide_eq_true_eq, UInt8.le_iff_toNat_le, toNat_toUInt8 hc]
  exact ⟨h1, h2⟩

/-- The digits of a number have its value. -/
theorem decimal_toDecimal (n : Nat) : decimal (toDecimal n) = n := by
  have hfold : ∀ (cs : List Char) (v : Nat), (∀ c ∈ cs, c.toNat.toUInt8.toNat = c.toNat) →
      (cs.map fun c => c.toNat.toUInt8).foldl (fun v d => 10 * v + (d.toNat - 48)) v = Nat.ofDigitChars 10 cs v := by
    intro cs
    induction cs with
    | nil => exact fun _ _ => rfl
    | cons c cs ih =>
      intro v hcs
      rw [List.map_cons, List.foldl_cons, hcs c List.mem_cons_self, Nat.ofDigitChars_cons]
      exact ih _ fun c hc => hcs c (List.mem_cons_of_mem _ hc)
  rw [decimal, toDecimal, hfold _ 0 fun c => toNat_toUInt8, Nat.ofDigitChars_ten_toDigits]

/-- A number is read back, also after blanks. -/
theorem stoull_toDecimal {blanks : Bytes} {n : Nat} (hblanks : ∀ b ∈ blanks, isSpace b = true) (hn : n < 2 ^ 64) :
    stoull (blanks ++ toDecimal n) = some (UInt64.ofNat n) := by
  have hne : toDecimal n ≠ [] := by
    unfold toDecimal
    simp
  obtain ⟨b, ds, hds⟩ := List.exists_cons_of_ne_nil hne
  have hb : isDigit b = true := toDecimal_digit (n := n) (by rw [hds]; exact List.mem_cons_self)
  have hdrop : (blanks ++ toDecimal n).dropWhile isSpace = toDecimal n := by
    rw [List.dropWhile_append_of_pos hblanks, hds, List.dropWhile_cons_of_neg]
    simp only [isDigit, isSpace] at hb ⊢
    grind
  have htake : (toDecimal n).takeWhile isDigit = toDecimal n :=
    List.takeWhile_eq_self_iff.mpr fun _ => toDecimal_digit
  have hsign : b ≠ 45 ∧ b ≠ 43 := by
    simp only [isDigit] at hb
    grind
  have hds' := decimal_toDecimal n
  unfold stoull
  rw [hdrop]
  rw [hds] at htake hds' hne ⊢
  dsimp only
  split
  · rename_i heq
    exact absurd (List.cons.inj heq).1 hsign.1
  · rename_i heq
    exact absurd (List.cons.inj heq).1 hsign.2
  · rw [htake, if_neg hne, hds', if_pos hn]
    rfl

/-! ## Complete requests -/

namespace ProcessingMachine

/-- The headers have been read, and as much of a body as they announce. -/
def Complete (m : ProcessingMachine) : Prop :=
  m.state = .body ∧ (m.req.headers.contains (ascii "Content-Length") = true →
    (stoull (m.req.headers.get (ascii "Content-Length"))).map UInt64.toNat = some m.req.body.length)

instance (m : ProcessingMachine) : Decidable m.Complete := inferInstanceAs (Decidable (_ ∧ _))

/-- A length that is announced is a number. -/
def Numeric (m : ProcessingMachine) : Prop :=
  m.req.headers.contains (ascii "Content-Length") = true → stoull (m.req.headers.get (ascii "Content-Length")) ≠ none

end ProcessingMachine

namespace WireRequest

open ProcessingMachine

variable {r : WireRequest} {p q : Bytes}

/-- The length that a framed request announces, as the parser reads it. -/
theorem Framed.announced (hr : r.Framed) (h : r.toRequest.headers.contains (ascii "Content-Length") = true) :
    r.body.length < 2 ^ 64 ∧
      stoull (r.toRequest.headers.get (ascii "Content-Length")) = some (UInt64.ofNat r.body.length) := by
  rcases hr with ⟨hnone, -⟩ | ⟨-, hlen, blanks, hblanks, hvalue⟩
  · rw [hnone] at h
    cases h
  · exact ⟨hlen, by rw [hvalue, stoull_toDecimal hblanks hlen]⟩

/-- A fresh parser reads the whole request. -/
theorem onSegment_render (r : WireRequest) :
    ({} : ProcessingMachine).onSegment r.render = { req := r.toRequest, state := .body } := by
  have hparse := feed_render_append r []
  rw [List.append_nil, List.append_nil] at hparse
  exact hparse

/-- A framed request is complete with its last byte. -/
theorem Framed.complete (hr : r.Framed) : (({} : ProcessingMachine).onSegment r.render).Complete := by
  rw [onSegment_render]
  refine ⟨rfl, fun h => ?_⟩
  obtain ⟨hlen, hread⟩ := hr.announced h
  rw [hread, Option.map_some, UInt64.toNat_ofNat_of_lt' hlen]
  rfl

/-- What has been read of a request is no error. -/
theorem prefix_no_error (h : r.render = p ++ q) : (({} : ProcessingMachine).onSegment p).state ≠ .errorState := by
  intro he
  have hread := onSegment_onSegment {} p q
  rw [← h, onSegment_render, onSegment_error he] at hread
  rw [hread] at he
  cases he

/-- A part of a request that ends in the body has all its headers, and the rest is body. -/
theorem prefix_body (h : r.render = p ++ q) (hbody : (({} : ProcessingMachine).onSegment p).state = .body) :
    (({} : ProcessingMachine).onSegment p).req.headers = r.toRequest.headers ∧
      (({} : ProcessingMachine).onSegment p).req.body ++ q = r.body := by
  have hread := onSegment_onSegment {} p q
  rw [← h, onSegment_render, onSegment_body hbody] at hread
  exact ⟨congrArg (fun m : ProcessingMachine => m.req.headers) hread,
    congrArg (fun m : ProcessingMachine => m.req.body) hread⟩

/-- Before its last byte a framed request is not complete. -/
theorem Framed.prefix_incomplete (hr : r.Framed) (h : r.render = p ++ q) (hq : q ≠ []) :
    ¬(({} : ProcessingMachine).onSegment p).Complete := by
  rintro ⟨hbody, hlen⟩
  obtain ⟨hheaders, hrest⟩ := prefix_body h hbody
  have hshort : (({} : ProcessingMachine).onSegment p).req.body.length < r.body.length := by
    have hpos := List.length_pos_iff.mpr hq
    rw [← hrest, List.length_append]
    omega
  rw [hheaders] at hlen
  cases hcl : r.toRequest.headers.contains (ascii "Content-Length") with
  | false =>
    rcases hr with ⟨-, hempty⟩ | ⟨hcl', -⟩
    · rw [hempty] at hshort
      exact Nat.not_lt_zero _ hshort
    · rw [hcl] at hcl'
      cases hcl'
  | true =>
    obtain ⟨hlt, hread⟩ := hr.announced hcl
    have hlen := hlen hcl
    rw [hread, Option.map_some, UInt64.toNat_ofNat_of_lt' hlt] at hlen
    exact Nat.ne_of_gt hshort (Option.some.inj hlen)

/-- The length that has been read of a framed request is a number. -/
theorem Framed.numeric (hr : r.Framed) (h : r.render = p ++ q)
    (hbody : (({} : ProcessingMachine).onSegment p).state = .body) :
    (({} : ProcessingMachine).onSegment p).Numeric := by
  intro hcl
  rw [(prefix_body h hbody).1] at hcl ⊢
  rw [(hr.announced hcl).2]
  exact Option.some_ne_none _

end WireRequest

end IOContext
