import IOContext.Http.Grammar
import IOContext.Strides

/-!
# Exceptions

`parse_step` converts the announced length with `std::stoull` after every segment of a body, and nothing up to the
thread's entry point catches what it throws. The worker ends so exactly if a client sends a head whose length cannot be
read (`terminated_iff`).
-/

namespace IOContext

/-- The bytes begin with a complete head, and its first `Content-Length` is no number of 64 bits. -/
def UnreadableHead (s : Bytes) : Prop :=
  ∃ method path protocol headers body value, (∀ b ∈ method, b ≠ SP ∧ b ≠ CR ∧ b ≠ LF) ∧
    (∀ b ∈ path, b ≠ SP ∧ b ≠ CR ∧ b ≠ LF) ∧ (∀ b ∈ protocol, b ≠ CR ∧ b ≠ LF) ∧
    (∀ h ∈ headers, ProcessingMachine.TakesHeader h) ∧ s = requestBytes method path protocol headers body ∧
    headers.lookup (ascii "Content-Length") = some value ∧ stoull value = none

/-- A name that is present has a value. -/
theorem Headers.contains_iff_lookup (hs : Headers) (name : Bytes) :
    hs.contains name = true ↔ ∃ value, hs.lookup name = some value := by
  rw [contains_iff, ← Option.ne_none_iff_exists', Ne, List.lookup_eq_none_iff]
  simp

namespace ProcessingMachine

variable {m : ProcessingMachine}

theorem unreadable_iff : m.Unreadable ↔
    m.state = .body ∧ ∃ value, m.req.headers.lookup (ascii "Content-Length") = some value ∧ stoull value = none := by
  unfold Unreadable Numeric
  refine and_congr_right fun _ => ?_
  rw [Classical.not_imp, not_ne_iff, Headers.contains_iff_lookup]
  constructor
  · rintro ⟨⟨value, hvalue⟩, hread⟩
    exact ⟨value, hvalue, by simpa [Headers.get, hvalue] using hread⟩
  · rintro ⟨value, hvalue, hread⟩
    exact ⟨⟨value, hvalue⟩, by simpa [Headers.get, hvalue] using hread⟩

/-- The parser comes to a length that it cannot read exactly on such a head. -/
theorem unreadable_onSegment_iff (s : Bytes) :
    (({} : ProcessingMachine).onSegment s).Unreadable ↔ UnreadableHead s := by
  rw [unreadable_iff]
  constructor
  · rintro ⟨hbody, value, hvalue, hread⟩
    obtain ⟨method, path, protocol, headers, body, hmethod, hpath, hprotocol, hheaders, rfl⟩ := accepted hbody
    rw [feed_requestBytes hmethod hpath hprotocol hheaders] at hvalue
    simp only [Headers.lookup_foldl, List.lookup_nil, Option.none_or] at hvalue
    exact ⟨method, path, protocol, headers, body, value, hmethod, hpath, hprotocol, hheaders, rfl, hvalue, hread⟩
  · rintro ⟨method, path, protocol, headers, body, value, hmethod, hpath, hprotocol, hheaders, rfl, hvalue, hread⟩
    rw [feed_requestBytes hmethod hpath hprotocol hheaders]
    exact ⟨rfl, value, by simpa [Headers.lookup_foldl] using hvalue, hread⟩

/-- What follows is body. -/
theorem Unreadable.onSegment (h : m.Unreadable) (p : Bytes) : (m.onSegment p).Unreadable := by
  rw [onSegment_body h.1]
  exact h

end ProcessingMachine

namespace Worker

variable {finds : Prop} {w w' : Worker} {evs : List Event} {c : Ptr}

/-- A parser that is not fed stays as it is. -/
theorem parserOf_unfed (h : ∀ e ∈ evs, ∀ seg, e ≠ .segment c seg) (evs₀ : List Event) :
    parserOf c (evs₀ ++ evs) = parserOf c evs₀ := by
  induction evs using List.reverseRecOn with
  | nil => rw [List.append_nil]
  | append_singleton evs e ih =>
    have hlast : ∀ m, e.parse c m = m := fun m => by
      cases e with
      | segment q seg => exact if_neg fun hq => h (.segment q seg) (by simp) seg (by rw [hq])
      | sqe | enqueue | invoke => rfl
    rw [← List.append_assoc, parserOf_append, hlast, ih fun e he => h e (List.mem_append_left _ he)]

theorem Plain.parserOf (h : Plain finds w w') (c : Ptr) : parserOf c w'.trace = parserOf c w.trace := by
  obtain ⟨evs, htrace, hev⟩ := h.trace
  rw [htrace]
  refine parserOf_unfed (fun e he seg hseg => ?_) _
  have hplain := hev e he
  rw [hseg] at hplain
  exact hplain

/-- A worker has ended by an exception exactly if a parser has come to a length that it cannot read. -/
def CrashIff (w : Worker) : Prop := w.terminated = true ↔ ∃ c, (parserOf c w.trace).Unreadable

theorem CrashIff.stride (h : w.CrashIff) (hst : Stride finds w w') : w'.CrashIff := by
  unfold CrashIff at h
  cases hst with
  | plain hp =>
    unfold CrashIff
    simp only [hp.terminated, hp.parserOf]
    exact h
  | reads c hr =>
    obtain ⟨seg, evs, htrace, hev, hterm⟩ := hr.trace
    have hread : ∀ q, parserOf q w'.trace = parserOf q (w.trace ++ [.segment c seg]) := fun q => by
      rw [htrace, List.append_cons]
      refine parserOf_unfed (fun e he seg' hseg => ?_) _
      obtain ⟨_, _, _, hsqe, -⟩ := hev e he
      rw [hseg] at hsqe
      cases hsqe
    unfold CrashIff
    simp only [hread]
    rw [hterm, h]
    constructor
    · rintro (⟨q, hq⟩ | hc)
      · refine ⟨q, ?_⟩
        rw [parserOf_append]
        by_cases hcq : c = q
        · simpa [Event.parse, hcq] using hq.onSegment seg
        · simpa [Event.parse, hcq] using hq
      · exact ⟨c, hc⟩
    · rintro ⟨q, hq⟩
      by_cases hcq : c = q
      · exact .inr (hcq ▸ hq)
      · rw [parserOf_append] at hq
        exact .inl ⟨q, by simpa [Event.parse, hcq] using hq⟩

end Worker

namespace Sys

open Worker

variable {d : Dispatch} {ok : Sys → Action → Prop} {s : Sys}

/-- In every state reached, an exception has ended the worker exactly if the parser of some connection has been fed a
head whose `Content-Length` cannot be read. -/
theorem terminated_iff (h : Reachable d ok s) : s.w.terminated = true ↔ ∃ c, UnreadableHead (fed c s.w.trace) := by
  have hcrash : s.w.CrashIff := stride_invariant (I := CrashIff)
    (fun _ _ _ _ => ⟨(fun h => by cases h), fun ⟨_, h⟩ => (by cases h.1)⟩) (fun _ _ hi hst => hi.stride hst) h
  unfold CrashIff at hcrash
  rw [hcrash]
  refine exists_congr fun c => ?_
  rw [← ProcessingMachine.unreadable_onSegment_iff]
  rcases parserOf_eq c s.w.trace with ⟨hfresh, hnil⟩ | hread
  · rw [hfresh, hnil]
    exact ⟨(fun hu => by cases hu.1), fun hu => (by cases hu.1)⟩
  · rw [hread]

/-- A client sends a request with the given value of `Content-Length`. -/
def announced (value : Bytes) : List Action :=
  let request := ascii "GET / HTTP/1.1" ++ [CR, LF] ++ (ascii "Content-Length:" ++ value ++ [CR, LF]) ++ [CR, LF]
  [.complete 0 { res := 5, more := true } [] { sqes := [true] },
    .complete 1 { res := Int32.ofNat request.length } request { sqes := [true, true, true, true] }]

theorem terminated_iff_announced : ∃ s, serve .tagged (fun _ _ => True) (announced (ascii " 0")) = some s ∧
    s.w.terminated = false ∧ ¬∃ c, UnreadableHead (fed c s.w.trace) := by
  obtain ⟨s, hs, hobs⟩ := Option.map_eq_some_iff.mp (show
    (serve .tagged (fun _ _ => True) (announced (ascii " 0"))).map (fun s => s.w.terminated) = some false by
      decide +kernel)
  refine ⟨s, hs, hobs, fun hcrash => ?_⟩
  rw [(terminated_iff (run_reachable hs)).mpr hcrash] at hobs
  cases hobs

/-- The value has no digits: `std::stoull` throws. -/
theorem stoull_throws : ∃ s, Reachable .tagged (fun _ _ => True) s ∧
    fed 0 s.w.trace = ascii "GET / HTTP/1.1" ++ [CR, LF] ++
    (ascii "Content-Length:" ++ ascii " x" ++ [CR, LF]) ++ [CR, LF] ∧ s.w.terminated = true := by
  obtain ⟨s, hs, hobs⟩ := Option.map_eq_some_iff.mp (show
    (serve .tagged (fun _ _ => True) (announced (ascii " x"))).map (fun s => (decide (fed 0 s.w.trace =
      ascii "GET / HTTP/1.1" ++ [CR, LF] ++ (ascii "Content-Length:" ++ ascii " x" ++ [CR, LF]) ++ [CR, LF]),
        s.w.terminated)) = some (true, true) by decide +kernel)
  simp only [Prod.mk.injEq] at hobs
  exact ⟨s, run_reachable hs, of_decide_eq_true hobs.1, hobs.2⟩

end Sys

end IOContext
