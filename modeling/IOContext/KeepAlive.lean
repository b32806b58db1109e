import IOContext.Http.Render
import IOContext.Parsed

/-!
# Several requests on one connection

The parser of a connection is never reset: after one complete request it takes all further bytes as body
(`parserOf_renderAll`), so that no call is made with a later request (`never_served_as_first`).
-/

namespace IOContext

/-! ## Requests in a row -/

open WireRequest in
/-- After a complete request everything is body. -/
theorem parserOf_renderAll {c : Ptr} {evs : List Event} {q : WireRequest} {p : Bytes} (h : fed c evs = q.render ++ p) :
    (parserOf c evs).req = { q.toRequest with body := q.body ++ p } := by
  rcases parserOf_eq c evs with ⟨-, hnil⟩ | hparser
  · have hlen := congrArg List.length (hnil.symm.trans h)
    have := q.body_lt_render
    simp only [List.length_append, List.length_nil] at hlen
    omega
  · rw [hparser, h, ProcessingMachine.feed_render_append]

namespace Worker

/-- The handler for the path of `r` is called once with `r` and a default response after `qs` and `r` have arrived, in
this order: what becomes of `r` is what would become of it on a new connection. -/
def ServedAsFirst (w : Worker) (c : Ptr) (qs : List WireRequest) (r : WireRequest) : Prop :=
  ∃! k, ∃ h p, w.routes.lookup r.path = some h ∧ w.trace[k]? = some (.invoke c h r.toRequest {}) ∧
    fed c (w.trace.take k) = WireRequest.renderAll qs ++ r.render ++ p

/-- A call after two requests have arrived is not made with the later one. -/
theorem Parsed.not_served {w : Worker} (hp : w.Parsed) (c : Ptr) {qs : List WireRequest} (hqs : qs ≠ [])
    (r : WireRequest) : ¬w.ServedAsFirst c qs r := by
  rintro ⟨k, ⟨h, p, -, hk, hfed⟩, -⟩
  obtain ⟨q, qs, rfl⟩ := List.exists_cons_of_ne_nil hqs
  have hreq := hp.invoked k c h _ _ hk
  rw [parserOf_renderAll (q := q) (p := WireRequest.renderAll qs ++ r.render ++ p)
    (by rw [hfed]; simp [WireRequest.renderAll])] at hreq
  have hlen := congrArg (fun req => req.body.length) hreq
  have := r.body_lt_render
  simp only [WireRequest.toRequest, List.length_append] at hlen
  omega

end Worker

namespace Sys

open Worker

variable {d : Dispatch} {ok : Sys → Action → Prop} {s : Sys}

/-- In no run is a request that follows others on its connection served as it would be on a new connection. -/
theorem never_served_as_first (h : Reachable d ok s) (c : Ptr) {qs : List WireRequest} (hqs : qs ≠ [])
    (r : WireRequest) : ¬s.w.ServedAsFirst c qs r := (parsed h).not_served c hqs r

/-- `GET / HTTP/1.1` without headers. -/
def getRoot : WireRequest where
  method := ascii "GET"
  path := ascii "/"
  protocol := ascii "HTTP/1.1"
  headers := []
  body := []
  method_free := by decide +kernel
  path_free := by decide +kernel
  protocol_free := by decide +kernel
  names_ne := by decide +kernel
  names_free := by decide +kernel
  values_free := by decide +kernel

/-- The requests with which handlers are called. -/
def calls (evs : List Event) : List Request :=
  evs.filterMap fun
    | .invoke _ _ req _ => some req
    | _ => none

/-- The client sends its request a second time; the handler is looked up and called for it. -/
def twice : List Action :=
  request ++ [
    .complete 2 { res := 0 } [] { sqes := [true] },
    .complete 3 { res := 18 } getRoot.render { sqes := [true, true, true, true] },
    .complete 5 { res := 0 } [] {},
    .complete 6 { res := 0 } [] { sqes := [true] }]

theorem never_served_as_first_twice : ∃ s, serve .tagged (fun _ _ => True) twice = some s ∧
    ¬s.w.ServedAsFirst 0 [getRoot] getRoot := by
  obtain ⟨s, hs, -⟩ := Option.map_eq_some_iff.mp (show (serve .tagged (fun _ _ => True) twice).map (fun _ => ()) =
    some () by decide +kernel)
  exact ⟨s, hs, never_served_as_first (run_reachable hs) 0 (by simp) getRoot⟩

/-- The second call sees the second request as the body of the first. -/
theorem second_request_as_body : ∃ s, serve .tagged (fun _ _ => True) twice = some s ∧
    Reachable .tagged (fun _ _ => True) s ∧ getRoot.Framed ∧
    fed 0 s.w.trace = WireRequest.renderAll [getRoot] ++ getRoot.render ∧
    (∀ p ∈ s.pending, p.posted ≠ some (5, .generateResponse)) ∧
    calls s.w.trace = [getRoot.toRequest, { getRoot.toRequest with body := getRoot.render }] ∧
    ¬s.w.ServedAsFirst 0 [getRoot] getRoot := by
  obtain ⟨s, hs, hobs⟩ := Option.map_eq_some_iff.mp (show (serve .tagged (fun _ _ => True) twice).map (fun s =>
    (fed 0 s.w.trace, decide (∀ p ∈ s.pending, p.posted ≠ some (5, .generateResponse)), calls s.w.trace)) =
    some (WireRequest.renderAll [getRoot] ++ getRoot.render, true,
      [getRoot.toRequest, { getRoot.toRequest with body := getRoot.render }]) by decide +kernel)
  simp only [Prod.mk.injEq] at hobs
  have hr := run_reachable hs
  exact ⟨s, hs, hr, .inl ⟨by decide, rfl⟩, hobs.1, of_decide_eq_true hobs.2.1, hobs.2.2,
    (parsed hr).not_served 0 (by simp) getRoot⟩

end Sys

end IOContext
