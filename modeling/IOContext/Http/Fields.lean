import IOContext.Http.Grammar

/-!
# What the parser has read, and what it is reading

- What is complete does not change any more: a byte changes only the field that is being read, and no phase is left for
  an earlier one (`step_stable`, `fields_stable`).
- What is not complete is in the scratch buffers. All five fields share them, and each leaves them empty: they hold the
  bytes of the field that is being read, and nothing else (`scratch_concat`, `scratch_discipline`).
-/

namespace IOContext

/-- The request line, the headers, the body, and a request that is no good. -/
def ProcessingState.phase : ProcessingState → Nat
  | notStarted | method | path | protocolVersion => 0
  | headerName | headerValue | cr | crlf | crlfcr | crlfcrlf | unnamed _ _ => 1
  | body => 2
  | errorState => 3

namespace ProcessingMachine

variable {m m' m'' : ProcessingMachine} {s t p : Bytes} {c : UInt8}

/-! ## Complete fields -/

def PastMethod (m : ProcessingMachine) : Prop := m.state ≠ .notStarted ∧ m.state ≠ .method

/-- The method and the path have been read. -/
def PastPath (m : ProcessingMachine) : Prop := m.state ≠ .notStarted ∧ m.state ≠ .method ∧ m.state ≠ .path

def PastProtocol (m : ProcessingMachine) : Prop :=
  m.state ≠ .notStarted ∧ m.state ≠ .method ∧ m.state ≠ .path ∧ m.state ≠ .protocolVersion

/-- From `m` to `m'` nothing that was complete has changed. -/
structure Stable (m m' : ProcessingMachine) : Prop where
  method : m.PastMethod → m'.PastMethod ∧ m'.req.method = m.req.method
  path : m.PastPath → m'.PastPath ∧ m'.req.path = m.req.path
  protocol : m.PastProtocol → m'.PastProtocol ∧ m'.req.protocol = m.req.protocol
  headers : ∀ name value, m.req.headers.lookup name = some value → m'.req.headers.lookup name = some value
  body : m.req.body <+: m'.req.body
  phase : m.state.phase ≤ m'.state.phase

namespace Stable

theorem refl (m : ProcessingMachine) : m.Stable m :=
  ⟨fun h => ⟨h, rfl⟩, fun h => ⟨h, rfl⟩, fun h => ⟨h, rfl⟩, fun _ _ h => h, List.prefix_rfl, Nat.le_refl _⟩

theorem trans (h : m.Stable m') (h' : m'.Stable m'') : m.Stable m'' where
  method hm := by
    obtain ⟨hm', heq⟩ := h.method hm
    exact ⟨(h'.method hm').1, (h'.method hm').2.trans heq⟩
  path hm := by
    obtain ⟨hm', heq⟩ := h.path hm
    exact ⟨(h'.path hm').1, (h'.path hm').2.trans heq⟩
  protocol hm := by
    obtain ⟨hm', heq⟩ := h.protocol hm
    exact ⟨(h'.protocol hm').1, (h'.protocol hm').2.trans heq⟩
  headers name value hv := h'.headers name value (h.headers name value hv)
  body := h.body.trans h'.body
  phase := h.phase.trans h'.phase

end Stable

/-- A name that is present keeps its value. -/
theorem lookup_emplace_of_some {hs : Headers} {name value : Bytes} (h : hs.lookup name = some value) (n v : Bytes) :
    (hs.emplace n v).lookup name = some value := by
  rw [Headers.lookup_emplace, h]
  rfl

theorem step_stable (m : ProcessingMachine) (c : UInt8) : m.Stable (m.step c) := by
  unfold step
  split <;> (repeat' split) <;> constructor <;>
    simp_all [PastMethod, PastPath, PastProtocol, ProcessingState.phase, lookup_emplace_of_some]

theorem feed_stable (m : ProcessingMachine) (p : Bytes) : m.Stable (m.feed p) := by
  induction p generalizing m with
  | nil => exact .refl m
  | cons c p ih =>
    by_cases he : m.state = .errorState
    · rw [feed_error he]
      exact .refl m
    · rw [feed_cons he]
      exact (step_stable m c).trans (ih _)

theorem start_stable (m : ProcessingMachine) : m.Stable m.start := by
  unfold start
  split <;> constructor <;> simp_all [PastMethod, PastPath, PastProtocol, ProcessingState.phase]

/-- Nothing that is complete is changed by a further segment. -/
theorem fields_stable (m : ProcessingMachine) (p : Bytes) : m.Stable (m.onSegment p) :=
  (start_stable m).trans (feed_stable _ p)

/-! ## The field that is being read -/

/-- The parser after these bytes. -/
abbrev after (s : Bytes) : ProcessingMachine := ({} : ProcessingMachine).onSegment s

/-- Behind `s` the parser reads `t` without leaving the state. -/
def ReadsIn (st : ProcessingState) (s t : Bytes) : Prop := ∀ u, u <+: t → (after (s ++ u)).state = st

/-- What the scratch buffers hold behind `s`: the bytes since the field began. A header name begins with the byte that
comes behind the line before. -/
def Scratch (s : Bytes) (m : ProcessingMachine) : Prop :=
  match m.state with
  | .method => m.tmpBuf1 = [] ∧ m.tmpBuf0 = s ∧ ReadsIn .method [] s
  | .path => m.tmpBuf1 = [] ∧ ∃ pre, s = pre ++ SP :: m.tmpBuf0 ∧ (after pre).state = .method ∧
    ReadsIn .path (pre ++ [SP]) m.tmpBuf0
  | .protocolVersion => m.tmpBuf1 = [] ∧ ∃ pre, s = pre ++ SP :: m.tmpBuf0 ∧ (after pre).state = .path ∧
    ReadsIn .protocolVersion (pre ++ [SP]) m.tmpBuf0
  | .headerName => m.tmpBuf1 = [] ∧ ∃ pre b name, s = pre ++ b :: name ∧ m.tmpBuf0 = b :: name ∧
    (after pre).state = .crlf ∧ ReadsIn .headerName (pre ++ [b]) name
  | .headerValue => ∃ pre b name, s = pre ++ b :: name ++ COLON :: m.tmpBuf1 ∧ m.tmpBuf0 = b :: name ∧
    (after pre).state = .crlf ∧ ReadsIn .headerName (pre ++ [b]) name ∧
    ReadsIn .headerValue (pre ++ b :: name ++ [COLON]) m.tmpBuf1
  | .cr | .crlf | .crlfcr | .body => m.tmpBuf0 = [] ∧ m.tmpBuf1 = []
  | .crlfcrlf | .errorState | .notStarted | .unnamed _ _ => True

theorem after_ne_notStarted (s : Bytes) : (after s).state ≠ .notStarted :=
  feed_ne_notStarted (start_ne_notStarted _) s

theorem after_concat (h : (after s).state ≠ .errorState) (c : UInt8) : after (s ++ [c]) = (after s).step c := by
  rw [after, ← onSegment_onSegment, onSegment, start_of_ne (after_ne_notStarted s), feed_cons h, feed_nil]

theorem readsIn_nil {st : ProcessingState} (h : (after s).state = st) : ReadsIn st s [] := by
  intro u hu
  rw [List.prefix_nil.mp hu, List.append_nil]
  exact h

/-- The field goes on. -/
theorem ReadsIn.concat {st : ProcessingState} (h : ReadsIn st s t) (hc : (after (s ++ (t ++ [c]))).state = st) :
    ReadsIn st s (t ++ [c]) := by
  intro u hu
  rcases List.prefix_concat_iff.mp hu with rfl | hu
  · exact hc
  · exact h u hu

/-- One more byte: it goes on with the field, or ends it and leaves the buffers empty. -/
theorem scratch_concat (h : Scratch s (after s)) (c : UInt8) : Scratch (s ++ [c]) (after (s ++ [c])) := by
  by_cases herr : (after s).state = .errorState
  · have hstay : after (s ++ [c]) = after s := by rw [after, ← onSegment_onSegment, onSegment_error herr]
    rw [hstay]
    simp only [Scratch, herr]
  · have hstep := after_concat herr c
    generalize hafter : after s = m at h hstep
    have hstate : (after s).state = m.state := by rw [hafter]
    cases hm : m.state with
    | method =>
      simp only [Scratch, hm] at h
      obtain ⟨h1, rfl, hreads⟩ := h
      simp only [step, hm] at hstep
      split at hstep
      · rename_i hc
        subst hc
        simp only [Scratch, hstep]
        exact ⟨h1, m.tmpBuf0, rfl, hstate.trans hm, readsIn_nil (by rw [hstep])⟩
      · split at hstep
        · simp only [Scratch, hstep]
        · simp only [Scratch, hstep]
          exact ⟨h1, trivial, hreads.concat (by rw [List.nil_append, hstep])⟩
    | path =>
      simp only [Scratch, hm] at h
      obtain ⟨h1, pre, rfl, hpre, hreads⟩ := h
      simp only [step, hm] at hstep
      split at hstep
      · rename_i hc
        subst hc
        simp only [Scratch, hstep]
        exact ⟨h1, _, rfl, hstate.trans hm, readsIn_nil (by rw [hstep])⟩
      · split at hstep
        · simp only [Scratch, hstep]
        · simp only [Scratch, hstep]
          refine ⟨h1, pre, by simp, hpre, hreads.concat ?_⟩
          rw [List.append_assoc, List.singleton_append, ← List.cons_append, ← List.append_assoc, hstep]
    | protocolVersion =>
      simp only [Scratch, hm] at h
      obtain ⟨h1, pre, rfl, hpre, hreads⟩ := h
      simp only [step, hm] at hstep
      split at hstep
      · simp only [Scratch, hstep]
        exact ⟨trivial, h1⟩
      · split at hstep
        · simp only [Scratch, hstep]
        · simp only [Scratch, hstep]
          refine ⟨h1, pre, by simp, hpre, hreads.concat ?_⟩
          rw [List.append_assoc, List.singleton_append, ← List.cons_append, ← List.append_assoc, hstep]
    | headerName =>
      simp only [Scratch, hm] at h
      obtain ⟨h1, pre, b, name, rfl, h0, hpre, hreads⟩ := h
      simp only [step, hm] at hstep
      split at hstep
      · rename_i hc
        subst hc
        simp only [Scratch, hstep]
        refine ⟨pre, b, name, by rw [h1], h0, hpre, hreads, ?_⟩
        rw [h1]
        exact readsIn_nil (by rw [hstep])
      · split at hstep
        · simp only [Scratch, hstep]
        · simp only [Scratch, hstep]
          refine ⟨h1, pre, b, name ++ [c], by simp, by rw [h0]; rfl, hpre, hreads.concat ?_⟩
          rw [List.append_assoc, List.singleton_append, ← List.cons_append, ← List.append_assoc, hstep]
    | headerValue =>
      simp only [Scratch, hm] at h
      obtain ⟨pre, b, name, rfl, h0, hpre, hname, hreads⟩ := h
      simp only [step, hm] at hstep
      split at hstep
      · simp only [Scratch, hstep]
        exact ⟨trivial, trivial⟩
      · simp only [Scratch, hstep]
        refine ⟨pre, b, name, by simp, h0, hpre, hname, hreads.concat ?_⟩
        rw [List.append_assoc _ [COLON], List.singleton_append, ← List.cons_append, ← List.append_assoc, hstep]
    | cr =>
      simp only [Scratch, hm] at h
      simp only [step, hm] at hstep
      split at hstep <;> simp only [Scratch, hstep]
      exact h
    | crlf =>
      simp only [Scratch, hm] at h
      simp only [step, hm] at hstep
      split at hstep
      · simp only [Scratch, hstep]
        exact h
      · simp only [Scratch, hstep]
        refine ⟨h.2, s, c, [], rfl, by rw [h.1]; rfl, hstate.trans hm, readsIn_nil (by rw [hstep])⟩
    | crlfcr =>
      simp only [Scratch, hm] at h
      simp only [step, hm] at hstep
      split at hstep <;> simp only [Scratch, hstep]
      exact h
    | body =>
      simp only [Scratch, hm] at h
      simp only [step, hm] at hstep
      simp only [Scratch, hstep]
      exact h
    | crlfcrlf | errorState | notStarted | unnamed =>
      simp only [step, hm] at hstep
      simp only [Scratch, hstep, hm]

theorem scratch_after (s : Bytes) : Scratch s (after s) := by
  induction s using List.reverseRecOn with
  | nil => exact ⟨rfl, rfl, readsIn_nil rfl⟩
  | append_singleton s c ih => exact scratch_concat ih c

/-- In every state reached, the scratch buffers hold the bytes of the field that is being read. -/
theorem scratch_discipline (segs : List Bytes) : Scratch segs.flatten (segs.foldl onSegment {}) := by
  cases segs with
  | nil => trivial
  | cons p segs =>
    have hflat : ∀ (qs : List Bytes) (s : Bytes), qs.foldl onSegment (after s) = after (s ++ qs.flatten) := by
      intro qs
      induction qs with
      | nil => exact fun s => by rw [List.flatten_nil, List.append_nil]; rfl
      | cons q qs ih =>
        intro s
        rw [List.foldl_cons, after, onSegment_onSegment, ih, List.flatten_cons, List.append_assoc]
    rw [List.foldl_cons, hflat, List.flatten_cons]
    exact scratch_after _

end ProcessingMachine

end IOContext
