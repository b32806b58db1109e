import IOContext.Epoll.Handles

/-!
# The epoll server: responses counted, and connections closed after the last one

One connection in a run: its requests are answered, its descriptor becomes writable, and it may be closed from outside.

- What one `sendmsg` completes ends with the end of a response or holds none (`consume_spec`).
- As long as a response is queued only behind nothing, and a client that wants the connection closed is answered when
  the limit is reached (`InTurn`), the connection keeps at most one response (`Live`), each operation keeps that
  (`Inv`).
- Then `served` counts the responses sent, and a connection that has announced its end is closed with it
  (`responses_accounted`).
-/

namespace IOContext.Epoll

/-! ## What has been sent -/

section

variable {cap : Nat}

/-- The buffers of connection `i` that have been sent to their last byte. -/
def buffersSent (i : Fin cap) (es : List (Effect cap)) : List OwnedBuf :=
  es.filterMap fun
    | .completed j b => if j = i then some b else none
    | _ => none

/-- How many of them end a response. -/
def responsesSent (i : Fin cap) (es : List (Effect cap)) : Nat := (buffersSent i es).countP fun b => b.eor

/-- The buffers of a response that has not ended. -/
def unended (bs : List OwnedBuf) : List OwnedBuf := bs.foldl (fun cur b => if b.eor then [] else cur ++ [b]) []

def begun (i : Fin cap) (es : List (Effect cap)) : List OwnedBuf := unended (buffersSent i es)

/-- The response that ends after these effects has announced the end of the connection. -/
def Announced (i : Fin cap) (es : List (Effect cap)) : Prop := ⟨kHdrClose, false⟩ ∈ begun i es

/-- Whenever a response that has announced the end of the connection is sent, the connection is recycled, and nothing
more is sent. -/
def ClosedAfter (i : Fin cap) (es : List (Effect cap)) : Prop :=
  ∀ es₁ b es₂, es = es₁ ++ .completed i b :: es₂ → b.eor = true → Announced i es₁ →
    .recycled i ∈ es₂ ∧ ∀ p, .sent i p ∉ es₂

/-- No such response has been sent. -/
def NoneAnnounced (i : Fin cap) (es : List (Effect cap)) : Prop :=
  ∀ es₁ b es₂, es = es₁ ++ .completed i b :: es₂ → b.eor = true → ¬Announced i es₁

variable {i : Fin cap} {es new : List (Effect cap)}

theorem buffersSent_append : buffersSent i (es ++ new) = buffersSent i es ++ buffersSent i new :=
    List.filterMap_append ..

theorem buffersSent_map (bs : List OwnedBuf) : buffersSent i (bs.map (.completed i)) = bs := by
  simp [buffersSent, List.filterMap_map]

theorem responsesSent_append : responsesSent i (es ++ new) = responsesSent i es + responsesSent i new := by
  rw [responsesSent, buffersSent_append, List.countP_append]
  rfl

theorem unended_append {bs bs' : List OwnedBuf} (h : ∀ b ∈ bs', b.eor = false) :
    unended (bs ++ bs') = unended bs ++ bs' := by
  rw [unended, List.foldl_append, ← unended]
  generalize unended bs = cur
  induction bs' generalizing cur with
  | nil => exact (List.append_nil cur).symm
  | cons b bs' ih =>
    rw [List.foldl_cons, h b List.mem_cons_self, if_neg Bool.false_ne_true,
      ih (fun b hb => h b (List.mem_cons_of_mem _ hb)), List.append_assoc]
    rfl

theorem unended_concat {bs : List OwnedBuf} {b : OwnedBuf} (h : b.eor = true) : unended (bs ++ [b]) = [] := by
  rw [unended, List.foldl_append]
  exact if_pos h

theorem eor_of_unended (bs : List OwnedBuf) : ∀ b ∈ unended bs, b.eor = false := by
  induction bs using List.reverseRecOn with
  | nil => simp [unended]
  | append_singleton bs b ih =>
    cases hb : b.eor with
    | true =>
      rw [unended_concat hb]
      simp
    | false =>
      rw [unended_append (by simpa using hb)]
      intro b' hb'
      rcases List.mem_append.mp hb' with h | h
      · exact ih b' h
      · rwa [List.mem_singleton.mp h]

/-- Where an effect stands in a list of effects that has grown. -/
theorem split_append {es₁ es₂ : List (Effect cap)} {x : Effect cap} (h : es ++ new = es₁ ++ x :: es₂) :
    (∃ es₃, es = es₁ ++ x :: es₃ ∧ es₂ = es₃ ++ new) ∨ ∃ new₁, new = new₁ ++ x :: es₂ ∧ es₁ = es ++ new₁ := by
  rcases List.append_eq_append_iff.mp h with ⟨u, hu, hx⟩ | ⟨u, hu, hx⟩
  · exact .inr ⟨u, hx, hu⟩
  · cases u with
    | nil => exact .inr ⟨[], by simpa using hx.symm, by simpa using hu.symm⟩
    | cons y u =>
      obtain ⟨rfl, rfl⟩ := List.cons.inj hx
      exact .inl ⟨u, hu, rfl⟩

theorem NoneAnnounced.append (h : NoneAnnounced i es) (hnew : ∀ b, .completed i b ∈ new → b.eor = false) :
    NoneAnnounced i (es ++ new) := by
  intro es₁ b es₂ heq hb
  rcases split_append heq with ⟨es₃, rfl, -⟩ | ⟨new₁, rfl, -⟩
  · exact h _ _ _ rfl hb
  · rw [hnew b (by simp)] at hb
    cases hb

/-- A response is sent that has not announced the end. -/
theorem NoneAnnounced.concat (h : NoneAnnounced i es) (hb : ¬Announced i es) (b : OwnedBuf) :
    NoneAnnounced i (es ++ [.completed i b]) := by
  intro es₁ b' es₂ heq hb'
  rcases split_append heq with ⟨es₃, rfl, -⟩ | ⟨new₁, hnew, rfl⟩
  · exact h _ _ _ rfl hb'
  · cases new₁ with
    | nil => rwa [List.append_nil]
    | cons y ys => simp at hnew

/-- The connection is recycled after the last response. -/
theorem NoneAnnounced.closed (h : NoneAnnounced i es) (b : OwnedBuf) (hsent : ∀ p, .sent i p ∉ new)
    (hdone : ∀ b, .completed i b ∉ new) (hrec : .recycled i ∈ new) : ClosedAfter i (es ++ .completed i b :: new) := by
  intro es₁ b' es₂ heq hb' hann
  rcases split_append heq with ⟨es₃, rfl, -⟩ | ⟨new₁, hnew, rfl⟩
  · exact absurd hann (h _ _ _ rfl hb')
  · cases new₁ with
    | nil =>
      obtain ⟨-, rfl⟩ := List.cons.inj hnew
      exact ⟨hrec, hsent⟩
    | cons y ys =>
      obtain ⟨-, rfl⟩ := List.cons.inj hnew
      exact absurd (by simp) (hdone b')

theorem NoneAnnounced.closedAfter (h : NoneAnnounced i es) : ClosedAfter i es :=
  fun es₁ b es₂ heq hb hann => absurd hann (h es₁ b es₂ heq hb)

/-- Nothing more is sent. -/
theorem ClosedAfter.append (h : ClosedAfter i es) (hsent : ∀ p, .sent i p ∉ new) (hdone : ∀ b, .completed i b ∉ new) :
    ClosedAfter i (es ++ new) := by
  intro es₁ b es₂ heq hb hann
  rcases split_append heq with ⟨es₃, rfl, rfl⟩ | ⟨new₁, rfl, -⟩
  · obtain ⟨hrec, hno⟩ := h _ _ _ rfl hb hann
    refine ⟨List.mem_append_left _ hrec, fun p hp => ?_⟩
    rcases List.mem_append.mp hp with hp | hp
    · exact hno p hp
    · exact hsent p hp
  · exact absurd (by simp) (hdone b)

end

namespace Worker

/-! ## What one call of `sendmsg` completes -/

/-- A part of the queue is completed: none of it ends a response, or only its last buffer does. -/
theorem consume_spec : ∀ (q : List OwnedBuf) (off n : Nat),
    (consume q off n).completed ++ (consume q off n).txq = q ∧
    (((consume q off n).finishedResponse = false ∧ ∀ b ∈ (consume q off n).completed, b.eor = false) ∨
      (consume q off n).finishedResponse = true ∧ ∃ bs b, (consume q off n).completed = bs ++ [b] ∧ b.eor = true ∧
        ∀ b' ∈ bs, b'.eor = false)
  | [], _, _ => ⟨rfl, .inl ⟨rfl, by simp [consume]⟩⟩
  | b :: q, off, n => by
    unfold consume
    split
    · exact ⟨rfl, .inl ⟨rfl, by simp⟩⟩
    · dsimp only
      split
      · exact ⟨rfl, .inl ⟨rfl, by simp⟩⟩
      · split
        · rename_i hb
          exact ⟨rfl, .inr ⟨rfl, [], b, rfl, hb, by simp⟩⟩
        · rename_i hb
          have hb : b.eor = false := by simpa using hb
          obtain ⟨hq, hcase⟩ := consume_spec q 0 (n - (b.bytes.length - off))
          refine ⟨by rw [List.cons_append, hq], ?_⟩
          rcases hcase with ⟨hfin, hno⟩ | ⟨hfin, bs, b', hbs, hb', hno⟩
          · exact .inl ⟨hfin, by simpa [hb] using hno⟩
          · exact .inr ⟨hfin, b :: bs, b', by rw [hbs]; rfl, hb', by simpa [hb] using hno⟩

/-! ## The connection -/

variable {cap : Nat} {i : Fin cap} {es new : List (Effect cap)} {w w' : Worker cap} {R R' : List OwnedBuf}

/-- At most one response is kept, begun or queued. One that announces the end is the last that the limit allows. -/
def OneResponse (w : Worker cap) (i : Fin cap) (R : List OwnedBuf) : Prop :=
  R = [] ∨ ∃ hdr, (hdr = kHdrClose → w.keepaliveLimit.toNat ≤ (w.client i).served.toNat + 1) ∧
    (R = [⟨hdr, false⟩] ∨ R = [⟨hdr, false⟩, ⟨kBody, true⟩])

/-- A connection in use keeps `R`. -/
structure Live (i : Fin cap) (es : List (Effect cap)) (w : Worker cap) (R : List OwnedBuf) : Prop where
  fd : (w.client i).fd ≠ -1
  closing : (w.client i).closing = false
  served : (w.client i).served = 0 ∨ (w.client i).served.toNat < w.keepaliveLimit.toNat
  none : NoneAnnounced i es
  kept : begun i es ++ (w.client i).txq = R
  one : w.OneResponse i R

/-- The connection of slot `i` after the effects `es`. -/
structure Inv (i : Fin cap) (es : List (Effect cap)) (w : Worker cap) (R : List OwnedBuf) : Prop where
  self : (w.client i).self.index.toNat = i.val
  served : (w.client i).served.toNat = responsesSent i es
  live : (w.slots i).inUse = true → Live i es w R
  gone : (w.slots i).inUse = false → (w.client i).fd = -1 ∧ ClosedAfter i es

/-- The buffer that ends the one response is the last. -/
theorem OneResponse.ends {q₁ q₂ : List OwnedBuf} {b : OwnedBuf} (h : w.OneResponse i (q₁ ++ b :: q₂))
    (hb : b.eor = true) :
    ∃ hdr, (hdr = kHdrClose → w.keepaliveLimit.toNat ≤ (w.client i).served.toNat + 1) ∧ q₁ = [⟨hdr, false⟩] ∧
      q₂ = [] := by
  rcases h with h | ⟨hdr, hclose, h | h⟩
  · simp at h
  · cases q₁ with
    | nil =>
      obtain ⟨rfl, -⟩ := List.cons.inj h
      cases hb
    | cons x q₁ => simp at h
  · cases q₁ with
    | nil =>
      obtain ⟨rfl, -⟩ := List.cons.inj h
      cases hb
    | cons x q₁ =>
      cases q₁ with
      | nil =>
        simp only [List.cons_append, List.nil_append, List.cons.injEq] at h
        exact ⟨hdr, hclose, by rw [h.1], h.2.2⟩
      | cons y q₁ => simp at h

/-- Effects in which nothing is sent. -/
def Silent (i : Fin cap) (es : List (Effect cap)) : Prop := (∀ p, .sent i p ∉ es) ∧ ∀ b, .completed i b ∉ es

theorem Silent.append (h : Silent i es) (h' : Silent i new) : Silent i (es ++ new) := by
  constructor
  · intro p hp
    exact (List.mem_append.mp hp).elim (h.1 p) (h'.1 p)
  · intro b hb
    exact (List.mem_append.mp hb).elim (h.2 b) (h'.2 b)

theorem Silent.buffersSent (h : Silent i es) : buffersSent i es = [] := by
  refine List.filterMap_eq_nil_iff.mpr fun x hx => ?_
  cases x with
  | completed j b =>
    have hji : j ≠ i := fun hji => h.2 b (hji ▸ hx)
    simp [hji]
  | _ => rfl

theorem silent_recycleEffects : Silent i (w.recycleEffects i) := by
  unfold recycleEffects
  split <;> simp [Silent]

/-- What is kept does not change when nothing is sent. -/
theorem Live.silent (h : Live i es w R) (hnew : Silent i new) : Live i (es ++ new) w R := by
  refine ⟨h.fd, h.closing, h.served, h.none.append fun b hb => absurd hb (hnew.2 b), ?_, h.one⟩
  rw [begun, buffersSent_append, hnew.buffersSent, List.append_nil]
  exact h.kept

/-- Of the worker only the slots and the limit matter. -/
theorem Live.congr (h : Live i es w R) (hslots : w'.slots = w.slots) (hlimit : w'.keepaliveLimit = w.keepaliveLimit) :
    Live i es w' R := by
  have hc : w'.client i = w.client i := by rw [client, client, hslots]
  refine ⟨by rw [hc]; exact h.fd, by rw [hc]; exact h.closing, by rw [hc, hlimit]; exact h.served, h.none,
    by rw [hc]; exact h.kept, ?_⟩
  unfold OneResponse
  rw [hc, hlimit]
  exact h.one

theorem Inv.congr (h : Inv i es w R) (hslots : w'.slots = w.slots) (hlimit : w'.keepaliveLimit = w.keepaliveLimit) :
    Inv i es w' R := by
  have hc : w'.client i = w.client i := by rw [client, client, hslots]
  refine ⟨by rw [hc]; exact h.self, by rw [hc]; exact h.served, fun hu => ?_, fun hu => ?_⟩
  · rw [hslots] at hu
    exact (h.live hu).congr hslots hlimit
  · rw [hslots] at hu
    rw [hc]
    exact h.gone hu

theorem Inv.emit (h : Inv i es w R) (hnew : Silent i new) : Inv i (es ++ new) (w.emit new) R := by
  have hsilent : Inv i (es ++ new) w R := by
    refine ⟨h.self, ?_, fun hu => (h.live hu).silent hnew, fun hu => ?_⟩
    · rw [responsesSent_append, responsesSent, responsesSent, hnew.buffersSent]
      exact h.served
    · exact ⟨(h.gone hu).1, (h.gone hu).2.append hnew.1 hnew.2⟩
  exact hsilent.congr rfl rfl

/-- A field of the client that the accounts do not look at. -/
theorem Inv.setClient (h : Inv i es w R) {c : PerClientStorage} (hself : c.self = (w.client i).self)
    (hfd : c.fd = (w.client i).fd) (hclosing : c.closing = (w.client i).closing)
    (hserved : c.served = (w.client i).served) (htxq : c.txq = (w.client i).txq) : Inv i es (w.setClient i c) R := by
  have hc : (w.setClient i c).client i = c := setClient_client
  have hu : ((w.setClient i c).slots i).inUse = (w.slots i).inUse := by simp
  refine ⟨by rw [hc, hself, h.self], by rw [hc, hserved, h.served], fun h' => ?_, fun h' => ?_⟩
  · obtain ⟨h1, h2, h3, h4, h5, h6⟩ := h.live (hu ▸ h')
    refine ⟨by rwa [hc, hfd], by rwa [hc, hclosing], by rwa [hc, hserved], h4, by rwa [hc, htxq], ?_⟩
    unfold OneResponse
    rwa [hc, hserved]
  · exact ⟨by rw [hc, hfd, (h.gone (hu ▸ h')).1], (h.gone (hu ▸ h')).2⟩

/-- The slot is given back. -/
theorem inv_recycle (hself : (w.client i).self.index.toNat = i.val)
    (hserved : (w.client i).served.toNat = responsesSent i es) (hclosed : ClosedAfter i (es ++ w.recycleEffects i)) :
    Inv i (es ++ w.recycleEffects i) (w.recycle i) R := by
  have hc : (w.recycle i).client i = { w.client i with fd := -1, txq := [], txFirstOffset := 0, wantOut := false } := by
    simp [recycle, client]
  have hu : ((w.recycle i).slots i).inUse = false := by simp [recycle]
  refine ⟨by rwa [hc], ?_, fun h => absurd (hu.symm.trans h) Bool.false_ne_true, fun _ => ⟨by rw [hc], hclosed⟩⟩
  rw [hc, responsesSent_append, responsesSent, responsesSent, silent_recycleEffects.buffersSent]
  exact hserved

/-- A connection that knows its slot is closed with it, unless that has been done. -/
theorem closeAndRecycle_self (hself : (w.client i).self.index.toNat = i.val) :
    ((w.slots i).inUse = false ∧ w.closeAndRecycle (w.client i).self = w) ∨
    (w.slots i).inUse = true ∧ w.closeAndRecycle (w.client i).self = w.recycle i := by
  rw [closeAndRecycle_eq]
  cases hn : w.named (w.client i).self with
  | none =>
    refine .inl ⟨?_, rfl⟩
    cases hu : (w.slots i).inUse with
    | false => rfl
    | true =>
      rw [named_eq_some_iff.mpr ⟨hself, hu⟩] at hn
      cases hn
  | some j =>
    obtain ⟨hj, hu⟩ := named_eq_some_iff.mp hn
    have hji : j = i := Fin.ext (hj.symm.trans hself)
    subst hji
    exact .inr ⟨hu, rfl⟩

theorem Inv.closeAndRecycle (h : Inv i es w R) : ∃ new, Silent i new ∧
    (w.closeAndRecycle (w.client i).self).log = w.log ++ new ∧
    Inv i (es ++ new) (w.closeAndRecycle (w.client i).self) R := by
  rcases closeAndRecycle_self h.self with ⟨-, hclose⟩ | ⟨hu, hclose⟩
  · rw [hclose]
    exact ⟨[], by simp [Silent], (List.append_nil _).symm, by rwa [List.append_nil]⟩
  · rw [hclose]
    exact ⟨_, silent_recycleEffects, rfl, inv_recycle h.self h.served
      ((h.live hu).none.append fun b hb => absurd hb (silent_recycleEffects.2 b)).closedAfter⟩

theorem Inv.unmapFd (h : Inv i es w R) (fd : Int) : Inv i es (w.unmapFd fd) R := h.congr rfl rfl

theorem Inv.closeClient (h : Inv i es w R) : ∃ new, (w.closeClient i).log = w.log ++ new ∧
    Inv i (es ++ new) (w.closeClient i) R := by
  obtain ⟨new, -, hlog, hinv⟩ := h.closeAndRecycle
  refine ⟨new ++ [.epDel ((w.closeAndRecycle (w.client i).self).client i).fd], ?_, ?_⟩
  · rw [← List.append_assoc, ← hlog]
    rfl
  · rw [← List.append_assoc]
    exact (hinv.unmapFd _).emit (by simp [Silent])

theorem Inv.arm (h : Inv i es w R) : ∃ new, (w.arm i).log = w.log ++ new ∧ Inv i (es ++ new) (w.arm i) R := by
  unfold Worker.arm
  dsimp only
  split
  · exact ⟨[], (List.append_nil _).symm, by rwa [List.append_nil]⟩
  · exact ⟨_, rfl, Inv.emit (h.setClient rfl rfl rfl rfl rfl) (by simp [Silent])⟩

theorem buffersSent_sent (p : Bytes) (bs : List OwnedBuf) :
    buffersSent i (.sent i p :: bs.map (.completed i)) = bs := buffersSent_map bs

/-- Buffers that do not end a response are sent. -/
theorem responsesSent_sent {bs : List OwnedBuf} (p : Bytes) (hno : ∀ b ∈ bs, b.eor = false) :
    responsesSent i (es ++ .sent i p :: bs.map (.completed i)) = responsesSent i es := by
  have hzero : bs.countP (fun b => b.eor) = 0 := List.countP_eq_zero.mpr (by simpa using hno)
  rw [responsesSent_append, responsesSent, responsesSent, buffersSent_sent, hzero]
  rfl

/-- Buffers are sent that do not end a response. -/
theorem Live.sent {c : PerClientStorage} {bs : List OwnedBuf} {p : Bytes} (h : Live i es w R) (hc : w'.client i = c)
    (hfd : c.fd = (w.client i).fd) (hclosing : c.closing = (w.client i).closing)
    (hserved : c.served = (w.client i).served) (hlimit : w'.keepaliveLimit = w.keepaliveLimit)
    (hno : ∀ b ∈ bs, b.eor = false) (hkept : begun i es ++ bs ++ c.txq = R') (hone : w.OneResponse i R') :
    Live i (es ++ .sent i p :: bs.map (.completed i)) w' R' := by
  refine ⟨by rw [hc, hfd]; exact h.fd, by rw [hc, hclosing, h.closing], by rw [hc, hserved, hlimit]; exact h.served,
    h.none.append ?_, ?_, ?_⟩
  · intro b hb
    exact hno b (by simpa using hb)
  · rw [begun, buffersSent_append, buffersSent_sent, unended_append hno, hc]
    exact hkept
  · unfold OneResponse
    rw [hc, hserved, hlimit]
    exact hone

theorem Live.served_succ (h : Live i es w R) :
    ((w.client i).served + 1).toNat = (w.client i).served.toNat + 1 := by
  have hlimit := w.keepaliveLimit.toNat_lt
  have hlt : (w.client i).served.toNat + 1 < 2 ^ 32 := by
    rcases h.served with h0 | hlt
    · rw [h0]
      decide
    · omega
  rw [UInt32.toNat_add]
  exact Nat.mod_eq_of_lt hlt

/-- A response ends: it is counted, and closes the connection if it has announced that. -/
theorem Live.endResponse {hdr : Bytes} {b : OwnedBuf} (h : Live i es w [⟨hdr, false⟩])
    (hself : (w.client i).self.index.toNat = i.val) (hserved : (w.client i).served.toNat = responsesSent i es)
    (hu : (w.slots i).inUse = true) (htxq : (w.client i).txq = []) (hb : b.eor = true) :
    ∃ new, (w.endResponse i).2.log = w.log ++ new ∧ Inv i (es ++ .completed i b :: new) (w.endResponse i).2 [] := by
  have hc : (w.countServed i).client i = { w.client i with served := (w.client i).served + 1 } := setClient_client
  have hself' : ((w.countServed i).client i).self.index.toNat = i.val := by rwa [hc]
  have hu' : ((w.countServed i).slots i).inUse = true := by simp [countServed, hu]
  have hcount : responsesSent i (es ++ [.completed i b]) = responsesSent i es + 1 := by
    rw [responsesSent_append]
    simp [responsesSent, buffersSent, hb]
  have hserved' : ((w.countServed i).client i).served.toNat = responsesSent i (es ++ [.completed i b]) := by
    rw [hc, hcount, ← hserved]
    exact h.served_succ
  have hbegun : begun i es = [⟨hdr, false⟩] := by
    have hkept := h.kept
    rwa [htxq, List.append_nil] at hkept
  unfold Worker.endResponse
  dsimp only
  split
  · -- the connection is closed
    have hclose := (closeAndRecycle_self hself').resolve_left fun hfree => by
      rw [hu'] at hfree
      cases hfree.1
    have hclosed : ClosedAfter i (es ++ [.completed i b] ++ (w.countServed i).recycleEffects i) := by
      rw [List.append_assoc]
      exact h.none.closed b silent_recycleEffects.1 silent_recycleEffects.2 (by simp [recycleEffects])
    have hrec : Inv i (es ++ [.completed i b] ++ (w.countServed i).recycleEffects i) ((w.countServed i).recycle i) [] :=
      inv_recycle hself' hserved' hclosed
    have hdel := (hrec.unmapFd (((w.countServed i).recycle i).client i).fd).emit
      (show Silent i [.epDel (((w.countServed i).recycle i).client i).fd] by simp [Silent])
    unfold Worker.closeClient
    rw [hclose.2]
    refine ⟨(w.countServed i).recycleEffects i ++ [.epDel (((w.countServed i).recycle i).client i).fd], ?_, ?_⟩
    · rw [← List.append_assoc]
      rfl
    · simpa using hdel
  · rename_i hlimit
    simp only [not_or, UInt32.le_iff_toNat_le, hc, h.served_succ, UInt16.toNat_toUInt32] at hlimit
    have hne : hdr ≠ kHdrClose := by
      intro heq
      rcases h.one with hnil | ⟨hdr', hclose, hone | hone⟩
      · cases hnil
      · cases hone
        exact hlimit.1 (hclose heq)
      · cases hone
    have hann : ¬Announced i es := by
      rw [Announced, hbegun]
      simpa using hne.symm
    refine ⟨[], (List.append_nil _).symm, hself', hserved', fun _ => ?_, fun hfree => ?_⟩
    · refine ⟨by rw [hc]; exact h.fd, by rw [hc]; exact h.closing, .inr ?_, h.none.concat hann b, ?_, .inl rfl⟩
      · rw [hc, h.served_succ]
        exact Nat.lt_of_not_le hlimit.1
      · have hdone : begun i (es ++ [.completed i b]) = [] := by
          rw [begun, buffersSent_append]
          have hlast : buffersSent i [.completed i b] = [b] := by simp [buffersSent]
          rw [hlast, unended_concat hb]
        rw [hdone, hc]
        exact htxq
    · rw [hu'] at hfree
      cases hfree

/-- What is kept when the queue is flushed: the same, or nothing once a response has ended. -/
def Flushed (R R' : List OwnedBuf) : Prop := R' = R ∨ R' = [] ∧ ∃ b ∈ R, b.eor = true

theorem Inv.sends (h : Inv i es w R) (rs : List SendResult) : Inv i es { w with sends := rs } R := h.congr rfl rfl

/-- One turn of the loop. -/
theorem Inv.flushTurn (h : Inv i es w R) : ∃ new R', (w.flushTurn i).2.log = w.log ++ new ∧
    Inv i (es ++ new) (w.flushTurn i).2 R' ∧ Flushed R R' := by
  rcases w.flushSendOnce_cases i with ⟨r, sends, hr, hcase⟩ | ⟨sends, p, n, d, hfd, hd, hr⟩
  · -- nothing is sent
    obtain ⟨new, hlog, harm⟩ := (h.sends sends).arm
    obtain ⟨new', hlog', hclose⟩ := (h.sends sends).closeClient
    unfold Worker.flushTurn
    rw [hr]
    rcases hcase with rfl | ⟨-, rfl⟩ | rfl
    · exact ⟨new, R, hlog, harm, .inl rfl⟩
    · exact ⟨new, R, hlog, harm, .inl rfl⟩
    · exact ⟨new', R, hlog', hclose, .inl rfl⟩
  · -- a part of the queue is sent
    have hu : (w.slots i).inUse = true := by
      by_contra hu
      exact hfd (h.gone (by simpa using hu)).1
    have hl := h.live hu
    obtain ⟨hq, hends⟩ := consume_spec (w.client i).txq (w.client i).txFirstOffset n
    rw [← hd] at hq hends
    generalize hw₁ : (({ w with sends := sends } : Worker cap).setClient i
      { w.client i with txq := d.txq, txFirstOffset := d.txFirstOffset }).emit
        (.sent i p :: d.completed.map (.completed i)) = w₁ at hr
    have hc : w₁.client i = { w.client i with txq := d.txq, txFirstOffset := d.txFirstOffset } := by simp [← hw₁]
    have hu₁ : (w₁.slots i).inUse = true := by simpa [← hw₁] using hu
    have hlimit : w₁.keepaliveLimit = w.keepaliveLimit := by rw [← hw₁]; rfl
    have hlog : w₁.log = w.log ++ (.sent i p :: d.completed.map (.completed i)) := by rw [← hw₁]; rfl
    have hself : (w₁.client i).self.index.toNat = i.val := by rw [hc]; exact h.self
    have hkept := hl.kept
    rw [← hq] at hkept
    unfold Worker.flushTurn
    rw [hr]
    rcases hends with ⟨hfin, hno⟩ | ⟨hfin, bs, b, hbs, hb, hno⟩
    · -- no response ends
      have hlive : Live i (es ++ .sent i p :: d.completed.map (.completed i)) w₁ R :=
        hl.sent hc rfl rfl rfl hlimit hno (by rw [← hkept, List.append_assoc]) hl.one
      have hserved : (w₁.client i).served.toNat =
          responsesSent i (es ++ .sent i p :: d.completed.map (.completed i)) := by
        rw [hc, responsesSent_sent p hno]
        exact h.served
      simp only [hfin, Bool.false_and, Bool.false_eq_true, if_false]
      exact ⟨_, R, hlog, ⟨hself, hserved, fun _ => hlive, fun hfree => Bool.noConfusion (hu₁.symm.trans hfree)⟩,
        .inl rfl⟩
    · -- the one response ends, and with it the queue
      have hone := hl.one
      rw [← hkept, hbs, List.append_assoc, List.cons_append, List.nil_append, ← List.append_assoc] at hone
      obtain ⟨hdr, hclose, hbegun, htxq⟩ := hone.ends hb
      have hlive : Live i (es ++ .sent i p :: bs.map (.completed i)) w₁ [⟨hdr, false⟩] :=
        hl.sent hc rfl rfl rfl hlimit hno (by rw [hbegun, htxq]; rfl) (.inr ⟨hdr, hclose, .inl rfl⟩)
      have hserved : (w₁.client i).served.toNat = responsesSent i (es ++ .sent i p :: bs.map (.completed i)) := by
        rw [hc, responsesSent_sent p hno]
        exact h.served
      obtain ⟨new, hlog', hinv⟩ := hlive.endResponse hself hserved hu₁ (by rw [hc]; exact htxq) hb
      simp only [hfin, htxq, List.isEmpty_nil, Bool.and_self, if_true]
      refine ⟨.sent i p :: d.completed.map (.completed i) ++ new, [], ?_, ?_, .inr ⟨rfl, b, ?_, hb⟩⟩
      · rw [hlog', hlog, List.append_assoc]
      · simpa [hbs] using hinv
      · rw [← hkept, hbs]
        simp

theorem Flushed.trans {R'' : List OwnedBuf} (h : Flushed R R') (h' : Flushed R' R'') : Flushed R R'' := by
  rcases h with rfl | ⟨rfl, hb⟩
  · exact h'
  · rcases h' with rfl | ⟨rfl, -⟩
    · exact .inr ⟨rfl, hb⟩
    · exact .inr ⟨rfl, hb⟩

theorem Inv.flushLoop : ∀ (fuel : Nat) {es : List (Effect cap)} {w : Worker cap} {R : List OwnedBuf}, Inv i es w R →
    ∃ new R', (Worker.flushLoop fuel i w).log = w.log ++ new ∧ Inv i (es ++ new) (Worker.flushLoop fuel i w) R' ∧
      Flushed R R'
  | 0, es, w, R, h => ⟨[], R, (List.append_nil _).symm, by rwa [List.append_nil], .inl rfl⟩
  | fuel + 1, es, w, R, h => by
    obtain ⟨new, R', hlog, hinv, hR⟩ := h.flushTurn
    unfold Worker.flushLoop
    split
    · rename_i w₁ hturn
      rw [hturn] at hlog hinv
      obtain ⟨new', R'', hlog', hinv', hR'⟩ := Inv.flushLoop fuel hinv
      refine ⟨new ++ new', R'', ?_, ?_, hR.trans hR'⟩
      · rw [hlog', hlog, List.append_assoc]
      · rwa [← List.append_assoc]
    · rename_i w₁ hturn
      rw [hturn] at hlog hinv
      exact ⟨new, R', hlog, hinv, hR⟩

/-- A buffer is put behind what is kept. -/
theorem Inv.txEnqueueLiteral (h : Inv i es w R) (p : Bytes) (eor : Bool)
    (hone : (w.slots i).inUse = true → w.OneResponse i (R ++ [⟨p, eor⟩])) :
    ∃ new R', (w.txEnqueueLiteral i p eor).log = w.log ++ new ∧ Inv i (es ++ new) (w.txEnqueueLiteral i p eor) R' ∧
      Flushed (R ++ [⟨p, eor⟩]) R' := by
  have hc : (w.setClient i { w.client i with txq := (w.client i).txq ++ [⟨p, eor⟩] }).client i =
      { w.client i with txq := (w.client i).txq ++ [⟨p, eor⟩] } := setClient_client
  have hu : ((w.setClient i { w.client i with txq := (w.client i).txq ++ [⟨p, eor⟩] }).slots i).inUse =
      (w.slots i).inUse := by simp
  refine Inv.flushLoop _ ⟨by rw [hc]; exact h.self, by rw [hc]; exact h.served, fun h' => ?_, fun h' => ?_⟩
  · rw [hu] at h'
    obtain ⟨h1, h2, h3, h4, h5, -⟩ := h.live h'
    refine ⟨by rwa [hc], by rwa [hc], by rwa [hc], h4, by rw [hc, ← h5, List.append_assoc], ?_⟩
    unfold OneResponse
    rw [hc]
    exact hone h'
  · rw [hu] at h'
    rw [hc]
    exact h.gone h'

/-! ## A run of a connection -/

/-- Between two requests nothing is kept or a whole response. -/
def Whole (R : List OwnedBuf) : Prop := R = [] ∨ ∃ hdr, R = [⟨hdr, false⟩, ⟨kBody, true⟩]

theorem Whole.flushed (h : Whole R) (hR : Flushed R R') : Whole R' := by
  rcases hR with rfl | ⟨rfl, -⟩
  · exact h
  · exact .inl rfl

/-- A connection that is closed keeps nothing that matters. -/
theorem Inv.free (h : Inv i es w R) (hu : (w.slots i).inUse = false) : Inv i es w R' :=
  ⟨h.self, h.served, fun h' => Bool.noConfusion (hu.symm.trans h'), h.gone⟩

/-- A whole response of which nothing is queued has been sent. -/
theorem Live.nothing (h : Live i es w R) (hw : Whole R) (htxq : (w.client i).txq = []) : R = [] := by
  have hkept := h.kept
  rw [htxq, List.append_nil] at hkept
  rcases hw with rfl | ⟨hdr, rfl⟩
  · rfl
  · have hbody := eor_of_unended (buffersSent i es) ⟨kBody, true⟩ (by rw [← begun, hkept]; simp)
    cases hbody

/-- What happens to a connection: a request is answered, with the answers of the kernel to `sendmsg` meanwhile; the
descriptor becomes writable; it is closed for another reason. -/
inductive ConnAction
  | respond (keepAlive : Bool) (sends : List SendResult)
  | writable (sends : List SendResult)
  | closed
deriving DecidableEq, Repr

def connStep (i : Fin cap) (w : Worker cap) : ConnAction → Option (Worker cap)
  | .respond keepAlive sends => some (({ w with sends := sends } : Worker cap).enqueueRequestForResponse i keepAlive)
  | .writable sends => some (({ w with sends := sends } : Worker cap).tryFlushAndArm i)
  | .closed => some (w.closeAndRecycle (w.client i).self)

/-- A response to a client that is still there goes into an empty queue, and a client that does not keep the connection
alive is answered when the limit is reached anyway. -/
def Answerable (i : Fin cap) (w : Worker cap) (keepAlive : Bool) : Prop :=
  (w.slots i).inUse = true → (w.client i).txq = [] ∧
    (keepAlive = true ∨ w.keepaliveLimit.toNat ≤ (w.client i).served.toNat + 1)

def InTurn (i : Fin cap) (w : Worker cap) : ConnAction → Prop
  | .respond keepAlive _ => Answerable i w keepAlive
  | .writable _ | .closed => True

instance (i : Fin cap) (w : Worker cap) (keepAlive : Bool) : Decidable (Answerable i w keepAlive) :=
  inferInstanceAs (Decidable (_ → _))

instance (i : Fin cap) (w : Worker cap) (a : ConnAction) : Decidable (InTurn i w a) :=
  match a with
  | .respond keepAlive _ => inferInstanceAs (Decidable (Answerable i w keepAlive))
  | .writable _ | .closed => inferInstanceAs (Decidable True)

/-- The end is announced when the limit leaves no further request. -/
theorem limit_of_close {keepAlive : Bool}
    (hturn : keepAlive = true ∨ w.keepaliveLimit.toNat ≤ (w.client i).served.toNat + 1)
    (hdr : (if keepAlive && (w.client i).served < w.keepaliveLimit.toUInt32 - 1 then kHdrKeep else kHdrClose) =
      kHdrClose) :
    w.keepaliveLimit.toNat ≤ (w.client i).served.toNat + 1 := by
  rcases hturn with rfl | hlimit
  · have hne : kHdrKeep ≠ kHdrClose := by decide +kernel
    have hserved : ¬(w.client i).served < w.keepaliveLimit.toUInt32 - 1 := by
      intro hlt
      simp [hlt, hne] at hdr
    by_contra hlimit
    refine hserved (UInt32.lt_iff_toNat_lt.mpr ?_)
    have hone : (1 : UInt32) ≤ w.keepaliveLimit.toUInt32 := by
      rw [UInt32.le_iff_toNat_le, UInt16.toNat_toUInt32]
      exact Nat.lt_of_le_of_lt (Nat.zero_le _) (Nat.lt_of_not_le hlimit)
    rw [UInt32.toNat_sub_of_le _ _ hone, UInt16.toNat_toUInt32]
    have h1 : (1 : UInt32).toNat = 1 := rfl
    omega
  · exact hlimit

/-- A response is queued and sent, as far as the kernel takes it. -/
theorem Inv.enqueueRequestForResponse (h : Inv i es w R) (hw : Whole R) {keepAlive : Bool}
    (hturn : Answerable i w keepAlive) :
    ∃ new R', (w.enqueueRequestForResponse i keepAlive).log = w.log ++ new ∧
      Inv i (es ++ new) (w.enqueueRequestForResponse i keepAlive) R' ∧ Whole R' := by
  have hnothing : Inv i es w [] := by
    cases hu : (w.slots i).inUse with
    | true => exact (h.live hu).nothing hw (hturn hu).1 ▸ h
    | false => exact h.free hu
  unfold Worker.enqueueRequestForResponse
  dsimp only
  generalize hhdr : (if keepAlive && (w.client i).served < w.keepaliveLimit.toUInt32 - 1 then kHdrKeep
    else kHdrClose) = hdr
  obtain ⟨new, R₁, hlog, hinv, hR⟩ := hnothing.txEnqueueLiteral hdr false fun hu =>
    .inr ⟨hdr, fun hclose => limit_of_close (hturn hu).2 (hhdr.trans hclose), .inl rfl⟩
  have hR₁ : R₁ = [⟨hdr, false⟩] := by
    rcases hR with rfl | ⟨-, b, hb, heor⟩
    · rfl
    · rw [List.nil_append, List.mem_singleton] at hb
      rw [hb] at heor
      cases heor
  subst hR₁
  obtain ⟨new', R₂, hlog', hinv', hR'⟩ := hinv.txEnqueueLiteral kBody true fun hu => by
    rcases (hinv.live hu).one with hnil | ⟨hdr', hclose, hone | hone⟩
    · cases hnil
    · cases hone
      exact .inr ⟨hdr, hclose, .inr rfl⟩
    · cases hone
  refine ⟨new ++ new', R₂, ?_, ?_, Whole.flushed (.inr ⟨hdr, rfl⟩) hR'⟩
  · rw [hlog', hlog, List.append_assoc]
  · rwa [← List.append_assoc]

theorem Inv.connStep {a : ConnAction} (h : Inv i es w R) (hw : Whole R) (hturn : InTurn i w a)
    (hs : connStep i w a = some w') : ∃ new R', w'.log = w.log ++ new ∧ Inv i (es ++ new) w' R' ∧ Whole R' := by
  cases a with
  | respond keepAlive sends =>
    cases hs
    exact (h.sends sends).enqueueRequestForResponse hw hturn
  | writable sends =>
    cases hs
    obtain ⟨new, R', hlog, hinv, hR⟩ := Inv.flushLoop _ (h.sends sends)
    exact ⟨new, R', hlog, hinv, hw.flushed hR⟩
  | closed =>
    cases hs
    obtain ⟨new, -, hlog, hinv⟩ := h.closeAndRecycle
    exact ⟨new, R, hlog, hinv, hw⟩

/-- A connection that has just been accepted. -/
structure Opened (i : Fin cap) (w : Worker cap) : Prop where
  inUse : (w.slots i).inUse = true
  self : (w.client i).self.index.toNat = i.val
  client : ∃ fd : Nat, w.client i = { fd := fd, self := (w.client i).self }

/-- What `acceptLoop` makes of a slot it has allocated. -/
theorem opened_of_accept {h : ConnHandle} (ha : w.allocate = some (h, w')) (hg : w'.tryGet h = some i) (fd : Nat) :
    Opened i (acceptLoop [.accepted fd] w) := by
  obtain ⟨hi, hu⟩ := named_eq_some_iff.mp (tryGet_eq_some_iff.mp hg).1
  have hc : ((w'.setClient i { fd := fd, self := h }).mapFd fd h).client i = { fd := fd, self := h } := setClient_client
  have hself : (((w'.setClient i { fd := fd, self := h }).mapFd fd h).client i).self = h := by rw [hc]
  simp only [acceptLoop, ha, hg]
  refine ⟨by simpa [mapFd, emit] using hu, ?_, fd, ?_⟩
  · exact (congrArg (fun h : ConnHandle => h.index.toNat) hself).trans hi
  · exact hc.trans (congrArg (fun self => ({ fd := fd, self := self } : PerClientStorage)) hself.symm)

/-- Parsing a segment is such a run. -/
theorem onSegment_connStep {reserves : Nat → Bool} (w : Worker cap) (i : Fin cap) (p : Bytes) :
    Reach (· = w) (connStep i) (fun _ _ => True)
      (left (Epoll.onSegment reserves (fun _ keepAlive w => w.enqueueRequestForResponse i keepAlive) p
        { http := (w.client i).http, req := (w.client i).req, out := w })).out :=
  (onSegment_ends p _).out (P := Reach (· = w) (connStep i) (fun _ _ => True))
    (fun _ keepAlive v hv => hv.next (a := .respond keepAlive v.sends) trivial rfl) (.start rfl)

theorem Opened.inv (h : Opened i w) : Inv i [] w [] := by
  obtain ⟨fd, hc⟩ := h.client
  refine ⟨h.self, by rw [hc]; rfl, fun _ => ?_, fun hfree => Bool.noConfusion (h.inUse.symm.trans hfree)⟩
  refine ⟨by rw [hc]; simp, by rw [hc], .inl (by rw [hc]), ?_, by rw [hc]; rfl, .inl rfl⟩
  intro es₁ b es₂ heq
  simp at heq

/-- Every response sent is counted, and a response that announces the end of the connection is the last. -/
structure Accounted (i : Fin cap) (es : List (Effect cap)) (w : Worker cap) : Prop where
  served : (w.client i).served.toNat = responsesSent i es
  closed : ∀ es₁ b es₂, es = es₁ ++ .completed i b :: es₂ → b.eor = true → Announced i es₁ →
    (w.slots i).inUse = false ∧ .recycled i ∈ es₂ ∧ ∀ p, .sent i p ∉ es₂

theorem Inv.accounted (h : Inv i es w R) : Accounted i es w := by
  refine ⟨h.served, fun es₁ b es₂ heq hb hann => ?_⟩
  cases hu : (w.slots i).inUse with
  | true => exact absurd hann ((h.live hu).none es₁ b es₂ heq hb)
  | false => exact ⟨rfl, (h.gone hu).2 es₁ b es₂ heq hb hann⟩

/-- In every run of a connection whose responses come in turn, the responses sent are counted, and it is closed after
one that announces the end. -/
theorem responses_accounted {w₀ : Worker cap} (h₀ : Opened i w₀) (hw : Reach (· = w₀) (connStep i) (InTurn i) w) :
    Accounted i (w.log.drop w₀.log.length) w := by
  have hinv : ∀ v : Worker cap, Reach (· = w₀) (connStep i) (InTurn i) v →
      ∃ es R, v.log = w₀.log ++ es ∧ Inv i es v R ∧ Whole R := by
    refine Reach.invariant ?_ ?_
    · rintro v rfl
      exact ⟨[], [], (List.append_nil _).symm, h₀.inv, .inl rfl⟩
    · rintro v a v' ⟨es, R, hlog, hv, hR⟩ hturn hs
      obtain ⟨new, R', hlog', hv', hR'⟩ := hv.connStep hR hturn hs
      exact ⟨es ++ new, R', by rw [hlog', hlog, List.append_assoc], hv', hR'⟩
  obtain ⟨es, R, hlog, hw, -⟩ := hinv w hw
  rw [hlog, List.drop_left]
  exact hw.accounted

/-- A connection with a limit of two requests, on descriptor 5. -/
def accepted : Worker 1 := acceptLoop [.accepted 5] { keepaliveLimit := 2, listen := 4 }

theorem opened_accepted : Opened 0 accepted := by
  obtain ⟨⟨h, w⟩, ha, hg⟩ := Option.map_eq_some_iff.mp
    (show ((({ keepaliveLimit := 2, listen := 4 } : Worker 1).allocate).map fun hw => hw.2.tryGet hw.1) =
      some (some 0) by decide +kernel)
  exact opened_of_accept ha hg 5

/-- The first response is sent in parts, the second is blocked at first; it is the last. -/
theorem responses_accounted_limit : ∃ w, Reach (· = accepted) (connStep 0) (InTurn 0) w ∧
    responsesSent 0 (w.log.drop accepted.log.length) = 2 ∧ (w.slots 0).inUse = false ∧
    Accounted 0 (w.log.drop accepted.log.length) w := by
  obtain ⟨w, hexec, hobs⟩ := Option.map_eq_some_iff.mp
    (show (execAll (connStep 0) (InTurn 0) [.respond true [.sent 20, .wouldBlock, .sent 1000], .respond true [],
      .writable [.sent 1000]] accepted).map
        (fun w => (responsesSent 0 (w.log.drop accepted.log.length), (w.slots 0).inUse)) = some (2, false) by
      decide +kernel)
  have hw : Reach (· = accepted) (connStep 0) (InTurn 0) w := Reach.exec (.start rfl) hexec
  obtain ⟨hsent, hu⟩ := Prod.mk.inj hobs
  exact ⟨w, hw, hsent, hu, responses_accounted opened_accepted hw⟩

/-- Of two responses that are queued at once only the last is counted; and a client that asks for the end gets a
response that announces it, but not the end. -/
theorem responses_unaccounted :
    (¬∀ w, Reach (· = accepted) (connStep 0) (fun _ _ => True) w →
      (w.client 0).served.toNat = responsesSent 0 (w.log.drop accepted.log.length)) ∧
    ¬∀ w, Reach (· = accepted) (connStep 0) (fun _ _ => True) w →
      ∀ es₁ b es₂, w.log.drop accepted.log.length = es₁ ++ .completed 0 b :: es₂ → b.eor = true → Announced 0 es₁ →
        (w.slots 0).inUse = false := by
  constructor
  · intro h
    obtain ⟨w, hexec, hobs⟩ := Option.map_eq_some_iff.mp
      (show (execAll (connStep 0) (fun _ _ => True) [.respond true [], .respond true [],
        .writable [.sent 1000, .sent 1000]] accepted).map
          (fun w => ((w.client 0).served.toNat, responsesSent 0 (w.log.drop accepted.log.length))) = some (1, 2) by
        decide +kernel)
    obtain ⟨hserved, hsent⟩ := Prod.mk.inj hobs
    have heq := h w (Reach.exec (.start rfl) hexec)
    omega
  · intro h
    obtain ⟨w, hexec, hobs⟩ := Option.map_eq_some_iff.mp
      (show (execAll (connStep 0) (fun _ _ => True) [.respond false [.sent 1000, .sent 1000]] accepted).map
          (fun w => (w.log.drop accepted.log.length, (w.slots 0).inUse)) =
        some ([.sent 0 kHdrClose, .completed 0 ⟨kHdrClose, false⟩, .sent 0 kBody, .completed 0 ⟨kBody, true⟩], true) by
        decide +kernel)
    obtain ⟨hlog, hu⟩ := Prod.mk.inj hobs
    have hann : Announced 0 [.sent (0 : Fin 1) kHdrClose, .completed 0 ⟨kHdrClose, false⟩, .sent 0 kBody] :=
      List.mem_singleton.mpr rfl
    cases hu.symm.trans (h w (Reach.exec (.start rfl) hexec) _ ⟨kBody, true⟩ [] hlog rfl hann)

end Worker

end IOContext.Epoll
