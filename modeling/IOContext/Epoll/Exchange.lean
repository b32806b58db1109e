import IOContext.Base.Sequence
import IOContext.Epoll.Handles
import IOContext.Epoll.Unsent

/-!
# The epoll server: what a client sends and what it gets

A connection from its acceptance until it is closed: the bytes that `recv` has returned for it, and those that `sendmsg`
has taken.

- What the responder does has no part in what is parsed (`onSegment_related`).
- Each operation for a connection keeps what has been enqueued for it in order, sent or still to be sent, and touches no
  other connection (`Carries`).
- So the parser has read exactly the bytes received, and one whole response has been enqueued for each request in them,
  in order (`exchanged`).
-/

namespace IOContext.Epoll

/-! ## Two responders -/

section

variable {σ τ : Type*} (reserves : Nat → Bool) {respond : Request → Bool → σ → σ} {respond' : Request → Bool → τ → τ}
  {R : σ → τ → Prop}

/-- Two parsers that have read the same, with outputs that are related. -/
structure SameRead (R : σ → τ → Prop) (x : Parse σ) (y : Parse τ) : Prop where
  http : x.http = y.http
  req : x.req = y.req
  out : R x.out y.out

/-- What two parsers do in a turn. -/
inductive SameTurn (R : σ → τ → Prop) : Turn σ → Turn τ → Prop
  | wait {x : Parse σ} {y : Parse τ} (h : SameRead R x y) : SameTurn R (.wait x) (.wait y)
  | throw {x : Parse σ} {y : Parse τ} (h : SameRead R x y) : SameTurn R (.throw x) (.throw y)
  | next {x : Parse σ} {y : Parse τ} (h : SameRead R x y) : SameTurn R (.next x) (.next y)

/-- What two parsers leave. -/
inductive SameEnd (R : σ → τ → Prop) : Except (Parse σ) (Parse σ) → Except (Parse τ) (Parse τ) → Prop
  | ok {x : Parse σ} {y : Parse τ} (h : SameRead R x y) : SameEnd R (.ok x) (.ok y)
  | error {x : Parse σ} {y : Parse τ} (h : SameRead R x y) : SameEnd R (.error x) (.error y)

theorem turn_related (hR : ∀ req keepAlive s t, R s t → R (respond req keepAlive s) (respond' req keepAlive t))
    {x : Parse σ} {y : Parse τ} (h : SameRead R x y) :
    SameTurn R (turn reserves respond x) (turn reserves respond' y) := by
  obtain ⟨http, req, s⟩ := x
  obtain ⟨http', req', t⟩ := y
  obtain ⟨rfl, rfl, hout⟩ := h
  unfold turn
  dsimp only
  split
  · unfold startLineStage
    dsimp only
    split
    · exact .wait ⟨rfl, rfl, hout⟩
    · split
      · exact .throw ⟨rfl, rfl, hout⟩
      · exact .next ⟨rfl, rfl, hout⟩
  · unfold headersStage
    dsimp only
    split
    · exact .wait ⟨rfl, rfl, hout⟩
    · split
      · exact .throw ⟨rfl, rfl, hout⟩
      · split
        · exact .next ⟨rfl, rfl, hout⟩
        · exact .throw ⟨rfl, rfl, hout⟩
  · unfold bodyStage
    dsimp only
    split
    · exact .wait ⟨rfl, rfl, hout⟩
    · exact .next ⟨rfl, rfl, hR _ _ _ _ hout⟩

/-- Two responders that keep their outputs related are asked the same. -/
theorem onSegment_related (hR : ∀ req keepAlive s t, R s t → R (respond req keepAlive s) (respond' req keepAlive t))
    {x : Parse σ} {y : Parse τ} (h : SameRead R x y) (p : Bytes) :
    SameEnd R (onSegment reserves respond p x) (onSegment reserves respond' p y) := by
  have hends : ∀ {x : Parse σ} {r : Except (Parse σ) (Parse σ)}, Ends reserves respond x r →
      ∀ {y : Parse τ} {r' : Except (Parse τ) (Parse τ)}, SameRead R x y → Ends reserves respond' y r' →
        SameEnd R r r' := by
    intro x r hx
    induction hx with
    | wait ht =>
      intro y r' h hy
      have hturn := turn_related reserves hR h
      rw [ht] at hturn
      cases hy with
      | wait ht' =>
        rw [ht'] at hturn
        cases hturn with
        | wait hread => exact .ok hread
      | throw ht' =>
        rw [ht'] at hturn
        cases hturn
      | next ht' =>
        rw [ht'] at hturn
        cases hturn
    | throw ht =>
      intro y r' h hy
      have hturn := turn_related reserves hR h
      rw [ht] at hturn
      cases hy with
      | wait ht' =>
        rw [ht'] at hturn
        cases hturn
      | throw ht' =>
        rw [ht'] at hturn
        cases hturn with
        | throw hread => exact .error hread
      | next ht' =>
        rw [ht'] at hturn
        cases hturn
    | next ht _ ih =>
      intro y r' h hy
      have hturn := turn_related reserves hR h
      rw [ht] at hturn
      cases hy with
      | wait ht' =>
        rw [ht'] at hturn
        cases hturn
      | throw ht' =>
        rw [ht'] at hturn
        cases hturn
      | next ht' hy =>
        rw [ht'] at hturn
        cases hturn with
        | next hread => exact ih hread hy
  have hpush : SameRead R (x.push p) (y.push p) := by
    obtain ⟨http, req, s⟩ := x
    obtain ⟨http', req', t⟩ := y
    obtain ⟨rfl, rfl, hout⟩ := h
    exact ⟨rfl, rfl, hout⟩
  exact hends (onSegment_ends p x) hpush (onSegment_ends p y)

end

/-! ## What has been sent -/

variable {cap : Nat} {i j : Fin cap}

/-- The bytes that have been sent for the connection of slot `i`: those before a recycling are another one's. -/
def afterEffect (i : Fin cap) (out : Bytes) : Effect cap → Bytes
  | .sent j p => if j = i then out ++ p else out
  | .recycled j => if j = i then [] else out
  | _ => out

def sentFrom (i : Fin cap) (out : Bytes) (es : List (Effect cap)) : Bytes := es.foldl (afterEffect i) out

def sentNow (i : Fin cap) (es : List (Effect cap)) : Bytes := sentFrom i [] es

theorem sentNow_append (i : Fin cap) (es new : List (Effect cap)) :
    sentNow i (es ++ new) = sentFrom i (sentNow i es) new := List.foldl_append

theorem sentFrom_completed (i j : Fin cap) (out : Bytes) (bs : List OwnedBuf) :
    sentFrom i out (bs.map (.completed j)) = out := by
  induction bs with
  | nil => rfl
  | cons b bs ih => exact ih

namespace Worker

/-! ## The queue of a connection -/

/-- The offset is one into the first buffer, and 0 if there is none. -/
def Aligned (q : List OwnedBuf) (off : Nat) : Prop := OffsetIn q off ∧ (q = [] → off = 0)

theorem unsent_concat {q : List OwnedBuf} {off : Nat} (h : Aligned q off) (b : OwnedBuf) :
    unsent (q ++ [b]) off = unsent q off ++ b.bytes ∧ Aligned (q ++ [b]) off := by
  cases q with
  | nil =>
    rw [h.2 rfl]
    exact ⟨by simp [unsent], Nat.zero_le _, fun _ => rfl⟩
  | cons b' q => exact ⟨by simp [unsent], h.1, fun h => (by cases h)⟩

theorem gather_prefix : ∀ (k off : Nat) (q : List OwnedBuf), (gather k off q).flatten <+: unsent q off
  | 0, _, _ => by
    rw [gather]
    exact List.nil_prefix
  | _ + 1, _, [] => List.nil_prefix
  | k + 1, off, b :: q => by
    unfold gather
    rw [unsent, List.flatten_cons]
    refine (List.prefix_append_right_inj _).mpr ?_
    split
    · exact List.nil_prefix
    · have hrest := gather_prefix k 0 q
      rwa [unsent_zero] at hrest

theorem consume_empty : ∀ (q : List OwnedBuf) (off n : Nat), (q = [] → off = 0) → (consume q off n).txq = [] →
    (consume q off n).txFirstOffset = 0
  | [], off, n, h, _ => h rfl
  | b :: q, off, n, _, hq => by
    unfold consume at hq ⊢
    split at hq
    · cases hq
    · rename_i hn
      rw [if_neg hn]
      dsimp only at hq ⊢
      split at hq
      · cases hq
      · rename_i hlt
        rw [if_neg hlt]
        split at hq
        · rename_i hb
          rw [if_pos hb]
        · rename_i hb
          rw [if_neg hb]
          exact consume_empty q 0 _ (fun _ => rfl) hq

/-- What is taken off the queue is what has been sent. -/
theorem sent_consume {q : List OwnedBuf} {off k n : Nat} (h : Aligned q off)
    (hn : n ≤ (gather k off q).flatten.length) :
    (gather k off q).flatten.take n ++ unsent (consume q off n).txq (consume q off n).txFirstOffset = unsent q off ∧
      Aligned (consume q off n).txq (consume q off n).txFirstOffset := by
  obtain ⟨hrest, hoff⟩ := unsent_consume q k off n h.1 hn
  refine ⟨?_, hoff, consume_empty q off n h.2⟩
  obtain ⟨t, ht⟩ := gather_prefix k off q
  have htake : (gather k off q).flatten.take n = (unsent q off).take n := by
    rw [← ht, List.take_append_of_le_length hn]
  rw [hrest, htake, List.take_append_drop]

variable {w w' w'' : Worker cap} {h : ConnHandle} {out p p' : Bytes}

/-- What has been enqueued for the connection of slot `i` has been sent or is still queued; for no connection nothing
has. -/
structure Stream (i : Fin cap) (w : Worker cap) (out : Bytes) : Prop where
  live : (w.slots i).inUse = true →
    sentNow i w.log ++ w.unsentOf i = out ∧ Aligned (w.client i).txq (w.client i).txFirstOffset
  gone : (w.slots i).inUse = false → (w.client i).fd = -1 ∧ sentNow i w.log = []

/-- What is done for the connection of slot `i` enqueues `p` for it. -/
structure Carries (i : Fin cap) (w w' : Worker cap) (p : Bytes) : Prop where
  works : Works i w w'
  other : ∀ j, j ≠ i → sentNow j w'.log = sentNow j w.log
  http : (w'.client i).http = (w.client i).http
  req : (w'.client i).req = (w.client i).req
  stream : ∀ out, Stream i w out → Stream i w' (out ++ p)

namespace Carries

theorem refl (i : Fin cap) (w : Worker cap) : Carries i w w [] :=
  ⟨.refl i w, fun _ _ => rfl, rfl, rfl, fun out h => by rwa [List.append_nil]⟩

theorem trans (h : Carries i w w' p) (h' : Carries i w' w'' p') : Carries i w w'' (p ++ p') := by
  refine ⟨h.works.trans h'.works, fun j hj => (h'.other j hj).trans (h.other j hj), h'.http.trans h.http,
    h'.req.trans h.req, fun out hout => ?_⟩
  rw [← List.append_assoc]
  exact h'.stream _ (h.stream out hout)

/-- What enqueues nothing, before and after. -/
theorem before (h : Carries i w w' []) (h' : Carries i w' w'' p) : Carries i w w'' p := h.trans h'

theorem after (h : Carries i w w' p) (h' : Carries i w' w'' []) : Carries i w w'' p := by
  have hboth := h.trans h'
  rwa [List.append_nil] at hboth

end Carries

/-! ## The operations -/

theorem carries_emit {es : List (Effect cap)} (hes : ∀ j out, sentFrom j out es = out) (hrec : recyclings es = []) :
    Carries i w (w.emit es) [] := by
  have hsent : ∀ j, sentNow j (w.emit es).log = sentNow j w.log := fun j => (sentNow_append ..).trans (hes ..)
  refine ⟨works_emit hrec, fun j _ => hsent j, rfl, rfl, fun out h => ?_⟩
  rw [List.append_nil]
  refine ⟨fun hu => ?_, fun hu => ?_⟩
  · rw [hsent]
    exact h.live hu
  · rw [hsent]
    exact h.gone hu

theorem carries_sends (rs : List SendResult) : Carries i w { w with sends := rs } [] :=
  ⟨works_sends rs, fun _ _ => rfl, rfl, rfl, fun out h => by
    rw [List.append_nil]
    exact ⟨h.live, h.gone⟩⟩

theorem carries_unmapFd (fd : Int) : Carries i w (w.unmapFd fd) [] :=
  ⟨works_unmapFd fd, fun _ _ => rfl, rfl, rfl, fun out h => by
    rw [List.append_nil]
    exact ⟨h.live, h.gone⟩⟩

theorem stream_setClient {c : PerClientStorage} (hfd : c.fd = (w.client i).fd)
    (hq : Aligned (w.client i).txq (w.client i).txFirstOffset →
      unsent c.txq c.txFirstOffset = w.unsentOf i ++ p ∧ Aligned c.txq c.txFirstOffset) (h : Stream i w out) :
    Stream i (w.setClient i c) (out ++ p) := by
  refine ⟨fun hu => ?_, fun hu => ?_⟩
  · obtain ⟨hout, halign⟩ := h.live (by simpa using hu)
    obtain ⟨hunsent, halign⟩ := hq halign
    rw [unsentOf, setClient_client, hunsent, ← hout, List.append_assoc]
    exact ⟨rfl, halign⟩
  · obtain ⟨hgone, hsent⟩ := h.gone (by simpa using hu)
    exact ⟨by rw [setClient_client, hfd, hgone], hsent⟩

theorem carries_setClient {c : PerClientStorage} (hfd : c.fd = (w.client i).fd) (hself : c.self = (w.client i).self)
    (hhttp : c.http = (w.client i).http) (hreq : c.req = (w.client i).req)
    (hq : Aligned (w.client i).txq (w.client i).txFirstOffset →
      unsent c.txq c.txFirstOffset = w.unsentOf i ++ p ∧ Aligned c.txq c.txFirstOffset) :
    Carries i w (w.setClient i c) p :=
  ⟨works_setClient hself, fun _ _ => rfl, by simp [hhttp], by simp [hreq], fun _ => stream_setClient hfd hq⟩

theorem carries_recycle (i : Fin cap) (w : Worker cap) : Carries i w (w.recycle i) [] := by
  have hlog : (w.recycle i).log = w.log ++ w.recycleEffects i := rfl
  have hsent : ∀ (j : Fin cap) (out : Bytes), sentFrom j out (w.recycleEffects i) = if i = j then [] else out := by
    intro j out
    unfold recycleEffects
    split <;> rfl
  refine ⟨works_recycle i w, fun j hj => ?_, by simp [recycle, client], by simp [recycle, client],
    fun out _ => ⟨?_, ?_⟩⟩
  · rw [hlog, sentNow_append, hsent, if_neg hj.symm]
  · intro hu
    simp [recycle] at hu
  · intro _
    rw [hlog, sentNow_append, hsent, if_pos rfl]
    exact ⟨by simp [recycle, client], rfl⟩

theorem carries_closeAndRecycle (hi : h.index.toNat = i.val) : Carries i w (w.closeAndRecycle h) [] := by
  rw [closeAndRecycle_eq]
  cases hn : w.named h with
  | none => exact .refl i w
  | some j =>
    have hj : j = i := Fin.ext ((named_eq_some_iff.mp hn).1.symm.trans hi)
    rw [Option.elim_some, hj]
    exact carries_recycle i w

theorem carries_hangUp {fd : Int} (hi : h.index.toNat = i.val) : Carries i w (w.hangUp fd h) [] :=
  ((carries_closeAndRecycle hi).before (carries_unmapFd fd)).before (carries_emit (fun _ _ => rfl) rfl)

theorem carries_closeClient (hself : (w.client i).self.index.toNat = i.val) : Carries i w (w.closeClient i) [] :=
  ((carries_closeAndRecycle hself).before (carries_unmapFd _)).before (carries_emit (fun _ _ => rfl) rfl)

theorem carries_arm (i : Fin cap) (w : Worker cap) : Carries i w (w.arm i) [] := by
  unfold arm
  dsimp only
  split
  · exact .refl i w
  · refine Carries.before ?_ (carries_emit (fun _ _ => rfl) rfl)
    exact carries_setClient rfl rfl rfl rfl fun h => ⟨(List.append_nil _).symm, h⟩

/-- Nothing is sent, or the first bytes of the queue are. -/
theorem flushSendOnce_sent (w : Worker cap) (i : Fin cap) :
    (∃ sends, (w.flushSendOnce i).2 = { w with sends := sends }) ∨
    ∃ sends n d, (w.client i).fd ≠ -1 ∧ n ≤ w.offered i ∧
      d = consume (w.client i).txq (w.client i).txFirstOffset n ∧
      (w.flushSendOnce i).2 = (({ w with sends := sends } : Worker cap).setClient i
        { w.client i with txq := d.txq, txFirstOffset := d.txFirstOffset }).emit
          (.sent i ((gather maxIov (w.client i).txFirstOffset (w.client i).txq).flatten.take n) ::
            d.completed.map (.completed i)) := by
  obtain ⟨r, sends, hsend, hfd⟩ := w.sendmsg_cases (w.client i).fd
  unfold flushSendOnce
  dsimp only
  split
  · exact .inl ⟨w.sends, rfl⟩
  · split
    · exact .inl ⟨w.sends, rfl⟩
    · rw [hsend]
      cases r with
      | wouldBlock => exact .inl ⟨sends, rfl⟩
      | failed => exact .inl ⟨sends, rfl⟩
      | sent n =>
        dsimp only
        split
        · exact .inl ⟨sends, rfl⟩
        · exact .inr ⟨sends, _, _, hfd (by simp), Nat.min_le_right .., rfl, rfl⟩

theorem carries_flushSendOnce (i : Fin cap) (w : Worker cap) : Carries i w (w.flushSendOnce i).2 [] := by
  rcases w.flushSendOnce_sent i with ⟨sends, hw⟩ | ⟨sends, n, d, hfd, hn, rfl, hw⟩
  · rw [hw]
    exact carries_sends sends
  · have hworks : Works i w (w.flushSendOnce i).2 := works_flushSendOnce i w
    rw [hw] at hworks ⊢
    generalize hsent : (gather maxIov (w.client i).txFirstOffset (w.client i).txq).flatten.take n = bytes at hworks ⊢
    have hlog : ∀ (j : Fin cap) (out : Bytes), sentFrom j out (.sent i bytes ::
        (consume (w.client i).txq (w.client i).txFirstOffset n).completed.map (.completed i)) =
        if i = j then out ++ bytes else out := fun j out => sentFrom_completed ..
    refine ⟨hworks, fun j hj => ?_, by simp, by simp, fun out h => ⟨fun hu => ?_, fun hu => ?_⟩⟩
    · exact (sentNow_append ..).trans ((hlog ..).trans (if_neg hj.symm))
    · obtain ⟨hout, halign⟩ := h.live (by simpa using hu)
      obtain ⟨hbytes, halign⟩ := sent_consume halign hn
      refine ⟨?_, by simpa using halign⟩
      rw [emit, sentNow_append, hlog, if_pos rfl, List.append_nil, ← hout, List.append_assoc]
      refine congrArg (sentNow i w.log ++ ·) ?_
      rw [unsentOf, unsentOf, ← hsent]
      simpa [client] using hbytes
    · have hgone := (h.gone (by simpa using hu)).1
      exact absurd hgone hfd

theorem carries_countServed (i : Fin cap) (w : Worker cap) : Carries i w (w.countServed i) [] :=
  carries_setClient rfl rfl rfl rfl fun h => ⟨(List.append_nil _).symm, h⟩

theorem carries_flushTurn (hself : (w.client i).self.index.toNat = i.val) : Carries i w (w.flushTurn i).2 [] := by
  rcases hr : w.flushSendOnce i with ⟨r, w₁⟩
  have hflush : Carries i w w₁ [] := by simpa [hr] using carries_flushSendOnce i w
  unfold flushTurn
  rw [hr]
  cases r with
  | progress => exact hflush
  | finished =>
    have hserved : Carries i w (w₁.countServed i) [] := hflush.before (carries_countServed i w₁)
    dsimp only [endResponse]
    split
    · exact hserved.before (carries_closeClient (by rw [hserved.works.self, hself]))
    · exact hserved
  | fatal => exact hflush.before (carries_closeClient (by rw [hflush.works.self, hself]))
  | noData => exact hflush.before (carries_arm i _)
  | blocked => exact hflush.before (carries_arm i _)

theorem carries_flushLoop : ∀ (n : Nat) {w : Worker cap}, (w.client i).self.index.toNat = i.val →
    Carries i w (flushLoop n i w) []
  | 0, w, _ => .refl i w
  | n + 1, w, hself => by
    rcases hr : w.flushTurn i with ⟨again, w₁⟩
    have hturn : Carries i w w₁ [] := by simpa [hr] using carries_flushTurn hself
    unfold flushLoop
    rw [hr]
    cases again with
    | true => exact hturn.before (carries_flushLoop n (by rw [hturn.works.self, hself]))
    | false => exact hturn

theorem carries_txEnqueueLiteral {eor : Bool} (hself : (w.client i).self.index.toNat = i.val) :
    Carries i w (w.txEnqueueLiteral i p eor) p := by
  have hqueue : Carries i w (w.setClient i { w.client i with txq := (w.client i).txq ++ [⟨p, eor⟩] }) p :=
    carries_setClient rfl rfl rfl rfl fun h => unsent_concat h ⟨p, eor⟩
  exact hqueue.after (carries_flushLoop _ (by rw [hqueue.works.self, hself]))

/-- A response; `keep` is whether it says that the connection is kept. -/
def reply (keep : Bool) : Bytes := (if keep then kHdrKeep else kHdrClose) ++ kBody

/-- A request is answered by one response, which keeps the connection only if the request does. -/
theorem carries_enqueueRequestForResponse (hself : (w.client i).self.index.toNat = i.val) (keepAlive : Bool) :
    ∃ keep, (keep = true → keepAlive = true) ∧
      Carries i w (w.enqueueRequestForResponse i keepAlive) (reply keep) := by
  refine ⟨keepAlive && (w.client i).served < w.keepaliveLimit.toUInt32 - 1, fun h => ?_, ?_⟩
  · rw [Bool.and_eq_true] at h
    exact h.1
  · have hliteral : ∀ (hdr : Bytes), Carries i w (w.txEnqueueLiteral i hdr false) hdr :=
      fun hdr => carries_txEnqueueLiteral hself
    exact (hliteral _).trans (carries_txEnqueueLiteral (by rw [(hliteral _).works.self, hself]))

/-! ## Receiving -/

variable {reserves : Nat → Bool} {got : Bytes}

/-- A responder that only notes the requests, and whether they keep the connection. -/
def asks (req : Request) (keepAlive : Bool) (asked : List (Request × Bool)) : List (Request × Bool) :=
  asked ++ [(req, keepAlive)]

/-- A connection is kept only for a request that keeps it. -/
def Honest (asked : Request × Bool) (keep : Bool) : Prop := keep = true → asked.2 = true

/-- What is done for the connection of slot `i` is seen by no other. -/
structure Within (i : Fin cap) (w w' : Worker cap) : Prop where
  works : Works i w w'
  other : ∀ j, j ≠ i → sentNow j w'.log = sentNow j w.log

theorem Carries.within (h : Carries i w w' p) : Within i w w' := ⟨h.works, h.other⟩

theorem Within.refl (i : Fin cap) (w : Worker cap) : Within i w w := (Carries.refl i w).within

theorem Within.trans (h : Within i w w') (h' : Within i w' w'') : Within i w w'' :=
  ⟨h.works.trans h'.works, fun j hj => (h'.other j hj).trans (h.other j hj)⟩

/-- The connection of slot `i` has read the bytes `got`, and one response has been enqueued for each request in them. -/
def Answered (reserves : Nat → Bool) (i : Fin cap) (w : Worker cap) (got : Bytes) : Prop :=
  ∃ asked answers, ((w.slots i).inUse = true → Epoll.onSegment reserves asks got { out := [] } =
      .ok ⟨(w.client i).http, (w.client i).req, asked⟩) ∧
    List.Forall₂ Honest asked answers ∧ Stream i w (answers.flatMap reply)

theorem Answered.carries (h : Answered reserves i w got) (hw : Carries i w w' []) : Answered reserves i w' got := by
  obtain ⟨asked, answers, hparse, hhonest, hstream⟩ := h
  refine ⟨asked, answers, fun hu => ?_, hhonest, ?_⟩
  · rw [hw.http, hw.req]
    exact hparse (hw.works.inUse hu).1
  · have hafter := hw.stream _ hstream
    rwa [List.append_nil] at hafter

theorem Answered.other (h : Answered reserves j w got) (hw : Within i w w') (hj : j ≠ i) :
    Answered reserves j w' got := by
  have hslot := hw.works.other j hj
  obtain ⟨asked, answers, hparse, hhonest, hlive, hgone⟩ := h
  refine ⟨asked, answers, ?_, hhonest, ?_, ?_⟩
  · rw [client, hslot]
    exact hparse
  · rw [unsentOf, client, hslot, hw.other j hj]
    exact hlive
  · rw [client, hslot, hw.other j hj]
    exact hgone

/-- What has been done since `w`, where `asked` were noted, for the requests noted since. -/
def Since (i : Fin cap) (w : Worker cap) (asked : List (Request × Bool)) (w' : Worker cap)
    (asked' : List (Request × Bool)) : Prop :=
  ∃ more answers, asked' = asked ++ more ∧ List.Forall₂ Honest more answers ∧ Carries i w w' (answers.flatMap reply)

theorem Since.respond {asked asked' : List (Request × Bool)} (h : Since i w asked w' asked')
    (hself : (w.client i).self.index.toNat = i.val) (req : Request) (keepAlive : Bool) :
    Since i w asked (w'.enqueueRequestForResponse i keepAlive) (asks req keepAlive asked') := by
  obtain ⟨more, answers, hasked, hhonest, hcarries⟩ := h
  obtain ⟨keep, hkeep, henqueue⟩ := carries_enqueueRequestForResponse (by rw [hcarries.works.self, hself]) keepAlive
  refine ⟨more ++ [(req, keepAlive)], answers ++ [keep], by rw [asks, hasked, List.append_assoc],
    List.rel_append hhonest (.cons hkeep .nil), ?_⟩
  rw [List.flatMap_append, List.flatMap_singleton]
  exact hcarries.trans henqueue

/-- A segment is parsed, and the requests in it are answered on the way. -/
theorem Answered.onSegment (h : Answered reserves i w got) (hself : (w.client i).self.index.toNat = i.val)
    (hrun : (w.onSegment reserves i p).status = .running) :
    Answered reserves i (w.onSegment reserves i p) (got ++ p) ∧ Within i w (w.onSegment reserves i p) := by
  obtain ⟨asked, answers, hparse, hhonest, hstream⟩ := h
  have hrespond : ∀ req keepAlive w' asked', Since i w asked w' asked' →
      Since i w asked (w'.enqueueRequestForResponse i keepAlive) (asks req keepAlive asked') :=
    fun req keepAlive _ _ hsince => hsince.respond hself req keepAlive
  have hstart : SameRead (Since i w asked) ⟨(w.client i).http, (w.client i).req, w⟩
      ⟨(w.client i).http, (w.client i).req, asked⟩ :=
    ⟨rfl, rfl, [], [], (List.append_nil _).symm, .nil, .refl i w⟩
  have hsame := onSegment_related reserves hrespond hstart p
  unfold Worker.onSegment at hrun ⊢
  dsimp only at hrun ⊢
  generalize Epoll.onSegment reserves (fun _ keepAlive w => w.enqueueRequestForResponse i keepAlive) p
    ⟨(w.client i).http, (w.client i).req, w⟩ = r at hsame hrun ⊢
  generalize hr' : Epoll.onSegment reserves asks p ⟨(w.client i).http, (w.client i).req, asked⟩ = r' at hsame
  cases hsame with
  | error => cases hrun
  | @ok x y hread =>
    obtain ⟨hhttp, hreq, more, moreAnswers, hasked, hmore, hcarries⟩ := hread
    simp only [left] at hrun ⊢
    refine ⟨⟨asked ++ more, answers ++ moreAnswers, fun hu => ?_, List.rel_append hhonest hmore, ?_⟩, ?_⟩
    · have hused : (w.slots i).inUse = true := (hcarries.works.inUse (by simpa using hu)).1
      rw [onSegment_push, hparse hused, resume, hr', setClient_client, hhttp, hreq, ← hasked]
    · rw [List.flatMap_append]
      have hafter := hcarries.stream _ hstream
      have hset := stream_setClient (c := { x.out.client i with http := x.http, req := x.req }) rfl
        (fun h => ⟨(List.append_nil _).symm, h⟩) hafter
      rwa [List.append_nil] at hset
    · exact ⟨hcarries.works.trans (works_setClient rfl), hcarries.other⟩

/-- The bytes that the loop of `handle_recv_et` reads. -/
def segments : List RecvResult → Bytes
  | [] => []
  | .received p :: rs => if p = [] then [] else p.take rxCap ++ segments rs
  | .wouldBlock :: _ => []
  | .interrupted :: rs => segments rs
  | .failed :: _ => []

theorem Answered.hangUp (h : Answered reserves i w got) {c : ConnHandle} (hi : c.index.toNat = i.val) (fd : Int) :
    Answered reserves i (w.hangUp fd c) (got ++ []) ∧ Within i w (w.hangUp fd c) := by
  rw [List.append_nil]
  exact ⟨h.carries (carries_hangUp hi), (carries_hangUp hi).within⟩

theorem Answered.recvLoop {fd : Int} {c : ConnHandle} (hi : c.index.toNat = i.val) : ∀ (rs : List RecvResult)
    {w : Worker cap} {got : Bytes}, Answered reserves i w got → (w.client i).self.index.toNat = i.val →
    (recvLoop reserves fd c i rs w).status = .running →
    Answered reserves i (recvLoop reserves fd c i rs w) (got ++ segments rs) ∧
      Within i w (recvLoop reserves fd c i rs w)
  | [], w, got, h, _, _ => by
    rw [segments, List.append_nil]
    exact ⟨h, .refl i w⟩
  | .received p :: rs, w, got, h, hself, hrun => by
    unfold Worker.recvLoop segments at *
    split at hrun
    · rename_i hp
      simp only [if_pos hp]
      exact h.hangUp hi fd
    · rename_i hp
      simp only [if_neg hp] at hrun ⊢
      split at hrun
      · rename_i hstatus
        obtain ⟨hseg, hwithin⟩ := h.onSegment hself hstatus
        obtain ⟨hrest, hwithin'⟩ := hseg.recvLoop hi rs (by rw [hwithin.works.self, hself]) hrun
        rw [if_pos hstatus, ← List.append_assoc]
        exact ⟨hrest, hwithin.trans hwithin'⟩
      · rename_i hstatus
        exact absurd hrun hstatus
  | .wouldBlock :: _, w, got, h, _, _ => by
    rw [segments, List.append_nil]
    exact ⟨h, .refl i w⟩
  | .interrupted :: rs, w, got, h, hself, hrun => h.recvLoop hi rs hself hrun
  | .failed :: _, w, got, h, _, _ => h.hangUp hi fd

/-! ## Steps -/

/-- What is known of all slots, where the connections have read the bytes `got`. -/
structure Told (reserves : Nat → Bool) (w : Worker cap) (got : Fin cap → Bytes) : Prop where
  wf : w.Wf
  answered : ∀ i, Answered reserves i w (got i)

variable {gots gots' : Fin cap → Bytes}

theorem Told.within (h : Told reserves w gots) (hw : Within i w w') (hi : Answered reserves i w' (gots' i))
    (hother : ∀ j, j ≠ i → gots' j = gots j) : Told reserves w' gots' := by
  refine ⟨hw.works.wf h.wf, fun j => ?_⟩
  by_cases hj : j = i
  · rw [hj]
    exact hi
  · rw [hother j hj]
    exact (h.answered j).other hw hj

theorem Told.carries (h : Told reserves w gots) (hw : Carries i w w' []) : Told reserves w' gots :=
  h.within hw.within ((h.answered i).carries hw) fun _ _ => rfl

/-- What concerns no connection. -/
theorem Told.quiet (h : Told reserves w gots) (hwf : w'.Wf) (hw : ∀ i, Carries i w w' []) : Told reserves w' gots :=
  ⟨hwf, fun i => (h.answered i).carries (hw i)⟩

theorem Told.emit (h : Told reserves w gots) (fd : Int) : Told reserves (w.emit [.epDel fd]) gots :=
  h.quiet h.wf fun _ => carries_emit (fun _ _ => rfl) rfl

theorem Told.hangUp (h : Told reserves w gots) (fd : Int) (c : ConnHandle) : Told reserves (w.hangUp fd c) gots := by
  cases hn : w.named c with
  | none =>
    rw [hangUp_none hn]
    exact h.quiet h.wf fun _ => (carries_unmapFd fd).before (carries_emit (fun _ _ => rfl) rfl)
  | some j => exact h.carries (carries_hangUp (named_eq_some_iff.mp hn).1)

/-- The bytes that are read for the connection of slot `i`. -/
def reads (w : Worker cap) (i : Fin cap) : Action cap → Bytes
  | .event e =>
    if e.fd ≠ w.listen ∧ has e.events EPOLLIN = true ∧ hasHup e.events = false ∧ w.tryGet (w.lookup e.fd) = some i then
      segments e.recvs
    else []
  | .idle _ => []

theorem Told.handleRecvEt {e : Event} (h : Told reserves w gots)
    (hrun : (w.handleRecvEt reserves e.fd e.events e.recvs).status = .running) :
    Told reserves (w.handleRecvEt reserves e.fd e.events e.recvs) fun i =>
      gots i ++ if hasHup e.events = false ∧ w.tryGet (w.lookup e.fd) = some i then segments e.recvs else [] := by
  unfold Worker.handleRecvEt at hrun ⊢
  cases hg : w.tryGet (w.lookup e.fd) with
  | none => simpa using h.emit e.fd
  | some i =>
    obtain ⟨hi, hu⟩ := named_eq_some_iff.mp (tryGet_eq_some_iff.mp hg).1
    rw [hg] at hrun
    dsimp only at hrun ⊢
    cases hhup : hasHup e.events with
    | true => simpa using h.hangUp e.fd (w.lookup e.fd)
    | false =>
      simp only [hhup, Bool.false_eq_true, if_false] at hrun ⊢
      obtain ⟨hanswered, hwithin⟩ := (h.answered i).recvLoop hi e.recvs (h.wf i hu) hrun
      refine h.within hwithin (by simpa using hanswered) fun j hj => ?_
      have hne : some i ≠ some j := fun h => hj (Option.some.inj h).symm
      simp [hne]

theorem Told.handleSendReadyEt (h : Told reserves w gots) (fd : Int) :
    Told reserves (w.handleSendReadyEt fd) gots := by
  unfold Worker.handleSendReadyEt
  cases hg : w.tryGet (w.lookup fd) with
  | none => exact h.emit fd
  | some i =>
    obtain ⟨-, hu⟩ := named_eq_some_iff.mp (tryGet_eq_some_iff.mp hg).1
    exact h.carries (carries_flushLoop _ (h.wf i hu))

/-- A connection that has just been accepted has read nothing. -/
theorem Answered.accepted {fd : Nat} (h : Answered reserves i w got) (hfree : (w.slots i).inUse = false)
    (hclient : w'.client i = { fd := fd, self := (w'.client i).self }) (hlog : sentNow i w'.log = sentNow i w.log)
    (hused : (w'.slots i).inUse = true) : Answered reserves i w' [] := by
  obtain ⟨_, _, -, -, hstream⟩ := h
  refine ⟨[], [], fun _ => ?_, .nil, fun _ => ⟨?_, ?_⟩, fun hu => ?_⟩
  · rw [hclient]
    exact onSegment_fresh []
  · rw [hlog, (hstream.gone hfree).2, unsentOf, hclient]
    rfl
  · rw [hclient]
    exact ⟨trivial, fun _ => rfl⟩
  · rw [hused] at hu
    cases hu

theorem Told.acceptLoop : ∀ (as : List AcceptResult) {w : Worker cap}, Told reserves w gots →
    (∀ i, (w.slots i).inUse = false → gots i = []) → Told reserves (acceptLoop as w) gots
  | [], _, h, _ => h
  | .accepted fd :: as, w, h, hnone => by
    unfold Worker.acceptLoop
    cases ha : w.allocate with
    | none => exact h.quiet h.wf fun i => ⟨works_status _, fun _ _ => rfl, rfl, rfl, fun out hout => by
        rw [List.append_nil]
        exact ⟨hout.live, hout.gone⟩⟩
    | some hw =>
      obtain ⟨c, w₁⟩ := hw
      obtain ⟨i, hfree, hgen, hindex, hget, rfl⟩ := allocate_spec ha
      simp only [hget]
      generalize hw₂ : ((((w.setSlot i { w.slots i with inUse := true, client := {} }).setClient i
        { fd := fd, self := c }).mapFd fd c).emit [.epAdd fd (EPOLLIN ||| EPOLLRDHUP ||| EPOLLET)]) = w₂
      have hslot : w₂.slots i = { w.slots i with inUse := true, client := { fd := fd, self := c } } := by
        rw [← hw₂]
        exact setClient_slots.trans (by rw [setSlot_slots])
      have hother : ∀ j, j ≠ i → w₂.slots j = w.slots j := fun j hji => by
        rw [← hw₂]
        exact (setClient_other hji).trans (setSlot_other hji)
      have hsent : ∀ j, sentNow j w₂.log = sentNow j w.log := fun j => by
        rw [← hw₂]
        exact sentNow_append ..
      have hclient : w₂.client i = { fd := fd, self := c } := by rw [client, hslot]
      have hnew : Told reserves w₂ gots := by
        refine ⟨fun j hj => ?_, fun j => ?_⟩
        · by_cases hji : j = i
          · rw [hji, hclient]
            exact hindex
          · rw [client, hother j hji] at *
            exact h.wf j hj
        · by_cases hji : j = i
          · rw [hji, hnone i hfree]
            exact (h.answered i).accepted hfree (by rw [hclient]) (hsent i) (by rw [hslot])
          · obtain ⟨asked, answers, hparse, hhonest, hlive, hgone⟩ := h.answered j
            refine ⟨asked, answers, ?_, hhonest, ?_, ?_⟩
            · rw [client, hother j hji]
              exact hparse
            · rw [unsentOf, client, hother j hji, hsent]
              exact hlive
            · rw [client, hother j hji, hsent]
              exact hgone
      refine hnew.acceptLoop as fun j hj => ?_
      by_cases hji : j = i
      · rw [hji, hslot] at hj
        cases hj
      · exact hnone j (hother j hji ▸ hj)
  | .interrupted :: as, _, h, hnone => h.acceptLoop as hnone
  | .wouldBlock :: _, _, h, _ => h
  | .failed :: _, _, h, _ => h

theorem Told.dispatch {e : Event} (h : Told reserves w gots) (hnone : ∀ i, (w.slots i).inUse = false → gots i = [])
    (hrun : (w.dispatch reserves e).status = .running) :
    Told reserves (w.dispatch reserves e) fun i => gots i ++ w.reads i (.event e) := by
  unfold Worker.dispatch reads at *
  split
  · rename_i hl
    simpa [hl] using h.acceptLoop e.accepts hnone
  · rename_i hl
    rw [if_neg hl] at hrun
    dsimp only at hrun ⊢
    have h1 : (if has e.events EPOLLIN then w.handleRecvEt reserves e.fd e.events e.recvs else w).status = .running →
        Told reserves (if has e.events EPOLLIN then w.handleRecvEt reserves e.fd e.events e.recvs else w)
          fun i => gots i ++ if e.fd ≠ w.listen ∧ has e.events EPOLLIN = true ∧ hasHup e.events = false ∧
            w.tryGet (w.lookup e.fd) = some i then segments e.recvs else [] := by
      intro hrun
      split at hrun
      · rename_i hin
        simpa [hl, hin] using h.handleRecvEt hrun
      · rename_i hin
        simpa [hin] using h
    generalize (if has e.events EPOLLIN then w.handleRecvEt reserves e.fd e.events e.recvs else w) = w₁ at h1 hrun ⊢
    split at hrun
    · rename_i hstatus
      have hready : ∀ {gots : Fin cap → Bytes}, Told reserves w₁ gots →
          Told reserves (if has e.events EPOLLOUT then w₁.handleSendReadyEt e.fd else w₁) gots := fun h => by
        split
        · exact h.handleSendReadyEt e.fd
        · exact h
      have h2 := hready (h1 hstatus)
      rw [if_pos hstatus]
      split
      · exact h2.hangUp _ _
      · exact h2
    · rename_i hstatus
      exact absurd hrun hstatus

theorem Told.sweepIdle (h : Told reserves w gots) (late : Fin cap → Bool) : Told reserves (w.sweepIdle late) gots := by
  unfold Worker.sweepIdle
  generalize List.finRange cap = is
  induction is generalizing w with
  | nil => exact h
  | cons i is ih =>
    refine ih ?_
    dsimp only
    split
    · split
      · exact h
      · rename_i j hg
        have hj := (named_eq_some_iff.mp (tryGet_eq_some_iff.mp hg).1).1
        have hclosing : Carries j w (w.setClient j { w.client j with closing := true }) [] :=
          carries_setClient rfl rfl rfl rfl fun h => ⟨(List.append_nil _).symm, h⟩
        have hclosed := h.carries (hclosing.before (carries_closeAndRecycle hj))
        split
        · exact hclosed
        · refine hclosed.quiet hclosed.wf fun _ => ?_
          exact (carries_unmapFd _).before (carries_emit (fun _ _ => rfl) rfl)
    · exact h

end Worker

/-! ## Runs -/

/-- A worker, with the bytes that `recv` has returned for the connections in use. -/
structure Exchange (cap : Nat) where
  w : Worker cap
  received : Fin cap → Bytes := fun _ => []

namespace Exchange

open Worker

variable {reserves : Nat → Bool} {x x' : Exchange cap}

variable (reserves) in
def step (x : Exchange cap) (a : Action cap) : Option (Exchange cap) :=
  (x.w.step reserves a).map fun w' =>
    { w := w', received := fun i => if (w'.slots i).inUse then x.received i ++ x.w.reads i a else [] }

/-- A worker whose table is empty, and which has done nothing yet. -/
def Init (x : Exchange cap) : Prop :=
  (∀ i, (x.w.slots i).inUse = false ∧ x.w.client i = {}) ∧ x.w.log = [] ∧ x.received = fun _ => []

/-- What is known of a worker that goes on. -/
structure Known (reserves : Nat → Bool) (x : Exchange cap) : Prop where
  told : x.w.status = .running → Told reserves x.w x.received
  none : ∀ i, (x.w.slots i).inUse = false → x.received i = []

theorem Init.known (h : x.Init) : Known reserves x := by
  obtain ⟨hslots, hlog, hreceived⟩ := h
  refine ⟨fun _ => ⟨fun i hi => ?_, fun i => ?_⟩, fun i _ => by rw [hreceived]⟩
  · rw [(hslots i).1] at hi
    cases hi
  · refine ⟨[], [], fun hi => ?_, .nil, fun hi => ?_, fun _ => ?_⟩
    · rw [(hslots i).1] at hi
      cases hi
    · rw [(hslots i).1] at hi
      cases hi
    · rw [(hslots i).2, hlog]
      exact ⟨rfl, rfl⟩

theorem Known.step {a : Action cap} (h : Known reserves x) (hs : x.step reserves a = some x') : Known reserves x' := by
  obtain ⟨w', hw, rfl⟩ := Option.map_eq_some_iff.mp hs
  refine ⟨fun hrun => ?_, fun i hi => if_neg (by simpa using hi)⟩
  have hrun : w'.status = .running := hrun
  -- what is not in use has nothing to be told
  have htold : Told reserves w' fun i => x.received i ++ x.w.reads i a := by
    unfold Worker.step at hw
    split at hw
    · rename_i hgoes
      cases hw
      cases a with
      | event e =>
        have hsends : Told reserves { x.w with sends := e.sends } x.received :=
          (h.told hgoes).quiet (h.told hgoes).wf fun _ => carries_sends e.sends
        exact hsends.dispatch h.none hrun
      | idle late => simpa [reads] using (h.told hgoes).sweepIdle late
    · cases hw
  refine ⟨htold.wf, fun i => ?_⟩
  obtain ⟨asked, answers, hparse, hanswers⟩ := htold.answered i
  refine ⟨asked, answers, fun hi => ?_, hanswers⟩
  have hi : (w'.slots i).inUse = true := hi
  simpa [hi] using hparse hi

/-- Every connection in use, of every worker that goes on: its parser has read the bytes that have been received since
it was accepted, and one whole response has been enqueued for each request in them, in order; the bytes sent and those
that are still to be sent are these responses. A response that keeps the connection is for a request that does. -/
theorem exchanged (hx : Reach Init (step reserves) (fun _ _ => True) x) (hrun : x.w.status = .running) {i : Fin cap}
    (hi : (x.w.slots i).inUse = true) :
    ∃ asked answers, Epoll.onSegment reserves asks (x.received i) { out := [] } =
        .ok ⟨(x.w.client i).http, (x.w.client i).req, asked⟩ ∧
      List.Forall₂ Honest asked answers ∧ sentNow i x.w.log ++ x.w.unsentOf i = answers.flatMap reply := by
  have hknown : Known reserves x :=
    Reach.invariant (fun _ => Init.known) (fun _ _ _ h _ hs => h.step hs) x hx
  obtain ⟨asked, answers, hparse, hhonest, hstream⟩ := (hknown.told hrun).answered i
  exact ⟨asked, answers, hparse hi, hhonest, (hstream.live hi).1⟩

/-- Two requests in three pieces, and a kernel that takes 50 bytes and then no more. -/
def twoRequests : List (Action 2) :=
  [.event { fd := 4, events := EPOLLIN, accepts := [.accepted 5] },
    .event {
      fd := 5, events := EPOLLIN
      recvs := [.received (ascii "GET / HTTP/1.1" ++ [CR, LF] ++ ascii "Host: "), .interrupted,
        .received (ascii "a" ++ [CR, LF, CR, LF] ++ ascii "GET / HTTP/1.1" ++ [CR])]
      sends := [.sent 50] },
    .event { fd := 5, events := EPOLLIN, recvs := [.received ([LF] ++ ascii "Host: b" ++ [CR, LF, CR, LF])] }]

theorem exchanged_partly : ∃ x : Exchange 2, (sentNow 0 x.w.log).length = 50 ∧ ∃ asked answers,
    Epoll.onSegment (fun n => n < 2 ^ 62) asks (x.received 0) { out := [] } =
      .ok ⟨(x.w.client 0).http, (x.w.client 0).req, asked⟩ ∧
    List.Forall₂ Honest asked answers ∧ sentNow 0 x.w.log ++ x.w.unsentOf 0 = answers.flatMap reply := by
  obtain ⟨x, hexec, hobs⟩ := Option.map_eq_some_iff.mp
    (show (execAll (step fun n => n < 2 ^ 62) (fun _ _ => True) twoRequests
      ({ w := { keepaliveLimit := 65000, listen := 4 } } : Exchange 2)).map (fun x => decide (x.w.status = .running ∧
        (x.w.slots 0).inUse = true ∧ (sentNow 0 x.w.log).length = 50)) = some true by decide +kernel)
  obtain ⟨hrun, hused, hsent⟩ := of_decide_eq_true hobs
  exact ⟨x, hsent, exchanged (.exec (.start ⟨fun _ => ⟨rfl, rfl⟩, rfl, rfl⟩) hexec) hrun hused⟩

end Exchange

end IOContext.Epoll
