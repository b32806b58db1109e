import IOContext.Iocp.Sending

/-!
# The IOCP server: counting responses

A response has been sent when the buffer that marks its end has. Each send stops at the first such buffer and says so in
`inflight_eor`, so that each completion has a response to count or none. The count itself is outside of the region of
the completion: `served` is read, written, and read again for the limit.

- What a send takes has one end of a response or none, as it says (`gather_eor`).
- No more responses are counted than have been sent (`served_le`), but two workers that count at the same time lose one
  (`update_lost`).
- As long as the workers count one after another, the responses sent are those counted and those about to be, and the
  connection is closed with the one that makes `served` reach the limit (`served_counts`).
-/

namespace IOContext.Iocp

namespace Tx

variable {c c' : Tx} {a : Action}

/-- The ends of responses among buffers. -/
def ends (bufs : List OwnedBuf) : Nat := bufs.countP (·.eor)

theorem ends_append (bufs bufs' : List OwnedBuf) : ends (bufs ++ bufs') = ends bufs + ends bufs' :=
  List.countP_append

theorem gather_eor : ∀ (n : Nat) (q : List OwnedBuf), ends (gather n q).1 = if (gather n q).2 then 1 else 0
  | 0, _ | _ + 1, [] => rfl
  | n + 1, b :: q => by
    unfold gather
    split
    · rename_i hb
      simp [ends, hb]
    · rename_i hb
      have hrest := gather_eor n q
      simpa [ends, hb] using hrest

/-- The workers that have not written `served` yet. -/
def unwritten (finishing : List Count) : Nat := finishing.countP fun x => x != .written

/-- The workers that have begun to count, and not come to the end of it. -/
def counting (finishing : List Count) : Nat := finishing.countP fun x => x != .begun

/-! ## Steps -/

/-- The send under way ends a response exactly if it says so. -/
structure Batched (c : Tx) : Prop where
  inv : c.Inv
  batch : ends (c.txq.take c.inflightCount) = if c.inflightEor then 1 else 0

theorem batched_fresh (h : c.Fresh) : c.Batched := by
  have hinv := inv_fresh h
  obtain ⟨limit, rfl⟩ := h
  exact ⟨hinv, rfl⟩

/-- What a step does to the batch under way and to the count. -/
inductive Counts (c : Tx) : Action → Tx → Prop
  | other {a : Action} {c' : Tx} (served : c'.served = c.served) (finishing : c'.finishing = c.finishing)
      (sent : c'.sent = c.sent) (limit : c'.keepaliveLimit = c.keepaliveLimit) (live : c'.live = c.live)
      (ha : ∀ i, a ≠ .readServed i) : Counts c a c'
  | completed {i : Nat} {bufs : List OwnedBuf} {c' : Tx} (hbufs : ends bufs = if c.inflightEor then 1 else 0)
      (served : c'.served = c.served)
      (finishing : c'.finishing = if c.inflightEor then c.finishing ++ [.begun] else c.finishing)
      (sent : c'.sent = c.sent ++ bufs) (limit : c'.keepaliveLimit = c.keepaliveLimit) (live : c'.live = c.live) :
      Counts c (.completed i) c'
  | reads {i : Nat} {l₁ l₂ : List Count} (hf : c.finishing = l₁ ++ .begun :: l₂) :
      Counts c (.readServed i) { c with finishing := l₁ ++ .read c.served :: l₂ }
  | writes {i : Nat} {l₁ l₂ : List Count} {served : UInt32} (hf : c.finishing = l₁ ++ .read served :: l₂) :
      Counts c (.writeServed i) { c with finishing := l₁ ++ .written :: l₂, served := served + 1 }
  | checks {i : Nat} {l₁ l₂ : List Count} (hf : c.finishing = l₁ ++ .written :: l₂) :
      Counts c (.checkLimit i) ({ c with finishing := l₁ ++ l₂ } : Tx).checkLimit

theorem Batched.step (hc : c.Batched) (hs : c.step a = some c') : c.live = true ∧ Counts c a c' ∧ c'.Batched := by
  have hbatch := hc.batch
  suffices h : c.live = true ∧ Counts c a c' ∧
      ends (c'.txq.take c'.inflightCount) = if c'.inflightEor then 1 else 0 from
    ⟨h.1, h.2.1, hc.inv.step hs, h.2.2⟩
  unfold Tx.step at hs
  split at hs
  · rename_i hlive
    refine ⟨hlive, ?_⟩
    cases a with
    | enqueue b =>
      cases hs
      unfold txEnqueue
      rw [postKick_eq]
      refine ⟨.other rfl rfl rfl rfl rfl fun _ => by rintro ⟨⟩, ?_⟩
      dsimp only
      rw [List.take_append_of_le_length hc.inv.count]
      exact hbatch
    | kick =>
      dsimp only at hs
      split at hs
      · cases hs
        unfold maybeStartSendWorker
        dsimp only
        split
        · exact ⟨.other rfl rfl rfl rfl rfl fun _ => by rintro ⟨⟩, hbatch⟩
        · split
          · exact ⟨.other rfl rfl rfl rfl rfl fun _ => by rintro ⟨⟩, hbatch⟩
          · refine ⟨.other rfl rfl rfl rfl rfl fun _ => by rintro ⟨⟩, ?_⟩
            dsimp only
            rw [take_gather, gather_eor]
      · cases hs
    | submit i =>
      obtain ⟨n, -, rfl⟩ := Option.map_eq_some_iff.mp hs
      exact ⟨.other rfl rfl rfl rfl rfl fun _ => by rintro ⟨⟩, hbatch⟩
    | completed i =>
      obtain ⟨bufs, hi, rfl⟩ := Option.map_eq_some_iff.mp hs
      -- the buffers are the first of the queue
      have hbufs : bufs = c.txq.take c.inflightCount := by
        rcases hc.inv.sending with ⟨-, -, -, hf⟩ | ⟨-, -, hf, -⟩ | ⟨-, -, hf⟩ <;> rw [hf] at hi
        · cases hi
        · cases hi
        · exact (only_one hi).2
      rw [← hbufs] at hbatch
      unfold sendCompleted
      dsimp only
      split
      · exact ⟨.completed hbatch rfl rfl rfl rfl rfl, rfl⟩
      · rw [postKick_eq]
        exact ⟨.completed hbatch rfl rfl rfl rfl rfl, rfl⟩
    | readServed i =>
      dsimp only at hs
      split at hs
      · rename_i hi
        obtain ⟨l₁, l₂, hl, hset, -⟩ := split_at hi
        cases hs
        rw [hset]
        exact ⟨.reads hl, hbatch⟩
      · cases hs
    | writeServed i =>
      dsimp only at hs
      split at hs
      · rename_i hi
        obtain ⟨l₁, l₂, hl, hset, -⟩ := split_at hi
        cases hs
        rw [hset]
        exact ⟨.writes hl, hbatch⟩
      · cases hs
    | checkLimit i =>
      dsimp only at hs
      split at hs
      · rename_i hi
        obtain ⟨l₁, l₂, hl, -, herase⟩ := split_at hi
        cases hs
        rw [herase]
        refine ⟨.checks hl, ?_⟩
        unfold Tx.checkLimit
        split <;> exact hbatch
      · cases hs
  · cases hs

theorem mem_around {l₁ l₂ : List Count} {x y : Count} : x ∈ l₁ ++ y :: l₂ ↔ x = y ∨ x ∈ l₁ ++ l₂ :=
  List.perm_middle.mem_iff.trans List.mem_cons

theorem unwritten_around (l₁ l₂ : List Count) (x : Count) :
    unwritten (l₁ ++ x :: l₂) = unwritten (l₁ ++ l₂) + if x = .written then 0 else 1 := by
  unfold unwritten
  rw [List.perm_middle.countP_eq, List.countP_cons]
  by_cases hx : x = .written <;> simp [hx]

theorem counting_around (l₁ l₂ : List Count) (x : Count) :
    counting (l₁ ++ x :: l₂) = counting (l₁ ++ l₂) + if x = .begun then 0 else 1 := by
  unfold counting
  rw [List.perm_middle.countP_eq, List.countP_cons]
  by_cases hx : x = .begun <;> simp [hx]

theorem begun_of_counting {l : List Count} (h : counting l = 0) : ∀ x ∈ l, x = .begun := by
  simpa [counting, List.countP_eq_zero] using h

/-- A batch has the end of a response exactly if a worker is to count one. -/
theorem unwritten_completed (finishing : List Count) (finished : Bool) :
    unwritten (if finished then finishing ++ [.begun] else finishing) =
      unwritten finishing + if finished then 1 else 0 := by
  cases finished <;> simp [unwritten]

theorem checkLimit_eq (c : Tx) : c.checkLimit.served = c.served ∧ c.checkLimit.finishing = c.finishing ∧
    c.checkLimit.sent = c.sent ∧ c.checkLimit.keepaliveLimit = c.keepaliveLimit := by
  unfold Tx.checkLimit
  split <;> exact ⟨rfl, rfl, rfl, rfl⟩

/-- Below the limit the count does not wrap around. -/
theorem toNat_succ_of_lt {n : UInt32} {limit : UInt16} (h : n = 0 ∨ n.toNat < limit.toNat) :
    (n + 1).toNat = n.toNat + 1 := by
  have hlimit := limit.toNat_lt
  have hsmall : n.toNat < 2 ^ 16 := by
    rcases h with rfl | hlt
    · decide
    · omega
  rw [UInt32.toNat_add]
  exact Nat.mod_eq_of_lt (by simp; omega)

theorem toNat_succ_le (n : UInt32) : (n + 1).toNat ≤ n.toNat + 1 := by
  rw [UInt32.toNat_add]
  exact Nat.mod_le _ _

/-! ## In any order -/

/-- No response is counted that has not been sent. -/
structure NotMore (c : Tx) : Prop where
  served : c.served.toNat + unwritten c.finishing ≤ ends c.sent
  read : ∀ served, .read served ∈ c.finishing → served.toNat + unwritten c.finishing ≤ ends c.sent

theorem notMore_fresh (h : c.Fresh) : c.NotMore := by
  obtain ⟨limit, rfl⟩ := h
  exact ⟨Nat.le_refl _, fun _ h => absurd h List.not_mem_nil⟩

theorem NotMore.step (hc : c.NotMore) (hs : Counts c a c') : c'.NotMore := by
  have hserved := hc.served
  cases hs with
  | other served finishing sent =>
    refine ⟨by rw [served, finishing, sent]; exact hserved, fun v hv => ?_⟩
    rw [finishing] at hv ⊢
    rw [sent]
    exact hc.read v hv
  | completed hbufs served finishing sent =>
    have hends : ends c'.sent + unwritten c.finishing = ends c.sent + unwritten c'.finishing := by
      rw [sent, ends_append, hbufs, finishing, unwritten_completed]
      omega
    refine ⟨by rw [served]; omega, fun v hv => ?_⟩
    have hmem : .read v ∈ c.finishing := by
      rw [finishing] at hv
      split at hv
      · simpa using hv
      · exact hv
    have hread := hc.read v hmem
    omega
  | @reads i l₁ l₂ hf =>
    have hsame : unwritten (l₁ ++ .read c.served :: l₂) = unwritten c.finishing := by
      rw [hf, unwritten_around, unwritten_around]
      rfl
    refine ⟨by rw [hsame]; exact hserved, fun v hv => ?_⟩
    rw [hsame]
    rcases mem_around.mp hv with hnew | hold
    · cases hnew
      exact hserved
    · exact hc.read v (hf ▸ mem_around.mpr (.inr hold))
  | @writes i l₁ l₂ v hf =>
    have hless : unwritten (l₁ ++ .written :: l₂) + 1 = unwritten c.finishing := by
      rw [hf, unwritten_around, unwritten_around]
      rfl
    have hread := hc.read v (hf ▸ List.mem_append_right _ List.mem_cons_self)
    have hnext := toNat_succ_le v
    refine ⟨by dsimp only; omega, fun v' hv => ?_⟩
    rcases mem_around.mp hv with hnew | hold
    · cases hnew
    · have hread' := hc.read v' (hf ▸ mem_around.mpr (.inr hold))
      dsimp only
      omega
  | @checks i l₁ l₂ hf =>
    obtain ⟨hserved', hfinishing, hsent, -⟩ := checkLimit_eq { c with finishing := l₁ ++ l₂ }
    have hsame : unwritten (l₁ ++ l₂) = unwritten c.finishing := by
      rw [hf, unwritten_around]
      rfl
    refine ⟨by rw [hserved', hfinishing, hsent, hsame]; exact hserved, fun v hv => ?_⟩
    rw [hfinishing] at hv ⊢
    rw [hsent, hsame]
    exact hc.read v (hf ▸ mem_around.mpr (.inr hv))

theorem batched_of_reach {ok : Tx → Action → Prop} : ∀ c, Reach Fresh step ok c → c.Batched :=
  Reach.invariant (fun _ => batched_fresh) fun _ _ _ hc _ h => (hc.step h).2.2

/-- Whatever the order of the steps, no more responses are counted than have been sent. -/
theorem served_le (hs : Reach Fresh step (fun _ _ => True) c) : c.served.toNat ≤ ends c.sent := by
  have hc : c.NotMore := Reach.invariant_of batched_of_reach (fun _ => notMore_fresh)
    (fun _ _ _ hb hc _ h => hc.step (hb.step h).2.1) c hs
  exact Nat.le_trans (Nat.le_add_right ..) hc.served

/-- Two workers that count at the same time lose a response. -/
theorem update_lost : ∃ c : Tx, Reach Fresh step (fun _ _ => True) c ∧ ends c.sent = 2 ∧ c.finishing = [] ∧
    c.served = 1 := by
  obtain ⟨c, hexec, hobs⟩ := Option.map_eq_some_iff.mp
    (show (execAll step (fun _ _ => True) [.enqueue greetingBody, .enqueue greetingBody, .kick, .submit 0, .completed 0,
      .kick, .submit 0, .completed 0, .readServed 0, .readServed 1, .writeServed 0, .writeServed 1, .checkLimit 0,
      .checkLimit 0] { keepaliveLimit := 10 }).map (fun c => (ends c.sent, c.finishing, c.served)) =
      some (2, [], 1) by decide +kernel)
  simp only [Prod.mk.injEq] at hobs
  exact ⟨c, Reach.exec (.start ⟨10, rfl⟩) hexec, hobs⟩

/-! ## One after another -/

/-- A worker begins to count only when no other worker is about it. -/
def OneByOne (c : Tx) : Action → Prop
  | .readServed _ => counting c.finishing = 0
  | _ => True

instance (c : Tx) (a : Action) : Decidable (c.OneByOne a) := by
  unfold OneByOne
  split <;> infer_instance

structure Counted (c : Tx) : Prop where
  sent : ends c.sent = c.served.toNat + unwritten c.finishing
  one : counting c.finishing ≤ 1
  read : ∀ served, .read served ∈ c.finishing → served = c.served
  wrote : .written ∈ c.finishing → c.served ≠ 0
  live : .written ∉ c.finishing → (c.live = true ↔ c.served = 0 ∨ c.served.toNat < c.keepaliveLimit.toNat)
  bound : c.served.toNat ≤ max 1 c.keepaliveLimit.toNat

/-- A worker begins to count, and no other is about it. -/
theorem Counted.reads (hc : c.Counted) {l₁ l₂ : List Count} (hf : c.finishing = l₁ ++ .begun :: l₂)
    (hnone : counting c.finishing = 0) : Counted { c with finishing := l₁ ++ .read c.served :: l₂ } := by
  rw [hf, counting_around, if_pos rfl] at hnone
  have hbegun := begun_of_counting hnone
  refine ⟨?_, ?_, fun v hv => ?_, fun hv => ?_, fun _ => ?_, hc.bound⟩
  · rw [hc.sent, hf, unwritten_around, unwritten_around]
    rfl
  · rw [counting_around, if_neg (by rintro ⟨⟩)]
    omega
  · rcases mem_around.mp hv with hnew | hold
    · cases hnew
      rfl
    · cases hbegun _ hold
  · rcases mem_around.mp hv with hnew | hold
    · cases hnew
    · cases hbegun _ hold
  · refine hc.live fun h => ?_
    rw [hf] at h
    rcases mem_around.mp h with hnew | hold
    · cases hnew
    · cases hbegun _ hold

/-- It writes what it has read and one more, which is still the count and one more. -/
theorem Counted.writes (hc : c.Counted) (hlive : c.live = true) {l₁ l₂ : List Count} {served : UInt32}
    (hf : c.finishing = l₁ ++ .read served :: l₂) :
    Counted { c with finishing := l₁ ++ .written :: l₂, served := served + 1 } := by
  have hsent := hc.sent
  have hone := hc.one
  rw [hf, counting_around, if_neg (by rintro ⟨⟩)] at hone
  have hbegun := begun_of_counting (Nat.le_zero.mp (Nat.le_of_succ_le_succ hone))
  obtain rfl : served = c.served := hc.read served (hf ▸ List.mem_append_right _ List.mem_cons_self)
  have hlimit := (hc.live fun h => by
    rw [hf] at h
    rcases mem_around.mp h with hnew | hold
    · cases hnew
    · cases hbegun _ hold).mp hlive
  have hnext := toNat_succ_of_lt hlimit
  refine ⟨?_, ?_, fun v hv => ?_, fun _ hzero => ?_, fun hnone => ?_, ?_⟩
  · rw [hnext, hsent, hf, unwritten_around, unwritten_around]
    show _ = _ + (_ + 0)
    simp only [reduceCtorEq, if_false]
    omega
  · rw [counting_around, if_neg (by rintro ⟨⟩)]
    exact hone
  · rcases mem_around.mp hv with hnew | hold
    · cases hnew
    · cases hbegun _ hold
  · rw [show c.served + 1 = 0 from hzero] at hnext
    cases hnext
  · exact absurd (List.mem_append_right _ List.mem_cons_self) hnone
  · rw [hnext]
    rcases hlimit with hzero | hlt
    · rw [hzero]
      exact Nat.le_max_left ..
    · exact Nat.le_trans hlt (Nat.le_max_right ..)

/-- It looks at the limit, and no other worker is about to. -/
theorem Counted.checks (hc : c.Counted) (hlive : c.live = true) {l₁ l₂ : List Count}
    (hf : c.finishing = l₁ ++ .written :: l₂) : Counted ({ c with finishing := l₁ ++ l₂ } : Tx).checkLimit := by
  have hone := hc.one
  rw [hf, counting_around, if_neg (by rintro ⟨⟩)] at hone
  have hbegun := begun_of_counting (Nat.le_zero.mp (Nat.le_of_succ_le_succ hone))
  obtain ⟨hserved, hfinishing, hsent, hlimit⟩ := checkLimit_eq { c with finishing := l₁ ++ l₂ }
  have hne := hc.wrote (hf ▸ List.mem_append_right _ List.mem_cons_self)
  refine ⟨?_, ?_, fun v hv => ?_, fun hv => ?_, fun _ => ?_, ?_⟩
  · rw [hserved, hfinishing, hsent, hc.sent, hf, unwritten_around]
    rfl
  · rw [hfinishing]
    exact Nat.le_of_add_right_le hone
  · rw [hfinishing] at hv
    cases hbegun _ hv
  · rw [hfinishing] at hv
    cases hbegun _ hv
  · rw [hserved, hlimit]
    unfold Tx.checkLimit
    dsimp only
    split
    · rename_i hlt
      exact ⟨fun _ => .inr hlt, fun _ => hlive⟩
    · rename_i hge
      exact ⟨(by rintro ⟨⟩), fun h => (h.elim hne hge).elim⟩
  · rw [hserved, hlimit]
    exact hc.bound

theorem Counted.step (hc : c.Counted) (hlive : c.live = true) (ha : c.OneByOne a) (hs : Counts c a c') :
    c'.Counted := by
  cases hs with
  | other served finishing sent limit live =>
    constructor <;> simp only [served, finishing, sent, limit, live]
    · exact hc.sent
    · exact hc.one
    · exact hc.read
    · exact hc.wrote
    · exact hc.live
    · exact hc.bound
  | completed hbufs served finishing sent limit live =>
    have hmem : ∀ x ∈ c'.finishing, x ≠ .begun → x ∈ c.finishing := fun x hx hne => by
      rw [finishing] at hx
      split at hx
      · simpa [hne] using hx
      · exact hx
    refine ⟨?_, ?_, fun v hv => ?_, fun hv => ?_, fun hnone => ?_, ?_⟩
    · rw [sent, ends_append, hbufs, served, finishing, unwritten_completed, hc.sent]
      omega
    · rw [finishing]
      split
      · simpa [counting] using hc.one
      · exact hc.one
    · rw [served]
      exact hc.read v (hmem _ hv (by rintro ⟨⟩))
    · rw [served]
      exact hc.wrote (hmem _ hv (by rintro ⟨⟩))
    · rw [live, served, limit]
      refine hc.live fun h => hnone ?_
      rw [finishing]
      split
      · exact List.mem_append_left _ h
      · exact h
    · rw [served, limit]
      exact hc.bound
  | reads hf => exact hc.reads hf ha
  | writes hf => exact hc.writes hlive hf
  | checks hf => exact hc.checks hlive hf

end Tx

end IOContext.Iocp
