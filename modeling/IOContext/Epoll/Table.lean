import IOContext.Epoll.Handles

/-!
# The epoll server: handles are exact

The slots of the table are allocated and recycled in any order, through handles of any value. A slot's generation counts
how often it has been recycled (`Counted`), so that a handle resolves exactly from its `allocate` until its slot is
recycled (`handles_exact`); as long as no generation comes round, no handle is issued twice.
-/

namespace IOContext.Epoll

namespace Worker

variable {cap : Nat}

/-- The calls on the table. -/
inductive TableCall
  | allocate
  | closeAndRecycle (h : ConnHandle)
deriving DecidableEq, Repr

/-- A call that returns; `allocate` waits as long as there is no free slot. -/
def call (w : Worker cap) : TableCall → Option (Worker cap)
  | .allocate => w.allocate.map (·.2)
  | .closeAndRecycle h => some (w.closeAndRecycle h)

/-- The handle that a call returns. -/
def issued (t : Transition (Worker cap) TableCall) : Option ConnHandle :=
  match t.action with
  | .allocate => t.before.allocate.map (·.1)
  | .closeAndRecycle _ => none

/-- The slots that a call recycles. -/
def recycledBy (t : Transition (Worker cap) TableCall) : List (Fin cap) :=
  recyclings (t.after.log.drop t.before.log.length)

/-- The handles that are allocated after the calls `ts`: they have been returned, and their slots have not been recycled
since. -/
def allocated (ts : List (Transition (Worker cap) TableCall)) : List ConnHandle :=
  ts.foldl (fun hs t =>
    hs.filter (fun h => !(recycledBy t).any fun i => i.val == h.index.toNat) ++ (issued t).toList) []

/-- A table that has just been made. -/
def freshTable (cap : Nat) (limit : UInt16) (listen : Nat) : Worker cap where
  keepaliveLimit := limit
  listen := listen

/-- The generation of a slot counts how often it has been recycled. -/
def Counted (w : Worker cap) (i : Fin cap) : Prop :=
  (w.slots i).generation = UInt32.ofNat (1 + (recyclings w.log).count i)

/-- What the calls `ts` have made of the table. -/
structure TableInv (ts : List (Transition (Worker cap) TableCall)) (w : Worker cap) : Prop where
  counted : ∀ i, w.Counted i
  distinct : ((allocated ts).map (·.index)).Nodup
  resolves : ∀ h, h ∈ allocated ts ↔ ∃ i, w.tryGet h = some i
  /-- A handle that has been issued is the current one of its slot, or of an earlier generation. -/
  earlier : ∀ h ∈ ts.filterMap issued, ∃ i : Fin cap, h.index.toNat = i.val ∧ ∃ k, h.generation = UInt32.ofNat (1 + k) ∧
    (k < (recyclings w.log).count i ∨ k = (recyclings w.log).count i ∧ (w.slots i).inUse = true)
  once : (∀ i, (recyclings w.log).count i < 2 ^ 32) → (ts.filterMap issued).Nodup

variable {ts : List (Transition (Worker cap) TableCall)} {w w' : Worker cap} {h : ConnHandle} {i : Fin cap}

theorem allocated_concat (t : Transition (Worker cap) TableCall) : allocated (ts ++ [t]) =
    (allocated ts).filter (fun h => !(recycledBy t).any fun i => i.val == h.index.toNat) ++ (issued t).toList := by
  simp [allocated]

theorem handle_ext {h h' : ConnHandle} (hindex : h.index.toNat = h'.index.toNat) (hgen : h.generation = h'.generation) :
    h = h' := by
  cases h
  cases h'
  simp only [ConnHandle.mk.injEq]
  exact ⟨UInt32.toNat_inj.mp hindex, hgen⟩

/-- A handle resolves to the slot of its index that is in use in its generation. -/
theorem tryGet_iff : w.tryGet h = some i ↔
    h.index.toNat = i.val ∧ (w.slots i).inUse = true ∧ (w.slots i).generation = h.generation := by
  rw [tryGet_eq_some_iff, named_eq_some_iff, and_assoc]

/-! ## A slot is allocated -/

/-- `allocate` returns `h`, the handle of the slot `i`. -/
structure Takes (i : Fin cap) (h : ConnHandle) (w w' : Worker cap) : Prop where
  free : (w.slots i).inUse = false
  index : h.index.toNat = i.val
  generation : h.generation = (w.slots i).generation
  log : w'.log = w.log
  other : ∀ j, j ≠ i → w'.slots j = w.slots j
  slot : (w'.slots i).inUse = true ∧ (w'.slots i).generation = (w.slots i).generation

theorem takes_allocate (ha : w.allocate = some (h, w')) : ∃ i, Takes i h w w' := by
  obtain ⟨i, hfree, rfl, hindex, -, rfl⟩ := allocate_spec ha
  exact ⟨i, hfree, hindex, rfl, rfl, fun j hj => setSlot_other hj, by simp⟩

namespace Takes

theorem counted (ht : Takes i h w w') (hc : ∀ j, w.Counted j) (j : Fin cap) : w'.Counted j := by
  have hcount := hc j
  unfold Counted at hcount ⊢
  rw [ht.log, ← hcount]
  by_cases hj : j = i
  · rw [hj, ht.slot.2]
  · rw [ht.other j hj]

/-- The handles of the slots in use resolve as before, and the new one does too. -/
theorem tryGet_iff (ht : Takes i h w w') (h' : ConnHandle) :
    (∃ j, w'.tryGet h' = some j) ↔ (∃ j, w.tryGet h' = some j) ∨ h' = h := by
  constructor
  · rintro ⟨j, hj⟩
    obtain ⟨hj, hu, hg⟩ := Worker.tryGet_iff.mp hj
    by_cases hji : j = i
    · subst hji
      exact .inr (handle_ext (by rw [hj, ht.index]) (by rw [← hg, ht.slot.2, ht.generation]))
    · rw [ht.other j hji] at hu hg
      exact .inl ⟨j, Worker.tryGet_iff.mpr ⟨hj, hu, hg⟩⟩
  · rintro (⟨j, hj⟩ | rfl)
    · obtain ⟨hj, hu, hg⟩ := Worker.tryGet_iff.mp hj
      have hji : j ≠ i := by
        rintro rfl
        rw [ht.free] at hu
        cases hu
      exact ⟨j, Worker.tryGet_iff.mpr ⟨hj, by rw [ht.other j hji]; exact ⟨hu, hg⟩⟩⟩
    · exact ⟨i, Worker.tryGet_iff.mpr ⟨ht.index, ht.slot.1, by rw [ht.slot.2, ht.generation]⟩⟩

/-- No handle that resolved has the index of a free slot. -/
theorem index_ne (ht : Takes i h w w') {h' : ConnHandle} {j : Fin cap} (hj : w.tryGet h' = some j) :
    h'.index ≠ h.index := by
  intro hsame
  obtain ⟨hj, hu, -⟩ := Worker.tryGet_iff.mp hj
  have hji : j = i := Fin.ext (by rw [← hj, hsame, ht.index])
  rw [hji, ht.free] at hu
  cases hu

/-- The generation of a free slot is past those that were issued for it. -/
theorem not_issued (ht : Takes i h w w') (hinv : TableInv ts w) (hfew : (recyclings w.log).count i < 2 ^ 32) :
    h ∉ ts.filterMap issued := by
  intro hmem
  obtain ⟨j, hj, k, hk, hearlier⟩ := hinv.earlier h hmem
  obtain rfl : j = i := Fin.ext (by rw [← hj, ht.index])
  rcases hearlier with hlt | ⟨-, hu⟩
  · have heq : UInt32.ofNat (1 + k) = UInt32.ofNat (1 + (recyclings w.log).count j) := by
      rw [← hk, ht.generation, hinv.counted j]
    have hmod := congrArg UInt32.toNat heq
    simp only [UInt32.toNat_ofNat'] at hmod
    omega
  · rw [ht.free] at hu
    cases hu

end Takes

theorem TableInv.allocate (hinv : TableInv ts w) (ha : w.allocate = some (h, w')) :
    TableInv (ts ++ [⟨w, .allocate, w'⟩]) w' := by
  obtain ⟨i, ht⟩ := takes_allocate ha
  have hissued : issued ⟨w, .allocate, w'⟩ = some h := by simp [issued, ha]
  have hnone : recycledBy ⟨w, .allocate, w'⟩ = [] := by simp [recycledBy, ht.log, recyclings]
  have hall : allocated (ts ++ [⟨w, .allocate, w'⟩]) = allocated ts ++ [h] := by
    rw [allocated_concat, hnone, hissued]
    simp
  have hlist : List.filterMap issued (ts ++ [⟨w, .allocate, w'⟩]) = ts.filterMap issued ++ [h] := by
    simp [List.filterMap_append, hissued]
  refine ⟨ht.counted hinv.counted, ?_, fun h' => ?_, ?_, fun hfew => ?_⟩
  · rw [hall, List.map_append, List.nodup_append]
    refine ⟨hinv.distinct, by simp, ?_⟩
    rintro x hx y hy rfl
    obtain ⟨h', hmem, rfl⟩ := List.mem_map.mp hx
    obtain ⟨j, hj⟩ := (hinv.resolves h').mp hmem
    exact ht.index_ne hj (List.mem_singleton.mp hy)
  · rw [hall, List.mem_append, List.mem_singleton, hinv.resolves h', ht.tryGet_iff]
  · rw [hlist]
    intro h' hmem
    rcases List.mem_append.mp hmem with hmem | hmem
    · obtain ⟨j, hj, k, hk, hearlier⟩ := hinv.earlier h' hmem
      refine ⟨j, hj, k, hk, ?_⟩
      rw [ht.log]
      by_cases hji : j = i
      · rw [hji] at hearlier ⊢
        exact hearlier.imp_right fun h => ⟨h.1, ht.slot.1⟩
      · rwa [ht.other j hji]
    · rw [List.mem_singleton.mp hmem]
      exact ⟨i, ht.index, _, by rw [ht.generation, hinv.counted i], .inr ⟨by rw [ht.log], ht.slot.1⟩⟩
  · rw [ht.log] at hfew
    rw [hlist, List.nodup_append]
    refine ⟨hinv.once hfew, by simp, ?_⟩
    rintro x hx y hy rfl
    obtain rfl := List.mem_singleton.mp hy
    exact ht.not_issued hinv (hfew i) hx

/-! ## A slot is given back -/

theorem recyclings_append (es es' : List (Effect cap)) : recyclings (es ++ es') = recyclings es ++ recyclings es' :=
  List.filterMap_append ..

theorem recyclings_recycleEffects : recyclings (w.recycleEffects i) = [i] := by
  unfold recycleEffects
  split <;> simp [recyclings]

/-- The slot `i` is recycled. -/
structure Gives (i : Fin cap) (w w' : Worker cap) : Prop where
  log : recyclings w'.log = recyclings w.log ++ [i]
  other : ∀ j, j ≠ i → w'.slots j = w.slots j
  slot : (w'.slots i).inUse = false ∧ (w'.slots i).generation = (w.slots i).generation + 1

theorem gives_recycle (i : Fin cap) (w : Worker cap) : Gives i w (w.recycle i) := by
  refine ⟨?_, fun j hj => setSlot_other hj, by simp [recycle]⟩
  have hlog : (w.recycle i).log = w.log ++ w.recycleEffects i := rfl
  rw [hlog, recyclings_append, recyclings_recycleEffects]

namespace Gives

theorem count_self (hg : Gives i w w') : (recyclings w'.log).count i = (recyclings w.log).count i + 1 := by
  rw [hg.log, List.count_append, List.count_singleton_self]

theorem count_other (hg : Gives i w w') {j : Fin cap} (hj : j ≠ i) :
    (recyclings w'.log).count j = (recyclings w.log).count j := by
  rw [hg.log, List.count_append, List.count_singleton, if_neg (by simpa using hj.symm), Nat.add_zero]

theorem counted (hg : Gives i w w') (hc : ∀ j, w.Counted j) (j : Fin cap) : w'.Counted j := by
  unfold Counted
  by_cases hj : j = i
  · rw [hj, hg.slot.2, hc i, hg.count_self, ← Nat.add_assoc, UInt32.ofNat_add (1 + _)]
    rfl
  · rw [hg.other j hj, hc j, hg.count_other hj]

/-- The handles of the slot do not resolve any more, the others do. -/
theorem tryGet_iff (hg : Gives i w w') (h : ConnHandle) :
    (∃ j, w'.tryGet h = some j) ↔ (∃ j, w.tryGet h = some j) ∧ i.val ≠ h.index.toNat := by
  constructor
  · rintro ⟨j, hj⟩
    obtain ⟨hj, hu, hgen⟩ := Worker.tryGet_iff.mp hj
    have hji : j ≠ i := by
      rintro rfl
      rw [hg.slot.1] at hu
      cases hu
    rw [hg.other j hji] at hu hgen
    exact ⟨⟨j, Worker.tryGet_iff.mpr ⟨hj, hu, hgen⟩⟩, fun hi => hji (Fin.ext (hj.symm.trans hi.symm))⟩
  · rintro ⟨⟨j, hj⟩, hne⟩
    obtain ⟨hj, hu, hgen⟩ := Worker.tryGet_iff.mp hj
    have hji : j ≠ i := fun hji => hne (by rw [hj, hji])
    exact ⟨j, Worker.tryGet_iff.mpr ⟨hj, by rw [hg.other j hji]; exact ⟨hu, hgen⟩⟩⟩

end Gives

/-- A slot is given back, or the handle names none that is in use. -/
theorem TableInv.closeAndRecycle (hinv : TableInv ts w) (g : ConnHandle) :
    TableInv (ts ++ [⟨w, .closeAndRecycle g, w.closeAndRecycle g⟩]) (w.closeAndRecycle g) := by
  have hlist : List.filterMap issued (ts ++ [⟨w, .closeAndRecycle g, w.closeAndRecycle g⟩]) = ts.filterMap issued := by
    simp [List.filterMap_append, issued]
  cases hn : w.named g with
  | none =>
    have hw' : w.closeAndRecycle g = w := by rw [closeAndRecycle_eq, hn, Option.elim_none]
    rw [hw'] at hlist ⊢
    have hnone : recycledBy ⟨w, .closeAndRecycle g, w⟩ = [] := by simp [recycledBy, recyclings]
    have hall : allocated (ts ++ [⟨w, .closeAndRecycle g, w⟩]) = allocated ts := by
      rw [allocated_concat, hnone]
      simp [issued]
    exact ⟨hinv.counted, hall ▸ hinv.distinct, fun h => hall ▸ hinv.resolves h, hlist ▸ hinv.earlier,
      hlist ▸ hinv.once⟩
  | some j =>
    have hw' : w.closeAndRecycle g = w.recycle j := by rw [closeAndRecycle_eq, hn, Option.elim_some]
    rw [hw'] at hlist ⊢
    have hg := gives_recycle j w
    have hone : recycledBy ⟨w, .closeAndRecycle g, w.recycle j⟩ = [j] := by
      have hlog : (w.recycle j).log = w.log ++ w.recycleEffects j := rfl
      rw [recycledBy, hlog, List.drop_left, recyclings_recycleEffects]
    have hall : allocated (ts ++ [⟨w, .closeAndRecycle g, w.recycle j⟩]) =
        (allocated ts).filter fun h => !(j.val == h.index.toNat) := by
      rw [allocated_concat, hone]
      simp [issued]
    refine ⟨hg.counted hinv.counted, ?_, fun h => ?_, ?_, fun hfew => ?_⟩
    · rw [hall]
      exact hinv.distinct.sublist ((List.filter_sublist ..).map _)
    · rw [hall, List.mem_filter, hinv.resolves h, hg.tryGet_iff]
      simp
    · rw [hlist]
      intro h hmem
      obtain ⟨i, hi, k, hk, hearlier⟩ := hinv.earlier h hmem
      refine ⟨i, hi, k, hk, ?_⟩
      by_cases hij : i = j
      · subst hij
        exact .inl (by rw [hg.count_self]; omega)
      · rwa [hg.other i hij, hg.count_other hij]
    · rw [hlist]
      refine hinv.once fun i => Nat.lt_of_le_of_lt ?_ (hfew i)
      rw [hg.log, List.count_append]
      exact Nat.le_add_right ..

/-! ## Calls one after another -/

theorem tableInv_fresh (cap : Nat) (limit : UInt16) (listen : Nat) : TableInv [] (freshTable cap limit listen) where
  counted _ := rfl
  distinct := List.nodup_nil
  resolves h := by
    constructor
    · exact fun hmem => absurd hmem List.not_mem_nil
    · rintro ⟨i, hi⟩
      exact Bool.noConfusion (tryGet_iff.mp hi).2.1
  earlier _ hmem := absurd hmem List.not_mem_nil
  once _ := List.nodup_nil

theorem TableInv.call {a : TableCall} (hinv : TableInv ts w) (hcall : w.call a = some w') :
    TableInv (ts ++ [⟨w, a, w'⟩]) w' := by
  cases a with
  | allocate =>
    obtain ⟨⟨h, w''⟩, ha, rfl⟩ := Option.map_eq_some_iff.mp hcall
    exact hinv.allocate ha
  | closeAndRecycle g =>
    cases hcall
    exact hinv.closeAndRecycle g

theorem TableInv.run {ts' : List (Transition (Worker cap) TableCall)} (hrun : Run Worker.call w ts' w') :
    ∀ {ts}, TableInv ts w → TableInv (ts ++ ts') w' := by
  induction hrun with
  | nil => exact fun hinv => by rwa [List.append_nil]
  | cons hcall _ ih =>
    intro ts hinv
    simpa using ih (hinv.call hcall)

/-- The handles that are allocated have indices of their own, and they are the ones that resolve; no handle is issued
twice, if no slot is recycled `2 ^ 32` times. -/
theorem handles_exact {limit : UInt16} {listen : Nat} (hrun : Run Worker.call (freshTable cap limit listen) ts w)
    (hfew : ∀ i, (recyclings w.log).count i < 2 ^ 32) :
    ((allocated ts).map (·.index)).Nodup ∧ (∀ h, (∃ i, w.tryGet h = some i) ↔ h ∈ allocated ts) ∧
      (ts.filterMap issued).Nodup := by
  have hinv := TableInv.run hrun (tableInv_fresh cap limit listen)
  rw [List.nil_append] at hinv
  exact ⟨hinv.distinct, fun h => (hinv.resolves h).symm, hinv.once hfew⟩

/-- Two slots are taken, the first is given back and taken again. -/
def reuse : List TableCall := [.allocate, .allocate, .closeAndRecycle ⟨0, 1⟩, .allocate]

theorem handles_exact_reuse : ∃ (w : Worker 2) (ts : List (Transition (Worker 2) TableCall)),
    Run Worker.call (freshTable 2 65000 4) ts w ∧ ts.map (·.action) = reuse ∧ recyclings w.log = [0] ∧
      ((allocated ts).map (·.index)).Nodup ∧ (∀ h, (∃ i, w.tryGet h = some i) ↔ h ∈ allocated ts) ∧
      (ts.filterMap issued).Nodup := by
  obtain ⟨w, hexec, hlog⟩ := Option.map_eq_some_iff.mp
    (show (execAll Worker.call (fun _ _ => True) reuse (freshTable 2 65000 4)).map (fun w => recyclings w.log) =
      some [0] by decide +kernel)
  obtain ⟨ts, hrun, hmap, -⟩ := Run.exec hexec
  refine ⟨w, ts, hrun, hmap, hlog, handles_exact hrun fun i => ?_⟩
  rw [hlog]
  exact Nat.lt_of_le_of_lt List.count_le_length (by decide)

end Worker

end IOContext.Epoll
