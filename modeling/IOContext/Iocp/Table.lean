import IOContext.Base.BitField
import IOContext.Base.Reach

/-!
# The IOCP server: a table that the workers share

The workers allocate and recycle the slots of one table without a lock. Both operations have two halves: `allocate`
takes the slot by a compare-and-exchange and reads its generation later; `close_and_recycle` frees the slot first and
counts the generation afterwards. A step is one half; the workers take their steps in any order.

- A key carries a handle unchanged (`unpackKey_packKey`).
- As long as no slot is taken between the halves of its recycling, nor freed between those of its allocation, no handle
  is issued twice, and a handle that has been issued resolves exactly until its slot is recycled (`shared_handles`).
- A slot that is taken too early gets the handle of the connection before it, which then resolves to the new one, and
  does not resolve any more once the generation is counted (`handle_reused`).
-/

namespace IOContext.Iocp

/-! ## Handles -/

structure ConnHandle where
  index : UInt32 := 0
  generation : UInt32 := 0
deriving DecidableEq, Repr

def packKey (h : ConnHandle) : UInt64 := h.generation.toUInt64 <<< 32 ||| h.index.toUInt64

def unpackKey (k : UInt64) : ConnHandle := ⟨(k &&& 0xFFFFFFFF).toUInt32, (k >>> 32).toUInt32⟩

theorem packKey_toNat (h : ConnHandle) : (packKey h).toNat = h.generation.toNat * 2 ^ 32 + h.index.toNat := by
  have hg := h.generation.toNat_lt
  have hi := h.index.toNat_lt
  have hfit : h.generation.toNat <<< 32 < 2 ^ 64 := by
    rw [Nat.shiftLeft_eq]
    omega
  have hshift : (32 : UInt64).toNat % 64 = 32 := rfl
  rw [packKey, UInt64.toNat_or, UInt64.toNat_shiftLeft, UInt32.toNat_toUInt64, UInt32.toNat_toUInt64, hshift,
    Nat.mod_eq_of_lt hfit, BitField.shiftLeft_or_eq hi]

theorem unpackKey_packKey (h : ConnHandle) : unpackKey (packKey h) = h := by
  have hg := h.generation.toNat_lt
  have hi := h.index.toNat_lt
  have hnat := packKey_toNat h
  have hlow : ((packKey h &&& 0xFFFFFFFF).toUInt32).toNat = h.index.toNat := by
    have hmask : (0xFFFFFFFF : UInt64).toNat = 2 ^ 32 - 1 := rfl
    rw [UInt64.toNat_toUInt32, UInt64.toNat_and, hmask, Nat.and_two_pow_sub_one_eq_mod, hnat]
    omega
  have hhigh : ((packKey h >>> 32).toUInt32).toNat = h.generation.toNat := by
    have hshift : (packKey h >>> 32).toNat = (packKey h).toNat / 2 ^ 32 := by
      rw [UInt64.toNat_shiftRight, Nat.shiftRight_eq_div_pow]
      rfl
    rw [UInt64.toNat_toUInt32, hshift, hnat]
    omega
  unfold unpackKey
  rw [UInt32.toNat_inj.mp hlow, UInt32.toNat_inj.mp hhigh]

/-! ## The state -/

structure ConnSlot where
  generation : UInt32 := 1
  inUse : Bool := false
  /-- The workers that have taken the slot and not read its generation yet. -/
  claiming : Nat := 0
  /-- The workers that have freed the slot and not counted its generation yet. -/
  recycling : Nat := 0
  /-- The generations of the handles that have been issued, and how often the slot has been recycled. -/
  issued : List UInt32 := []
  recycled : Nat := 0
  /-- The handle that has been issued and whose slot has not been freed since. -/
  current : Option UInt32 := none
deriving DecidableEq, Repr

namespace ConnSlot

/-- The compare-and-exchange of `allocate` succeeds. -/
def claim (s : ConnSlot) : Option ConnSlot :=
  if s.inUse then none else some { s with inUse := true, claiming := s.claiming + 1 }

/-- `allocate` returns the handle. -/
def issue (s : ConnSlot) : Option ConnSlot :=
  if 0 < s.claiming then
    some { s with claiming := s.claiming - 1, issued := s.issued ++ [s.generation], current := some s.generation }
  else none

/-- The exchange of `close_and_recycle` finds the slot in use. -/
def release (s : ConnSlot) : Option ConnSlot :=
  if s.inUse then some { s with inUse := false, recycling := s.recycling + 1, current := none } else none

/-- The end of `close_and_recycle`. -/
def count (s : ConnSlot) : Option ConnSlot :=
  if 0 < s.recycling then
    some { s with generation := s.generation + 1, recycling := s.recycling - 1, recycled := s.recycled + 1 }
  else none

end ConnSlot

/-- The table, with `cap` slots. -/
abbrev ConnTable (cap : Nat) := Fin cap → ConnSlot

namespace ConnTable

variable {cap : Nat}

def tryGet (t : ConnTable cap) (h : ConnHandle) : Option (Fin cap) :=
  if hi : h.index.toNat < cap then
    let i : Fin cap := ⟨h.index.toNat, hi⟩
    if (t i).inUse = true ∧ (t i).generation = h.generation then some i else none
  else none

inductive Half
  | claim
  | issue
  | release
  | count
deriving DecidableEq, Repr

abbrev Action (cap : Nat) := Fin cap × Half

def half (s : ConnSlot) : Half → Option ConnSlot
  | .claim => s.claim
  | .issue => s.issue
  | .release => s.release
  | .count => s.count

/-- The half does not come between those of another operation: the slot is not taken before it has been counted, nor
freed before its handle has been issued. -/
def HalfApart (s : ConnSlot) : Half → Prop
  | .claim => s.recycling = 0
  | .release => s.claiming = 0
  | .issue | .count => True

instance (s : ConnSlot) (a : Half) : Decidable (HalfApart s a) := by
  cases a <;> unfold HalfApart <;> infer_instance

def step (t : ConnTable cap) (a : Action cap) : Option (ConnTable cap) :=
  (half (t a.1) a.2).map fun s => Function.update t a.1 s

def Fresh (t : ConnTable cap) : Prop := t = fun _ => {}

/-- No slot is taken between the halves of its recycling, or freed between those of its allocation. -/
def Apart (t : ConnTable cap) (a : Action cap) : Prop := HalfApart (t a.1) a.2

instance (t : ConnTable cap) (a : Action cap) : Decidable (t.Apart a) := inferInstanceAs (Decidable (HalfApart _ _))

/-! ## The phases of a slot -/

/-- The handles are of earlier generations. -/
def Old (s : ConnSlot) (gs : List UInt32) : Prop := ∀ g ∈ gs, ∃ k < s.recycled, g = 1 + UInt32.ofNat k

inductive Phase (s : ConnSlot) : Prop
  | free (hu : s.inUse = false) (hc : s.claiming = 0) (hr : s.recycling = 0) (hcur : s.current = none)
      (hold : Old s s.issued)
  | claimed (hu : s.inUse = true) (hc : s.claiming = 1) (hr : s.recycling = 0) (hcur : s.current = none)
      (hold : Old s s.issued)
  | live {gs : List UInt32} (hu : s.inUse = true) (hc : s.claiming = 0) (hr : s.recycling = 0)
      (hcur : s.current = some s.generation) (hissued : s.issued = gs ++ [s.generation]) (hold : Old s gs)
  | freed {gs : List UInt32} (hu : s.inUse = false) (hc : s.claiming = 0) (hr : s.recycling = 1)
      (hcur : s.current = none) (hissued : s.issued = gs ++ [s.generation]) (hold : Old s gs)

structure SlotInv (s : ConnSlot) : Prop where
  generation : s.generation = 1 + UInt32.ofNat s.recycled
  phase : Phase s
  once : s.recycled < 2 ^ 32 → s.issued.Nodup

variable {s s' : ConnSlot}

/-- Generations do not come round before the slot has been recycled often enough. -/
theorem Old.not_mem {gs : List UInt32} (h : Old s gs) (hgen : s.generation = 1 + UInt32.ofNat s.recycled)
    (hfew : s.recycled < 2 ^ 32) : s.generation ∉ gs := by
  intro hmem
  obtain ⟨k, hk, hg⟩ := h _ hmem
  rw [hgen] at hg
  have hsame := congrArg UInt32.toNat ((UInt32.add_right_inj 1).mp hg)
  rw [UInt32.toNat_ofNat_of_lt' hfew, UInt32.toNat_ofNat_of_lt' (Nat.lt_trans hk hfew)] at hsame
  omega

theorem Old.grow {gs : List UInt32} (h : Old s gs) (hle : s.recycled ≤ s'.recycled) : Old s' gs := fun g hg => by
  obtain ⟨k, hk, hgen⟩ := h g hg
  exact ⟨k, Nat.lt_of_lt_of_le hk hle, hgen⟩

/-- A half keeps what is known of a slot, unless it comes between the halves of another operation. -/
theorem SlotInv.half {a : Half} (h : SlotInv s) (hs : half s a = some s')
    (hapart : HalfApart s a) : SlotInv s' := by
  cases a with
  | claim =>
    have hs : s.claim = some s' := hs
    have hapart : s.recycling = 0 := hapart
    unfold ConnSlot.claim at hs
    split at hs
    · cases hs
    · rename_i hu
      cases hs
      refine ⟨h.generation, ?_, h.once⟩
      rcases h.phase with ⟨-, hc, hr, hcur, hold⟩ | ⟨hu', -⟩ | ⟨hu', -⟩ | ⟨-, -, hr, -⟩
      · exact .claimed rfl (by rw [hc]) hr hcur hold
      · exact absurd hu' hu
      · exact absurd hu' hu
      · rw [hapart] at hr
        cases hr
  | issue =>
    have hs : s.issue = some s' := hs
    unfold ConnSlot.issue at hs
    split at hs
    · rename_i hpos
      cases hs
      rcases h.phase with ⟨-, hc, -⟩ | ⟨hu, hc, hr, -, hold⟩ | ⟨-, hc, -⟩ | ⟨-, hc, -⟩
      · omega
      · refine ⟨h.generation, .live hu (by rw [hc]) hr rfl rfl hold, fun hfew => ?_⟩
        refine List.nodup_append.mpr ⟨h.once hfew, List.pairwise_singleton .., fun g hg g' hg' hgg => ?_⟩
        rw [hgg, List.mem_singleton.mp hg'] at hg
        exact hold.not_mem h.generation hfew hg
      · omega
      · omega
    · cases hs
  | release =>
    have hs : s.release = some s' := hs
    have hapart : s.claiming = 0 := hapart
    unfold ConnSlot.release at hs
    split at hs
    · rename_i hu
      cases hs
      refine ⟨h.generation, ?_, h.once⟩
      rcases h.phase with ⟨hu', -⟩ | ⟨-, hc, -⟩ | ⟨-, hc, hr, -, hissued, hold⟩ | ⟨hu', -⟩
      · rw [hu] at hu'
        cases hu'
      · rw [hapart] at hc
        cases hc
      · exact .freed rfl hc (by rw [hr]) rfl hissued hold
      · rw [hu] at hu'
        cases hu'
    · cases hs
  | count =>
    have hs : s.count = some s' := hs
    unfold ConnSlot.count at hs
    split at hs
    · rename_i hpos
      cases hs
      have hgen : s.generation + 1 = 1 + UInt32.ofNat (s.recycled + 1) := by
        rw [h.generation, UInt32.ofNat_add, UInt32.add_assoc]
        rfl
      refine ⟨hgen, ?_, fun hfew => h.once (Nat.lt_of_succ_lt hfew)⟩
      rcases h.phase with ⟨-, -, hr, -⟩ | ⟨-, -, hr, -⟩ | ⟨-, -, hr, -⟩ | ⟨hu, hc, hr, hcur, hissued, hold⟩
      · omega
      · omega
      · omega
      · refine .free hu hc (by rw [hr]) hcur fun g hg => ?_
        have hg : g ∈ s.issued := hg
        rw [hissued] at hg
        rcases List.mem_append.mp hg with hg | hg
        · obtain ⟨k, hk, hgen⟩ := hold g hg
          exact ⟨k, Nat.lt_succ_of_lt hk, hgen⟩
        · exact ⟨s.recycled, Nat.lt_succ_self _, by rw [List.mem_singleton.mp hg, h.generation]⟩
    · cases hs

/-- A handle that has been issued for a slot resolves if it is the current one. -/
theorem SlotInv.resolves (h : SlotInv s) (hfew : s.recycled < 2 ^ 32) {g : UInt32} (hg : g ∈ s.issued) :
    (s.inUse = true ∧ s.generation = g) ↔ s.current = some g := by
  have hold : ∀ {gs : List UInt32}, Old s gs → g ∈ gs → s.generation ≠ g := fun hold hmem heq =>
    hold.not_mem h.generation hfew (heq ▸ hmem)
  rcases h.phase with ⟨hu, -, -, hcur, -⟩ | ⟨-, -, -, hcur, ho⟩ | ⟨hu, -, -, hcur, -, -⟩ | ⟨hu, -, -, hcur, -⟩
  · simp [hu, hcur]
  · simp [hold ho hg, hcur]
  · simp [hu, hcur]
  · simp [hu, hcur]

/-! ## Runs -/

variable {t t' : ConnTable cap} {a : Action cap}

theorem slotInv_step (hapart : t.Apart a) (hs : step t a = some t') (h : ∀ i, SlotInv (t i)) (i : Fin cap) :
    SlotInv (t' i) := by
  obtain ⟨s, hhalf, rfl⟩ := Option.map_eq_some_iff.mp hs
  obtain ⟨j, a⟩ := a
  by_cases hi : i = j
  · subst hi
    rw [Function.update_self]
    exact (h i).half hhalf hapart
  · rw [Function.update_of_ne hi]
    exact h i

theorem tryGet_iff {h : ConnHandle} {i : Fin cap} : t.tryGet h = some i ↔
    h.index.toNat = i.val ∧ (t i).inUse = true ∧ (t i).generation = h.generation := by
  unfold tryGet
  split
  · rename_i hi
    dsimp only
    rw [Option.ite_none_right_eq_some, Option.some.injEq]
    constructor
    · rintro ⟨hslot, rfl⟩
      exact ⟨rfl, hslot⟩
    · rintro ⟨hindex, hslot⟩
      have hsame : (⟨h.index.toNat, hi⟩ : Fin cap) = i := Fin.ext hindex
      rw [hsame]
      exact ⟨hslot, rfl⟩
  · rename_i hi
    exact ⟨fun h => (by cases h), fun ⟨hindex, _⟩ => absurd (hindex ▸ i.isLt) hi⟩

/-- In every run in which no slot is taken between the halves of its recycling, nor freed between those of its
allocation, and none is recycled 2^32 times: no slot issues a handle twice, and a handle that has been issued resolves,
also as the key of a completion, exactly from then on until its slot is freed. -/
theorem shared_handles (ht : Reach Fresh step Apart t) (hfew : ∀ i, (t i).recycled < 2 ^ 32) (i : Fin cap) :
    (t i).issued.Nodup ∧ ∀ h : ConnHandle, h.index.toNat = i.val → h.generation ∈ (t i).issued →
      (t.tryGet (unpackKey (packKey h)) = some i ↔ (t i).current = some h.generation) := by
  have hinv : ∀ i, SlotInv (t i) :=
    Reach.invariant (I := fun t : ConnTable cap => ∀ i, SlotInv (t i)) (fun t h i => by
      rw [h]
      exact ⟨rfl, .free rfl rfl rfl rfl (fun _ hg => absurd hg List.not_mem_nil), fun _ => List.nodup_nil⟩)
      (fun _ _ _ h hapart hs => slotInv_step hapart hs h) t ht
  refine ⟨(hinv i).once (hfew i), fun h hindex hg => ?_⟩
  rw [unpackKey_packKey, tryGet_iff, ← (hinv i).resolves (hfew i) hg]
  exact and_iff_right hindex

/-- A slot is recycled and allocated again. -/
def again : List (Action 2) :=
  [(0, .claim), (0, .issue), (1, .claim), (0, .release), (0, .count), (0, .claim), (0, .issue), (1, .issue)]

theorem shared_handles_again : ∃ t : ConnTable 2, Reach Fresh step Apart t ∧ (t 0).issued = [1, 2] ∧
    (t 0).issued.Nodup ∧
    (t.tryGet (unpackKey (packKey ⟨0, 1⟩)) = some 0 ↔ (t 0).current = some 1) := by
  obtain ⟨t, hexec, hobs⟩ := Option.map_eq_some_iff.mp
    (show (execAll step Apart again (fun _ => {})).map (fun t => ((t 0).issued, (t 0).recycled, (t 1).recycled)) =
      some ([1, 2], 1, 0) by decide +kernel)
  simp only [Prod.mk.injEq] at hobs
  have hreach : Reach Fresh step Apart t := Reach.exec (.start rfl) hexec
  have hfew : ∀ i, (t i).recycled < 2 ^ 32 :=
    Fin.forall_fin_two.mpr ⟨by rw [hobs.2.1]; decide, by rw [hobs.2.2]; decide⟩
  obtain ⟨honce, hresolves⟩ := shared_handles hreach hfew 0
  exact ⟨t, hreach, hobs.1, honce, hresolves ⟨0, 1⟩ rfl (by rw [hobs.1]; decide)⟩

/-- A slot is taken before the generation of its last connection has been counted: the handle of that connection is
issued again, and resolves to the new one until the generation is counted; then neither does. -/
theorem handle_reused : ∃ t t' : ConnTable 1, Reach Fresh step (fun _ _ => True) t ∧ (t 0).issued = [1, 1] ∧
    t.tryGet ⟨0, 1⟩ = some 0 ∧ step t (0, .count) = some t' ∧ t'.tryGet ⟨0, 1⟩ = none ∧ (t' 0).current = some 1 := by
  obtain ⟨t, hexec, hobs⟩ := Option.map_eq_some_iff.mp
    (show (execAll step (fun _ _ => True) [(0, .claim), (0, .issue), (0, .release), (0, .claim), (0, .issue)]
      (fun _ => {} : ConnTable 1)).map (fun t => ((t 0).issued, t.tryGet ⟨0, 1⟩,
        (step t (0, .count)).map fun t' => (t'.tryGet ⟨0, 1⟩, (t' 0).current))) =
      some ([1, 1], some 0, some (none, some 1)) by decide +kernel)
  simp only [Prod.mk.injEq] at hobs
  obtain ⟨hissued, hget, hcount⟩ := hobs
  obtain ⟨t', ht', hafter⟩ := Option.map_eq_some_iff.mp hcount
  obtain ⟨hnone, hcur⟩ := Prod.mk.inj hafter
  exact ⟨t, t', Reach.exec (.start rfl) hexec, hissued, hget, ht', hnone, hcur⟩

end ConnTable

end IOContext.Iocp
