import IOContext.Base.BitField
import Mathlib.Tactic.IntervalCases

/-!
# Completion tags

The 64-bit `user_data` of an operation carries a descriptor, the `Workflow` kind it was posted with and 29 auxiliary
bits (`packUd`, `packUdAux`); the event loop reads them back with `unpackUd` and switches on the kind.

- The kind is read from three bits, the descriptor from the bits above 35: a tag is read back exactly when the kind is
  one of the first eight and the descriptor below `2 ^ 29` (`tag_reads_back_iff`).
- The other three kinds are read as the kinds eight below them (`unpack_wrapped_kind`).
-/

namespace IOContext

/-! ## The kinds -/

/-- `fd_t`. -/
abbrev Fd := Int32

/-- The kinds of completion, in the order of the source. -/
inductive Workflow
  | accept
  | recv
  | parse
  | findHandler
  | generateResponse
  | requestFlush
  | pollOut
  | send
  | requestClose
  | closed
  | freeBuffer
deriving DecidableEq, Repr

namespace Workflow

/-- The value of the enumerator. -/
def code : Workflow → UInt64
  | accept => 0
  | recv => 1
  | parse => 2
  | findHandler => 3
  | generateResponse => 4
  | requestFlush => 5
  | pollOut => 6
  | send => 7
  | requestClose => 8
  | closed => 9
  | freeBuffer => 10

/-- The conversion `Workflow(v)`; `unpackUd` only converts values below eight. -/
def ofCode (v : UInt64) : Workflow :=
  match v.toNat with
  | 0 => accept
  | 1 => recv
  | 2 => parse
  | 3 => findHandler
  | 4 => generateResponse
  | 5 => requestFlush
  | 6 => pollOut
  | 7 => send
  | 8 => requestClose
  | 9 => closed
  | _ => freeBuffer

theorem ofCode_code (op : Workflow) : ofCode op.code = op := by cases op <;> rfl

end Workflow

/-! ## Packing and unpacking -/

def packUd (fd : Fd) (op : Workflow) : UInt64 :=
  (fd.toUInt32.toUInt64 <<< 35) ||| ((0 : UInt64) <<< 3) ||| op.code

def packUdAux (fd : Fd) (op : Workflow) (aux : UInt32) : UInt64 :=
  (fd.toUInt32.toUInt64 <<< 35) ||| ((aux &&& 0x1FFFFFFF).toUInt64 <<< 3) ||| op.code

def unpackUd (u : UInt64) : Fd × Workflow × UInt32 :=
  (((u >>> 35) &&& 0xFFFFFFFF).toUInt32.toInt32, Workflow.ofCode (u &&& 7), ((u >>> 3) &&& 0x1FFFFFFF).toUInt32)

theorem packUd_eq (fd : Fd) (op : Workflow) : packUd fd op = packUdAux fd op 0 := rfl

/-! ## The fields as numbers -/

/-- The tag as three fields of a word. -/
theorem toNat_packUdAux (fd : Fd) (op : Workflow) {aux : UInt32} (haux : aux < 0x20000000) :
    (packUdAux fd op aux).toNat = (fd.toUInt32.toNat % 2 ^ 29) <<< 35 ||| aux.toNat <<< 3 ||| op.code.toNat := by
  have ha : aux.toNat < 2 ^ 29 := by simpa [UInt32.lt_iff_toNat_lt] using haux
  have hmask : aux.toNat &&& 536870911 = aux.toNat := by
    rw [show (536870911 : Nat) = 2 ^ 29 - 1 from rfl, Nat.and_two_pow_sub_one_eq_mod, Nat.mod_eq_of_lt ha]
  have hfd : fd.toUInt32.toNat <<< 35 % 2 ^ 64 = (fd.toUInt32.toNat % 2 ^ 29) <<< 35 := by
    simp only [Nat.shiftLeft_eq]; omega
  have hmid : aux.toNat <<< 3 % 2 ^ 64 = aux.toNat <<< 3 := by
    rw [Nat.shiftLeft_eq]; omega
  simp only [packUdAux, UInt64.toNat_or, UInt64.toNat_shiftLeft, UInt32.toNat_toUInt64, UInt32.toNat_and,
    UInt32.reduceToNat, UInt64.reduceToNat, Nat.reduceMod, hmask, hfd, hmid]

theorem toNat_unpack_kind (u : UInt64) : (u &&& 7).toNat = u.toNat % 2 ^ 3 := by
  rw [UInt64.toNat_and, show (7 : UInt64).toNat = 2 ^ 3 - 1 from rfl, Nat.and_two_pow_sub_one_eq_mod]

theorem toNat_unpack_aux (u : UInt64) : (unpackUd u).2.2.toNat = u.toNat / 2 ^ 3 % 2 ^ 29 := by
  simp only [unpackUd, UInt64.toNat_toUInt32, UInt64.toNat_and, UInt64.toNat_shiftRight, UInt64.reduceToNat,
    Nat.reduceMod]
  rw [show (536870911 : Nat) = 2 ^ 29 - 1 from rfl, Nat.and_two_pow_sub_one_eq_mod, Nat.shiftRight_eq_div_pow]
  omega

theorem toNat_unpack_fd (u : UInt64) : (unpackUd u).1.toUInt32.toNat = u.toNat / 2 ^ 35 := by
  have hu := u.toNat_lt
  simp only [unpackUd, UInt32.toUInt32_toInt32, UInt64.toNat_toUInt32, UInt64.toNat_and, UInt64.toNat_shiftRight,
    UInt64.reduceToNat, Nat.reduceMod]
  rw [show (4294967295 : Nat) = 2 ^ 32 - 1 from rfl, Nat.and_two_pow_sub_one_eq_mod, Nat.shiftRight_eq_div_pow]
  omega

/-- The auxiliary bits are masked. -/
theorem packUdAux_mask (fd : Fd) (op : Workflow) (aux : UInt32) :
    packUdAux fd op (aux &&& 0x1FFFFFFF) = packUdAux fd op aux := by
  unfold packUdAux
  rw [UInt32.and_assoc, UInt32.and_self]

/-- The masked auxiliary bits fit. -/
theorem mask_lt (aux : UInt32) : aux &&& 0x1FFFFFFF < 0x20000000 := by
  rw [UInt32.lt_iff_toNat_lt, UInt32.toNat_and]
  exact Nat.lt_of_le_of_lt Nat.and_le_right (by decide)

/-- The kind that is read back has the low three bits of the kind that was posted. -/
theorem unpack_kind (fd : Fd) (op : Workflow) (aux : UInt32) :
    (unpackUd (packUdAux fd op aux)).2.1 = Workflow.ofCode (op.code &&& 7) := by
  have hmask := mask_lt aux
  have hlow : (packUdAux fd op aux &&& 7) = op.code &&& 7 := by
    apply UInt64.toNat_inj.mp
    rw [toNat_unpack_kind, toNat_unpack_kind, ← packUdAux_mask, toNat_packUdAux fd op hmask]
    exact BitField.three_fields_low (by decide) _ _ _
  simp only [unpackUd, hlow]

/-- `requestClose`, `closed` and `freeBuffer` come back as `accept`, `recv` and `parse`. -/
theorem unpack_wrapped_kind (fd : Fd) (aux : UInt32) :
    (unpackUd (packUdAux fd .requestClose aux)).2.1 = .accept ∧ (unpackUd (packUdAux fd .closed aux)).2.1 = .recv ∧
      (unpackUd (packUdAux fd .freeBuffer aux)).2.1 = .parse := by
  simp only [unpack_kind]
  decide

/-- The tag of a buffer is read back as one of descriptor 0. -/
theorem unpack_free_fd (aux : UInt32) : (unpackUd (packUdAux 0 .freeBuffer aux)).1 = 0 := by
  have hmask := mask_lt aux
  have hlt : (packUdAux 0 .freeBuffer aux).toNat < 2 ^ 35 := by
    rw [← packUdAux_mask, toNat_packUdAux 0 _ hmask]
    have ha : (aux &&& 0x1FFFFFFF).toNat < 2 ^ 29 := by simpa [UInt32.lt_iff_toNat_lt] using hmask
    refine Nat.or_lt_two_pow (Nat.or_lt_two_pow (by decide) ?_) (by decide)
    rw [Nat.shiftLeft_eq]
    omega
  have h := toNat_unpack_fd (packUdAux 0 .freeBuffer aux)
  rw [Nat.div_eq_of_lt hlt] at h
  simpa using congrArg UInt32.toInt32 (UInt32.toNat_inj.mp (h.trans UInt32.toNat_zero.symm))

/-- The kinds whose branch of the switch is taken for their own completions. -/
theorem unpack_kind_iff (fd : Fd) (op : Workflow) (aux : UInt32) :
    (unpackUd (packUdAux fd op aux)).2.1 = op ↔ op.code < 8 := by
  rw [unpack_kind fd op aux]
  cases op <;> decide

/-- Only the first eight kinds are read. -/
theorem unpack_kind_lt (u : UInt64) : (unpackUd u).2.1.code < 8 := by
  have hlt : (u &&& 7).toNat < 8 := by
    rw [toNat_unpack_kind]
    exact Nat.mod_lt _ (by decide)
  show (Workflow.ofCode (u &&& 7)).code < 8
  unfold Workflow.ofCode
  generalize (u &&& 7).toNat = n at hlt
  interval_cases n <;> decide

/-- The tag of a close is the tag of a receive with one auxiliary bit. -/
theorem packUd_closed (fd : Fd) : packUd fd .closed = packUdAux fd .recv 1 := by
  unfold packUd packUdAux
  rw [UInt64.or_assoc, UInt64.or_assoc]
  rfl

theorem toNat_fd {fd : Fd} (hfd : 0 ≤ fd) : (fd.toUInt32.toNat : Int) = fd.toInt := by
  have h : 0 ≤ fd.toBitVec.toInt := by simpa [Int32.le_iff_toInt_le] using hfd
  have hlt : 2 * fd.toBitVec.toNat < 2 ^ 32 := by
    by_contra hn
    rw [BitVec.toInt_eq_toNat_cond, if_neg hn] at h
    have := fd.toBitVec.isLt
    omega
  exact (BitVec.toInt_eq_toNat_of_lt hlt).symm

theorem fd_lt_iff {fd : Fd} (hfd : 0 ≤ fd) : fd < 0x20000000 ↔ fd.toUInt32.toNat < 2 ^ 29 := by
  have h := toNat_fd hfd
  rw [Int32.lt_iff_toInt_lt, show (0x20000000 : Int32).toInt = 2 ^ 29 from rfl, ← h]
  omega

/-- A kind below eight and a descriptor below `2 ^ 29` are read back. -/
theorem unpack_pack {fd : Fd} {op : Workflow} (aux : UInt32) (hfd : 0 ≤ fd) (haux : aux < 0x20000000)
    (hlt : fd < 0x20000000) (hop : op.code < 8) : unpackUd (packUdAux fd op aux) = (fd, op, aux) := by
  have hf : fd.toUInt32.toNat % 2 ^ 29 = fd.toUInt32.toNat := Nat.mod_eq_of_lt ((fd_lt_iff hfd).mp hlt)
  have ha' : aux.toNat < 2 ^ 29 := by simpa [UInt32.lt_iff_toNat_lt] using haux
  have ha : aux.toNat < 2 ^ (35 - 3) := by omega
  have hc : op.code.toNat < 2 ^ 3 := by simpa [UInt64.lt_iff_toNat_lt] using hop
  have hword := toNat_packUdAux fd op haux
  rw [hf] at hword
  refine Prod.ext ?_ (Prod.ext ((unpack_kind_iff fd op aux).mpr hop) ?_)
  · have h := toNat_unpack_fd (packUdAux fd op aux)
    rw [hword, BitField.three_fields_high (by decide) hc ha] at h
    have h' := UInt32.toNat_inj.mp h
    simpa using congrArg UInt32.toInt32 h'
  · apply UInt32.toNat_inj.mp
    have h := BitField.three_fields_mid (s := 3) (t := 35) (by decide) hc ha fd.toUInt32.toNat
    rw [toNat_unpack_aux, hword]
    show _ = aux.toNat
    omega

/-- Only 29 bits of the descriptor survive. -/
theorem unpack_fd_lt (u : UInt64) : (unpackUd u).1.toUInt32.toNat < 2 ^ 29 := by
  have := u.toNat_lt
  rw [toNat_unpack_fd]
  omega

/-! ## Tags that are read back -/

/-- The tags of an operation are read back as what was packed. -/
def ReadsBack (fd : Fd) (op : Workflow) (aux : UInt32) : Prop :=
  unpackUd (packUdAux fd op aux) = (fd, op, aux) ∧ unpackUd (packUd fd op) = (fd, op, 0)

/-- A tag is read back, and its completion handled in the branch of its kind, exactly for a kind below eight and a
descriptor below `2 ^ 29`; on these the tags are injective. -/
theorem tag_reads_back_iff (fd : Fd) (op : Workflow) (aux : UInt32) (hfd : 0 ≤ fd) (haux : aux < 0x20000000) :
    (ReadsBack fd op aux ↔ fd < 0x20000000 ∧ op.code < 8) ∧
    ((unpackUd (packUd fd op)).2.1 = op ↔ op.code < 8) ∧
    (fd < 0x20000000 ∧ op.code < 8 → ∀ fd' op' aux', 0 ≤ fd' → aux' < 0x20000000 → fd' < 0x20000000 →
      op'.code < 8 → packUdAux fd' op' aux' = packUdAux fd op aux → (fd', op', aux') = (fd, op, aux)) := by
  refine ⟨⟨fun h => ⟨?_, ?_⟩, fun ⟨hlt, hop⟩ => ?_⟩, ?_, ?_⟩
  · have hb : (unpackUd (packUdAux fd op aux)).1 = fd := by rw [h.1]
    have := unpack_fd_lt (packUdAux fd op aux)
    rw [hb] at this
    exact (fd_lt_iff hfd).mpr this
  · exact (unpack_kind_iff fd op aux).mp (by rw [h.1])
  · exact ⟨unpack_pack aux hfd haux hlt hop, packUd_eq fd op ▸ unpack_pack 0 hfd (by decide) hlt hop⟩
  · exact unpack_kind_iff fd op 0
  · intro ⟨hlt, hop⟩ fd' op' aux' hfd' haux' hlt' hop' heq
    rw [← unpack_pack aux hfd haux hlt hop, ← unpack_pack aux' hfd' haux' hlt' hop', heq]

theorem tag_reads_back_iff_recv : ReadsBack 7 .recv 12 ∧ ¬ReadsBack 7 .closed 12 :=
  ⟨(tag_reads_back_iff 7 .recv 12 (by decide) (by decide)).1.mpr (by decide),
    fun h => absurd ((tag_reads_back_iff 7 .closed 12 (by decide) (by decide)).1.mp h).2 (by decide)⟩

/-- The tag of a close is read back as one of a receive. -/
theorem closed_tag_not_read_back :
    ¬∀ (fd : Fd) (op : Workflow) (aux : UInt32), 0 ≤ fd → aux < 0x20000000 → ReadsBack fd op aux := by
  intro h
  have hclosed := (h 5 .closed 0 (by decide) (by decide)).1
  have hrecv : unpackUd (packUdAux 5 .closed 0) = (5, .recv, 1) := by decide
  rw [hrecv] at hclosed
  cases hclosed

end IOContext
