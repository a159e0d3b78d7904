import Mathlib.Algebra.Field.ZMod
import Mathlib.Data.ZMod.Basic

/-!
# The bits of 64-bit words

A word is seen as a function from places to bits. Places wrap around, so that a rotation shifts them, and bits
are added and multiplied modulo two, which is what the exclusive or and the conjunction of words do.
-/

namespace Zsim.WordBits

variable {v w : UInt64} {i : ZMod 64} {k : ℕ}

/-- The bit of a word at a place. -/
def bit (v : UInt64) (i : ZMod 64) : ZMod 2 := if v.toBitVec.getLsbD i.val then 1 else 0

@[simp] theorem bit_zero : bit 0 i = 0 := by
  rw [bit]
  exact if_neg (by simp)

@[simp] theorem bit_xor : bit (v ^^^ w) i = bit v i + bit w i := by
  unfold bit
  rw [UInt64.toBitVec_xor, BitVec.getLsbD_xor]
  cases v.toBitVec.getLsbD i.val <;> cases w.toBitVec.getLsbD i.val <;> rfl

@[simp] theorem bit_and : bit (v &&& w) i = bit v i * bit w i := by
  unfold bit
  rw [UInt64.toBitVec_and, BitVec.getLsbD_and]
  cases v.toBitVec.getLsbD i.val <;> cases w.toBitVec.getLsbD i.val <;> rfl

/-- Words are equal when their bits are. -/
theorem bit_ext (h : ∀ i, bit v i = bit w i) : v = w := by
  rw [← UInt64.toBitVec_inj]
  refine BitVec.eq_of_getLsbD_eq fun j hj => ?_
  have hbit := h (j : ZMod 64)
  unfold bit at hbit
  rw [ZMod.val_natCast, Nat.mod_eq_of_lt hj] at hbit
  cases hv : v.toBitVec.getLsbD j <;> cases hw : w.toBitVec.getLsbD j
  · rfl
  · rw [hv, hw] at hbit
    exact absurd hbit (by decide)
  · rw [hv, hw] at hbit
    exact absurd hbit (by decide)
  · rfl

theorem val_sub_natCast (hk : k ≤ 64) : (i - (k : ZMod 64)).val = (i.val + (64 - k)) % 64 := by
  have hneg : ((64 - k : ℕ) : ZMod 64) = -(k : ZMod 64) := by
    rw [Nat.cast_sub hk, show ((64 : ℕ) : ZMod 64) = 0 from ZMod.natCast_self 64, zero_sub]
  rw [sub_eq_add_neg, ← hneg, ZMod.val_add, ZMod.val_natCast, Nat.add_mod_mod]

/-- A rotation to the left, put together from two shifts. -/
def rotl (v : UInt64) (k : ℕ) : UInt64 := v <<< UInt64.ofNat k ||| v >>> UInt64.ofNat (64 - k)

theorem bit_rotl (hpos : 0 < k) (hk : k < 64) : bit (rotl v k) i = bit v (i - k) := by
  have hi := ZMod.val_lt i
  unfold bit rotl
  rw [UInt64.toBitVec_or, UInt64.toBitVec_shiftLeft, UInt64.toBitVec_shiftRight, BitVec.getLsbD_or,
    BitVec.shiftLeft_eq', BitVec.ushiftRight_eq', BitVec.getLsbD_shiftLeft, BitVec.getLsbD_ushiftRight,
    val_sub_natCast (Nat.le_of_lt hk)]
  have hleft : ((UInt64.ofNat k).toBitVec % 64).toNat = k := by
    simp only [BitVec.toNat_umod, UInt64.toNat_toBitVec, UInt64.toNat_ofNat',
      show (64 : BitVec 64).toNat = 64 from rfl]
    omega
  have hright : ((UInt64.ofNat (64 - k)).toBitVec % 64).toNat = 64 - k := by
    simp only [BitVec.toNat_umod, UInt64.toNat_toBitVec, UInt64.toNat_ofNat',
      show (64 : BitVec 64).toNat = 64 from rfl]
    omega
  rw [hleft, hright]
  by_cases hik : i.val < k
  · have hmod : (i.val + (64 - k)) % 64 = 64 - k + i.val := by omega
    simp [hik, hi, hmod]
  · have hmod : (i.val + (64 - k)) % 64 = i.val - k := by omega
    have hout : v.toBitVec.getLsbD (64 - k + i.val) = false := BitVec.getLsbD_of_ge _ _ (by omega)
    simp [hik, hi, hmod, hout]

/-- The word with one bit set. -/
def single (j : ZMod 64) : UInt64 := 1 <<< UInt64.ofNat j.val

theorem bit_single (j : ZMod 64) : bit (single j) i = if i = j then 1 else 0 := by
  have hi := ZMod.val_lt i
  have hj := ZMod.val_lt j
  have hplace : ((UInt64.ofNat j.val).toBitVec % 64).toNat = j.val := by
    simp only [BitVec.toNat_umod, UInt64.toNat_toBitVec, UInt64.toNat_ofNat',
      show (64 : BitVec 64).toNat = 64 from rfl]
    omega
  have hone : (1 : UInt64).toBitVec.getLsbD (i.val - j.val) = decide (i.val - j.val = 0) :=
    BitVec.getLsbD_one.trans (by simp)
  unfold bit single
  rw [UInt64.toBitVec_shiftLeft, BitVec.shiftLeft_eq', BitVec.getLsbD_shiftLeft, hplace, hone]
  by_cases hij : i = j
  · rw [if_pos hij, hij]
    exact if_pos (by simp [hj])
  · have hne : i.val ≠ j.val := fun h => hij (ZMod.val_injective 64 h)
    have hout : ¬ (¬ i.val < j.val ∧ i.val - j.val = 0) := by omega
    rw [if_neg hij]
    exact if_neg (by simpa [hi] using hout)

/-- A word of which a shift down is added can be told from the sum. -/
theorem add_shift_injective (hpos : 0 < k) (hk : k < 64) :
    Function.Injective fun w : UInt64 => (w >>> UInt64.ofNat k) ^^^ w := by
  intro v w h
  dsimp only at h
  have hxor : (v ^^^ w) >>> UInt64.ofNat k = v ^^^ w := by
    rw [UInt64.shiftRight_xor, ← UInt64.xor_eq_zero_iff]
    rw [← UInt64.xor_eq_zero_iff] at h
    rw [← h]
    ac_rfl
  have hnat := congrArg UInt64.toNat hxor
  rw [UInt64.toNat_shiftRight, UInt64.toNat_ofNat', Nat.mod_eq_of_lt (by omega : k < 2 ^ 64),
    Nat.mod_eq_of_lt hk, Nat.shiftRight_eq_div_pow] at hnat
  have hzero : (v ^^^ w).toNat = 0 := by
    by_contra hne
    have hlt := Nat.div_lt_self (Nat.pos_of_ne_zero hne) (Nat.one_lt_two_pow hpos.ne')
    omega
  exact UInt64.xor_eq_zero_iff.mp (UInt64.toNat_inj.mp hzero)

end Zsim.WordBits
