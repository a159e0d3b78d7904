import Mathlib.Data.Int.Log
import Mathlib.Data.Rat.Floor
import Mathlib.Algebra.Order.Field.Power
import Mathlib.Tactic.Linarith
import Mathlib.Tactic.Positivity
import Mathlib.Tactic.Push

/-!
# Rounding to double precision

A nonzero rational is scaled by a power of two so that its magnitude lies in
`[2 ^ 52, 2 ^ 53)`, rounded to an integer with ties to even, and scaled back.
The exponent is not bounded: the operations that are rounded here neither
overflow nor leave the normal range by more than an integer conversion forgets.
-/

namespace Zsim.DoubleRounding

/-- The nearest integer, an even one when two are equally near. -/
def roundEven (x : ℚ) : ℤ :=
  if Int.fract x < 1 / 2 ∨ (Int.fract x = 1 / 2 ∧ ⌊x⌋ % 2 = 0) then ⌊x⌋ else ⌊x⌋ + 1

/-- The unit in the last place of a double of this magnitude. -/
def ulp (q : ℚ) : ℚ := (2 : ℚ) ^ (Int.log 2 |q| - 52)

/-- The nearest double. -/
def roundDouble (q : ℚ) : ℚ := if q = 0 then 0 else roundEven (q / ulp q) * ulp q

theorem roundEven_intCast (k : ℤ) : roundEven k = k := by
  simp [roundEven]

theorem floor_le_roundEven (x : ℚ) : ⌊x⌋ ≤ roundEven x := by
  unfold roundEven
  split <;> omega

theorem roundEven_le {x : ℚ} {k : ℤ} (h : x ≤ k) : roundEven x ≤ k := by
  have hfloor : ⌊x⌋ ≤ k := by exact_mod_cast (Int.floor_le x).trans h
  rcases hfloor.lt_or_eq with hlt | heq
  · unfold roundEven
    split <;> omega
  · have hx : x = k := le_antisymm h (heq ▸ Int.floor_le x)
    rw [hx, roundEven_intCast]

theorem ulp_pos (q : ℚ) : 0 < ulp q := by
  unfold ulp
  positivity

theorem roundDouble_zero : roundDouble 0 = 0 := if_pos rfl

theorem roundDouble_nonneg {q : ℚ} (h : 0 ≤ q) : 0 ≤ roundDouble q := by
  unfold roundDouble
  split
  · exact le_rfl
  · have hu := ulp_pos q
    have hfloor : 0 ≤ ⌊q / ulp q⌋ := Int.floor_nonneg.mpr (div_nonneg h hu.le)
    have hround : (0 : ℚ) ≤ roundEven (q / ulp q) := by
      exact_mod_cast hfloor.trans (floor_le_roundEven _)
    exact mul_nonneg hround hu.le

/-- A natural number below `2 ^ 53` is a multiple of any smaller unit. -/
theorem exists_units {k : ℕ} {e : ℤ} (he : e ≤ 52) :
    ∃ m : ℤ, (k : ℚ) / (2 : ℚ) ^ (e - 52) = m := by
  obtain ⟨d, hd⟩ := Int.eq_ofNat_of_zero_le (show 0 ≤ 52 - e by omega)
  refine ⟨(k : ℤ) * 2 ^ d, ?_⟩
  rw [show e - 52 = -(d : ℤ) by omega, zpow_neg, zpow_natCast, div_inv_eq_mul]
  push_cast
  rfl

theorem log_le_of_lt {q : ℚ} (h : 0 < q) (hlt : q < 2 ^ 53) : Int.log 2 q ≤ 52 := by
  have hlog : Int.log 2 q < 53 := by
    rw [← Int.lt_zpow_iff_log_lt (by norm_num) h]
    exact_mod_cast hlt
  omega

/-- Rounding stays below a bound that is itself a double. -/
theorem roundDouble_le {q : ℚ} {k : ℕ} (h : q ≤ k) (hq : 0 ≤ q) (hk : k < 2 ^ 53) :
    roundDouble q ≤ k := by
  unfold roundDouble
  split
  · positivity
  · next hne =>
    have hpos : 0 < q := lt_of_le_of_ne hq (Ne.symm hne)
    have hlt : q < 2 ^ 53 := lt_of_le_of_lt h (by exact_mod_cast hk)
    obtain ⟨m, hm⟩ := exists_units (k:=k) (log_le_of_lt hpos hlt)
    have hu := ulp_pos q
    have hscale : (k : ℚ) / ulp q = m := by rwa [ulp, abs_of_pos hpos]
    have hround : roundEven (q / ulp q) ≤ m :=
      roundEven_le (hscale ▸ (div_le_div_iff_of_pos_right hu).mpr h)
    calc (roundEven (q / ulp q) : ℚ) * ulp q ≤ m * ulp q :=
          mul_le_mul_of_nonneg_right (by exact_mod_cast hround) hu.le
      _ = k := by rw [← hscale, div_mul_cancel₀ _ hu.ne']

/-- Rounding stays above the negative of such a bound. -/
theorem neg_le_roundDouble {q : ℚ} {k : ℕ} (h : -(k : ℚ) ≤ q) (hk : k < 2 ^ 53) :
    -(k : ℚ) ≤ roundDouble q := by
  rcases le_or_gt 0 q with hq | hq
  · have hk0 : -(k : ℚ) ≤ 0 := neg_nonpos.mpr (by positivity)
    exact hk0.trans (roundDouble_nonneg hq)
  · have habs : |q| = -q := abs_of_neg hq
    have hlt : -q < 2 ^ 53 := lt_of_le_of_lt (neg_le.mp h) (by exact_mod_cast hk)
    obtain ⟨m, hm⟩ := exists_units (k := k) (log_le_of_lt (neg_pos.mpr hq) hlt)
    have hu := ulp_pos q
    have hscale : (k : ℚ) / ulp q = m := by rwa [ulp, habs]
    have hlow : ((-m : ℤ) : ℚ) ≤ q / ulp q := by
      rw [Int.cast_neg, ← hscale, ← neg_div]
      exact (div_le_div_iff_of_pos_right hu).mpr h
    have hround : -m ≤ roundEven (q / ulp q) :=
      (Int.le_floor.mpr hlow).trans (floor_le_roundEven _)
    rw [roundDouble, if_neg hq.ne]
    calc -(k : ℚ) = ((-m : ℤ) : ℚ) * ulp q := by
          rw [Int.cast_neg, ← hscale, neg_mul, div_mul_cancel₀ _ hu.ne']
      _ ≤ roundEven (q / ulp q) * ulp q :=
          mul_le_mul_of_nonneg_right (by exact_mod_cast hround) hu.le

/-- What is a whole number of its units is not rounded. -/
theorem roundDouble_of_units {q : ℚ} {m : ℤ} (h : q / ulp q = m) : roundDouble q = q := by
  unfold roundDouble
  split
  · next hz => exact hz.symm
  · rw [h, roundEven_intCast, ← h, div_mul_cancel₀ _ (ulp_pos q).ne']

/-- A fraction of a power of two with fewer than 53 bits is a double. -/
theorem roundDouble_dyadic {k : ℕ} (j : ℕ) (hk : k < 2 ^ 53) :
    roundDouble (k / 2 ^ j) = k / 2 ^ j := by
  obtain rfl | hpos := Nat.eq_zero_or_pos k
  · rw [Nat.cast_zero, zero_div, roundDouble_zero]
  · have hq : (0 : ℚ) < k / 2 ^ j := by positivity
    have hlt : (k / 2 ^ j : ℚ) < 2 ^ (53 - j : ℤ) := by
      rw [zpow_sub₀ two_ne_zero, zpow_natCast]
      exact div_lt_div_of_pos_right (by exact_mod_cast hk) (by positivity)
    have hlog : Int.log 2 (k / 2 ^ j : ℚ) ≤ 52 - j := by
      have hlt' : Int.log 2 (k / 2 ^ j : ℚ) < 53 - j := by
        rw [← Int.lt_zpow_iff_log_lt (by norm_num) hq]
        exact_mod_cast hlt
      omega
    obtain ⟨d, hd⟩ := Int.eq_ofNat_of_zero_le (show 0 ≤ 52 - j - Int.log 2 (k / 2 ^ j : ℚ) by omega)
    have hunits : (k / 2 ^ j : ℚ) / ulp (k / 2 ^ j) = ((k * 2 ^ d : ℕ) : ℤ) := by
      rw [ulp, abs_of_pos hq, show Int.log 2 (k / 2 ^ j : ℚ) - 52 = -(j + d : ℕ) by push_cast; omega,
        zpow_neg, zpow_natCast, div_inv_eq_mul, pow_add]
      push_cast
      field_simp
    exact roundDouble_of_units hunits

/-- Naturals below `2 ^ 53` are doubles. -/
theorem roundDouble_natCast {k : ℕ} (hk : k < 2 ^ 53) : roundDouble k = k := by
  have hdouble := roundDouble_dyadic 0 hk
  rwa [pow_zero, div_one] at hdouble

/-- A positive rational less than half a unit above a multiple of it is rounded down to it. -/
theorem roundDouble_down {q : ℚ} {e m : ℤ} (hlow : (2 : ℚ) ^ e ≤ q) (hhigh : q < 2 ^ (e + 1))
    (hm : m * (2 : ℚ) ^ (e - 52) ≤ q) (hm' : q < (m + 1 / 2) * (2 : ℚ) ^ (e - 52)) :
    roundDouble q = m * (2 : ℚ) ^ (e - 52) := by
  have hpos : 0 < q := lt_of_lt_of_le (by positivity) hlow
  have hlog : Int.log 2 q = e := by
    have hge : e ≤ Int.log 2 q := (Int.zpow_le_iff_le_log (by norm_num) hpos).mp (by exact_mod_cast hlow)
    have hlt : Int.log 2 q < e + 1 := by
      rw [← Int.lt_zpow_iff_log_lt (by norm_num) hpos]
      exact_mod_cast hhigh
    omega
  have hulp : ulp q = (2 : ℚ) ^ (e - 52) := by rw [ulp, abs_of_pos hpos, hlog]
  have hu : (0 : ℚ) < 2 ^ (e - 52) := by positivity
  have hle : (m : ℚ) ≤ q / 2 ^ (e - 52) := (le_div_iff₀ hu).mpr hm
  have hlt : q / 2 ^ (e - 52) < m + 1 / 2 := (div_lt_iff₀ hu).mpr hm'
  have hfloor : ⌊q / (2 : ℚ) ^ (e - 52)⌋ = m := Int.floor_eq_iff.mpr ⟨hle, by linarith⟩
  have hfract : Int.fract (q / (2 : ℚ) ^ (e - 52)) < 1 / 2 := by
    rw [Int.fract, hfloor]
    linarith
  rw [roundDouble, if_neg hpos.ne', hulp, roundEven, if_pos (Or.inl hfract), hfloor]

theorem roundDouble_neg_natCast {k : ℕ} (hk : k < 2 ^ 53) : roundDouble (-(k : ℚ)) = -k := by
  unfold roundDouble
  split
  · next hz => exact hz.symm
  · next hne =>
    have habs : |-(k : ℚ)| = k := by rw [abs_neg, Nat.abs_cast]
    have hpos : (0 : ℚ) < k := lt_of_le_of_ne (by positivity) fun hk => hne (by rw [← hk, neg_zero])
    obtain ⟨m, hm⟩ := exists_units (k := k) (log_le_of_lt hpos (by exact_mod_cast hk))
    have hu := ulp_pos (-k)
    have hscale : (k : ℚ) / ulp (-k) = m := by rwa [ulp, habs]
    have hneg : -(k : ℚ) / ulp (-k) = ((-m : ℤ) : ℚ) := by rw [neg_div, hscale, Int.cast_neg]
    rw [hneg, roundEven_intCast, Int.cast_neg, ← hscale, neg_mul, div_mul_cancel₀ _ hu.ne']

end Zsim.DoubleRounding
