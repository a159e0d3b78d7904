import Zsim.Vantage
import Mathlib.Tactic.FieldSimp

/-!
# The aperture control of the Vantage policy

The further a partition is above its target, the larger the share of its
candidates that is to be demoted. Fewer demotions in an interval move the
setpoint nearer, and more of them move it further away.
-/

namespace Zsim.VantageAperture

open DoubleRounding Vantage WayPart

/-- The feedback at the end of an interval, in doubles; none if the assertion on
the slope fails. -/
def apertureControl (partSlackPct maxAperturePct : ℕ) (i : VantagePartInfo) : Option Setpoint :=
  let partSlack := roundDouble (partSlackPct / 100)
  let maxAperture := roundDouble (maxAperturePct / 100)
  let targetSize := roundDouble i.targetSize
  let maxSz := roundDouble (targetSize * roundDouble (1 + partSlack))
  let curSz := roundDouble i.size
  let slope := roundDouble (maxAperture / roundDouble (maxSz - targetSize))
  if curSz < maxSz ∧ slope ≤ 0 then none
  else
    let aperture := if maxSz ≤ curSz then maxAperture
      else roundDouble (slope * roundDouble (curSz - targetSize))
    let share := roundDouble (aperture * i.curIntervalCands)
    let shrink : ℚ := int32 i.curIntervalDems
    if aperture ≤ 0 then some .keep
    else if shrink < share then some .increase
    else if share < shrink then some .decrease
    else some .keep

section Half

variable {i : VantagePartInfo} {t above : ℕ}

/-- With full slack and half of the candidates demoted at most, a partition whose
target is a power of two is to demote a candidate in `2 ^ (t + 1)` for each line
above its target. -/
theorem apertureControl_half (ht : t < 52) (htarget : i.targetSize = 2 ^ t)
    (hsize : i.size = 2 ^ t + above) (hpos : 0 < above) (habove : above < 2 ^ t)
    (hcands : above * i.curIntervalCands < 2 ^ 53) :
    apertureControl 100 50 i =
      if (int32 i.curIntervalDems : ℚ) < (above * i.curIntervalCands : ℕ) / 2 ^ (t + 1) then some .increase
      else if ((above * i.curIntervalCands : ℕ) / 2 ^ (t + 1) : ℚ) < int32 i.curIntervalDems then
        some .decrease
      else some .keep := by
  have hpow : 2 ^ t < 2 ^ 52 := Nat.pow_lt_pow_right (by omega) ht
  have hslack : roundDouble ((100 : ℕ) / 100 : ℚ) = 1 := by
    have hone := roundDouble_natCast (k := 1) (by omega)
    norm_num at hone ⊢
    exact hone
  have haperture : roundDouble ((50 : ℕ) / 100 : ℚ) = 1 / 2 := by
    have hhalf := roundDouble_dyadic (k := 1) 1 (by omega)
    norm_num at hhalf ⊢
    exact hhalf
  have htwo : roundDouble (1 + 1 : ℚ) = 2 := by
    have hdouble := roundDouble_natCast (k := 2) (by omega)
    norm_num at hdouble ⊢
    exact hdouble
  have hT : roundDouble i.targetSize = 2 ^ t := by
    rw [roundDouble_natCast (by omega), htarget]
    push_cast
    rfl
  have hmax : roundDouble (2 ^ t * 2 : ℚ) = 2 ^ t * 2 := by
    have hwhole := roundDouble_natCast (k := 2 ^ t * 2) (by omega)
    push_cast at hwhole
    exact hwhole
  have hcur : roundDouble i.size = 2 ^ t + above := by
    rw [roundDouble_natCast (by omega), hsize]
    push_cast
    rfl
  have hgap : roundDouble (2 ^ t * 2 - 2 ^ t : ℚ) = 2 ^ t := by
    have hwhole := roundDouble_natCast (k := 2 ^ t) (by omega)
    push_cast at hwhole
    rw [show (2 ^ t * 2 - 2 ^ t : ℚ) = 2 ^ t by ring]
    exact hwhole
  have hslope : roundDouble (1 / 2 / 2 ^ t : ℚ) = 1 / 2 ^ (t + 1) := by
    have hunit := roundDouble_dyadic (k := 1) (t + 1) (by omega)
    rw [Nat.cast_one] at hunit
    rw [div_div, ← pow_succ']
    exact hunit
  have hexcess : roundDouble (2 ^ t + above - 2 ^ t : ℚ) = above := by
    rw [add_sub_cancel_left]
    exact roundDouble_natCast (by omega)
  have hshare : roundDouble (1 / 2 ^ (t + 1) * above : ℚ) = above / 2 ^ (t + 1) := by
    rw [one_div_mul_eq_div]
    exact roundDouble_dyadic _ (by omega)
  have hcount : roundDouble (above / 2 ^ (t + 1) * i.curIntervalCands : ℚ) =
      (above * i.curIntervalCands : ℕ) / 2 ^ (t + 1) := by
    rw [div_mul_eq_mul_div, ← Nat.cast_mul]
    exact roundDouble_dyadic _ hcands
  have hbelow : ¬ (2 ^ t * 2 : ℚ) ≤ 2 ^ t + above := by
    rw [not_le]
    have hlt : (above : ℚ) < 2 ^ t := by exact_mod_cast habove
    linarith
  have hslope_pos : ¬ (1 / 2 ^ (t + 1) : ℚ) ≤ 0 := by
    rw [not_le]
    positivity
  have haperture_pos : ¬ (above / 2 ^ (t + 1) : ℚ) ≤ 0 := by
    rw [not_le]
    positivity
  simp only [apertureControl, hslack, haperture, htwo, hT, hmax, hcur, hgap, hslope, hexcess]
  rw [if_neg fun hfail => hslope_pos hfail.2, if_neg hbelow, hshare, hcount, if_neg haperture_pos]

end Half
end Zsim.VantageAperture
