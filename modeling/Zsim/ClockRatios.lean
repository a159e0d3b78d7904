import Mathlib.Algebra.Order.Group.Nat
import Mathlib.Order.Monotone.Basic
import Mathlib.Tactic.Ring

/-!
# Two clocks

A fast clock with frequency `fast` and a slow one with frequency `slow` start together. A fast
cycle belongs to the slow cycle it starts in. Slow cycles are counted from one.
-/

namespace Zsim.ClockRatios

variable {fast slow s t k : ℕ}

/-- The slow cycle of a fast one. -/
def slowCycle (fast slow s : ℕ) : ℕ := s * slow / fast + 1

/-- The fast cycle that starts last before the end of the slow cycle after `k`. -/
def endCycle (fast slow k : ℕ) : ℕ := (k + 1) * fast / slow

/-- The fast cycle that starts last before the middle of the slow one. -/
def middleCycle (fast slow k : ℕ) : ℕ := (2 * k - 1) * fast / slow / 2

theorem slowCycle_mono : Monotone (slowCycle fast slow) :=
  fun _ _ h => Nat.succ_le_succ (Nat.div_le_div_right (Nat.mul_le_mul_right _ h))

theorem slowCycle_pos : 0 < slowCycle fast slow s := Nat.succ_pos _

/-- When a slow cycle takes more than two fast ones, the fast cycle before its middle starts in it. -/
theorem slowCycle_middle (hslow : 0 < slow) (hratio : slow < fast / 2) (hk : 0 < k) :
    slowCycle fast slow (middleCycle fast slow k) = k := by
  have hfast : 0 < fast := by omega
  obtain ⟨j, rfl⟩ : ∃ j, k = j + 1 := ⟨k - 1, by omega⟩
  have hodd : 2 * (j + 1) - 1 = 2 * j + 1 := by omega
  unfold slowCycle middleCycle
  rw [Nat.div_div_eq_div_mul, hodd]
  have hle := Nat.div_mul_le_self ((2 * j + 1) * fast) (slow * 2)
  have hlt := Nat.lt_mul_div_succ ((2 * j + 1) * fast) (Nat.mul_pos hslow Nat.two_pos)
  generalize (2 * j + 1) * fast / (slow * 2) = q at hle hlt ⊢
  have hprod : (2 * j + 1) * fast = 2 * (j * fast) + fast := by ring
  have hq : q * (slow * 2) = 2 * (q * slow) := by ring
  have hq' : slow * 2 * (q + 1) = 2 * (q * slow) + 2 * slow := by ring
  rw [hprod, hq] at hle
  rw [hprod, hq'] at hlt
  have hdiv : q * slow / fast = j := by
    refine Nat.div_eq_of_lt_le ?_ ?_
    · omega
    · rw [Nat.add_mul, Nat.one_mul]
      omega
  rw [hdiv]

/-- From then on the slow cycle stays until a fast cycle of a later one comes. -/
theorem slowCycle_max_middle (hslow : 0 < slow) (hratio : slow < fast / 2) (hk : slowCycle fast slow s ≤ k) :
    slowCycle fast slow (max (middleCycle fast slow k) s) = k := by
  have hpos : 0 < k := slowCycle_pos.trans_le hk
  rw [slowCycle_mono.map_max, slowCycle_middle hslow hratio hpos]
  exact max_eq_left hk

/-- A slow cycle does not end before a fast cycle of it starts. -/
theorem le_endCycle (hslow : 0 < slow) (hfast : 0 < fast) (hk : slowCycle fast slow s ≤ k) :
    s ≤ endCycle fast slow k := by
  have hfloor := Nat.lt_mul_div_succ (s * slow) hfast
  have hmul := Nat.mul_le_mul_left fast hk
  have hsum : fast * k ≤ (k + 1) * fast := by
    rw [Nat.add_mul, Nat.mul_comm]
    omega
  unfold endCycle
  rw [Nat.le_div_iff_mul_le hslow]
  unfold slowCycle at hmul
  omega

theorem middleCycle_mul_le : middleCycle fast slow k * slow ≤ (2 * k - 1) * fast := by
  unfold middleCycle
  calc (2 * k - 1) * fast / slow / 2 * slow ≤ (2 * k - 1) * fast / slow * slow :=
        Nat.mul_le_mul_right _ (Nat.div_le_self ..)
    _ ≤ (2 * k - 1) * fast := Nat.div_mul_le_self ..

end Zsim.ClockRatios
