import Zsim.ClockRatios
import Zsim.DDRChannel

/-!
# The clock conversions of the DDR memory

System cycles and memory cycles are converted in 64 bits. As long as the products fit, the
conversions are those of the two clocks, and a wake-up comes in the memory cycle it is meant for.
-/

namespace Zsim.DDRClocks

open ClockRatios DDRChannel

/-- The frequencies that the constructor of `DDRMemory` lets pass. -/
structure Clocks where
  sysFreqKHz : UInt64
  memFreqKHz : UInt64
  mem_pos : 0 < memFreqKHz
  mem_lt : memFreqKHz < sysFreqKHz / 2

variable (f : Clocks)

def Clocks.sysToMemCycle (sysCycle : UInt64) : UInt64 := sysCycle * f.memFreqKHz / f.sysFreqKHz + 1

def Clocks.memToSysCycle (memCycle : UInt64) : UInt64 := (memCycle + 1) * f.sysFreqKHz / f.memFreqKHz

def Clocks.matchingMemToSysCycle (memCycle : UInt64) : UInt64 :=
  (2 * memCycle - 1) * f.sysFreqKHz / f.memFreqKHz / 2

/-- The product that `sysToMemCycle` computes. -/
def Clocks.SysFits (sysCycle : UInt64) : Prop := sysCycle.toNat * f.memFreqKHz.toNat < 2 ^ 64

/-- The product that `memToSysCycle` computes. -/
def Clocks.MemFits (memCycle : UInt64) : Prop := (memCycle.toNat + 1) * f.sysFreqKHz.toNat < 2 ^ 64

/-- The product that `matchingMemToSysCycle` computes. -/
def Clocks.MatchingFits (memCycle : UInt64) : Prop := (2 * memCycle.toNat - 1) * f.sysFreqKHz.toNat < 2 ^ 64

instance (sysCycle : UInt64) : Decidable (f.SysFits sysCycle) := Nat.decLt ..

instance (memCycle : UInt64) : Decidable (f.MemFits memCycle) := Nat.decLt ..

instance (memCycle : UInt64) : Decidable (f.MatchingFits memCycle) := Nat.decLt ..

section Words

variable {f} {s t m : UInt64}

theorem Clocks.slow_pos : 0 < f.memFreqKHz.toNat := UInt64.lt_iff_toNat_lt.mp f.mem_pos

theorem Clocks.ratio : f.memFreqKHz.toNat < f.sysFreqKHz.toNat / 2 := by
  have hlt := UInt64.lt_iff_toNat_lt.mp f.mem_lt
  rw [UInt64.toNat_div] at hlt
  exact hlt

theorem Clocks.fast_ge : 4 ≤ f.sysFreqKHz.toNat := by
  have hpos := f.slow_pos
  have hratio := f.ratio
  omega

/-- A quotient by the larger frequency leaves room for one more. -/
theorem toNat_sysToMemCycle (hfits : f.SysFits s) :
    (f.sysToMemCycle s).toNat = slowCycle f.sysFreqKHz.toNat f.memFreqKHz.toNat s.toNat := by
  unfold Clocks.SysFits at hfits
  have hquot := Nat.div_le_div_left f.fast_ge (Nat.succ_pos 3) (a := s.toNat * f.memFreqKHz.toNat)
  unfold Clocks.sysToMemCycle slowCycle
  rw [UInt64.toNat_add, UInt64.toNat_div, UInt64.toNat_mul, Nat.mod_eq_of_lt hfits]
  refine Nat.mod_eq_of_lt ?_
  change _ + 1 < _
  omega

theorem toNat_memToSysCycle (hfits : f.MemFits m) :
    (f.memToSysCycle m).toNat = endCycle f.sysFreqKHz.toNat f.memFreqKHz.toNat m.toNat := by
  unfold Clocks.MemFits at hfits
  have hsucc : (m + 1).toNat = m.toNat + 1 := by
    rw [UInt64.toNat_add]
    refine Nat.mod_eq_of_lt ?_
    have hle := Nat.le_mul_of_pos_right (m.toNat + 1) (Nat.zero_lt_of_lt f.fast_ge)
    exact hle.trans_lt hfits
  unfold Clocks.memToSysCycle endCycle
  rw [UInt64.toNat_div, UInt64.toNat_mul, hsucc, Nat.mod_eq_of_lt hfits]

theorem toNat_matchingMemToSysCycle (hm : 1 ≤ m) (hfits : f.MatchingFits m) :
    (f.matchingMemToSysCycle m).toNat = middleCycle f.sysFreqKHz.toNat f.memFreqKHz.toNat m.toNat := by
  unfold Clocks.MatchingFits at hfits
  have hpos : 1 ≤ m.toNat := UInt64.le_iff_toNat_le.mp hm
  have hle := (Nat.mul_le_mul_left (2 * m.toNat - 1) f.fast_ge).trans_lt hfits
  have htwo : (2 * m).toNat = 2 * m.toNat := by
    rw [UInt64.toNat_mul]
    refine Nat.mod_eq_of_lt ?_
    change 2 * m.toNat < _
    omega
  have hodd : (2 * m - 1).toNat = 2 * m.toNat - 1 := by
    rw [UInt64.toNat_sub_of_le, htwo]
    · rfl
    · rw [UInt64.le_iff_toNat_le, htwo]
      change 1 ≤ _
      omega
  unfold Clocks.matchingMemToSysCycle middleCycle
  rw [UInt64.toNat_div, UInt64.toNat_div, UInt64.toNat_mul, hodd, Nat.mod_eq_of_lt hfits]
  rfl

theorem sysToMemCycle_mono (hst : s ≤ t) (hfits : f.SysFits t) : f.sysToMemCycle s ≤ f.sysToMemCycle t := by
  have hle := UInt64.le_iff_toNat_le.mp hst
  have hfits' : f.SysFits s := (Nat.mul_le_mul_right _ hle).trans_lt hfits
  rw [UInt64.le_iff_toNat_le, toNat_sysToMemCycle hfits, toNat_sysToMemCycle hfits']
  exact slowCycle_mono hle

theorem matching_fits (hm : 1 ≤ m) (hfits : f.MatchingFits m) : f.SysFits (f.matchingMemToSysCycle m) := by
  unfold Clocks.SysFits
  rw [toNat_matchingMemToSysCycle hm hfits]
  exact middleCycle_mul_le.trans_lt hfits

theorem sysToMemCycle_matching (hm : 1 ≤ m) (hfits : f.MatchingFits m) :
    f.sysToMemCycle (f.matchingMemToSysCycle m) = m := by
  refine UInt64.toNat_inj.mp ?_
  rw [toNat_sysToMemCycle (matching_fits hm hfits), toNat_matchingMemToSysCycle hm hfits]
  exact slowCycle_middle f.slow_pos f.ratio (UInt64.le_iff_toNat_le.mp hm)

theorem max_eq (a b : UInt64) : max a b = if a ≤ b then b else a := rfl

theorem toNat_max (a b : UInt64) : (max a b).toNat = max a.toNat b.toNat := by
  rw [max_eq, max_def]
  split
  · next hle => rw [if_pos (UInt64.le_iff_toNat_le.mp hle)]
  · next hlt => rw [if_neg fun hle => hlt (UInt64.le_iff_toNat_le.mpr hle)]

theorem one_le_of_sysToMemCycle_le (hfits : f.SysFits s) (hm : f.sysToMemCycle s ≤ m) : 1 ≤ m := by
  have hle := UInt64.le_iff_toNat_le.mp hm
  rw [toNat_sysToMemCycle hfits] at hle
  exact UInt64.le_iff_toNat_le.mpr (slowCycle_pos.trans_le hle)

/-- A wake-up comes in the memory cycle it was asked for. -/
theorem sysToMemCycle_wakeUp (hs : f.SysFits s) (hfits : f.MatchingFits m) (hm : f.sysToMemCycle s ≤ m) :
    f.sysToMemCycle (max (f.matchingMemToSysCycle m) s) = m := by
  have hpos := one_le_of_sysToMemCycle_le hs hm
  have hle := UInt64.le_iff_toNat_le.mp hm
  rw [toNat_sysToMemCycle hs] at hle
  have hmax : f.SysFits (max (f.matchingMemToSysCycle m) s) := by
    rw [max_eq]
    split
    · exact hs
    · exact matching_fits hpos hfits
  refine UInt64.toNat_inj.mp ?_
  rw [toNat_sysToMemCycle hmax, toNat_max, toNat_matchingMemToSysCycle hpos hfits]
  exact slowCycle_max_middle f.slow_pos f.ratio hle

theorem le_memToSysCycle (hs : f.SysFits s) (hfits : f.MemFits (f.sysToMemCycle s)) :
    s ≤ f.memToSysCycle (f.sysToMemCycle s) := by
  rw [UInt64.le_iff_toNat_le, toNat_memToSysCycle hfits]
  exact le_endCycle f.slow_pos (Nat.zero_lt_of_lt f.fast_ge) (toNat_sysToMemCycle hs).ge

end Words

/-- The conversions of the controller are the same without the bound. -/
theorem toNat_conversions {c : DDRConfig} (hsys : f.sysFreqKHz.toNat = c.sysFreqKHz)
    (hmem : f.memFreqKHz.toNat = c.memFreqKHz) (s m : UInt64) :
    (f.SysFits s → (f.sysToMemCycle s).toNat = c.sysToMemCycle s.toNat) ∧
    (f.MemFits m → (f.memToSysCycle m).toNat = c.memToSysCycle m.toNat) ∧
    (1 ≤ m → f.MatchingFits m → (f.matchingMemToSysCycle m).toNat = c.matchingMemToSysCycle m.toNat) := by
  unfold DDRConfig.sysToMemCycle DDRConfig.memToSysCycle DDRConfig.matchingMemToSysCycle
  rw [← hsys, ← hmem]
  exact ⟨toNat_sysToMemCycle, toNat_memToSysCycle, toNat_matchingMemToSysCycle⟩

/-- The clock conversions go round, as long as their products fit. -/
theorem conversions_go_round (s t m : UInt64) :
    (1 ≤ m → f.MatchingFits m → f.sysToMemCycle (f.matchingMemToSysCycle m) = m) ∧
    (s ≤ t → f.SysFits t → f.sysToMemCycle s ≤ f.sysToMemCycle t) ∧
    (f.SysFits s → f.MatchingFits m → f.sysToMemCycle s ≤ m →
      f.sysToMemCycle (max (f.matchingMemToSysCycle m) s) = m) ∧
    (f.SysFits s → f.MemFits (f.sysToMemCycle s) → s ≤ f.memToSysCycle (f.sysToMemCycle s)) :=
  ⟨sysToMemCycle_matching, sysToMemCycle_mono, sysToMemCycle_wakeUp, le_memToSysCycle⟩

/-- A system at 2 GHz with a memory at 667 MHz. -/
theorem conversions_go_round_ddr3 : ∃ f : Clocks, f.sysFreqKHz = 2000000 ∧ f.memFreqKHz = 666667 ∧
    f.sysToMemCycle (f.matchingMemToSysCycle 1000) = 1000 ∧ f.sysToMemCycle 2997 ≤ f.sysToMemCycle 2998 ∧
    f.sysToMemCycle (max (f.matchingMemToSysCycle 1000) 2997) = 1000 ∧
    2997 ≤ f.memToSysCycle (f.sysToMemCycle 2997) := by
  let f : Clocks := ⟨2000000, 666667, by decide, by decide⟩
  obtain ⟨hround, hmono, hwake, hback⟩ := conversions_go_round f 2997 2998 1000
  exact ⟨f, rfl, rfl, hround (by decide) (by decide), hmono (by decide) (by decide),
    hwake (by decide) (by decide) (by decide), hback (by decide) (by decide)⟩

end Zsim.DDRClocks
