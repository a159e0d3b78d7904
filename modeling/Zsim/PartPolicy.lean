import Mathlib.Algebra.Order.Ring.Int
import Zsim.CheckedTables
import Zsim.MemoryHierarchy

/-!
# Partitioned replacement policies

What the partitioned policies have in common: the sizes kept for each
partition, the accesses reported to the monitor, and the assertions. Tables
have the lengths they were allocated with, and a table access outside them is a
failure like a failed assertion. Profiling counters are left out, but not the
table accesses made to reach them.
-/

namespace Zsim.PartPolicy

open WeakestPre MemoryHierarchy CheckedTables

/-- The assertions of the partitioned policies. -/
inductive PartFailure where
  /-- An access outside the length a table was allocated with. -/
  | outside
  /-- "no partial ways..." -/
  | partialWays
  /-- A replacement starts before the last one has ended. -/
  | replacing
  /-- More candidates than the policy has room for. -/
  | manyCandidates
  /-- No candidate has been chosen. -/
  | noCandidate
  /-- `curWay == ways` -/
  | waysAssigned
  /-- The chosen line is not one. -/
  | badCandidate
  /-- Space is taken away without `smoothTransients`. -/
  | smoothTransients
  /-- No partition is above its long-term target. -/
  | noLinesLeft
  /-- A percentage above 100. -/
  | percentage
  /-- `slope > 0.0` -/
  | slope
  /-- The evicting partition is empty, or its size is not its list's. -/
  | emptyPartition
  /-- A node of an intrusive list is linked or owned when it should not be. -/
  | listNode
  /-- The inserted address is already mapped. -/
  | mapped
  deriving DecidableEq, Repr

/-- `PartInfo`. -/
structure PartInfo where
  size : ℕ
  targetSize : ℕ

/-- Add one to a 64-bit counter. -/
def inc64 (x : ℕ) : ℕ := (x + 1) % 2 ^ 64

/-- Take one from a 64-bit counter. -/
def dec64 (x : ℕ) : ℕ := if x = 0 then 2 ^ 64 - 1 else x - 1

theorem inc64_of_lt {x n : ℕ} (h : x < n) (hn : n < 2 ^ 64) : inc64 x = x + 1 :=
  Nat.mod_eq_of_lt (by omega)

theorem dec64_of_pos {x : ℕ} (h : 0 < x) : dec64 x = x - 1 := if_neg (Nat.ne_of_gt h)

variable {σ : Type}

/-- Access a cell for a counter that is left out. -/
def touch {α : Type} (r : TableRef σ α) (i : ℕ) : Prog σ PartFailure Unit := do
  let _ ← readCell r i .outside
  pure ()

/-- `monitor->access(p, addr)` of a monitor with as many parts. -/
def monitorAccess (monitors : σ → ℕ) (p : ℕ) : Prog σ PartFailure Unit := do
  let n ← observe monitors
  ensure (p < n) .outside

@[simp] theorem wp_touch {α : Type} (r : TableRef σ α) (i : ℕ) (Q : Unit → σ → Prop) (s : σ) :
    wp (touch r i) Q s ↔ i < (r.get s).length ∧ Q () s := by
  simp only [touch, wp_bind, wp_readCell, wp_pure]

@[simp] theorem wp_monitorAccess (monitors : σ → ℕ) (p : ℕ) (Q : Unit → σ → Prop) (s : σ) :
    wp (monitorAccess monitors p) Q s ↔ p < monitors s ∧ Q () s := by
  simp only [monitorAccess, wp_bind, wp_observe, wp_ensure]

end Zsim.PartPolicy
