import Zsim.CheckedTables
import Mathlib.Algebra.BigOperators.Ring.Finset
import Mathlib.Algebra.Order.BigOperators.Group.Finset
import Mathlib.Data.Finset.Card
import Mathlib.Tactic.SplitIfs

/-!
# Counting the cells of a table by their class

Writing one cell takes it out of the count of its old class and into that of
its new one. When every cell has a class below a bound, the counts add up to
the number of cells.
-/

namespace Zsim.TableCounts

open CheckedTables

/-- Number of the first `n` indices in class `q`. -/
def countOf (n : ℕ) (f : ℕ → ℕ) (q : ℕ) : ℕ := ((Finset.range n).filter fun i => f i = q).card

variable {n i b q : ℕ} {f : ℕ → ℕ}

theorem countOf_eq_sum (n : ℕ) (f : ℕ → ℕ) (q : ℕ) :
    countOf n f q = (Finset.range n).sum fun i => if f i = q then 1 else 0 := by
  rw [countOf, Finset.card_filter]

/-- A sum changes by what its one changed term does. -/
theorem sum_move {g : ℕ → ℕ} (hi : i < n) (h : ∀ j, j ≠ i → g j = f j) :
    (Finset.range n).sum g + f i = (Finset.range n).sum f + g i := by
  have hmem : i ∈ Finset.range n := Finset.mem_range.mpr hi
  have hrest : ((Finset.range n).erase i).sum g = ((Finset.range n).erase i).sum f :=
    Finset.sum_congr rfl fun j hj => h j (Finset.ne_of_mem_erase hj)
  have hg : g i + ((Finset.range n).erase i).sum g = (Finset.range n).sum g :=
    Finset.add_sum_erase _ g hmem
  have hf : f i + ((Finset.range n).erase i).sum f = (Finset.range n).sum f :=
    Finset.add_sum_erase _ f hmem
  omega

/-- When one index changes its class, for every class at once. -/
theorem countOf_move {g : ℕ → ℕ} (hi : i < n) (h : ∀ j, j ≠ i → g j = f j) (q : ℕ) :
    countOf n g q + (if f i = q then 1 else 0) = countOf n f q + (if g i = q then 1 else 0) := by
  rw [countOf_eq_sum, countOf_eq_sum]
  exact @sum_move n i (fun j => if f j = q then 1 else 0) (fun j => if g j = q then 1 else 0) hi
    fun j hj => by rw [h j hj]

/-- One write, for every class at once. -/
theorem countOf_update (hi : i < n) (f : ℕ → ℕ) (b q : ℕ) :
    countOf n (Function.update f i b) q + (if f i = q then 1 else 0) =
      countOf n f q + (if b = q then 1 else 0) := by
  have hmove := @countOf_move n i f (Function.update f i b) hi (fun j hj => Function.update_of_ne hj ..) q
  rwa [Function.update_self] at hmove

theorem countOf_pos (hi : i < n) (f : ℕ → ℕ) : 0 < countOf n f (f i) :=
  Finset.card_pos.mpr ⟨i, Finset.mem_filter.mpr ⟨Finset.mem_range.mpr hi, rfl⟩⟩

theorem countOf_le (n : ℕ) (f : ℕ → ℕ) (q : ℕ) : countOf n f q ≤ n := by
  have hle := Finset.card_filter_le (Finset.range n) fun i => f i = q
  rwa [Finset.card_range] at hle

/-- One more index. -/
theorem countOf_succ (n : ℕ) (f : ℕ → ℕ) (q : ℕ) :
    countOf (n + 1) f q = countOf n f q + if f n = q then 1 else 0 := by
  rw [countOf_eq_sum, countOf_eq_sum, Finset.sum_range_succ]

/-- Only the first `n` classes matter. -/
theorem countOf_congr {g : ℕ → ℕ} (h : ∀ i < n, f i = g i) (q : ℕ) : countOf n f q = countOf n g q := by
  unfold countOf
  refine congrArg Finset.card (Finset.filter_congr fun i hi => ?_)
  rw [h i (Finset.mem_range.mp hi)]

theorem countOf_const (n q : ℕ) : countOf n (fun _ => q) q = n := by
  simp [countOf]

theorem countOf_const_of_ne (n : ℕ) {p q : ℕ} (h : p ≠ q) : countOf n (fun _ => p) q = 0 := by
  simp [countOf, h]

/-- The classes share out the indices. -/
theorem sum_countOf {k : ℕ} (h : ∀ i < n, f i < k) :
    (Finset.range k).sum (countOf n f) = n := by
  have hmaps : ∀ i ∈ Finset.range n, f i ∈ Finset.range k := fun i hi =>
    Finset.mem_range.mpr (h i (Finset.mem_range.mp hi))
  have hfibers := Finset.card_eq_sum_card_fiberwise hmaps
  rw [Finset.card_range] at hfibers
  exact hfibers.symm

/-- `sizes` counts the first `n` indices by their class, for classes below `k`. -/
def Counts (n k : ℕ) (sizes f : ℕ → ℕ) : Prop := ∀ q < k, sizes q = countOf n f q

/-- When one index changes its class, one is taken from the old class and added
to the new one. -/
theorem Counts.reclass {k : ℕ} {sizes sizes' : ℕ → ℕ} (h : Counts n k sizes f) (hi : i < n)
    (hshift : ∀ r < k, sizes' r + (if f i = r then 1 else 0) = sizes r + (if b = r then 1 else 0)) :
    Counts n k sizes' (Function.update f i b) := by
  intro r hr
  have hcount := countOf_update hi f b r
  have hsizes := hshift r hr
  rw [h r hr] at hsizes
  omega

theorem Counts.pos {k : ℕ} {sizes : ℕ → ℕ} (h : Counts n k sizes f) (hi : i < n) (hk : f i < k) :
    0 < sizes (f i) := by
  rw [h _ hk]
  exact countOf_pos hi f

theorem Counts.le {k : ℕ} {sizes : ℕ → ℕ} (h : Counts n k sizes f) (hq : q < k) : sizes q ≤ n := by
  rw [h q hq]
  exact countOf_le n f q

/-- The classes of a table after a write. -/
theorem cell_set {α β : Type} (t : Table α) (i : ℕ) (v : α) (g : α → β) :
    (fun j => g ((t.set i v).cell j)) = Function.update (fun j => g (t.cell j)) i (g v) := by
  funext j
  by_cases hj : j = i
  · simp [hj]
  · rw [set_cell_of_ne _ _ _ hj, Function.update_of_ne hj]

end Zsim.TableCounts
