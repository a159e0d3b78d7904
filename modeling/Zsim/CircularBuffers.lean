import Mathlib.Data.List.Basic
import Mathlib.Data.Nat.Notation
import Mathlib.Logic.Function.Basic

/-!
# Circular buffers

The places of a circular buffer are counted from a start on, around its end. Places less than a
round apart differ.
-/

namespace Zsim.CircularBuffers

variable {α : Type} {size : ℕ}

theorem add_mod_ne {k d : ℕ} (hd : 0 < d) (hlt : d < size) : (k + d) % size ≠ k % size := by
  intro heq
  have hdvd := Nat.sub_mod_eq_zero_of_mod_eq heq
  rw [Nat.add_sub_cancel_left, Nat.mod_eq_of_lt hlt] at hdvd
  omega

/-- Places less than a round apart differ. -/
theorem mod_ne {i j : ℕ} (hlt : i < j) (hround : j < i + size) : j % size ≠ i % size := by
  obtain ⟨d, rfl⟩ := Nat.exists_eq_add_of_lt hlt
  rw [Nat.add_assoc]
  exact add_mod_ne (Nat.succ_pos d) (by omega)

/-- The next place. -/
theorem wrap_eq (hsize : 0 < size) (n : ℕ) : (if n % size + 1 = size then 0 else n % size + 1) = (n + 1) % size := by
  rw [← Nat.mod_add_mod]
  split
  · next hwrap => rw [hwrap, Nat.mod_self]
  · next hwrap =>
    have hlt := Nat.mod_lt n hsize
    exact (Nat.mod_eq_of_lt (by omega)).symm

/-- The previous place. -/
theorem unwrap_eq (hsize : 0 < size) (n : ℕ) :
    (if (n + 1) % size ≠ 0 then (n + 1) % size - 1 else size - 1) = n % size := by
  rw [← wrap_eq hsize n]
  have hlt := Nat.mod_lt n hsize
  by_cases hwrap : n % size + 1 = size
  · rw [if_pos hwrap, if_neg (not_not.mpr rfl)]
    omega
  · rw [if_neg hwrap, if_pos (Nat.succ_ne_zero _), Nat.add_sub_cancel]

/-- A buffer, read once around. -/
def readout (size : ℕ) (buf : ℕ → α) (idx : ℕ) : List α := (List.range size).map fun i => buf ((idx + i) % size)

theorem length_readout {buf : ℕ → α} {idx : ℕ} : (readout size buf idx).length = size := by
  rw [readout, List.length_map, List.length_range]

theorem getElem?_readout {buf : ℕ → α} {idx i : ℕ} (hi : i < size) :
    (readout size buf idx)[i]? = some (buf ((idx + i) % size)) := by
  rw [readout, List.getElem?_map, List.getElem?_range hi]
  rfl

/-- What is read is known from its places. -/
theorem readout_eq {buf : ℕ → α} {idx : ℕ} {l : List α} (hlen : l.length = size)
    (h : ∀ i x, l[i]? = some x → buf ((idx + i) % size) = x) : readout size buf idx = l := by
  refine List.ext_getElem? fun i => ?_
  by_cases hi : i < size
  · rw [getElem?_readout hi]
    have hsome : l[i]? = some l[i] := List.getElem?_eq_getElem (by omega)
    rw [hsome, h i _ hsome]
  · rw [List.getElem?_eq_none (by rw [length_readout]; omega), List.getElem?_eq_none (by omega)]

end Zsim.CircularBuffers
