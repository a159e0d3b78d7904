import Mathlib.Data.List.Basic

/-!
# The stack property of LRU caches

A list of everything that was touched, most recent first, holds the contents of
an LRU cache of every size at once: the cache of `k` entries is its first `k`
elements. An access hits in the caches that are larger than the position at
which it finds its element.
-/

namespace Zsim.LRUStacks

variable {α : Type} [DecidableEq α]

/-- An access to a cache of `k` entries, most recent first. -/
def access (k : ℕ) (cache : List α) (a : α) : List α :=
  if a ∈ cache then a :: cache.erase a else (a :: cache).take k

/-- Move an element to the front of a stack without a bound. -/
def touch (stack : List α) (a : α) : List α := a :: stack.erase a

variable {stack filler : List α} {a b : α} {k n : ℕ}

theorem take_erase : (stack.erase a).take n =
    if a ∈ stack.take (n + 1) then (stack.take (n + 1)).erase a else stack.take n := by
  induction stack generalizing n with
  | nil => simp
  | cons x stack ih =>
    by_cases hx : x = a
    · subst hx
      simp
    · have hne : ¬ (x == a) = true := by simpa using hx
      rw [List.erase_cons_tail hne, List.take_succ_cons]
      cases n with
      | zero =>
        have hnot : a ∉ x :: stack.take 0 := by simpa using Ne.symm hx
        rw [if_neg hnot, List.take_zero, List.take_zero]
      | succ n =>
        rw [List.take_succ_cons, ih, List.take_succ_cons]
        by_cases hmem : a ∈ stack.take (n + 1)
        · rw [if_pos hmem, if_pos (List.mem_cons_of_mem x hmem), List.erase_cons_tail hne]
        · have hnot : a ∉ x :: stack.take (n + 1) := by
            simp only [List.mem_cons, not_or]
            exact ⟨Ne.symm hx, hmem⟩
          rw [if_neg hmem, if_neg hnot]

/-- The first entries of the stack are what a cache of their number holds. -/
theorem take_touch : (touch stack a).take k = access k (stack.take k) a := by
  unfold touch access
  cases k with
  | zero => simp
  | succ n =>
    rw [List.take_succ_cons, take_erase]
    split
    · rfl
    · rw [List.take_succ_cons, List.take_take, Nat.min_eq_left (Nat.le_succ n)]

/-- A stack keeps what is below it out of the way. -/
theorem touch_append (h : a ∉ filler) : touch stack a ++ filler = touch (stack ++ filler) a := by
  unfold touch
  by_cases hmem : a ∈ stack
  · rw [List.erase_append_left _ hmem, List.cons_append]
  · rw [List.erase_append_right _ hmem, List.erase_of_not_mem hmem, List.erase_of_not_mem h,
      List.cons_append]

/-- A hit is at the position below which the cache is too small. -/
theorem mem_take_iff {i : ℕ} (h : stack.findIdx? (fun b => b == a) = some i) :
    a ∈ stack.take k ↔ i < k := by
  obtain ⟨hi, ha, hbefore⟩ := List.findIdx?_eq_some_iff_getElem.mp h
  have hia : stack[i] = a := beq_iff_eq.mp ha
  constructor
  · intro hmem
    obtain ⟨j, hj, hja⟩ := List.mem_take_iff_getElem.mp hmem
    by_contra hge
    have hji : j < i := by omega
    have hno := hbefore j hji
    rw [hja] at hno
    simp at hno
  · intro hlt
    exact List.mem_take_iff_getElem.mpr ⟨i, by omega, hia⟩

end Zsim.LRUStacks
