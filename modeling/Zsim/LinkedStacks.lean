import Mathlib.Data.List.Basic
import Mathlib.Data.Nat.Bitwise
import Mathlib.Data.Nat.Notation
import Mathlib.Logic.Function.Basic

/-!
# Stacks linked through their elements

An element carries the link to the one below it, so one field serves all the
stacks an element can be in, and an element is in one stack at most. A push
writes the link of the pushed element, a pop clears that of the popped one, and
stacks without the element keep their contents. A bitmap tells which of a group
of stacks are occupied, and its lowest set bit is the first of them.
-/

namespace Zsim.LinkedStacks

variable {α : Type}

/-- The stack below `head` is the list. -/
def Chain (next : α → Option α) : Option α → List α → Prop
  | head, [] => head = none
  | head, x :: xs => head = some x ∧ Chain next (next x) xs

section Chain

variable {next next' : α → Option α} {head : Option α} {x : α} {xs : List α}

/-- The stack depends on the links of its elements only. -/
theorem Chain.congr (h : Chain next head xs) (hsame : ∀ y ∈ xs, next' y = next y) :
    Chain next' head xs := by
  induction xs generalizing head with
  | nil => exact h
  | cons y ys ih =>
    obtain ⟨hhead, htail⟩ := h
    refine ⟨hhead, ?_⟩
    rw [hsame y List.mem_cons_self]
    exact ih htail fun z hz => hsame z (List.mem_cons_of_mem y hz)

/-- The head is empty exactly when the stack is. -/
theorem Chain.head_eq_none (h : Chain next head xs) : head = none ↔ xs = [] := by
  cases xs with
  | nil => exact ⟨fun _ => rfl, fun _ => h⟩
  | cons x xs =>
    rw [h.1]
    exact ⟨nofun, nofun⟩

/-- The last element has no link. -/
theorem Chain.last (h : Chain next head (xs ++ [x])) : next x = none := by
  induction xs generalizing head with
  | nil => exact h.2
  | cons y ys ih => exact ih h.2

variable [DecidableEq α]

/-- Writing the link of an element outside the stack. -/
theorem Chain.update (h : Chain next head xs) (hx : x ∉ xs) (v : Option α) :
    Chain (Function.update next x v) head xs :=
  h.congr fun _ hy => Function.update_of_ne (ne_of_mem_of_not_mem hy hx) _ _

/-- The element above takes over the link of one that is taken out. -/
theorem Chain.remove {pre post : List α} {p : α} (h : Chain next head (pre ++ p :: x :: post))
    (hnodup : (pre ++ p :: x :: post).Nodup) :
    Chain (Function.update next p (next x)) head (pre ++ p :: post) := by
  induction pre generalizing head with
  | nil =>
    obtain ⟨hhead, -, htail⟩ := h
    have hp : p ∉ post := fun hin => (List.nodup_cons.mp hnodup).1 (List.mem_cons_of_mem x hin)
    refine ⟨hhead, ?_⟩
    rw [Function.update_self]
    exact htail.update hp _
  | cons y pre ih =>
    obtain ⟨hhead, htail⟩ := h
    rw [List.cons_append, List.nodup_cons] at hnodup
    have hne : y ≠ p := fun heq => hnodup.1 (heq ▸ by simp)
    refine ⟨hhead, ?_⟩
    rw [Function.update_of_ne hne]
    exact ih htail hnodup.2

/-- Pushing an element. -/
theorem Chain.push (h : Chain next head xs) (hx : x ∉ xs) :
    Chain (Function.update next x head) (some x) (x :: xs) := by
  refine ⟨rfl, ?_⟩
  rw [Function.update_self]
  exact h.update hx head

end Chain

/-- The lowest set bit among the first 64. -/
def ctz (occ : ℕ) : Option ℕ := (List.range 64).find? fun i => occ.testBit i

section Bitmap

variable {occ pos : ℕ}

theorem ctz_spec (h : ctz occ = some pos) :
    pos < 64 ∧ occ.testBit pos = true ∧ ∀ i < pos, occ.testBit i = false := by
  obtain ⟨hbit, hmem, hbefore⟩ := List.find?_range_eq_some.mp h
  refine ⟨List.mem_range.mp hmem, hbit, fun i hi => ?_⟩
  have hnot := hbefore i hi
  rwa [Bool.not_eq_true'] at hnot

/-- A bitmap of 64 bits that is not zero has a set bit. -/
theorem exists_ctz (hlt : occ < 2 ^ 64) (hne : occ ≠ 0) : ∃ pos, ctz occ = some pos := by
  obtain ⟨i, hi⟩ := Nat.exists_testBit_of_ne_zero hne
  have hlow : i < 64 := by
    by_contra hge
    have hpow : 2 ^ 64 ≤ 2 ^ i := Nat.pow_le_pow_right (by decide) (by omega)
    rw [Nat.testBit_lt_two_pow (by omega)] at hi
    cases hi
  cases hctz : ctz occ with
  | some pos => exact ⟨pos, rfl⟩
  | none =>
    have hnone := List.find?_eq_none.mp hctz i (List.mem_range.mpr hlow)
    exact absurd hi hnone

/-- A search through consecutive indices ends at the first that has a result. -/
theorem findSome?_range'_spec {β : Type} {f : ℕ → Option β} {b : β} (n : ℕ) {lo : ℕ}
    (h : (List.range' lo n).findSome? f = some b) :
    ∃ i, lo ≤ i ∧ i < lo + n ∧ f i = some b ∧ ∀ j, lo ≤ j → j < i → f j = none := by
  induction n generalizing lo with
  | zero => cases h
  | succ n ih =>
    rw [List.range'_succ, List.findSome?_cons] at h
    cases hlo : f lo with
    | some b' =>
      rw [hlo] at h
      refine ⟨lo, le_rfl, by omega, hlo.trans h, fun j hj hlt => ?_⟩
      omega
    | none =>
      rw [hlo] at h
      obtain ⟨i, hi, hend, hfound, hbefore⟩ := ih h
      refine ⟨i, by omega, by omega, hfound, fun j hj hlt => ?_⟩
      rcases Nat.eq_or_lt_of_le hj with rfl | hgt
      · exact hlo
      · exact hbefore j hgt hlt

end Bitmap

end Zsim.LinkedStacks
