import Mathlib.Data.List.Sort
import Mathlib.Order.Basic

/-!
# Sorted logs of disjoint intervals

Half-open intervals are pairs of their ends. A log of disjoint intervals that is
sorted as pairs is a chain: each interval ends before the next one starts. A
union of intervals may be represented by a log that covers them.
-/

namespace Zsim.Intervals

variable {τ : Type} [LinearOrder τ]

/-- Two half-open intervals that do not overlap. -/
def Apart (x y : τ × τ) : Prop := x.2 ≤ y.1 ∨ y.2 ≤ x.1

/-- The order of pairs, the first component first. -/
def PairLE (x y : τ × τ) : Prop := x.1 < y.1 ∨ x.1 = y.1 ∧ x.2 ≤ y.2

instance : DecidableRel (@PairLE τ _) := fun x y =>
  inferInstanceAs (Decidable (x.1 < y.1 ∨ x.1 = y.1 ∧ x.2 ≤ y.2))

instance : Std.Total (@PairLE τ _) where
  total x y := by
    rcases lt_trichotomy x.1 y.1 with h | h | h
    · exact .inl (.inl h)
    · rcases le_total x.2 y.2 with h' | h'
      · exact .inl (.inr ⟨h, h'⟩)
      · exact .inr (.inr ⟨h.symm, h'⟩)
    · exact .inr (.inl h)

instance : IsTrans (τ × τ) PairLE where
  trans x y z hxy hyz := by
    rcases hxy with hxy | ⟨hxy, hxy'⟩
    · rcases hyz with hyz | ⟨hyz, -⟩
      · exact .inl (hxy.trans hyz)
      · exact .inl (hyz ▸ hxy)
    · rcases hyz with hyz | ⟨hyz, hyz'⟩
      · exact .inl (hxy ▸ hyz)
      · exact .inr ⟨hxy.trans hyz, hxy'.trans hyz'⟩

theorem Apart.symm {x y : τ × τ} (h : Apart x y) : Apart y x := Or.symm h

/-- Each interval ends before the later ones start. -/
def Chained (log : List (τ × τ)) : Prop := log.Pairwise fun x y => x.2 ≤ y.1

/-- Every interval of the first list lies inside an interval of the second. -/
def Covered (l log : List (τ × τ)) : Prop := ∀ x ∈ l, ∃ e ∈ log, e.1 ≤ x.1 ∧ x.2 ≤ e.2

/-- An interval disjoint from a log is disjoint from what the log covers. -/
theorem Covered.apart {l log : List (τ × τ)} (h : Covered l log) {y : τ × τ}
    (hy : ∀ e ∈ log, Apart y e) : ∀ x ∈ l, Apart y x := by
  intro x hx
  obtain ⟨e, he, h₁, h₂⟩ := h x hx
  rcases hy e he with h' | h'
  · exact .inl (h'.trans h₁)
  · exact .inr (h₂.trans h')

end Zsim.Intervals
