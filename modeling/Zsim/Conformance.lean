import Mathlib.Logic.Basic

/-!
# Machines that conform to a specification

A machine answers inputs one after the other and may fail. A specification says
which inputs may be given in each of its states and which answers are
acceptable there. The machine conforms to it along a list of inputs if every
input the specification allows is answered acceptably. A relation between the
two kinds of states that every step keeps carries this to all lists of inputs.
-/

namespace Zsim.Conformance

variable {σ τ ι ο ε : Type}

/-- What the inputs may be, and what may be answered. -/
structure Spec (τ ι ο : Type) where
  allowed : τ → ι → Prop
  next : τ → ι → ο → τ → Prop

/-- Every input that the specification allows is answered acceptably. -/
def Conforms (step : σ → ι → Except ε (ο × σ)) (S : Spec τ ι ο) : σ → τ → List ι → Prop
  | _, _, [] => True
  | s, t, x :: xs => S.allowed t x →
    ∃ o s' t', step s x = .ok (o, s') ∧ S.next t x o t' ∧ Conforms step S s' t' xs

/-- A forward simulation of the machine by the specification. -/
theorem conforms_of_simulation {step : σ → ι → Except ε (ο × σ)} {S : Spec τ ι ο}
    {R : σ → τ → Prop} (hstep : ∀ s t x, R s t → S.allowed t x →
      ∃ o s' t', step s x = .ok (o, s') ∧ S.next t x o t' ∧ R s' t')
    {s : σ} {t : τ} (h : R s t) (xs : List ι) : Conforms step S s t xs := by
  induction xs generalizing s t with
  | nil => trivial
  | cons x xs ih =>
    intro hallowed
    obtain ⟨o, s', t', hrun, hnext, hR⟩ := hstep s t x h hallowed
    exact ⟨o, s', t', hrun, hnext, ih hR⟩

end Zsim.Conformance
