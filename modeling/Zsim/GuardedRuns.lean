import Mathlib.Logic.Basic

/-!
# Runs of a deterministic transition system

A step may be refused. A run performs a list of actions in order. The rules
carry a property of single steps to whole runs: an invariant, a relation that
every step of the run satisfies, and the exchange of such a relation for the
condition on the state before the step that decides it.
-/

namespace Zsim.GuardedRuns

variable {σ α : Type} (step : σ → α → Option σ)

/-- Perform the actions in order; none when one of them is refused. -/
def run : σ → List α → Option σ
  | s, [] => some s
  | s, x :: xs => (step s x).bind fun s' => run s' xs

/-- Every step performed along the run satisfies the relation between the
state before it, its action and the state after it. -/
def EveryStep (R : σ → α → σ → Prop) : σ → List α → Prop
  | _, [] => True
  | s, x :: xs => ∀ s', step s x = some s' → R s x s' ∧ EveryStep R s' xs

variable {step}

/-- A step is performed in one way. -/
theorem EveryStep.cons {R : σ → α → σ → Prop} {s s' : σ} {x : α} {xs : List α}
    (h : step s x = some s') (hx : R s x s') (hxs : EveryStep step R s' xs) :
    EveryStep step R s (x :: xs) := by
  intro s₁ h₁
  have heq := Option.some.inj (h.symm.trans h₁)
  exact heq ▸ ⟨hx, hxs⟩

/-- A run of a nonempty list performs its head and then the rest. -/
theorem run_cons {s s'' : σ} {x : α} {xs : List α} :
    run step s (x :: xs) = some s'' ↔ ∃ s', step s x = some s' ∧ run step s' xs = some s'' := by
  simp only [run, Option.bind_eq_some_iff]

/-- A run can be cut anywhere. -/
theorem run_append {s s'' : σ} {xs ys : List α} :
    run step s (xs ++ ys) = some s'' ↔
      ∃ s', run step s xs = some s' ∧ run step s' ys = some s'' := by
  induction xs generalizing s with
  | nil => simp [run]
  | cons x xs ih =>
    simp only [List.cons_append, run_cons, ih]
    constructor
    · rintro ⟨s₁, h₁, s₂, h₂, h₃⟩
      exact ⟨s₂, ⟨s₁, h₁, h₂⟩, h₃⟩
    · rintro ⟨s₂, ⟨s₁, h₁, h₂⟩, h₃⟩
      exact ⟨s₁, h₁, s₂, h₂, h₃⟩

/-- What every step preserves holds at the end of every run. -/
theorem run_invariant {inv : σ → Prop}
    (hstep : ∀ s x s', inv s → step s x = some s' → inv s')
    {s s' : σ} {xs : List α} (hs : inv s) (hr : run step s xs = some s') : inv s' := by
  induction xs generalizing s with
  | nil =>
    cases hr
    exact hs
  | cons x xs ih =>
    obtain ⟨s₁, h₁, h₂⟩ := run_cons.mp hr
    exact ih (hstep s x s₁ hs h₁) h₂

/-- What every step inside the relation preserves holds at the end of every
run that stays inside the relation. -/
theorem EveryStep.invariant {R : σ → α → σ → Prop} {inv : σ → Prop}
    (hstep : ∀ s x s', inv s → step s x = some s' → R s x s' → inv s')
    {s s' : σ} {xs : List α} (hs : inv s) (hR : EveryStep step R s xs)
    (hr : run step s xs = some s') : inv s' := by
  induction xs generalizing s with
  | nil =>
    cases hr
    exact hs
  | cons x xs ih =>
    obtain ⟨s₁, h₁, h₂⟩ := run_cons.mp hr
    obtain ⟨hx, hxs⟩ := hR s₁ h₁
    exact ih (hstep s x s₁ hs h₁ hx) hxs h₂

/-- What every step tells under an invariant it preserves holds of every step
of every run. -/
theorem everyStep_of_invariant {R : σ → α → σ → Prop} {inv : σ → Prop}
    (hstep : ∀ s x s', inv s → step s x = some s' → inv s' ∧ R s x s')
    {s : σ} {xs : List α} (hs : inv s) : EveryStep step R s xs := by
  induction xs generalizing s with
  | nil => exact trivial
  | cons x xs ih =>
    intro s' h'
    obtain ⟨hinv, hR⟩ := hstep s x s' hs h'
    exact ⟨hR, ih hinv⟩

/-- What every step inside a relation tells, under an invariant that these steps
preserve, holds of every step of a run that stays inside the relation. -/
theorem EveryStep.everyStep {R R' : σ → α → σ → Prop} {inv : σ → Prop} {s : σ} {xs : List α}
    (hR : EveryStep step R s xs)
    (hstep : ∀ s x s', inv s → step s x = some s' → R s x s' → inv s' ∧ R' s x s') (hs : inv s) :
    EveryStep step R' s xs := by
  induction xs generalizing s with
  | nil => exact trivial
  | cons x xs ih =>
    intro s' h'
    obtain ⟨hx, hxs⟩ := hR s' h'
    obtain ⟨hinv, hR'⟩ := hstep s x s' hs h' hx
    exact ⟨hR', ih hxs hinv⟩

/-- The relation holds of the step that follows any prefix of the run. -/
theorem EveryStep.at {R : σ → α → σ → Prop} {s s₁ s₂ : σ} {xs ys : List α} {x : α}
    (hR : EveryStep step R s (xs ++ x :: ys)) (h₁ : run step s xs = some s₁)
    (h₂ : step s₁ x = some s₂) : R s₁ x s₂ := by
  induction xs generalizing s with
  | nil =>
    cases h₁
    exact (hR s₂ h₂).1
  | cons y xs ih =>
    obtain ⟨s', hy, hs'⟩ := run_cons.mp h₁
    exact ih (hR s' hy).2 hs'

/-- The relation holds of the last step, which leads to what the run ends in. -/
theorem EveryStep.last {β : Type} {R : σ → α → σ → Prop} {s : σ} {xs : List α} {x : α} {f : σ → Option β}
    {v : β} (hR : EveryStep step R s (xs ++ [x])) (h : (run step s (xs ++ [x])).bind f = some v) :
    ∃ s₁ s₂, step s₁ x = some s₂ ∧ R s₁ x s₂ ∧ f s₂ = some v := by
  obtain ⟨s₂, hrun, hf⟩ := Option.bind_eq_some_iff.mp h
  obtain ⟨s₁, hfirst, hlast⟩ := run_append.mp hrun
  obtain ⟨s₃, hstep, hnil⟩ := run_cons.mp hlast
  cases hnil
  exact ⟨s₁, s₂, hstep, hR.at hfirst hstep, hf⟩

/-- Under an invariant, a relation on steps and the guard that decides it are
met by the same runs. -/
theorem everyStep_iff {R : σ → α → σ → Prop} {guard : σ → α → Prop} {inv : σ → Prop}
    (hiff : ∀ s x s', inv s → step s x = some s' → (R s x s' ↔ guard s x))
    (hinv : ∀ s x s', inv s → guard s x → step s x = some s' → inv s')
    {s : σ} {xs : List α} (hs : inv s) :
    EveryStep step R s xs ↔ EveryStep step (fun s x _ => guard s x) s xs := by
  induction xs generalizing s with
  | nil => exact Iff.rfl
  | cons x xs ih =>
    constructor
    · intro h s' h'
      obtain ⟨hx, hxs⟩ := h s' h'
      have hg := (hiff s x s' hs h').mp hx
      exact ⟨hg, (ih (hinv s x s' hs hg h')).mp hxs⟩
    · intro h s' h'
      obtain ⟨hg, hxs⟩ := h s' h'
      exact ⟨(hiff s x s' hs h').mpr hg, (ih (hinv s x s' hs hg h')).mpr hxs⟩

variable (step) in
/-- Every action of the run, also one that is refused, is tried in a state of which the relation holds. -/
def EveryAttempt (R : σ → α → Prop) : σ → List α → Prop
  | _, [] => True
  | s, x :: xs => R s x ∧ ∀ s', step s x = some s' → EveryAttempt R s' xs

variable (step) in
/-- A run is checked by performing it. -/
instance EveryAttempt.decidable (R : σ → α → Prop) [∀ s x, Decidable (R s x)] :
    ∀ s xs, Decidable (EveryAttempt step R s xs)
  | _, [] => .isTrue trivial
  | s, x :: xs =>
    match h : step s x with
    | none => decidable_of_iff (R s x)
      ⟨fun hR => ⟨hR, fun _ h' => nomatch h.symm.trans h'⟩, fun hR => hR.1⟩
    | some s' =>
      have := EveryAttempt.decidable R s' xs
      decidable_of_iff (R s x ∧ EveryAttempt step R s' xs)
        ⟨fun hR => ⟨hR.1, fun _ h' => Option.some.inj (h.symm.trans h') ▸ hR.2⟩, fun hR => ⟨hR.1, hR.2 s' h⟩⟩

/-- The relation holds of the attempt that follows any prefix of the run. -/
theorem EveryAttempt.at {R : σ → α → Prop} {s s₁ : σ} {xs ys : List α} {x : α}
    (hR : EveryAttempt step R s (xs ++ x :: ys)) (h₁ : run step s xs = some s₁) : R s₁ x := by
  induction xs generalizing s with
  | nil =>
    cases h₁
    exact hR.1
  | cons y xs ih =>
    obtain ⟨s', hy, hs'⟩ := run_cons.mp h₁
    exact ih (hR.2 s' hy) hs'

/-- What every attempt inside a relation tells, under an invariant of the state and of the actions still to
come, holds of every attempt of a run that stays inside the relation. -/
theorem EveryAttempt.everyAttempt {R R' : σ → α → Prop} {inv : List α → σ → Prop} {s : σ} {xs : List α}
    (hR : EveryAttempt step R s xs)
    (hstep : ∀ s x xs, inv (x :: xs) s → R s x → R' s x ∧ ∀ s', step s x = some s' → inv xs s')
    (hs : inv xs s) : EveryAttempt step R' s xs := by
  induction xs generalizing s with
  | nil => exact trivial
  | cons x xs ih =>
    have hx := hstep s x xs hs hR.1
    constructor
    · exact hx.1
    · exact fun s' h' => ih (hR.2 s' h') (hx.2 s' h')

/-- Under an invariant, a relation on attempts and the guard that decides it are met by the same runs. -/
theorem everyAttempt_iff {R guard : σ → α → Prop} {inv : σ → Prop} (hiff : ∀ s x, inv s → (R s x ↔ guard s x))
    (hinv : ∀ s x s', inv s → step s x = some s' → inv s') {s : σ} {xs : List α} (hs : inv s) :
    EveryAttempt step R s xs ↔ EveryAttempt step guard s xs := by
  induction xs generalizing s with
  | nil => exact Iff.rfl
  | cons x xs ih => exact and_congr (hiff s x hs) (forall₂_congr fun s' h' => ih (hinv s x s' hs h'))

end Zsim.GuardedRuns
