import Mathlib.Logic.Basic
import Mathlib.Tactic.TypeStar

/-!
# Weakest preconditions of stateful programs that may fail

A program reads and writes a state and either returns a value or stops with
a failure. The weakest precondition asserts that the run does return and that
the postcondition holds of the value and the final state, so a proof of it is
a proof of total correctness: no failure is reached. The rules below are
equivalences, one for each way of building a program.
-/

namespace Zsim.WeakestPre

variable {σ ε α β : Type}

/-- A program on states `σ` that may stop with a failure `ε`. -/
abbrev Prog (σ ε α : Type) := StateT σ (Except ε) α

/-- Read a component of the state. -/
def observe (f : σ → α) : Prog σ ε α := fun s => .ok (f s, s)

/-- Replace the state. -/
def change (f : σ → σ) : Prog σ ε Unit := fun s => .ok ((), f s)

/-- Stop with the given failure. -/
def abort (e : ε) : Prog σ ε α := fun _ => .error e

/-- Continue only when the condition holds, as a C assertion does. -/
def ensure (c : Prop) [Decidable c] (e : ε) : Prog σ ε Unit :=
  if c then pure () else abort e

/-- The run from `s` returns, and its value and final state satisfy `Q`. -/
def wp (m : Prog σ ε α) (Q : α → σ → Prop) (s : σ) : Prop :=
  ∃ a s', m s = .ok (a, s') ∧ Q a s'

/-- A weaker postcondition is met whenever the stronger one is. -/
theorem wp_mono {m : Prog σ ε α} {Q R : α → σ → Prop} {s : σ}
    (h : wp m Q s) (hQR : ∀ a s', Q a s' → R a s') : wp m R s := by
  obtain ⟨a, s', hm, hq⟩ := h
  exact ⟨a, s', hm, hQR a s' hq⟩

/-- What the run returns meets the postcondition. -/
theorem wp_of_ok {m : Prog σ ε α} {Q : α → σ → Prop} {s s' : σ} {a : α} (h : wp m Q s) (hm : m s = .ok (a, s')) :
    Q a s' := by
  obtain ⟨b, s'', hrun, hq⟩ := h
  rw [hm] at hrun
  cases hrun
  exact hq

/-- The answer of a run that returns, seen through a function. -/
theorem wp_map {m : Prog σ ε α} {Q : α → σ → Prop} {s : σ} (h : wp m Q s) (f : α × σ → β) :
    ∃ a s', (m s).map f = .ok (f (a, s')) ∧ Q a s' := by
  obtain ⟨a, s', hm, hq⟩ := h
  exact ⟨a, s', by rw [hm]; rfl, hq⟩

@[simp] theorem wp_pure (a : α) (Q : α → σ → Prop) (s : σ) :
    wp (pure a : Prog σ ε α) Q s ↔ Q a s := by
  constructor
  · rintro ⟨b, s', hm, hq⟩
    cases hm
    exact hq
  · exact fun hq => ⟨a, s, rfl, hq⟩

/-- Sequencing: the first program establishes what the second one needs. -/
@[simp] theorem wp_bind (m : Prog σ ε α) (f : α → Prog σ ε β) (Q : β → σ → Prop) (s : σ) :
    wp (m >>= f) Q s ↔ wp m (fun a s' => wp (f a) Q s') s := by
  constructor
  · rintro ⟨b, s'', hm, hq⟩
    change ((m s).bind fun x => f x.1 x.2) = .ok (b, s'') at hm
    cases hr : m s with
    | error e => rw [hr] at hm; cases hm
    | ok x => rw [hr] at hm; exact ⟨x.1, x.2, hr, b, s'', hm, hq⟩
  · rintro ⟨a, s', hm, b, s'', hf, hq⟩
    refine ⟨b, s'', ?_, hq⟩
    change ((m s).bind fun x => f x.1 x.2) = .ok (b, s'')
    rw [hm]
    exact hf

@[simp] theorem wp_observe (f : σ → α) (Q : α → σ → Prop) (s : σ) :
    wp (observe f : Prog σ ε α) Q s ↔ Q (f s) s := by
  constructor
  · rintro ⟨b, s', hm, hq⟩
    cases hm
    exact hq
  · exact fun hq => ⟨f s, s, rfl, hq⟩

@[simp] theorem wp_change (f : σ → σ) (Q : Unit → σ → Prop) (s : σ) :
    wp (change f : Prog σ ε Unit) Q s ↔ Q () (f s) := by
  constructor
  · rintro ⟨b, s', hm, hq⟩
    cases hm
    exact hq
  · exact fun hq => ⟨(), f s, rfl, hq⟩

@[simp] theorem wp_abort (e : ε) (Q : α → σ → Prop) (s : σ) :
    wp (abort e : Prog σ ε α) Q s ↔ False := by
  constructor
  · rintro ⟨b, s', hm, -⟩
    cases hm
  · exact False.elim

/-- An assertion is met exactly when its condition holds. -/
@[simp] theorem wp_ensure (c : Prop) [Decidable c] (e : ε) (Q : Unit → σ → Prop) (s : σ) :
    wp (ensure c e : Prog σ ε Unit) Q s ↔ c ∧ Q () s := by
  unfold ensure
  split <;> simp [*]

theorem ensure_ok {c : Prop} [Decidable c] (h : c) (e : ε) (s : σ) : ensure c e s = .ok ((), s) := by
  unfold ensure
  rw [if_pos h]
  rfl

theorem wp_ite (c : Prop) [Decidable c] (m n : Prog σ ε α) (Q : α → σ → Prop) (s : σ) :
    wp (if c then m else n) Q s ↔ if c then wp m Q s else wp n Q s := by
  split <;> rfl

/-- A program fails where its second part does, after a first part that returns. -/
theorem bind_error {m : Prog σ ε α} {f : α → Prog σ ε β} {Q : α → σ → Prop} {s : σ} {e : ε}
    (hm : wp m Q s) (hf : ∀ a s', Q a s' → f a s' = .error e) : (m >>= f) s = .error e := by
  obtain ⟨a, s', hrun, hq⟩ := hm
  change ((m s).bind fun x => f x.1 x.2) = .error e
  rw [hrun]
  exact hf a s' hq

/-- The second part of a program runs from where the first part returns. -/
theorem ok_bind {m : Prog σ ε α} {a : α} {s s' : σ} (hm : m s = .ok (a, s')) (f : α → Prog σ ε β) :
    (m >>= f) s = f a s' := by
  change ((m s).bind fun x => f x.1 x.2) = f a s'
  rw [hm]
  rfl

theorem observe_bind (g : σ → α) (f : α → Prog σ ε β) (s : σ) : (observe g >>= f) s = f (g s) s := ok_bind rfl f

theorem change_bind (g : σ → σ) (f : Unit → Prog σ ε β) (s : σ) : (change g >>= f) s = f () (g s) := ok_bind rfl f

/-- A program fails where its first part does. -/
theorem error_bind {m : Prog σ ε α} {s : σ} {e : ε} (hm : m s = .error e) (f : α → Prog σ ε β) :
    (m >>= f) s = .error e := by
  change ((m s).bind fun x => f x.1 x.2) = .error e
  rw [hm]
  rfl

/-- The loop rule: the invariant speaks of the elements still to be visited. -/
theorem wp_foldlM {f : β → α → Prog σ ε β} (inv : List α → β → σ → Prop)
    (step : ∀ x xs b s, inv (x :: xs) b s → wp (f b x) (inv xs) s)
    {xs : List α} {b : β} {s : σ} (h : inv xs b s) :
    wp (xs.foldlM f b) (inv []) s := by
  induction xs generalizing b s with
  | nil => simpa only [List.foldlM_nil, wp_pure] using h
  | cons x xs ih =>
    simp only [List.foldlM_cons, wp_bind]
    exact wp_mono (step x xs b s h) fun b' s' hb => ih hb

/-- A program that leaves the state as it is, if it returns. -/
def ReadOnly (m : Prog σ ε α) : Prop := ∀ s a s', m s = .ok (a, s') → s' = s

theorem readOnly_pure (a : α) : ReadOnly (pure a : Prog σ ε α) := by
  intro s b s' h
  cases h
  rfl

theorem readOnly_observe (f : σ → α) : ReadOnly (observe f : Prog σ ε α) := by
  intro s b s' h
  cases h
  rfl

theorem readOnly_abort (e : ε) : ReadOnly (abort e : Prog σ ε α) := by
  intro s b s' h
  cases h

theorem readOnly_ensure (c : Prop) [Decidable c] (e : ε) :
    ReadOnly (ensure c e : Prog σ ε Unit) := by
  unfold ensure
  split
  · exact readOnly_pure ()
  · exact readOnly_abort e

theorem ReadOnly.bind {m : Prog σ ε α} {f : α → Prog σ ε β} (hm : ReadOnly m)
    (hf : ∀ a, ReadOnly (f a)) : ReadOnly (m >>= f) := by
  intro s b s'' h
  have hwp : wp (m >>= f) (fun x y => x = b ∧ y = s'') s := ⟨b, s'', h, rfl, rfl⟩
  obtain ⟨a, s', hrun, x, y, hrest, rfl, rfl⟩ := (wp_bind ..).mp hwp
  exact (hf a s' _ _ hrest).trans (hm s a s' hrun)

theorem ReadOnly.ite {c : Prop} [Decidable c] {m n : Prog σ ε α} (hm : ReadOnly m)
    (hn : ReadOnly n) : ReadOnly (if c then m else n) := by
  split
  · exact hm
  · exact hn

/-- What a program that changes nothing answers, it answers in the same state. -/
theorem ReadOnly.answer {m : Prog σ ε α} (hm : ReadOnly m) {Q : α → σ → Prop} {s : σ}
    (h : wp m Q s) : ∃ a, m s = .ok (a, s) ∧ Q a s := by
  obtain ⟨a, s', hrun, hq⟩ := h
  obtain rfl := hm s a s' hrun
  exact ⟨a, hrun, hq⟩

end Zsim.WeakestPre
