import Zsim.CheckedTables

/-!
# Programs that may fail in some ways

A program may stop with the failures it is allowed to stop with, and what it
returns satisfies the postcondition. With no failure allowed this is the
weakest precondition, and with every failure allowed it is partial correctness.
-/

namespace Zsim.Outcomes

open WeakestPre CheckedTables

variable {σ ε α β : Type} {E : ε → Prop}

/-- The run from `s` fails only as `E` allows, and what it returns satisfies `Q`. -/
def ends (E : ε → Prop) (m : Prog σ ε α) (Q : α → σ → Prop) (s : σ) : Prop :=
  match m s with
  | .ok (a, s') => Q a s'
  | .error e => E e

theorem ends_mono {m : Prog σ ε α} {Q R : α → σ → Prop} {s : σ} (h : ends E m Q s)
    (hQR : ∀ a s', Q a s' → R a s') : ends E m R s := by
  unfold ends at h ⊢
  cases hm : m s with
  | error e =>
    rw [hm] at h
    exact h
  | ok x =>
    rw [hm] at h
    exact hQR x.1 x.2 h

/-- Two postconditions of one run. -/
theorem ends_and {m : Prog σ ε α} {Q R : α → σ → Prop} {s : σ} (hq : ends E m Q s)
    (hr : ends E m R s) : ends E m (fun a s' => Q a s' ∧ R a s') s := by
  unfold ends at hq hr ⊢
  cases hm : m s with
  | error e =>
    rw [hm] at hq
    exact hq
  | ok x =>
    rw [hm] at hq hr
    exact ⟨hq, hr⟩

/-- What is known of the runs that return may be added to what a run ends in. -/
theorem ends_also {m : Prog σ ε α} {Q R : α → σ → Prop} {s : σ} (hq : ends E m Q s)
    (hr : ends (fun _ => True) m R s) : ends E m (fun a s' => Q a s' ∧ R a s') s := by
  unfold ends at hq hr ⊢
  cases hm : m s with
  | error e =>
    rw [hm] at hq
    exact hq
  | ok x =>
    rw [hm] at hq hr
    exact ⟨hq, hr⟩

/-- A run that returns is known to be the run. -/
theorem ends_run {m : Prog σ ε α} {Q : α → σ → Prop} {s : σ} (h : ends E m Q s) :
    ends E m (fun a s' => Q a s' ∧ m s = .ok (a, s')) s := by
  unfold ends at h ⊢
  cases hm : m s with
  | error e =>
    rw [hm] at h
    exact h
  | ok x =>
    rw [hm] at h
    exact ⟨h, rfl⟩

/-- A program that returns ends as it returns. -/
theorem ends_of_wp {m : Prog σ ε α} {Q : α → σ → Prop} {s : σ} (h : wp m Q s) : ends E m Q s := by
  obtain ⟨a, s', hm, hq⟩ := h
  unfold ends
  rw [hm]
  exact hq

/-- A program that fails may do so where the failure is allowed. -/
theorem ends_of_error {m : Prog σ ε α} {Q : α → σ → Prop} {s : σ} {e : ε} (h : m s = .error e)
    (he : E e) : ends E m Q s := by
  unfold ends
  rw [h]
  exact he

/-- A program that is allowed no failure returns. -/
theorem wp_of_ends {m : Prog σ ε α} {Q : α → σ → Prop} {s : σ}
    (h : ends (fun _ => False) m Q s) : wp m Q s := by
  unfold ends at h
  cases hm : m s with
  | error e =>
    rw [hm] at h
    exact h.elim
  | ok x =>
    rw [hm] at h
    exact ⟨x.1, x.2, hm, h⟩

/-- The answer and the final state of a run that returns. -/
theorem answer_of_ends {m : Prog σ ε α} {Q : α → σ → Prop} {s s' : σ} {a : α} (h : ends E m Q s)
    (hm : m s = .ok (a, s')) : Q a s' := by
  unfold ends at h
  rw [hm] at h
  exact h

/-- The final state of a run that returns. -/
theorem state_of_ends {m : Prog σ ε α} {Q : α → σ → Prop} {s s' : σ} (h : ends E m Q s)
    (hs : ((m s).map fun r => r.2) = .ok s') : ∃ a, Q a s' := by
  unfold ends at h
  cases hm : m s with
  | error e =>
    rw [hm] at hs
    cases hs
  | ok x =>
    rw [hm] at h hs
    cases hs
    exact ⟨x.1, h⟩

/-- The final state, seen as a step that may be refused. -/
theorem of_performed {m : Prog σ ε α} {Q : σ → Prop} {s s' : σ} (h : ends E m (fun _ => Q) s)
    (hs : ((m s).map fun r => r.2).toOption = some s') : Q s' := by
  cases hm : m s with
  | error e =>
    rw [hm] at hs
    cases hs
  | ok x =>
    rw [hm] at hs
    cases hs
    exact answer_of_ends h hm

@[simp] theorem ends_pure (a : α) (Q : α → σ → Prop) (s : σ) :
    ends E (pure a : Prog σ ε α) Q s ↔ Q a s := Iff.rfl

@[simp] theorem ends_bind (m : Prog σ ε α) (f : α → Prog σ ε β) (Q : β → σ → Prop) (s : σ) :
    ends E (m >>= f) Q s ↔ ends E m (fun a s' => ends E (f a) Q s') s := by
  have hbind : (m >>= f) s = (m s).bind fun x => f x.1 x.2 := rfl
  unfold ends
  rw [hbind]
  cases m s with
  | error e => rfl
  | ok x => rfl

@[simp] theorem ends_observe (f : σ → α) (Q : α → σ → Prop) (s : σ) :
    ends E (observe f : Prog σ ε α) Q s ↔ Q (f s) s := Iff.rfl

@[simp] theorem ends_change (f : σ → σ) (Q : Unit → σ → Prop) (s : σ) :
    ends E (change f : Prog σ ε Unit) Q s ↔ Q () (f s) := Iff.rfl

@[simp] theorem ends_abort (e : ε) (Q : α → σ → Prop) (s : σ) :
    ends E (abort e : Prog σ ε α) Q s ↔ E e := Iff.rfl

/-- An assertion that does not hold is a failure, which must be allowed. -/
@[simp] theorem ends_ensure (c : Prop) [Decidable c] (e : ε) (Q : Unit → σ → Prop) (s : σ) :
    ends E (ensure c e : Prog σ ε Unit) Q s ↔ (c → Q () s) ∧ (¬c → E e) := by
  unfold ensure
  split <;> simp [*]

theorem ends_ite (c : Prop) [Decidable c] (m n : Prog σ ε α) (Q : α → σ → Prop) (s : σ) :
    ends E (if c then m else n) Q s ↔ if c then ends E m Q s else ends E n Q s := by
  split <;> rfl

/-- The loop rule: the invariant speaks of the elements still to be visited. -/
theorem ends_foldlM {f : β → α → Prog σ ε β} (inv : List α → β → σ → Prop)
    (step : ∀ x xs b s, inv (x :: xs) b s → ends E (f b x) (inv xs) s)
    {xs : List α} {b : β} {s : σ} (h : inv xs b s) :
    ends E (xs.foldlM f b) (inv []) s := by
  induction xs generalizing b s with
  | nil => simpa only [List.foldlM_nil, ends_pure] using h
  | cons x xs ih =>
    simp only [List.foldlM_cons, ends_bind]
    exact ends_mono (step x xs b s h) fun b' s' hb => ih hb

/-- What every program of a list keeps, the list keeps. -/
theorem ends_forM {f : α → Prog σ ε Unit} (inv : σ → Prop) {xs : List α}
    (step : ∀ x ∈ xs, ∀ s, inv s → ends E (f x) (fun _ => inv) s) {s : σ} (h : inv s) :
    ends E (xs.forM f) (fun _ => inv) s := by
  induction xs generalizing s with
  | nil => exact h
  | cons x xs ih =>
    change ends E (f x >>= fun _ => xs.forM f) _ s
    rw [ends_bind]
    refine ends_mono (step x List.mem_cons_self s h) fun _ s' h' => ?_
    exact ih (fun y hy => step y (List.mem_cons_of_mem x hy)) h'

theorem ends_readCell (r : TableRef σ α) (i : ℕ) (e : ε) (Q : α → σ → Prop) (s : σ) :
    ends E (readCell r i e) Q s ↔
      (i < (r.get s).length → Q ((r.get s).cell i) s) ∧ (¬i < (r.get s).length → E e) := by
  simp only [readCell, ends_bind, ends_observe, ends_ensure, ends_pure]

theorem ends_modifyCell (r : TableRef σ α) (i : ℕ) (f : α → α) (e : ε) (Q : Unit → σ → Prop) (s : σ) :
    ends E (modifyCell r i f e) Q s ↔
      (i < (r.get s).length → Q () (r.put s ((r.get s).set i (f ((r.get s).cell i))))) ∧
        (¬i < (r.get s).length → E e) := by
  simp only [modifyCell, ends_bind, ends_observe, ends_ensure, ends_change]

/-- The rule of the counting loop. -/
theorem ends_forUpTo {f : ℕ → β → Prog σ ε β} (inv : ℕ → β → σ → Prop) {n : ℕ} {b : β} {s : σ}
    (step : ∀ i b s, i < n → inv i b s → ends E (f i b) (inv (i + 1)) s) (h : inv 0 b s) :
    ends E (forUpTo f n b) (inv n) s := by
  induction n with
  | zero => simpa only [forUpTo, ends_pure] using h
  | succ n ih =>
    simp only [forUpTo, ends_bind]
    refine ends_mono (ih fun i b s hi => step i b s (Nat.lt_succ_of_lt hi)) fun b' s' hb => ?_
    exact step n b' s' n.lt_succ_self hb

section Inside

variable {s : σ} {e : ε}

theorem ends_readCell_of_lt {r : TableRef σ α} {i : ℕ} (hi : i < (r.get s).length)
    (Q : α → σ → Prop) : ends E (readCell r i e) Q s ↔ Q ((r.get s).cell i) s := by
  rw [ends_readCell]
  simp [hi]

theorem ends_modifyCell_of_lt {r : TableRef σ α} {i : ℕ} (hi : i < (r.get s).length) {f : α → α}
    (Q : Unit → σ → Prop) : ends E (modifyCell r i f e) Q s ↔
      Q () (r.put s ((r.get s).set i (f ((r.get s).cell i)))) := by
  rw [ends_modifyCell]
  simp [hi]

end Inside

end Zsim.Outcomes
