import Zsim.Outcomes

/-!
# What a program leaves as it is

A program keeps a view of the state if it leaves that view unchanged whenever
it returns. Programs are built from parts that keep a view by the rules below,
and a postcondition of a program can be read together with the views it keeps.
In the same way a program avoids a failure if its parts do.
-/

namespace Zsim.Frames

open WeakestPre CheckedTables Outcomes

variable {σ ε α β τ : Type}

/-- The view is the same after every run that returns. -/
def Keeps (view : σ → τ) (m : Prog σ ε α) : Prop :=
  ∀ s a s', m s = .ok (a, s') → view s' = view s

variable {view : σ → τ} {m n : Prog σ ε α} {f : α → Prog σ ε β} {c : Prop} [Decidable c]

theorem Keeps.pure (a : α) : Keeps view (Pure.pure a : Prog σ ε α) := by
  intro s b s' h
  cases h
  rfl

theorem Keeps.observe (g : σ → α) : Keeps view (WeakestPre.observe g : Prog σ ε α) := by
  intro s b s' h
  cases h
  rfl

theorem Keeps.abort (e : ε) : Keeps view (WeakestPre.abort e : Prog σ ε α) := by
  intro s b s' h
  cases h

theorem Keeps.ensure (e : ε) : Keeps view (WeakestPre.ensure c e : Prog σ ε Unit) := by
  unfold WeakestPre.ensure
  split
  · exact .pure ()
  · exact .abort e

theorem Keeps.change {g : σ → σ} (h : ∀ s, view (g s) = view s) :
    Keeps view (WeakestPre.change g : Prog σ ε Unit) := by
  intro s b s' hs
  cases hs
  exact h s

theorem Keeps.bind (hm : Keeps view m) (hf : ∀ a, Keeps view (f a)) : Keeps view (m >>= f) := by
  intro s b s'' h
  cases hr : m s with
  | error e =>
    rw [error_bind hr] at h
    cases h
  | ok x =>
    rw [ok_bind hr] at h
    exact (hf x.1 x.2 b s'' h).trans (hm s x.1 x.2 hr)

theorem Keeps.ite (hm : Keeps view m) (hn : Keeps view n) : Keeps view (if c then m else n) := by
  split
  · exact hm
  · exact hn

theorem Keeps.readCell (r : TableRef σ α) (i : ℕ) (e : ε) :
    Keeps view (CheckedTables.readCell r i e) :=
  .bind (.observe _) fun _ => .bind (.ensure e) fun _ => .pure _

/-- A write that the view does not see. -/
theorem Keeps.modifyCell {r : TableRef σ α} {i : ℕ} {g : α → α}
    (h : ∀ s, view (r.put s ((r.get s).set i (g ((r.get s).cell i)))) = view s) (e : ε) :
    Keeps view (CheckedTables.modifyCell r i g e) := by
  intro s b s' hs
  have hends := @Outcomes.ends_modifyCell σ ε α (fun _ => True) r i g e (fun _ s' => view s' = view s) s
  have hkeep := hends.mpr ⟨fun _ => h s, fun _ => trivial⟩
  unfold Outcomes.ends at hkeep
  rwa [hs] at hkeep

theorem Keeps.forUpTo {g : ℕ → β → Prog σ ε β} (h : ∀ i b, Keeps view (g i b)) (n : ℕ) (b : β) :
    Keeps view (CheckedTables.forUpTo g n b) := by
  induction n with
  | zero => exact .pure b
  | succ n ih => exact .bind ih fun b => h n b

/-- A program that keeps a view keeps what is computed from it. -/
theorem Keeps.comp {υ : Type} (h : Keeps view m) (g : τ → υ) : Keeps (fun s => g (view s)) m :=
  fun s a s' hs => congrArg g (h s a s' hs)

/-- The postcondition of a program with a view it keeps. -/
theorem Keeps.ends {E : ε → Prop} {Q : α → σ → Prop} {s : σ} (h : Keeps view m)
    (hm : ends E m Q s) : ends E m (fun a s' => Q a s' ∧ view s' = view s) s := by
  unfold Outcomes.ends at hm ⊢
  cases hr : m s with
  | error e =>
    rw [hr] at hm
    exact hm
  | ok x =>
    rw [hr] at hm
    exact ⟨hm, h s x.1 x.2 hr⟩

/-- Of a program that may fail in every way, the views it keeps are known. -/
theorem Keeps.after {s : σ} (h : Keeps view m) :
    Outcomes.ends (fun _ => True) m (fun _ s' => view s' = view s) s := by
  unfold Outcomes.ends
  cases hr : m s with
  | error e => trivial
  | ok x => exact h s x.1 x.2 hr

theorem Keeps.of_ends (h : ∀ s, Outcomes.ends (fun _ => True) m (fun _ s' => view s' = view s) s) :
    Keeps view m := by
  intro s a s' hs
  have hends := h s
  unfold Outcomes.ends at hends
  rwa [hs] at hends

section Avoids

variable {e : ε}

/-- The program does not stop with the failure, from any state. -/
def Avoids (e : ε) (m : Prog σ ε α) : Prop := ∀ s, m s ≠ .error e

theorem Avoids.pure (a : α) : Avoids e (Pure.pure a : Prog σ ε α) := fun _ h => nomatch h

theorem Avoids.observe (g : σ → α) : Avoids e (WeakestPre.observe g : Prog σ ε α) :=
  fun _ h => nomatch h

theorem Avoids.change (g : σ → σ) : Avoids e (WeakestPre.change g : Prog σ ε Unit) :=
  fun _ h => nomatch h

theorem Avoids.abort {e' : ε} (hne : e' ≠ e) : Avoids e (WeakestPre.abort e' : Prog σ ε α) := by
  intro s h
  cases h
  exact hne rfl

theorem Avoids.ensure {e' : ε} (hne : e' ≠ e) : Avoids e (WeakestPre.ensure c e' : Prog σ ε Unit) := by
  unfold WeakestPre.ensure
  split
  · exact .pure ()
  · exact .abort hne

theorem Avoids.bind (hm : Avoids e m) (hf : ∀ a, Avoids e (f a)) : Avoids e (m >>= f) := by
  intro s h
  cases hr : m s with
  | error e' =>
    rw [error_bind hr] at h
    cases h
    exact hm s hr
  | ok x =>
    rw [ok_bind hr] at h
    exact hf x.1 x.2 h

theorem Avoids.ite (hm : Avoids e m) (hn : Avoids e n) : Avoids e (if c then m else n) := by
  split
  · exact hm
  · exact hn

theorem Avoids.readCell (r : TableRef σ α) (i : ℕ) {e' : ε} (hne : e' ≠ e) :
    Avoids e (CheckedTables.readCell r i e') :=
  .bind (.observe _) fun _ => .bind (.ensure hne) fun _ => .pure _

theorem Avoids.modifyCell (r : TableRef σ α) (i : ℕ) (g : α → α) {e' : ε} (hne : e' ≠ e) :
    Avoids e (CheckedTables.modifyCell r i g e') :=
  .bind (.observe _) fun _ => .bind (.ensure hne) fun _ => .change _

theorem Avoids.forUpTo {g : ℕ → β → Prog σ ε β} (h : ∀ i b, Avoids e (g i b)) (n : ℕ) (b : β) :
    Avoids e (CheckedTables.forUpTo g n b) := by
  induction n with
  | zero => exact .pure b
  | succ n ih => exact .bind ih fun b => h n b

theorem Avoids.foldlM {g : β → α → Prog σ ε β} (h : ∀ b a, Avoids e (g b a)) (xs : List α) (b : β) :
    Avoids e (xs.foldlM g b) := by
  induction xs generalizing b with
  | nil => exact .pure b
  | cons a xs ih =>
    rw [List.foldlM_cons]
    exact .bind (h b a) fun b' => ih b'

/-- A program that keeps a view, and avoids the failures that are not allowed. -/
theorem Keeps.within {E : ε → Prop} {s : σ} (h : Keeps view m) (hE : ∀ e, ¬E e → Avoids e m) :
    Outcomes.ends E m (fun _ s' => view s' = view s) s := by
  unfold Outcomes.ends
  cases hr : m s with
  | error e => exact Classical.not_not.mp fun hnot => hE e hnot s hr
  | ok x => exact h s x.1 x.2 hr

end Avoids

end Zsim.Frames
