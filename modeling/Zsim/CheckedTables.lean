import Zsim.WeakestPre
import Mathlib.Logic.Function.Basic
import Mathlib.Data.Nat.Notation

/-!
# Tables of a fixed length

An access outside a table is a failure of the program, so a proof that a program
returns is a proof that all its accesses are inside. A counting loop visits the
indices below a bound in order, and its rule carries an invariant from one
index to the next.
-/

namespace Zsim.CheckedTables

open WeakestPre

/-- An allocated array; only the cells below the length may be accessed. -/
structure Table (α : Type) where
  length : ℕ
  cell : ℕ → α

/-- Write one cell. -/
def Table.set {α : Type} (t : Table α) (i : ℕ) (v : α) : Table α :=
  { t with cell := Function.update t.cell i v }

section Table

variable {α : Type} (t : Table α) (i : ℕ) (v : α)

@[simp] theorem set_length : (t.set i v).length = t.length := rfl

@[simp] theorem set_cell_self : (t.set i v).cell i = v := Function.update_self ..

@[simp] theorem set_set (w : α) : (t.set i v).set i w = t.set i w := by
  simp only [Table.set, Function.update_idem]

theorem set_cell_of_ne {j : ℕ} (h : j ≠ i) : (t.set i v).cell j = t.cell j :=
  Function.update_of_ne h _ _

end Table

/-- Where a state keeps a table. -/
structure TableRef (σ α : Type) where
  get : σ → Table α
  put : σ → Table α → σ

variable {σ ε α β : Type}

/-- Read a cell. -/
def readCell (r : TableRef σ α) (i : ℕ) (e : ε) : Prog σ ε α := do
  let t ← observe r.get
  ensure (i < t.length) e
  pure (t.cell i)

/-- Change a cell. -/
def modifyCell (r : TableRef σ α) (i : ℕ) (f : α → α) (e : ε) : Prog σ ε Unit := do
  let t ← observe r.get
  ensure (i < t.length) e
  change fun s => r.put s (t.set i (f (t.cell i)))

/-- `for (i = 0; i < n; i++) b = f(i, b)`. -/
def forUpTo (f : ℕ → β → Prog σ ε β) : ℕ → β → Prog σ ε β
  | 0, b => pure b
  | n + 1, b => do
    let b ← forUpTo f n b
    f n b

section Rules

variable {s : σ} {e : ε}

/-- A loop depends on its rounds only. -/
theorem forUpTo_congr {f g : ℕ → β → Prog σ ε β} {n : ℕ} (h : ∀ i < n, f i = g i) (b : β) :
    forUpTo f n b = forUpTo g n b := by
  induction n with
  | zero => rfl
  | succ n ih =>
    rw [forUpTo, forUpTo, ih fun i hi => h i (Nat.lt_succ_of_lt hi), h n n.lt_succ_self]

@[simp] theorem wp_readCell (r : TableRef σ α) (i : ℕ) (Q : α → σ → Prop) :
    wp (readCell r i e) Q s ↔ i < (r.get s).length ∧ Q ((r.get s).cell i) s := by
  simp only [readCell, wp_bind, wp_observe, wp_ensure, wp_pure]

@[simp] theorem wp_modifyCell (r : TableRef σ α) (i : ℕ) (f : α → α) (Q : Unit → σ → Prop) :
    wp (modifyCell r i f e) Q s ↔ i < (r.get s).length ∧
      Q () (r.put s ((r.get s).set i (f ((r.get s).cell i)))) := by
  simp only [modifyCell, wp_bind, wp_observe, wp_ensure, wp_change]

/-- A read inside the table returns the cell. -/
theorem readCell_inside (r : TableRef σ α) {i : ℕ} (h : i < (r.get s).length) :
    readCell r i e s = .ok ((r.get s).cell i, s) := by
  change (ensure (i < (r.get s).length) e >>= fun _ => pure ((r.get s).cell i) : Prog σ ε α) s = _
  rw [ok_bind (ensure_ok h e s)]
  rfl

/-- A write outside the table fails. -/
theorem modifyCell_outside (r : TableRef σ α) {i : ℕ} (f : α → α) (h : ¬i < (r.get s).length) :
    modifyCell r i f e s = .error e := by
  have hfails : (ensure (i < (r.get s).length) e : Prog σ ε Unit) = abort e := if_neg h
  change (ensure (i < (r.get s).length) e >>= fun _ => change _ : Prog σ ε Unit) s = _
  rw [hfails]
  rfl

/-- The rule of the counting loop. -/
theorem wp_forUpTo {f : ℕ → β → Prog σ ε β} (inv : ℕ → β → σ → Prop) {n : ℕ} {b : β}
    (step : ∀ i b s, i < n → inv i b s → wp (f i b) (inv (i + 1)) s) (h : inv 0 b s) :
    wp (forUpTo f n b) (inv n) s := by
  induction n with
  | zero => simpa only [forUpTo, wp_pure] using h
  | succ n ih =>
    simp only [forUpTo, wp_bind]
    refine wp_mono (ih fun i b s hi => step i b s (Nat.lt_succ_of_lt hi)) fun b' s' hb => ?_
    exact step n b' s' n.lt_succ_self hb

/-- A loop whose first round fails. -/
theorem forUpTo_error {f : ℕ → β → Prog σ ε β} {b : β} (h : f 0 b s = .error e) (n : ℕ) :
    forUpTo f (n + 1) b s = .error e := by
  induction n with
  | zero => exact h
  | succ n ih => exact error_bind ih _

/-- A loop that returns has performed each of its rounds. -/
theorem forUpTo_reaches {f : ℕ → β → Prog σ ε β} {Q : β → σ → Prop} {n : ℕ} {b : β}
    (h : wp (forUpTo f n b) Q s) {i : ℕ} (hi : i < n) :
    ∃ b' s', wp (f i b') (fun _ _ => True) s' := by
  induction n generalizing Q with
  | zero => cases hi
  | succ n ih =>
    simp only [forUpTo, wp_bind] at h
    rcases Nat.lt_succ_iff_lt_or_eq.mp hi with hlt | rfl
    · exact ih h hlt
    · obtain ⟨b', s', -, hlast⟩ := h
      exact ⟨b', s', wp_mono hlast fun _ _ _ => trivial⟩

theorem readOnly_forUpTo {f : ℕ → β → Prog σ ε β} (h : ∀ i b, ReadOnly (f i b)) (n : ℕ) (b : β) :
    ReadOnly (forUpTo f n b) := by
  induction n with
  | zero => exact readOnly_pure b
  | succ n ih => exact ih.bind fun b => h n b

/-- The rounds of a loop that changes nothing are performed in the same state. -/
theorem readOnly_reaches {f : ℕ → β → Prog σ ε β} (hf : ∀ i b, ReadOnly (f i b))
    {Q : β → σ → Prop} {n : ℕ} {b : β} (h : wp (forUpTo f n b) Q s) {i : ℕ} (hi : i < n) :
    ∃ b', wp (f i b') (fun _ _ => True) s := by
  induction n generalizing Q with
  | zero => cases hi
  | succ n ih =>
    simp only [forUpTo, wp_bind] at h
    rcases Nat.lt_succ_iff_lt_or_eq.mp hi with hlt | rfl
    · exact ih h hlt
    · obtain ⟨b', -, hlast⟩ := (readOnly_forUpTo hf i b).answer h
      exact ⟨b', wp_mono hlast fun _ _ _ => trivial⟩

end Rules

end Zsim.CheckedTables
