import Mathlib.Data.List.MinMax

/-!
# The best element of a list

A loop that keeps the best element so far, and replaces it only by a strictly
better one, ends with the first of the least elements. The list may hold an
element more than once, so the first of the least is told by its place.
-/

namespace Zsim.Selection

variable {α κ μ : Type} [LinearOrder κ] [LinearOrder μ] {key : α → κ} {seen : α → μ}
  {l : List α} {x y : α}

/-- `x` is a least element of the list. -/
def Least (key : α → κ) (l : List α) (x : α) : Prop := x ∈ l ∧ ∀ y ∈ l, key x ≤ key y

/-- `x` is the first of the least elements of the list. -/
def FirstLeast (key : α → κ) (l : List α) (x : α) : Prop :=
  ∃ before after, l = before ++ x :: after ∧
    (∀ y ∈ before, key x < key y) ∧ ∀ y ∈ after, key x ≤ key y

/-- A list that is not empty has a least element. -/
theorem exists_least (key : α → κ) (hne : l ≠ []) : ∃ x, Least key l x := by
  cases hmin : l.argmin key with
  | none => exact absurd (List.argmin_eq_none.mp hmin) hne
  | some x => exact ⟨x, List.argmin_mem hmin, fun y hy => List.le_of_mem_argmin hy hmin⟩

/-- One turn of a loop whose test may go either way between equals. -/
theorem Least.snoc {p : Prop} [Decidable p] (h : Least key l x) (htake : p → key y ≤ key x)
    (hkeep : ¬ p → key x ≤ key y) : Least key (l ++ [y]) (if p then y else x) := by
  by_cases hp : p
  · rw [if_pos hp]
    refine ⟨by simp, fun z hz => ?_⟩
    rw [List.mem_append, List.mem_singleton] at hz
    cases hz with
    | inl hz => exact (htake hp).trans (h.2 z hz)
    | inr hz => exact hz ▸ le_rfl
  · rw [if_neg hp]
    refine ⟨List.mem_append_left _ h.1, fun z hz => ?_⟩
    rw [List.mem_append, List.mem_singleton] at hz
    cases hz with
    | inl hz => exact h.2 z hz
    | inr hz => exact hz ▸ hkeep hp

theorem Least.perm {l' : List α} (h : Least key l x) (hl : l.Perm l') : Least key l' x :=
  ⟨hl.mem_iff.mp h.1, fun y hy => h.2 y (hl.mem_iff.mpr hy)⟩

/-- The least elements all have one key. -/
theorem Least.key_eq (h : Least key l x) (h' : Least key l y) : key x = key y :=
  le_antisymm (h.2 y h'.1) (h'.2 x h.1)

theorem FirstLeast.least (h : FirstLeast key l x) : Least key l x := by
  obtain ⟨before, after, rfl, hbefore, hafter⟩ := h
  constructor
  · simp
  · intro y hy
    rw [List.mem_append, List.mem_cons] at hy
    cases hy with
    | inl hy => exact (hbefore y hy).le
    | inr hy =>
      cases hy with
      | inl hy => exact hy ▸ le_rfl
      | inr hy => exact hafter y hy

theorem firstLeast_singleton : FirstLeast key [x] x :=
  ⟨[], [], rfl, by simp, by simp⟩

/-- One turn of the loop. -/
theorem FirstLeast.snoc (h : FirstLeast key l x) (y : α) :
    FirstLeast key (l ++ [y]) (if key y < key x then y else x) := by
  by_cases hy : key y < key x
  · rw [if_pos hy]
    refine ⟨l, [], rfl, fun z hz => ?_, by simp⟩
    exact hy.trans_le (h.least.2 z hz)
  · rw [if_neg hy]
    obtain ⟨before, after, rfl, hbefore, hafter⟩ := h
    refine ⟨before, after ++ [y], by simp, hbefore, fun z hz => ?_⟩
    rw [List.mem_append, List.mem_singleton] at hz
    cases hz with
    | inl hz => exact hafter z hz
    | inr hz => exact hz ▸ not_lt.mp hy

/-- Of two places of a list, one comes first unless they hold the same. -/
theorem eq_or_before {before after before' after' : List α}
    (h : before ++ x :: after = before' ++ y :: after') :
    x = y ∨ (x ∈ before' ∧ y ∈ after) ∨ (y ∈ before ∧ x ∈ after') := by
  obtain ⟨mid, h₁, h₂⟩ | ⟨mid, h₁, h₂⟩ := List.append_eq_append_iff.mp h
  · cases mid with
    | nil => exact Or.inl (List.cons.inj h₂).1
    | cons z mid =>
      obtain ⟨rfl, rfl⟩ := List.cons.inj h₂
      exact Or.inr (Or.inl ⟨by rw [h₁]; simp, by simp⟩)
  · cases mid with
    | nil => exact Or.inl (List.cons.inj h₂).1.symm
    | cons z mid =>
      obtain ⟨rfl, rfl⟩ := List.cons.inj h₂
      exact Or.inr (Or.inr ⟨by rw [h₁]; simp, by simp⟩)

theorem FirstLeast.unique (h : FirstLeast key l x) (h' : FirstLeast key l y) : x = y := by
  obtain ⟨before, after, hl, hbefore, hafter⟩ := h
  obtain ⟨before', after', hl', hbefore', hafter'⟩ := h'
  obtain heq | ⟨hx, hy⟩ | ⟨hy, hx⟩ := eq_or_before (hl.symm.trans hl')
  · exact heq
  · exact absurd (hbefore' x hx) (not_lt.mpr (hafter y hy))
  · exact absurd (hbefore y hy) (not_lt.mpr (hafter' x hx))

/-- A loop meant for one key reads another one. Some least element is less, in
what is read, than the elements before it that are not least, and at most those
after it. -/
def Agrees (key : α → κ) (seen : α → μ) (l : List α) : Prop :=
  ∃ before x after, l = before ++ x :: after ∧ Least key l x ∧
    (∀ y ∈ before, ¬ Least key l y → seen x < seen y) ∧
      ∀ y ∈ after, ¬ Least key l y → seen x ≤ seen y

/-- The loop finds a least element exactly when what it reads agrees with the
key. -/
theorem least_iff_agrees (h : FirstLeast seen l x) : Least key l x ↔ Agrees key seen l := by
  obtain ⟨before, after, hl, hbefore, hafter⟩ := h
  constructor
  · intro hx
    exact ⟨before, x, after, hl, hx, fun y hy _ => hbefore y hy, fun y hy _ => hafter y hy⟩
  · intro ⟨before', c, after', hl', hc, hbefore', hafter'⟩
    by_contra hx
    obtain heq | ⟨hx', hc'⟩ | ⟨hc', hx'⟩ := eq_or_before (hl.symm.trans hl')
    · exact hx (heq ▸ hc)
    · exact absurd (hbefore' x hx' hx) (not_lt.mpr (hafter c hc'))
    · exact absurd (hbefore c hc') (not_lt.mpr (hafter' x hx' hx))

/-- What is read agrees with the key when it keeps its strict order. -/
theorem agrees_of_lt (hx : Least key l x) (h : ∀ y ∈ l, key x < key y → seen x < seen y) :
    Agrees key seen l := by
  obtain ⟨before, after, hl⟩ := List.append_of_mem hx.1
  have hlt : ∀ y ∈ l, ¬ Least key l y → seen x < seen y := by
    intro y hy hnot
    refine h y hy (lt_of_le_of_ne (hx.2 y hy) fun heq => hnot ⟨hy, fun z hz => ?_⟩)
    exact heq ▸ hx.2 z hz
  refine ⟨before, x, after, hl, hx, fun y hy => hlt y ?_, fun y hy hnot => (hlt y ?_ hnot).le⟩
  · rw [hl]
    exact List.mem_append_left _ hy
  · rw [hl]
    exact List.mem_append_right _ (List.mem_cons_of_mem _ hy)

end Zsim.Selection
