import Mathlib.Algebra.Order.Ring.Int
import Mathlib.Data.List.Nodup
import Mathlib.Logic.Function.Basic
import Mathlib.Order.Lattice

/-!
# Searching and ageing

A loop without a bound either finds its result or goes round again. Bounded by
a number of rounds it gives its result exactly when the bound lets it reach the
round of the result. Ageing raises each of the listed counters by one unless it
has reached the top, so after some rounds a counter has risen by that many times
the number of its places in the list.
-/

namespace Zsim.Ageing

section Loop

variable {σ β : Type}

/-- Repeat the body until it gives a result, for at most `fuel` rounds. -/
def search (body : σ → β ⊕ σ) : ℕ → σ → Option β
  | 0, _ => none
  | fuel + 1, s =>
    match body s with
    | .inl b => some b
    | .inr s' => search body fuel s'

/-- The loop rule that tells in which round the result is found: every bound
that lets the loop reach that round gives it. -/
theorem search_exact {body : σ → β ⊕ σ} {Inv : ℕ → σ → Prop} {Post : ℕ → β → Prop} {n : ℕ}
    (done : ∀ k s b, Inv k s → body s = .inl b → Post k b)
    (next : ∀ k s s', Inv k s → body s = .inr s' → Inv (k + 1) s') (last : ∀ s, ¬ Inv n s)
    {s : σ} (hs : Inv 0 s) :
    ∃ k b, k < n ∧ Post k b ∧ ∀ fuel, search body fuel s = if k < fuel then some b else none := by
  have hrounds : ∀ left k s, k + left = n → Inv k s → ∃ j b, j < left ∧ Post (k + j) b ∧
      ∀ fuel, search body fuel s = if j < fuel then some b else none := by
    intro left
    induction left with
    | zero =>
      intro k s hn hk
      rw [Nat.add_zero] at hn
      exact absurd (hn ▸ hk) (last s)
    | succ left ih =>
      intro k s hn hk
      cases hb : body s with
      | inl b =>
        refine ⟨0, b, Nat.succ_pos left, done k s b hk hb, fun fuel => ?_⟩
        cases fuel with
        | zero => rfl
        | succ fuel => rw [search, hb, if_pos (Nat.succ_pos fuel)]
      | inr s' =>
        obtain ⟨j, b, hj, hpost, hsearch⟩ := ih (k + 1) s' (by omega) (next k s s' hk hb)
        refine ⟨j + 1, b, Nat.succ_lt_succ hj, ?_, fun fuel => ?_⟩
        · have hround : k + (j + 1) = k + 1 + j := by omega
          rw [hround]
          exact hpost
        · cases fuel with
          | zero => rfl
          | succ fuel =>
            rw [search, hb]
            simp only [hsearch, Nat.succ_lt_succ_iff]
  obtain ⟨k, b, hk, hpost, hsearch⟩ := hrounds n 0 s (Nat.zero_add n) hs
  rw [Nat.zero_add] at hpost
  exact ⟨k, b, hk, hpost, hsearch⟩

/-- A loop that stays where no round gives a result gives none. -/
theorem search_none {body : σ → β ⊕ σ} {Inv : σ → Prop}
    (next : ∀ s, Inv s → ∃ s', body s = .inr s' ∧ Inv s') (fuel : ℕ) {s : σ} (hs : Inv s) :
    search body fuel s = none := by
  induction fuel generalizing s with
  | zero => rfl
  | succ fuel ih =>
    obtain ⟨s', hb, hs'⟩ := next s hs
    rw [search, hb]
    exact ih hs'

/-- A property of the result needs no measure. -/
theorem search_result {body : σ → β ⊕ σ} {Inv : σ → Prop} {Post : β → Prop}
    (done : ∀ s b, Inv s → body s = .inl b → Post b)
    (next : ∀ s s', Inv s → body s = .inr s' → Inv s')
    {fuel : ℕ} {s : σ} {b : β} (hs : Inv s) (hb : search body fuel s = some b) : Post b := by
  induction fuel generalizing s with
  | zero => cases hb
  | succ fuel ih =>
    rw [search] at hb
    cases hr : body s with
    | inl b' =>
      rw [hr] at hb
      cases hb
      exact done s b hs hr
    | inr s' =>
      rw [hr] at hb
      exact ih (next s s' hs hr) hb

end Loop

section Counters

variable {ι α : Type} [DecidableEq ι] [LinearOrder α] [Add α] [One α]

/-- Raise one counter unless it is at the top. -/
def raise (top : α) (v : ι → α) (i : ι) : ι → α :=
  if v i < top then Function.update v i (v i + 1) else v

/-- Raise the listed counters in order. -/
def age (top : α) (v : ι → α) (l : List ι) : ι → α := l.foldl (raise top) v

variable {top : α} {v : ι → α} {i j : ι} {l : List ι}

theorem raise_of_ne (h : j ≠ i) : raise top v i j = v j := by
  unfold raise
  split
  · exact Function.update_of_ne h _ _
  · rfl

/-- Counters that are listed once rise by one or stay. -/
theorem age_of_nodup (h : l.Nodup) :
    age top v l i = if i ∈ l ∧ v i < top then v i + 1 else v i := by
  unfold age
  induction l generalizing v with
  | nil => simp
  | cons j l ih =>
    obtain ⟨hj, hl⟩ := List.nodup_cons.mp h
    rw [List.foldl_cons, ih hl]
    by_cases hij : i = j
    · subst hij
      by_cases hlt : v i < top <;> simp [hj, hlt, raise]
    · simp [hij, raise_of_ne hij]

end Counters

section Rounds

variable {ι : Type} [DecidableEq ι] {top k : ℕ} {v : ι → ℕ} {l : List ι} {i j : ι}

/-- A listed counter rises once for each time it is listed. -/
theorem age_eq : age top v l i = max (v i) (min top (v i + l.count i)) := by
  unfold age
  induction l generalizing v with
  | nil => simp
  | cons j l ih =>
    rw [List.foldl_cons, ih]
    by_cases hij : i = j
    · subst hij
      rw [List.count_cons_self]
      unfold raise
      split
      · rw [Function.update_self]
        omega
      · omega
    · rw [raise_of_ne hij, List.count_cons_of_ne (Ne.symm hij)]

/-- The counters after some rounds in which the listed ones were raised. -/
def aged (top : ℕ) (v : ι → ℕ) (l : List ι) (rounds : ℕ) (i : ι) : ℕ :=
  max (v i) (min top (v i + rounds * l.count i))

theorem aged_zero : aged top v l 0 = v := by
  funext i
  simp [aged]

/-- One more round. -/
theorem age_aged : age top (aged top v l k) l = aged top v l (k + 1) := by
  funext i
  rw [age_eq]
  unfold aged
  rw [Nat.succ_mul]
  omega

theorem aged_le (h : v i ≤ top) : aged top v l k i ≤ top := by
  unfold aged
  omega

theorem aged_of_notMem (h : i ∉ l) : aged top v l k i = v i := by
  unfold aged
  rw [List.count_eq_zero.mpr h]
  omega

/-- A counter is at the top when it has been raised often enough. -/
theorem aged_eq_top (h : v i ≤ top) : aged top v l k i = top ↔ top ≤ v i + k * l.count i := by
  unfold aged
  omega

/-- No counter of the list reaches the top in fewer rounds. -/
def Unripe (top : ℕ) (v : ι → ℕ) (l : List ι) (rounds : ℕ) : Prop :=
  ∀ k < rounds, ∀ c ∈ l, v c + k * l.count c < top

theorem unripe_zero : Unripe top v l 0 := by
  intro k hk
  omega

/-- Nor in this one. -/
theorem Unripe.succ (h : Unripe top v l k)
    (hnone : l.find? (fun c => top ≤ v c + k * l.count c) = none) : Unripe top v l (k + 1) := by
  intro j hj c hc
  by_cases hjk : j = k
  · have hlow := List.find?_eq_none.mp hnone c hc
    rw [decide_eq_true_iff, not_le] at hlow
    rw [hjk]
    exact hlow
  · exact h j (by omega) c hc

/-- An item below the top is ripe after that many rounds at the latest. -/
theorem not_unripe (hl : l ≠ []) : ¬ Unripe top v l (top + 1) := by
  intro h
  obtain ⟨c, hc⟩ := List.exists_mem_of_ne_nil l hl
  have hcount : 1 ≤ l.count c := List.one_le_count_iff.mpr hc
  have hle : top * 1 ≤ top * l.count c := Nat.mul_le_mul_left top hcount
  have hlow := h top (Nat.lt_succ_self top) c hc
  omega

/-- The first item of a list whose counter reaches the top, and the first round
after which there is one. -/
structure FirstRipe (top : ℕ) (v : ι → ℕ) (l : List ι) (rounds : ℕ) (i : ι) : Prop where
  before : Unripe top v l rounds
  found : l.find? (fun c => top ≤ v c + rounds * l.count c) = some i

theorem FirstRipe.mem (h : FirstRipe top v l k i) : i ∈ l := List.mem_of_find?_eq_some h.found

theorem FirstRipe.ripe (h : FirstRipe top v l k i) : top ≤ v i + k * l.count i := by
  have hi := List.find?_some h.found
  exact of_decide_eq_true hi

/-- No other round is the first. -/
theorem FirstRipe.rounds_eq {n : ℕ} (h : FirstRipe top v l k i)
    (hbefore : Unripe top v l n)
    (hripe : ∃ c ∈ l, top ≤ v c + n * l.count c) : k = n := by
  obtain ⟨c, hc, htop⟩ := hripe
  have hle : n ≤ k := by
    by_contra hlt
    exact (h.ripe.trans_lt (hbefore k (not_le.mp hlt) i h.mem)).false
  have hge : k ≤ n := by
    by_contra hlt
    exact (htop.trans_lt (h.before n (not_le.mp hlt) c hc)).false
  exact Nat.le_antisymm hge hle

/-- In a list without repetitions the first ripe item is the first of the
greatest, and the rounds are those that the greatest needs. -/
theorem FirstRipe.of_nodup (h : FirstRipe top v l k i) (hl : l.Nodup) (hle : ∀ c ∈ l, v c ≤ top) :
    k = top - v i ∧ (∀ c ∈ l, v c ≤ v i) ∧
      ∃ earlier later, l = earlier ++ i :: later ∧ ∀ c ∈ earlier, v c < v i := by
  have hcount : ∀ c ∈ l, l.count c = 1 := List.nodup_iff_count_eq_one.mp hl
  have hi := h.ripe
  have hvi := hle i h.mem
  rw [hcount i h.mem, Nat.mul_one] at hi
  have hlow : ∀ c ∈ l, ∀ m < k, v c + m < top := by
    intro c hc m hm
    have hlt := h.before m hm c hc
    rw [hcount c hc, Nat.mul_one] at hlt
    exact hlt
  have hk : k = top - v i := by
    by_contra hne
    have hlt := hlow i h.mem (top - v i) (by omega)
    omega
  obtain ⟨-, earlier, later, hl', hnot⟩ := List.find?_eq_some_iff_append.mp h.found
  refine ⟨hk, fun c hc => ?_, earlier, later, hl', fun c hc => ?_⟩
  · by_contra hlt
    have hvc := hle c hc
    have hc' := hlow c hc (top - v c) (by omega)
    omega
  · have hmem : c ∈ l := hl' ▸ List.mem_append_left _ hc
    have hc' := hnot c hc
    rw [hcount c hmem] at hc'
    simp only [Nat.mul_one, Bool.not_eq_true', decide_eq_false_iff_not] at hc'
    omega

end Rounds

end Zsim.Ageing
