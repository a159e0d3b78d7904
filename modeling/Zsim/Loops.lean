import Mathlib.Algebra.Order.Ring.Int
import Zsim.WeakestPre
import Mathlib.Algebra.BigOperators.Group.List.Basic
import Mathlib.Data.Nat.Notation
import Mathlib.Logic.Function.Basic

/-!
# Loops, and machines that take turns

A turn of a loop answers whether there is another one. A group of machines takes
turns in an order that a scheduler chooses, until each has had its last one. The
machines do not share any state, so the group ends exactly when each machine
alone does, and in the same states.
-/

namespace Zsim.Loops

open WeakestPre

variable {σ ε : Type}

/-- Take turns until one of them is the last. -/
def loop (e : ε) (turn : Prog σ ε Bool) : ℕ → Prog σ ε Unit
  | 0 => abort e
  | rounds + 1 => do
    let again ← turn
    if again then loop e turn rounds else pure ()

/-- The turns from `s` are `n`, and the last of them leaves `s'`. -/
inductive EndsIn (turn : Prog σ ε Bool) : ℕ → σ → σ → Prop
  | last {s s' : σ} (h : turn s = .ok (false, s')) : EndsIn turn 1 s s'
  | again {n : ℕ} {s s₁ s' : σ} (h : turn s = .ok (true, s₁)) (hrest : EndsIn turn n s₁ s') :
    EndsIn turn (n + 1) s s'

/-- The last of the turns from `s` leaves `s'`. -/
def Ends (turn : Prog σ ε Bool) (s s' : σ) : Prop := ∃ n, EndsIn turn n s s'

section Ends

variable {turn : Prog σ ε Bool} {e : ε} {s s₁ s' s'' : σ}

theorem loop_last (h : turn s = .ok (false, s')) (rounds : ℕ) :
    loop e turn (rounds + 1) s = .ok ((), s') := by
  change ((turn s).bind fun x => (if x.1 then loop e turn rounds else pure ()) x.2) = _
  rw [h]
  rfl

theorem loop_again (h : turn s = .ok (true, s₁)) (rounds : ℕ) :
    loop e turn (rounds + 1) s = loop e turn rounds s₁ := by
  change ((turn s).bind fun x => (if x.1 then loop e turn rounds else pure ()) x.2) = _
  rw [h]
  rfl

theorem loop_error {x : ε} (h : turn s = .error x) (rounds : ℕ) :
    loop e turn (rounds + 1) s = .error x := by
  change ((turn s).bind fun x => (if x.1 then loop e turn rounds else pure ()) x.2) = _
  rw [h]
  rfl

/-- Enough rounds for the turns are enough for the loop. -/
theorem EndsIn.loop {n : ℕ} (h : EndsIn turn n s s') (e : ε) {rounds : ℕ} (hn : n ≤ rounds) :
    loop e turn rounds s = .ok ((), s') := by
  induction h generalizing rounds with
  | last hlast =>
    obtain ⟨r, rfl⟩ := Nat.exists_eq_add_of_le' hn
    exact loop_last hlast r
  | @again n _ _ _ hturn _ ih =>
    obtain ⟨r, rfl⟩ := Nat.exists_eq_add_of_le' hn
    have hrounds : r + (n + 1) = r + n + 1 := by omega
    rw [hrounds, loop_again hturn]
    exact ih (by omega)

/-- A loop that returns ends. -/
theorem ends_of_loop {rounds : ℕ} (h : loop e turn rounds s = .ok ((), s')) : Ends turn s s' := by
  induction rounds generalizing s with
  | zero => cases h
  | succ rounds ih =>
    cases hturn : turn s with
    | error x =>
      rw [loop_error hturn] at h
      cases h
    | ok r =>
      obtain ⟨again, s₁⟩ := r
      cases again with
      | false =>
        rw [loop_last hturn] at h
        cases h
        exact ⟨1, .last hturn⟩
      | true =>
        rw [loop_again hturn] at h
        obtain ⟨n, hn⟩ := ih h
        exact ⟨n + 1, .again hturn hn⟩

theorem ends_iff_loop : Ends turn s s' ↔ ∃ rounds, loop e turn rounds s = .ok ((), s') := by
  constructor
  · intro ⟨n, hn⟩
    exact ⟨n, hn.loop e (Nat.le_refl n)⟩
  · intro ⟨rounds, hloop⟩
    exact ends_of_loop hloop

/-- The last turn is the only one. -/
theorem EndsIn.of_last {n : ℕ} (h : EndsIn turn n s s'') (hturn : turn s = .ok (false, s')) :
    n = 1 ∧ s'' = s' := by
  cases h with
  | last h =>
    rw [hturn] at h
    cases h
    exact ⟨rfl, rfl⟩
  | again h _ =>
    rw [hturn] at h
    cases h

/-- Another turn leaves one turn less. -/
theorem EndsIn.of_again {n : ℕ} (h : EndsIn turn n s s') (hturn : turn s = .ok (true, s₁)) :
    ∃ m, n = m + 1 ∧ EndsIn turn m s₁ s' := by
  cases h with
  | last h =>
    rw [hturn] at h
    cases h
  | again h hrest =>
    rw [hturn] at h
    cases h
    exact ⟨_, rfl, hrest⟩

theorem ends_last (h : turn s = .ok (false, s')) : Ends turn s s'' ↔ s'' = s' := by
  constructor
  · intro ⟨n, hn⟩
    exact (hn.of_last h).2
  · intro heq
    exact ⟨1, .last (heq ▸ h)⟩

theorem ends_again (h : turn s = .ok (true, s₁)) : Ends turn s s' ↔ Ends turn s₁ s' := by
  constructor
  · intro ⟨n, hn⟩
    obtain ⟨m, -, hm⟩ := hn.of_again h
    exact ⟨m, hm⟩
  · intro ⟨m, hm⟩
    exact ⟨m + 1, .again h hm⟩

/-- A loop that ends has a first turn. -/
theorem EndsIn.first {n : ℕ} (h : EndsIn turn n s s') : ∃ again s₁, turn s = .ok (again, s₁) := by
  cases h with
  | last h => exact ⟨false, _, h⟩
  | again h _ => exact ⟨true, _, h⟩

/-- Two loops whose turns agree wherever the first one gets end alike. -/
theorem ends_congr {turn' : Prog σ ε Bool} (inv : σ → Prop) (hsame : ∀ s, inv s → turn s = turn' s)
    (hkeep : ∀ s s', inv s → turn s = .ok (true, s') → inv s') (h : inv s) :
    Ends turn s s' ↔ Ends turn' s s' := by
  constructor
  · intro ⟨n, hn⟩
    induction hn with
    | last hturn => exact ⟨1, .last (hsame _ h ▸ hturn)⟩
    | again hturn _ ih =>
      obtain ⟨m, hm⟩ := ih (hkeep _ _ h hturn)
      exact ⟨m + 1, .again (hsame _ h ▸ hturn) hm⟩
  · intro ⟨n, hn⟩
    induction hn with
    | last hturn => exact ⟨1, .last (hsame _ h ▸ hturn)⟩
    | again hturn _ ih =>
      have hback := (hsame _ h).trans hturn
      obtain ⟨m, hm⟩ := ih (hkeep _ _ h hback)
      exact ⟨m + 1, .again hback hm⟩

end Ends

section Group

variable {ι : Type} [DecidableEq ι] {turn : Prog σ ε Bool} {l l' : List ι} {ms es : ι → σ} {i : ι}
  {m : σ}

/-- Each of the machines in the list ends, and the others stay as they are. -/
def AllEnd (turn : Prog σ ε Bool) (l : List ι) (ms es : ι → σ) : Prop :=
  (∀ i ∈ l, Ends turn (ms i) (es i)) ∧ ∀ i, i ∉ l → es i = ms i

/-- The machines in the list end, in `work` turns in all. -/
def AllEndIn (turn : Prog σ ε Bool) (work : ℕ) (l : List ι) (ms es : ι → σ) : Prop :=
  (∃ turns : ι → ℕ, (∀ i ∈ l, EndsIn turn (turns i) (ms i) (es i)) ∧ (l.map turns).sum = work) ∧
    ∀ i, i ∉ l → es i = ms i

theorem AllEnd.allEndIn (h : AllEnd turn l ms es) : ∃ work, AllEndIn turn work l ms es := by
  classical
  obtain ⟨hends, hothers⟩ := h
  have hturns : ∀ i, ∃ n, i ∈ l → EndsIn turn n (ms i) (es i) := by
    intro i
    by_cases hi : i ∈ l
    · obtain ⟨n, hn⟩ := hends i hi
      exact ⟨n, fun _ => hn⟩
    · exact ⟨0, fun hin => absurd hin hi⟩
  choose turns hturns using hturns
  exact ⟨_, ⟨turns, hturns, rfl⟩, hothers⟩

omit [DecidableEq ι] in
theorem allEnd_perm (hl : l.Perm l') : AllEnd turn l ms es ↔ AllEnd turn l' ms es := by
  have hmem : ∀ i, i ∈ l ↔ i ∈ l' := fun _ => hl.mem_iff
  simp only [AllEnd, hmem]

omit [DecidableEq ι] in
theorem AllEndIn.perm {work : ℕ} (h : AllEndIn turn work l ms es) (hl : l.Perm l') :
    AllEndIn turn work l' ms es := by
  obtain ⟨⟨turns, hturns, hsum⟩, hothers⟩ := h
  refine ⟨⟨turns, fun i hi => hturns i (hl.mem_iff.mpr hi), ?_⟩, fun i hi => ?_⟩
  · rw [← hsum, (hl.map turns).sum_eq]
  · exact hothers i fun hin => hi (hl.mem_iff.mp hin)

/-- A turn of a machine that goes on. -/
theorem allEnd_again (hi : i ∈ l) (h : turn (ms i) = .ok (true, m)) :
    AllEnd turn l ms es ↔ AllEnd turn l (Function.update ms i m) es := by
  unfold AllEnd
  refine and_congr (forall₂_congr fun j hj => ?_) (forall₂_congr fun j hj => ?_)
  · by_cases hji : j = i
    · rw [hji, Function.update_self]
      exact ends_again h
    · rw [Function.update_of_ne hji]
  · have hji : j ≠ i := fun heq => hj (heq ▸ hi)
    rw [Function.update_of_ne hji]

/-- The last turn of a machine. -/
theorem allEnd_last (hl : l.Nodup) (hi : i ∈ l) (h : turn (ms i) = .ok (false, m)) :
    AllEnd turn l ms es ↔ AllEnd turn (l.erase i) (Function.update ms i m) es := by
  have hmem : ∀ j, j ∈ l.erase i ↔ j ≠ i ∧ j ∈ l := fun j => hl.mem_erase_iff
  constructor
  · intro ⟨hends, hothers⟩
    constructor
    · intro j hj
      obtain ⟨hji, hj⟩ := (hmem j).mp hj
      rw [Function.update_of_ne hji]
      exact hends j hj
    · intro j hj
      by_cases hji : j = i
      · rw [hji, Function.update_self]
        exact (ends_last h).mp (hends i hi)
      · rw [Function.update_of_ne hji]
        exact hothers j fun hin => hj ((hmem j).mpr ⟨hji, hin⟩)
  · intro ⟨hends, hothers⟩
    constructor
    · intro j hj
      by_cases hji : j = i
      · have hlast := hothers i fun hin => ((hmem i).mp hin).1 rfl
        rw [Function.update_self] at hlast
        rw [hji]
        exact (ends_last h).mpr hlast
      · have hrest := hends j ((hmem j).mpr ⟨hji, hj⟩)
        rwa [Function.update_of_ne hji] at hrest
    · intro j hj
      have hji : j ≠ i := fun heq => hj (heq ▸ hi)
      have hrest := hothers j fun hin => hj ((hmem j).mp hin).2
      rwa [Function.update_of_ne hji] at hrest

theorem sum_map_update {turns : ι → ℕ} {n : ℕ} (hl : l.Nodup) (hi : i ∈ l)
    (h : turns i = n + 1) :
    (l.map turns).sum = (l.map (Function.update turns i n)).sum + 1 := by
  have hperm := List.perm_cons_erase hi
  have hrest : (l.erase i).map (Function.update turns i n) = (l.erase i).map turns := by
    refine List.map_congr_left fun j hj => ?_
    exact Function.update_of_ne (hl.mem_erase_iff.mp hj).1 _ _
  rw [(hperm.map turns).sum_eq, (hperm.map (Function.update turns i n)).sum_eq, List.map_cons,
    List.map_cons, hrest, Function.update_self, List.sum_cons, List.sum_cons, h]
  omega

/-- A turn of a machine that goes on is one turn of the work. -/
theorem AllEndIn.again {work : ℕ} (h : AllEndIn turn work l ms es) (hl : l.Nodup) (hi : i ∈ l)
    (hturn : turn (ms i) = .ok (true, m)) :
    ∃ w, work = w + 1 ∧ AllEndIn turn w l (Function.update ms i m) es := by
  obtain ⟨⟨turns, hturns, rfl⟩, hothers⟩ := h
  obtain ⟨n, hn, hrest⟩ := (hturns i hi).of_again hturn
  refine ⟨_, sum_map_update hl hi hn, ⟨Function.update turns i n, fun j hj => ?_, rfl⟩, fun j hj => ?_⟩
  · by_cases hji : j = i
    · rw [hji, Function.update_self, Function.update_self]
      exact hrest
    · rw [Function.update_of_ne hji, Function.update_of_ne hji]
      exact hturns j hj
  · have hji : j ≠ i := fun heq => hj (heq ▸ hi)
    rw [Function.update_of_ne hji]
    exact hothers j hj

/-- The last turn of a machine is one turn of the work. -/
theorem AllEndIn.last {work : ℕ} (h : AllEndIn turn work l ms es) (hl : l.Nodup) (hi : i ∈ l)
    (hturn : turn (ms i) = .ok (false, m)) :
    ∃ w, work = w + 1 ∧ AllEndIn turn w (l.erase i) (Function.update ms i m) es := by
  obtain ⟨⟨turns, hturns, rfl⟩, hothers⟩ := h
  obtain ⟨hone, hend⟩ := (hturns i hi).of_last hturn
  have hperm := (List.perm_cons_erase hi).map turns
  refine ⟨((l.erase i).map turns).sum, ?_, ⟨turns, fun j hj => ?_, rfl⟩, fun j hj => ?_⟩
  · rw [hperm.sum_eq, List.map_cons, List.sum_cons, hone, Nat.add_comm]
  · obtain ⟨hji, hj⟩ := hl.mem_erase_iff.mp hj
    rw [Function.update_of_ne hji]
    exact hturns j hj
  · by_cases hji : j = i
    · rw [hji, Function.update_self]
      exact hend
    · rw [Function.update_of_ne hji]
      exact hothers j fun hin => hj (hl.mem_erase_iff.mpr ⟨hji, hin⟩)

end Group

end Zsim.Loops
