import Mathlib.Algebra.Order.Ring.Int
import Mathlib.Data.Finset.Card
import Mathlib.Data.List.Flatten
import Mathlib.Logic.Relation
import Mathlib.Order.WellFoundedSet
import Zsim.GuardedRuns

/-!
# Graphs of timed events

An event is told by each of its parents when that parent completes. The last of them starts it. It takes the
cycles of its own work and however long it is held up, then it is done, and it completes a delay later.
-/

namespace Zsim.TimedGraphs

open GuardedRuns Relation

/-- Events and their children. An event starts `pre` cycles after its last parent has completed, works for
`work` cycles, and completes `post` cycles after it is done. An instant event is never held up. -/
structure Graph (ν : Type) where
  edges : List (ν × ν)
  pre : ν → ℕ
  work : ν → ℕ
  post : ν → ℕ
  instant : ν → Bool

inductive Status where
  | waiting
  | queued (cycle : ℕ)
  | done
  deriving DecidableEq

/-- What is kept of each event: how many parents are missing, the last cycle that a parent has told it, and the
cycle at which it was done. -/
structure Execution (ν : Type) where
  missing : ν → ℕ
  cycle : ν → ℕ
  status : ν → Status
  finish : ν → ℕ

inductive Move (ν : Type) where
  /-- The event is queued again. -/
  | postpone (e : ν) (cycle : ℕ)
  | finish (e : ν) (cycle : ℕ)

section Model

variable {ν : Type}

def Graph.Edge (g : Graph ν) (p e : ν) : Prop := (p, e) ∈ g.edges

/-- No event comes before itself. -/
def Graph.Acyclic (g : Graph ν) : Prop := ∀ e, ¬ TransGen g.Edge e e

/-- The cycles from the last parent's completion to that of an event that is not held up. -/
def Graph.latency (g : Graph ν) (e : ν) : ℕ := g.pre e + g.work e + g.post e

def Graph.start (g : Graph ν) (s : Execution ν) (e : ν) : ℕ := s.cycle e + g.pre e

def Graph.completion (g : Graph ν) (s : Execution ν) (e : ν) : ℕ := s.finish e + g.post e

variable [DecidableEq ν]

/-- The root is told a cycle, all other events wait. -/
def Graph.init (g : Graph ν) (root : ν) (cycle : ℕ) : Execution ν where
  missing e := g.edges.countP fun x => x.2 = e
  cycle := Function.update (fun _ => 0) root cycle
  status := Function.update (fun _ => .waiting) root (.queued (cycle + g.pre root))
  finish _ := 0

/-- The event is done and tells its children. -/
def Graph.complete (g : Graph ν) (s : Execution ν) (e : ν) (c : ℕ) : Execution ν :=
  let missing b := s.missing b - g.edges.count (e, b)
  let cycle b := if (e, b) ∈ g.edges then max (s.cycle b) (c + g.post e) else s.cycle b
  { missing := missing
    cycle := cycle
    status := fun b =>
      if b = e then .done
      else if (e, b) ∈ g.edges ∧ missing b = 0 then .queued (cycle b + g.pre b)
      else s.status b
    finish := Function.update s.finish e c }

def Graph.step (g : Graph ν) (s : Execution ν) : Move ν → Option (Execution ν)
  | .postpone e c =>
    match s.status e with
    | .queued q =>
      if q ≤ c ∧ g.instant e = false then
        some { s with status := Function.update s.status e (.queued c) }
      else none
    | _ => none
  | .finish e c =>
    match s.status e with
    | .queued q =>
      if q ≤ c ∧ g.start s e + g.work e ≤ c ∧ (g.instant e = true → c = g.start s e + g.work e) then
        some (g.complete s e c)
      else none
    | _ => none

/-- Each event is the parent of the next one. -/
def chain : ν → List ν → List (ν × ν)
  | _, [] => []
  | a, e :: es => (a, e) :: chain e es

/-- The last event of a chain. -/
def final : ν → List ν → ν
  | a, [] => a
  | _, e :: es => final e es

end Model

section Acyclic

variable {ν : Type} {g : Graph ν}

/-- Levels that no edge decreases, and no cycle inside a level. -/
theorem acyclic_of_levels (level : ν → ℕ) (hle : ∀ a b, g.Edge a b → level a ≤ level b)
    (hsame : ∀ e, ¬ TransGen (fun a b => g.Edge a b ∧ level a = level b) e e) : g.Acyclic := by
  have hmono : ∀ {a b}, TransGen g.Edge a b → level a ≤ level b := by
    intro a b hab
    induction hab with
    | single hedge => exact hle _ _ hedge
    | tail _ hedge ih => exact ih.trans (hle _ _ hedge)
  have hflat : ∀ {a b}, TransGen g.Edge a b → level b ≤ level a →
      TransGen (fun a b => g.Edge a b ∧ level a = level b) a b := by
    intro a b hab
    induction hab with
    | single hedge => exact fun hba => .single ⟨hedge, (hle _ _ hedge).antisymm hba⟩
    | tail hpath hedge ih =>
      intro hba
      have hlast := hle _ _ hedge
      have hfirst := hmono hpath
      exact (ih (hlast.trans hba)).tail ⟨hedge, hlast.antisymm (hba.trans hfirst)⟩
  exact fun e he => hsame e (hflat he le_rfl)

/-- The parents of an event in a finite acyclic graph can be followed only so far. -/
theorem Graph.Acyclic.wellFounded (hac : g.Acyclic) : WellFounded g.Edge := by
  have hstrict : IsStrictOrder ν (TransGen g.Edge) :=
    { irrefl := hac, trans := fun _ _ _ => TransGen.trans }
  have hfinite : {e | e ∈ g.edges.map Prod.fst ∨ e ∈ g.edges.map Prod.snd}.Finite := by
    apply Set.Finite.union
    · exact List.finite_toSet _
    · exact List.finite_toSet _
  have hwf := Set.wellFoundedOn_iff.mp (hfinite.wellFoundedOn (r := TransGen g.Edge))
  apply Subrelation.wf _ hwf
  intro a b hab
  exact ⟨.single hab, .inl (List.mem_map_of_mem hab), .inr (List.mem_map_of_mem hab)⟩

end Acyclic

section Invariant

variable {ν : Type} [DecidableEq ν] {g : Graph ν} {root : ν} {c₀ : ℕ} {s : Execution ν}

/-- What has been told in an execution from the root. -/
structure Inv (g : Graph ν) (root : ν) (c₀ : ℕ) (s : Execution ν) : Prop where
  no_parent : ∀ p, ¬ g.Edge p root
  missing_eq : ∀ b, s.missing b = g.edges.countP fun x => x.2 = b ∧ s.status x.1 ≠ .done
  root_cycle : s.cycle root = c₀
  root_status : s.status root ≠ .waiting
  source : ∀ b, s.status b ≠ .waiting → b = root ∨ ∃ p, g.Edge p b
  parents_done : ∀ b, s.status b ≠ .waiting → ∀ p, g.Edge p b → s.status p = .done
  waits : ∀ b, s.status b = .waiting → ∀ p, g.Edge p b → ∃ p, g.Edge p b ∧ s.status p ≠ .done
  completion_le : ∀ p b, g.Edge p b → s.status p = .done → g.completion s p ≤ s.cycle b
  told : ∀ b, b ≠ root →
    s.cycle b = 0 ∨ ∃ p, g.Edge p b ∧ s.status p = .done ∧ s.cycle b = g.completion s p
  queued_ge : ∀ b q, s.status b = .queued q →
    g.start s b ≤ q ∧ (g.instant b = true → q = g.start s b)
  finish_ge : ∀ b, s.status b = .done →
    g.start s b + g.work b ≤ s.finish b ∧ (g.instant b = true → s.finish b = g.start s b + g.work b)

/-- An event with a parent that is not done waits. -/
theorem Inv.waiting_of_edge (h : Inv g root c₀ s) {p b : ν} (hedge : g.Edge p b) (hp : s.status p ≠ .done) :
    s.status b = .waiting :=
  not_imp_comm.mp (h.parents_done b) fun hdone => hp (hdone p hedge)

theorem inv_init (hroot : ∀ p, ¬ g.Edge p root) : Inv g root c₀ (g.init root c₀) := by
  have hstatus : ∀ b, (g.init root c₀).status b = if b = root then .queued (c₀ + g.pre root) else .waiting :=
    fun b => Function.update_apply (fun _ => Status.waiting) root _ b
  have hundone : ∀ b, (g.init root c₀).status b ≠ .done := by
    intro b
    rw [hstatus]
    split <;> nofun
  have hcycle : ∀ b, (g.init root c₀).cycle b = if b = root then c₀ else 0 :=
    fun b => Function.update_apply (fun _ => 0) root c₀ b
  have hwaiting : ∀ b, (g.init root c₀).status b ≠ .waiting → b = root := by
    intro b hb
    by_contra hne
    exact hb ((hstatus b).trans (if_neg hne))
  constructor
  · exact hroot
  · intro b
    simp only [hundone, ne_eq, not_false_eq_true, and_true]
    rfl
  · exact (hcycle root).trans (if_pos rfl)
  · rw [hstatus, if_pos rfl]
    nofun
  · exact fun b hb => .inl (hwaiting b hb)
  · intro b hb p hedge
    exact absurd (hwaiting b hb ▸ hedge) (hroot p)
  · exact fun b _ p hedge => ⟨p, hedge, hundone p⟩
  · exact fun p b _ hp => absurd hp (hundone p)
  · exact fun b hb => .inl ((hcycle b).trans (if_neg hb))
  · intro b q hb
    have heq := hwaiting b (by simp [hb])
    rw [hstatus, if_pos heq] at hb
    rw [Graph.start, hcycle, if_pos heq, heq]
    cases hb
    exact ⟨le_rfl, fun _ => rfl⟩
  · exact fun b hb => absurd hb (hundone b)

/-- One parent less is missing for each edge to it. -/
theorem countP_missing {P Q : ν → Prop} [DecidablePred P] [DecidablePred Q] {e : ν} (he : ¬ P e)
    (hQ : ∀ p, Q p ↔ p = e ∨ P p) (b : ν) (edges : List (ν × ν)) :
    (edges.countP fun x => x.2 = b ∧ ¬ P x.1) - edges.count (e, b) =
      edges.countP fun x => x.2 = b ∧ ¬ Q x.1 := by
  have hsum : (edges.countP fun x => x.2 = b ∧ ¬ P x.1) =
      (edges.countP fun x => x.2 = b ∧ ¬ Q x.1) + edges.count (e, b) := by
    induction edges with
    | nil => rfl
    | cons x edges ih =>
      obtain ⟨p, d⟩ := x
      rw [List.countP_cons, List.countP_cons, List.count_cons, ih]
      by_cases hd : d = b
      · by_cases hp : p = e
        · simp [hQ, he, hd, hp]
          omega
        · simp [hQ, hd, hp]
          omega
      · simp [hd]
  omega

/-- A step either queues an event again, later, or lets it be done. -/
theorem step_cases {s' : Execution ν} {m : Move ν} (h : g.step s m = some s') :
    (∃ e q c, s.status e = .queued q ∧ q ≤ c ∧ g.instant e = false ∧
      s' = { s with status := Function.update s.status e (.queued c) }) ∨
    ∃ e q c, s.status e = .queued q ∧ q ≤ c ∧ g.start s e + g.work e ≤ c ∧
      (g.instant e = true → c = g.start s e + g.work e) ∧ s' = g.complete s e c := by
  cases m with
  | postpone e c =>
    simp only [Graph.step] at h
    split at h
    · next q hq =>
      split at h
      · next hc => exact .inl ⟨e, q, c, hq, hc.1, hc.2, (Option.some.inj h).symm⟩
      · cases h
    · cases h
  | finish e c =>
    simp only [Graph.step] at h
    split at h
    · next q hq =>
      split at h
      · next hc => exact .inr ⟨e, q, c, hq, hc.1, hc.2.1, hc.2.2, (Option.some.inj h).symm⟩
      · cases h
    · cases h

/-- An event that is queued again is the same to all others. -/
theorem Inv.postpone (h : Inv g root c₀ s) {e : ν} {q c : ℕ} (he : s.status e = .queued q) (hle : q ≤ c)
    (hinstant : g.instant e = false) :
    Inv g root c₀ { s with status := Function.update s.status e (.queued c) } := by
  have hdone : ∀ b, Function.update s.status e (.queued c) b = .done ↔ s.status b = .done := by
    intro b
    rw [Function.update_apply]
    split
    · next hb => simp [hb, he]
    · rfl
  have hwaiting : ∀ b, Function.update s.status e (.queued c) b = .waiting ↔ s.status b = .waiting := by
    intro b
    rw [Function.update_apply]
    split
    · next hb => simp [hb, he]
    · rfl
  constructor
  · exact h.no_parent
  · intro b
    simp only [ne_eq, hdone]
    exact h.missing_eq b
  · exact h.root_cycle
  · exact mt (hwaiting root).mp h.root_status
  · exact fun b hb => h.source b (mt (hwaiting b).mpr hb)
  · exact fun b hb p hedge => (hdone p).mpr (h.parents_done b (mt (hwaiting b).mpr hb) p hedge)
  · intro b hb p hedge
    obtain ⟨p', hedge', hp'⟩ := h.waits b ((hwaiting b).mp hb) p hedge
    exact ⟨p', hedge', mt (hdone p').mp hp'⟩
  · exact fun p b hedge hp => h.completion_le p b hedge ((hdone p).mp hp)
  · intro b hb
    apply (h.told b hb).imp_right
    exact fun ⟨p, hedge, hp, heq⟩ => ⟨p, hedge, (hdone p).mpr hp, heq⟩
  · intro b q' hb
    simp only [Function.update_apply] at hb
    split at hb
    · next heq =>
      cases hb
      have hge := (h.queued_ge e q he).1
      subst heq
      exact ⟨hge.trans hle, fun htrue => absurd (hinstant.symm.trans htrue) nofun⟩
    · exact h.queued_ge b q' hb
  · exact fun b hb => h.finish_ge b ((hdone b).mp hb)

section Complete

variable {e : ν} {q c : ℕ}

/-- The events that are done after one more is done. -/
theorem Inv.complete_done (h : Inv g root c₀ s) (he : s.status e = .queued q) (p : ν) :
    (g.complete s e c).status p = .done ↔ p = e ∨ s.status p = .done := by
  simp only [Graph.complete]
  split
  · next hp => simp [hp]
  · next hp =>
    split
    · next hchild =>
      have hwaiting := h.waiting_of_edge hchild.1 (by simp [he])
      simp [hp, hwaiting]
    · simp [hp]

/-- The cycles of the events that are not its children stay. -/
theorem complete_cycle {b : ν} (hb : ¬ g.Edge e b) : (g.complete s e c).cycle b = s.cycle b := if_neg hb

theorem complete_cycle_child {b : ν} (hb : g.Edge e b) :
    (g.complete s e c).cycle b = max (s.cycle b) (c + g.post e) := if_pos hb

theorem completion_complete {p : ν} (hp : p ≠ e) :
    g.completion (g.complete s e c) p = g.completion s p := by
  simp only [Graph.completion, Graph.complete, Function.update_of_ne hp]

theorem completion_complete_self : g.completion (g.complete s e c) e = c + g.post e := by
  simp only [Graph.completion, Graph.complete, Function.update_self]

theorem Inv.complete_missing (h : Inv g root c₀ s) (he : s.status e = .queued q) (b : ν) :
    (g.complete s e c).missing b =
      g.edges.countP fun x => x.2 = b ∧ (g.complete s e c).status x.1 ≠ .done := by
  have hcount := countP_missing (P := fun p => s.status p = .done)
    (Q := fun p => (g.complete s e c).status p = .done) (by simp [he]) (h.complete_done he) b g.edges
  exact (congrArg (· - g.edges.count (e, b)) (h.missing_eq b)).trans hcount

/-- No parent is missing when none is left to be done. -/
theorem Inv.complete_missing_eq_zero (h : Inv g root c₀ s) (he : s.status e = .queued q) (b : ν) :
    (g.complete s e c).missing b = 0 ↔ ∀ p, g.Edge p b → (g.complete s e c).status p = .done := by
  rw [h.complete_missing he, List.countP_eq_zero]
  simp only [decide_eq_true_eq, not_and, not_not]
  exact ⟨fun hall p hedge => hall (p, b) hedge rfl, fun hall x hx hb => hall x.1 (hb ▸ hx)⟩

/-- An event that is done: what each event is then, by what it was. -/
theorem Inv.complete_status (h : Inv g root c₀ s) (he : s.status e = .queued q) (b : ν) :
    (b = e ∧ (g.complete s e c).status b = .done) ∨
    (b ≠ e ∧ g.Edge e b ∧ s.status b = .waiting ∧ (g.complete s e c).missing b = 0 ∧
      (g.complete s e c).status b = .queued (g.start (g.complete s e c) b)) ∨
    (b ≠ e ∧ (g.Edge e b → s.status b = .waiting ∧ (g.complete s e c).missing b ≠ 0) ∧
      (g.complete s e c).status b = s.status b) := by
  have hwaiting : g.Edge e b → s.status b = .waiting := fun hb => h.waiting_of_edge hb (by simp [he])
  by_cases hb : b = e
  · exact .inl ⟨hb, if_pos hb⟩
  · by_cases hchild : g.Edge e b ∧ (g.complete s e c).missing b = 0
    · exact .inr (.inl ⟨hb, hchild.1, hwaiting hchild.1, hchild.2, (if_neg hb).trans (if_pos hchild)⟩)
    · exact .inr (.inr ⟨hb, fun hedge => ⟨hwaiting hedge, fun hzero => hchild ⟨hedge, hzero⟩⟩,
        (if_neg hb).trans (if_neg hchild)⟩)

/-- What has started keeps the cycle of its start. -/
theorem Inv.complete_start (h : Inv g root c₀ s) (he : s.status e = .queued q) {b : ν}
    (hb : s.status b ≠ .waiting) : g.start (g.complete s e c) b = g.start s b := by
  have hchild : ¬ g.Edge e b := fun hedge => hb (h.waiting_of_edge hedge (by simp [he]))
  exact congrArg (· + g.pre b) (complete_cycle hchild)

/-- An event that is done keeps the invariant. -/
theorem Inv.complete (h : Inv g root c₀ s) (he : s.status e = .queued q) (hge : g.start s e + g.work e ≤ c)
    (hinstant : g.instant e = true → c = g.start s e + g.work e) : Inv g root c₀ (g.complete s e c) := by
  have hne : s.status e ≠ .done := by simp [he]
  have hdone := h.complete_done (c := c) he
  constructor
  · exact h.no_parent
  · exact h.complete_missing he
  · exact (complete_cycle (h.no_parent e)).trans h.root_cycle
  · rcases h.complete_status (c := c) he root with hcase | hcase | hcase
    · simp [hcase.2]
    · simp [hcase.2.2.2.2]
    · exact hcase.2.2 ▸ h.root_status
  · intro b hb
    rcases h.complete_status (c := c) he b with hcase | hcase | hcase
    · exact h.source b (by simp [hcase.1, he])
    · exact .inr ⟨e, hcase.2.1⟩
    · exact h.source b (hcase.2.2 ▸ hb)
  · intro b hb p hedge
    rcases h.complete_status (c := c) he b with hcase | hcase | hcase
    · exact (hdone p).mpr (.inr (h.parents_done b (by simp [hcase.1, he]) p hedge))
    · exact (h.complete_missing_eq_zero he b).mp hcase.2.2.2.1 p hedge
    · exact (hdone p).mpr (.inr (h.parents_done b (hcase.2.2 ▸ hb) p hedge))
  · intro b hb p hedge
    rcases h.complete_status (c := c) he b with hcase | hcase | hcase
    · exact absurd (hcase.2.symm.trans hb) nofun
    · exact absurd (hcase.2.2.2.2.symm.trans hb) nofun
    · by_cases hchild : g.Edge e b
      · have hmissing := mt (h.complete_missing_eq_zero (c := c) he b).mpr (hcase.2.1 hchild).2
        push Not at hmissing
        exact hmissing
      · obtain ⟨p', hedge', hp'⟩ := h.waits b (hcase.2.2 ▸ hb) p hedge
        have hpe : p' ≠ e := fun heq => hchild (heq ▸ hedge')
        exact ⟨p', hedge', fun hd => ((hdone p').mp hd).elim hpe hp'⟩
  · intro p b hedge hp
    by_cases hpe : p = e
    · subst hpe
      rw [completion_complete_self, complete_cycle_child hedge]
      exact le_max_right ..
    · have hle := h.completion_le p b hedge (((hdone p).mp hp).resolve_left hpe)
      rw [completion_complete hpe]
      apply hle.trans
      by_cases hchild : g.Edge e b
      · rw [complete_cycle_child hchild]
        exact le_max_left ..
      · exact (complete_cycle hchild).ge
  · intro b hb
    have hold : s.cycle b = 0 ∨ ∃ p, g.Edge p b ∧ (g.complete s e c).status p = .done ∧
        s.cycle b = g.completion (g.complete s e c) p := by
      apply (h.told b hb).imp_right
      intro ⟨p, hedge, hp, heq⟩
      have hpe : p ≠ e := fun h' => hne (h' ▸ hp)
      exact ⟨p, hedge, (hdone p).mpr (.inr hp), heq.trans (completion_complete hpe).symm⟩
    by_cases hchild : g.Edge e b
    · rw [complete_cycle_child hchild]
      rcases le_total (s.cycle b) (c + g.post e) with hle | hle
      · rw [max_eq_right hle]
        exact .inr ⟨e, hchild, (hdone e).mpr (.inl rfl), completion_complete_self.symm⟩
      · rw [max_eq_left hle]
        exact hold
    · rw [complete_cycle hchild]
      exact hold
  · intro b q' hb
    rcases h.complete_status (c := c) he b with hcase | hcase | hcase
    · exact absurd (hcase.2.symm.trans hb) nofun
    · cases hcase.2.2.2.2.symm.trans hb
      exact ⟨le_rfl, fun _ => rfl⟩
    · have hqueued := hcase.2.2.symm.trans hb
      rw [h.complete_start he (by simp [hqueued])]
      exact h.queued_ge b q' hqueued
  · intro b hb
    rcases (hdone b).mp hb with heq | hb'
    · subst heq
      rw [h.complete_start he (by simp [he])]
      simp only [Graph.complete, Function.update_self]
      exact ⟨hge, hinstant⟩
    · have hbe : b ≠ e := fun heq => hne (heq ▸ hb')
      rw [h.complete_start he (by simp [hb'])]
      simp only [Graph.complete, Function.update_of_ne hbe]
      exact h.finish_ge b hb'

end Complete

theorem Inv.step {s' : Execution ν} {m : Move ν} (h : Inv g root c₀ s) (hm : g.step s m = some s') :
    Inv g root c₀ s' := by
  rcases step_cases hm with ⟨e, q, c, he, hle, hinstant, rfl⟩ | ⟨e, q, c, he, -, hge, hinstant, rfl⟩
  · exact h.postpone he hle hinstant
  · exact h.complete he hge hinstant

/-- Every execution keeps the invariant. -/
theorem inv_run {s' : Execution ν} {ms : List (Move ν)} (hroot : ∀ p, ¬ g.Edge p root)
    (h : run g.step (g.init root c₀) ms = some s') : Inv g root c₀ s' :=
  run_invariant (fun _ _ _ hs hm => hs.step hm) (inv_init hroot) h

section Times

/-- The parents of an event that does not wait are done. -/
theorem Inv.done_of_edge (h : Inv g root c₀ s) {p b : ν} (hedge : g.Edge p b) (hb : s.status b ≠ .waiting) :
    s.status p = .done := h.parents_done b hb p hedge

/-- So is all that comes before it. -/
theorem Inv.done_of_before (h : Inv g root c₀ s) {p b : ν} (hpath : ReflTransGen g.Edge p b)
    (hb : s.status b = .done) : s.status p = .done := by
  induction hpath using ReflTransGen.head_induction_on with
  | refl => exact hb
  | head hedge _ ih => exact h.done_of_edge hedge (by simp [ih])

/-- An event that does not wait was told its cycle by one of its parents. -/
theorem Inv.exists_parent (h : Inv g root c₀ s) {b : ν} (hb : s.status b ≠ .waiting) (hne : b ≠ root) :
    ∃ p, g.Edge p b ∧ s.status p = .done ∧ s.cycle b = g.completion s p := by
  rcases h.told b hne with hzero | hparent
  · obtain ⟨p, hedge⟩ := (h.source b hb).resolve_left hne
    have hp := h.done_of_edge hedge hb
    have hle := h.completion_le p b hedge hp
    exact ⟨p, hedge, hp, by omega⟩
  · exact hparent

/-- No event is told a cycle before that of the root. -/
theorem Inv.root_le (h : Inv g root c₀ s) (hac : g.Acyclic) {b : ν} (hb : s.status b ≠ .waiting) :
    c₀ ≤ s.cycle b := by
  induction b using hac.wellFounded.induction with
  | _ b ih =>
    by_cases hne : b = root
    · rw [hne, h.root_cycle]
    · obtain ⟨p, hedge, hp, heq⟩ := h.exists_parent hb hne
      have hle := ih p hedge (by simp [hp])
      have hfinish := (h.finish_ge p hp).1
      simp only [Graph.start, Graph.completion] at hfinish heq
      omega

/-- An event with one parent starts when that parent completes. -/
theorem Inv.cycle_eq (h : Inv g root c₀ s) {p b : ν} (hedge : g.Edge p b) (hb : s.status b ≠ .waiting)
    (honly : ∀ p', g.Edge p' b → p' = p) : s.cycle b = g.completion s p := by
  have hne : b ≠ root := fun heq => h.no_parent p (heq ▸ hedge)
  obtain ⟨p', hedge', -, heq⟩ := h.exists_parent hb hne
  rw [heq, honly p' hedge']

/-- An event completes no earlier than its latency after it was told. -/
theorem Inv.latency_le (h : Inv g root c₀ s) {b : ν} (hb : s.status b = .done) :
    s.cycle b + g.latency b ≤ g.completion s b := by
  have hge := (h.finish_ge b hb).1
  simp only [Graph.start, Graph.latency, Graph.completion] at hge ⊢
  omega

/-- An event that was not held up. -/
def Prompt (g : Graph ν) (s : Execution ν) (e : ν) : Prop := s.finish e = g.start s e + g.work e

omit [DecidableEq ν] in
theorem Prompt.completion_eq {e : ν} (he : Prompt g s e) : g.completion s e = s.cycle e + g.latency e := by
  have heq : s.finish e = s.cycle e + g.pre e + g.work e := he
  simp only [Graph.completion, Graph.latency, heq]
  omega

end Times

section Chains

variable {a : ν} {es : List ν}

omit [DecidableEq ν] in
theorem chain_append (a : ν) (es fs : List ν) : chain a (es ++ fs) = chain a es ++ chain (final a es) fs := by
  induction es generalizing a with
  | nil => rfl
  | cons e es ih => exact congrArg ((a, e) :: ·) (ih e)

omit [DecidableEq ν] in
/-- The edges of a chain lead to its events. -/
theorem mem_of_mem_chain {x : ν × ν} (hx : x ∈ chain a es) : x.2 ∈ es := by
  induction es generalizing a with
  | nil => cases hx
  | cons e es ih =>
    rcases List.mem_cons.mp hx with heq | hx
    · rw [heq]
      exact List.mem_cons_self
    · exact List.mem_cons_of_mem _ (ih hx)

omit [DecidableEq ν] in
/-- They lead to each of them once. -/
theorem chain_map_snd (a : ν) (es : List ν) : (chain a es).map Prod.snd = es := by
  induction es generalizing a with
  | nil => rfl
  | cons e es ih => exact congrArg (e :: ·) (ih e)

omit [DecidableEq ν] in
/-- The edges of a chain with increasing levels increase them. -/
theorem chain_increases {level : ν → ℕ} (h : (a :: es).Pairwise fun e f => level e < level f) {x : ν × ν}
    (hx : x ∈ chain a es) : level x.1 < level x.2 := by
  induction es generalizing a with
  | nil => cases hx
  | cons e es ih =>
    obtain ⟨hfirst, hrest⟩ := List.pairwise_cons.mp h
    rcases List.mem_cons.mp hx with heq | hx
    · rw [heq]
      exact hfirst e List.mem_cons_self
    · exact ih hrest hx

omit [DecidableEq ν] in
theorem final_mem (a : ν) (es : List ν) : final a es = a ∨ final a es ∈ es := by
  induction es generalizing a with
  | nil => exact .inl rfl
  | cons e es ih =>
    right
    rcases ih e with heq | hmem
    · rw [final, heq]
      exact List.mem_cons_self
    · exact List.mem_cons_of_mem _ hmem

omit [DecidableEq ν] in
/-- The events of a chain come after its first one. -/
theorem chain_before (hsub : ∀ x ∈ chain a es, x ∈ g.edges) {e : ν} (he : e ∈ es) :
    ReflTransGen g.Edge a e := by
  induction es generalizing a with
  | nil => cases he
  | cons e' es ih =>
    have hedge : g.Edge a e' := hsub _ List.mem_cons_self
    rcases List.mem_cons.mp he with heq | he
    · rw [heq]
      exact .single hedge
    · exact .head hedge (ih (fun x hx => hsub x (List.mem_cons_of_mem _ hx)) he)

/-- A chain lasts at least as long as its events. -/
theorem Inv.chain_le (h : Inv g root c₀ s) (hsub : ∀ x ∈ chain a es, x ∈ g.edges)
    (hdone : s.status (final a es) = .done) :
    s.status a = .done ∧ g.completion s a + (es.map g.latency).sum ≤ g.completion s (final a es) := by
  induction es generalizing a with
  | nil => exact ⟨hdone, le_rfl⟩
  | cons e es ih =>
    obtain ⟨he, hle⟩ := ih (fun x hx => hsub x (List.mem_cons_of_mem _ hx)) hdone
    have hedge : g.Edge a e := hsub _ List.mem_cons_self
    have ha := h.done_of_edge hedge (by simp [he])
    have htold := h.completion_le a e hedge ha
    have hlatency := h.latency_le he
    simp only [List.map_cons, List.sum_cons, final]
    exact ⟨ha, by omega⟩

/-- A chain of prompt events, each with one parent, lasts as long as its events. -/
theorem Inv.chain_eq (h : Inv g root c₀ s) (hsub : ∀ x ∈ chain a es, x ∈ g.edges)
    (honly : ∀ x ∈ chain a es, ∀ p, g.Edge p x.2 → p = x.1)
    (hprompt : ∀ e ∈ es, s.status e = .done → Prompt g s e) (hdone : s.status (final a es) = .done) :
    g.completion s (final a es) = g.completion s a + (es.map g.latency).sum := by
  induction es generalizing a with
  | nil => rfl
  | cons e es ih =>
    have hrest := fun x hx => hsub x (List.mem_cons_of_mem _ hx)
    obtain ⟨he, -⟩ := h.chain_le hrest hdone
    have htail := ih hrest (fun x hx => honly x (List.mem_cons_of_mem _ hx))
      (fun x hx => hprompt x (List.mem_cons_of_mem _ hx)) hdone
    have htold := h.cycle_eq (hsub _ List.mem_cons_self) (by simp [he]) (honly _ List.mem_cons_self)
    have hlatency := (hprompt e List.mem_cons_self he).completion_eq
    simp only [List.map_cons, List.sum_cons, final]
    omega

end Chains

section Progress

/-- No event can move. -/
def Quiet (s : Execution ν) : Prop := ∀ e q, s.status e ≠ .queued q

omit [DecidableEq ν] in
theorem Quiet.done (hquiet : Quiet s) {e : ν} (he : s.status e ≠ .waiting) : s.status e = .done := by
  cases hstatus : s.status e with
  | waiting => exact absurd hstatus he
  | queued q => exact absurd hstatus (hquiet e q)
  | done => rfl

/-- Where nothing can move, an event whose parents are done is done. -/
theorem Inv.done_of_parents (h : Inv g root c₀ s) (hquiet : Quiet s) {p b : ν} (hedge : g.Edge p b)
    (hparents : ∀ p, g.Edge p b → s.status p = .done) : s.status b = .done := by
  apply hquiet.done
  intro hwaiting
  obtain ⟨p', hedge', hp'⟩ := h.waits b hwaiting p hedge
  exact hp' (hparents p' hedge')

/-- So are the events of a chain, where each has one parent. -/
theorem Inv.chain_done (h : Inv g root c₀ s) (hquiet : Quiet s) {a : ν} {es : List ν}
    (hsub : ∀ x ∈ chain a es, x ∈ g.edges) (honly : ∀ x ∈ chain a es, ∀ p, g.Edge p x.2 → p = x.1)
    (ha : s.status a = .done) {e : ν} (he : e ∈ es) : s.status e = .done := by
  induction es generalizing a with
  | nil => cases he
  | cons b es ih =>
    have hb := h.done_of_parents hquiet (hsub _ List.mem_cons_self)
      fun p hp => honly _ List.mem_cons_self p hp ▸ ha
    rcases List.mem_cons.mp he with heq | he
    · rwa [heq]
    · exact ih (fun x hx => hsub x (List.mem_cons_of_mem _ hx))
        (fun x hx => honly x (List.mem_cons_of_mem _ hx)) hb he

/-- The events that an execution from the root can reach. -/
def Graph.events (g : Graph ν) (root : ν) : Finset ν := insert root (g.edges.map Prod.snd).toFinset

theorem Inv.mem_events (h : Inv g root c₀ s) {e : ν} (he : s.status e ≠ .waiting) : e ∈ g.events root := by
  rcases h.source e he with heq | ⟨p, hedge⟩
  · exact Finset.mem_insert.mpr (.inl heq)
  · exact Finset.mem_insert.mpr (.inr (List.mem_toFinset.mpr (List.mem_map_of_mem hedge)))

/-- No event is held up. -/
structure AllPrompt (g : Graph ν) (s : Execution ν) : Prop where
  queued : ∀ e q, s.status e = .queued q → q = g.start s e
  done : ∀ e, s.status e = .done → Prompt g s e

theorem allPrompt_init : AllPrompt g (g.init root c₀) := by
  constructor
  · intro e q he
    simp only [Graph.init, Function.update_apply] at he
    split at he
    · next heq =>
      cases he
      simp [Graph.start, Graph.init, heq]
    · cases he
  · intro e he
    simp only [Graph.init, Function.update_apply] at he
    split at he <;> cases he

theorem AllPrompt.complete (hs : AllPrompt g s) (h : Inv g root c₀ s) {e : ν} {q : ℕ}
    (he : s.status e = .queued q) : AllPrompt g (g.complete s e (g.start s e + g.work e)) := by
  constructor
  · intro b q' hb
    rcases h.complete_status (c := g.start s e + g.work e) he b with hcase | hcase | hcase
    · exact absurd (hcase.2.symm.trans hb) nofun
    · cases hcase.2.2.2.2.symm.trans hb
      rfl
    · have hqueued := hcase.2.2.symm.trans hb
      rw [h.complete_start he (by simp [hqueued])]
      exact hs.queued b q' hqueued
  · intro b hb
    rw [Prompt]
    by_cases hbe : b = e
    · subst hbe
      rw [h.complete_start he (by simp [he])]
      simp only [Graph.complete, Function.update_self]
    · have hb' := ((h.complete_done he b).mp hb).resolve_left hbe
      rw [h.complete_start he (by simp [hb'])]
      simp only [Graph.complete, Function.update_of_ne hbe]
      exact hs.done b hb'

/-- Without anything that holds events up, an execution goes on until no event can move. -/
theorem Inv.exists_prompt_run (h : Inv g root c₀ s) (hs : AllPrompt g s) :
    ∃ ms s', run g.step s ms = some s' ∧ Quiet s' ∧ AllPrompt g s' := by
  -- each turn lets one more of the finitely many events be done
  induction hn : ((g.events root).filter fun e => s.status e ≠ .done).card generalizing s with
  | zero =>
    have hquiet : Quiet s := by
      intro e q he
      have hmem := h.mem_events (e := e) (by simp [he])
      have hempty := Finset.card_eq_zero.mp hn
      exact Finset.notMem_empty e (hempty ▸ Finset.mem_filter.mpr ⟨hmem, by simp [he]⟩)
    exact ⟨[], s, rfl, hquiet, hs⟩
  | succ n ih =>
    by_cases hquiet : Quiet s
    · exact ⟨[], s, rfl, hquiet, hs⟩
    · simp only [Quiet, not_forall, not_not] at hquiet
      obtain ⟨e, q, he⟩ := hquiet
      have hq := hs.queued e q he
      have hstep : g.step s (.finish e (g.start s e + g.work e)) =
          some (g.complete s e (g.start s e + g.work e)) := by
        simp [Graph.step, he, hq]
      have hmem : e ∈ (g.events root).filter fun e => s.status e ≠ .done :=
        Finset.mem_filter.mpr ⟨h.mem_events (by simp [he]), by simp [he]⟩
      have herase : ((g.events root).filter fun b =>
          (g.complete s e (g.start s e + g.work e)).status b ≠ .done) =
          ((g.events root).filter fun b => s.status b ≠ .done).erase e := by
        ext b
        simp only [Finset.mem_filter, Finset.mem_erase, ne_eq, h.complete_done he, not_or]
        exact and_left_comm
      have hcard := Finset.card_erase_of_mem hmem
      rw [hn, ← herase] at hcard
      obtain ⟨ms, s', hrun, hend⟩ := ih (h.step hstep) (hs.complete h he) hcard
      exact ⟨_ :: ms, s', run_cons.mpr ⟨_, hstep, hrun⟩, hend⟩

end Progress

end Invariant

end Zsim.TimedGraphs
