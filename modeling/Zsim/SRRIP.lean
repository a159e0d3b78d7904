import Zsim.Ageing
import Zsim.DrivenArrays
import Mathlib.Data.List.Find

/-!
# Static re-reference interval prediction

A line is predicted at 2 when it is filled and at 0 when it is hit. The ranking
takes the first candidate at 3 and ages the candidates until there is one.
-/

namespace Zsim.SRRIP

open MemoryHierarchy DrivenArrays Ageing

/-- `SRRIPReplPolicy`; `rpvmax` is stored but not read. -/
structure SRRIPReplPolicy where
  rrpvArray : LineId → ℕ
  recentlyInserted : LineId → Bool

namespace SRRIPReplPolicy

/-- The constructor. -/
def init : SRRIPReplPolicy := ⟨fun _ => 3, fun _ => false⟩

/-- `SRRIPReplPolicy::update`. -/
def update (s : SRRIPReplPolicy) (id : LineId) : SRRIPReplPolicy where
  rrpvArray := if s.recentlyInserted id = false then Function.update s.rrpvArray id 0
    else s.rrpvArray
  recentlyInserted := Function.update s.recentlyInserted id false

/-- `SRRIPReplPolicy::replaced`. -/
def replaced (s : SRRIPReplPolicy) (id : LineId) : SRRIPReplPolicy where
  rrpvArray := Function.update s.rrpvArray id 2
  recentlyInserted := Function.update s.recentlyInserted id true

/-- One round of `rank`: the first candidate at 3, or every candidate ages. -/
def rankRound (cands : List LineId) (s : SRRIPReplPolicy) :
    (LineId × SRRIPReplPolicy) ⊕ SRRIPReplPolicy :=
  match cands.find? fun c => s.rrpvArray c == 3 with
  | some c => .inl (c, s)
  | none => .inr { s with rrpvArray := age 3 s.rrpvArray cands }

/-- `SRRIPReplPolicy::rank`. A candidate below 3 reaches it within three rounds
and one above 3 never does, so the fourth round is the last that can answer. -/
def rank (s : SRRIPReplPolicy) (cands : List LineId) : Option (LineId × SRRIPReplPolicy) :=
  search (rankRound cands) 4 s

end SRRIPReplPolicy

/-- The policy interface of `SRRIPReplPolicy`. -/
def srrip : ReplPolicy SRRIPReplPolicy where
  update s id _ := s.update id
  replaced s id := s.replaced id
  rankCands s _ _ cands := s.rank cands

/-- Predictions are two-bit values. -/
def InRange (s : SRRIPReplPolicy) : Prop := ∀ i, s.rrpvArray i ≤ 3

section Invariant

variable {s : SRRIPReplPolicy} {id : LineId} {cands : List LineId}

theorem inRange_init : InRange .init := fun _ => le_rfl

theorem inRange_update (h : InRange s) : InRange (s.update id) := by
  intro i
  simp only [SRRIPReplPolicy.update]
  split
  · by_cases hi : i = id
    · simp [hi]
    · rw [Function.update_of_ne hi]
      exact h i
  · exact h i

theorem inRange_replaced (h : InRange s) : InRange (s.replaced id) := by
  intro i
  simp only [SRRIPReplPolicy.replaced]
  by_cases hi : i = id
  · simp [hi]
  · rw [Function.update_of_ne hi]
    exact h i

/-- The state of the ranking after some rounds without a candidate at 3. -/
structure Seeking (s : SRRIPReplPolicy) (cands : List LineId) (rounds : ℕ) (s' : SRRIPReplPolicy) :
    Prop where
  policy : s' = { s with rrpvArray := aged 3 s.rrpvArray cands rounds }
  before : Unripe 3 s.rrpvArray cands rounds

/-- The ranking evicts the first candidate that ages to 3, in the round in which
it gets there. -/
theorem rank_exact (h : ∀ c ∈ cands, s.rrpvArray c ≤ 3) (hne : cands ≠ []) :
    ∃ i rounds, rounds < 4 ∧ FirstRipe 3 s.rrpvArray cands rounds i ∧
      ∀ fuel, search (SRRIPReplPolicy.rankRound cands) fuel s = if rounds < fuel then
        some (i, { s with rrpvArray := aged 3 s.rrpvArray cands rounds }) else none := by
  have hfind : ∀ k s', Seeking s cands k s' → cands.find? (fun c => s'.rrpvArray c == 3) =
      cands.find? (fun c => 3 ≤ s.rrpvArray c + k * cands.count c) := by
    intro k s' hs'
    refine List.find?_congr fun c hc => ?_
    rw [hs'.policy, Bool.eq_iff_iff, beq_iff_eq, decide_eq_true_iff]
    exact aged_eq_top (h c hc)
  have hdone : ∀ k s' (b : LineId × SRRIPReplPolicy), Seeking s cands k s' →
      s'.rankRound cands = .inl b → FirstRipe 3 s.rrpvArray cands k b.1 ∧
        b.2 = { s with rrpvArray := aged 3 s.rrpvArray cands k } := by
    intro k s' b hs' hb
    rw [SRRIPReplPolicy.rankRound, hfind k s' hs'] at hb
    split at hb
    · next c hc =>
      cases hb
      exact ⟨⟨hs'.before, hc⟩, hs'.policy⟩
    · cases hb
  have hnext : ∀ k s' s'' : _, Seeking s cands k s' → s'.rankRound cands = .inr s'' →
      Seeking s cands (k + 1) s'' := by
    intro k s' s'' hs' hs''
    rw [SRRIPReplPolicy.rankRound, hfind k s' hs'] at hs''
    split at hs''
    · cases hs''
    · next hnone =>
      cases hs''
      constructor
      · rw [hs'.policy, age_aged]
      · exact hs'.before.succ hnone
  have hlast : ∀ s', ¬ Seeking s cands 4 s' := fun s' hs' => not_unripe hne hs'.before
  have hstart : Seeking s cands 0 s := by
    constructor
    · rw [aged_zero]
    · exact unripe_zero
  obtain ⟨k, b, hk, ⟨hripe, hb⟩, hsearch⟩ := search_exact hdone hnext hlast hstart
  refine ⟨b.1, k, hk, hripe, fun fuel => ?_⟩
  rw [hsearch fuel, ← hb]

/-- The ranking answers with a candidate. -/
theorem rank_spec (h : InRange s) (hne : cands ≠ []) :
    ∃ i s', s.rank cands = some (i, s') ∧ i ∈ cands ∧ InRange s' := by
  obtain ⟨i, k, hk, hripe, hsearch⟩ := rank_exact (fun c _ => h c) hne
  exact ⟨i, _, (hsearch 4).trans (if_pos hk), hripe.mem, fun j => aged_le (h j)⟩

/-- The side condition of the arrays holds in every reachable state. -/
theorem srrip_ranks (numLines : ℕ) : Ranks srrip numLines InRange where
  update _ _ _ h _ := inRange_update h
  fill _ _ _ h _ := inRange_update (inRange_replaced h)
  rank _ _ _ _ h hne _ := rank_spec h hne

end Invariant

end Zsim.SRRIP
