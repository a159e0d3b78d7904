import Zsim.DrivenArrays
import Zsim.GuardedRuns

/-!
# The calls of a replacement

A legacy policy is told of the candidates one by one and then asked for the
best of them. What it remembers of them it keeps until the replacement is done,
so the calls come in an order: a ranking, any updates, and `replaced`.
-/

namespace Zsim.LegacyRank

open MemoryHierarchy DrivenArrays GuardedRuns

/-- `LegacyReplPolicy`, on states `ρ`; `startReplacement` does nothing in the
policies that have none. -/
structure LegacyReplPolicy (ρ : Type) where
  update : ρ → LineId → ρ
  recordCandidate : ρ → CCView → LineId → ρ
  /-- Nothing when its assertion fails. -/
  getBestCandidate : ρ → Option LineId
  replaced : ρ → LineId → ρ

variable {ρ : Type} {P : LegacyReplPolicy ρ} {numLines : ℕ}

/-- The loop of `LegacyReplPolicy::rank`. -/
def LegacyReplPolicy.record (P : LegacyReplPolicy ρ) (r : ρ) (cc : CCView) (cands : List LineId) : ρ :=
  cands.foldl (fun r id => P.recordCandidate r cc id) r

/-- `LegacyReplPolicy::rank`. -/
def LegacyReplPolicy.rank (P : LegacyReplPolicy ρ) (r : ρ) (cc : CCView) (cands : List LineId) :
    Option (LineId × ρ) :=
  (P.getBestCandidate (P.record r cc cands)).map fun id => (id, P.record r cc cands)

/-- The calls of a cache. -/
inductive LegacyCall where
  | update (id : LineId)
  | rank (cc : CCView) (cands : List LineId)
  | replaced (id : LineId)

/-- One call, on lines that exist. -/
def legacyStep (P : LegacyReplPolicy ρ) (numLines : ℕ) : ρ → LegacyCall → Option ρ
  | r, .update id => if id < numLines then some (P.update r id) else none
  | r, .rank cc cands =>
    if cands ≠ [] ∧ ∀ c ∈ cands, c < numLines then (P.rank r cc cands).map Prod.snd else none
  | r, .replaced id => if id < numLines then some (P.replaced r id) else none

/-- The calls of `preinsert` and `postinsert`: whether a replacement is under
way, so that `replaced` comes next. -/
def protocol : Bool → LegacyCall → Option Bool
  | busy, .update _ => some busy
  | busy, .rank .. => if busy = true then none else some true
  | busy, .replaced _ => if busy = true then some false else none

/-- One call in the order in which a cache makes them. -/
def protocolStep (P : LegacyReplPolicy ρ) (numLines : ℕ) (s : ρ × Bool) (call : LegacyCall) :
    Option (ρ × Bool) :=
  (legacyStep P numLines s.1 call).bind fun r => (protocol s.2 call).map fun busy => (r, busy)

section Steps

variable {r r' : ρ} {s s' : ρ × Bool} {id : LineId} {cc : CCView} {cands : List LineId}
  {call : LegacyCall}

theorem legacyStep_update : legacyStep P numLines r (.update id) = some r' ↔
    id < numLines ∧ P.update r id = r' := by
  simp only [legacyStep, Option.ite_none_right_eq_some, Option.some.injEq]

theorem legacyStep_rank : legacyStep P numLines r (.rank cc cands) = some r' ↔
    (cands ≠ [] ∧ ∀ c ∈ cands, c < numLines) ∧
      ∃ i, P.getBestCandidate (P.record r cc cands) = some i ∧ P.record r cc cands = r' := by
  simp only [legacyStep, LegacyReplPolicy.rank, Option.ite_none_right_eq_some, Option.map_map,
    Option.map_eq_some_iff, Function.comp_apply]

theorem legacyStep_replaced : legacyStep P numLines r (.replaced id) = some r' ↔
    id < numLines ∧ P.replaced r id = r' := by
  simp only [legacyStep, Option.ite_none_right_eq_some, Option.some.injEq]

theorem protocolStep_iff : protocolStep P numLines s call = some s' ↔
    legacyStep P numLines s.1 call = some s'.1 ∧ protocol s.2 call = some s'.2 := by
  obtain ⟨r', busy'⟩ := s'
  simp only [protocolStep, Option.bind_eq_some_iff, Option.map_eq_some_iff, Prod.mk.injEq]
  constructor
  · intro ⟨r, hr, busy, hbusy, hr', hbusy'⟩
    exact ⟨hr' ▸ hr, hbusy' ▸ hbusy⟩
  · intro ⟨hr, hbusy⟩
    exact ⟨r', hr, busy', hbusy, rfl, rfl⟩

/-- What recording one candidate preserves, recording them all preserves. -/
theorem record_invariant {Inv : ρ → Prop} (hrecord : ∀ r id, Inv r → Inv (P.recordCandidate r cc id))
    (h : Inv r) : Inv (P.record r cc cands) := by
  induction cands generalizing r with
  | nil => exact h
  | cons c cands ih => exact ih (hrecord r c h)

/-- The same for what is known of the candidates recorded so far. -/
theorem record_seen {R : ρ → List LineId → Prop} {seen : List LineId}
    (hrecord : ∀ r seen id, R r seen → R (P.recordCandidate r cc id) (seen ++ [id]))
    (h : R r seen) : R (P.record r cc cands) (seen ++ cands) := by
  induction cands generalizing r seen with
  | nil => rwa [List.append_nil]
  | cons c cands ih =>
    have hrest := ih (hrecord r seen c h)
    rwa [List.append_assoc, List.singleton_append] at hrest

/-- What a policy remembers of the candidates is cleared whenever no replacement
is under way, provided that a fresh policy has none, that `replaced` clears it
and that updates leave it alone. -/
theorem protocolStep_idle {Inv Idle : ρ → Prop}
    (hupdate : ∀ r id, Inv r → Inv (P.update r id) ∧ (Idle r → Idle (P.update r id)))
    (hrecord : ∀ r cc id, Inv r → Inv (P.recordCandidate r cc id))
    (hreplaced : ∀ r id, Inv r → Inv (P.replaced r id) ∧ Idle (P.replaced r id))
    (h : Inv s.1 ∧ (s.2 = false → Idle s.1)) (hs : protocolStep P numLines s call = some s') :
    Inv s'.1 ∧ (s'.2 = false → Idle s'.1) := by
  obtain ⟨hr, hbusy⟩ := protocolStep_iff.mp hs
  obtain ⟨hinv, hidle⟩ := h
  cases call with
  | update id =>
    obtain ⟨-, hr⟩ := legacyStep_update.mp hr
    obtain ⟨hinv', hidle'⟩ := hupdate s.1 id hinv
    have hsame : s.2 = s'.2 := Option.some.inj hbusy
    rw [← hr, ← hsame]
    exact ⟨hinv', fun hfree => hidle' (hidle hfree)⟩
  | rank cc cands =>
    obtain ⟨-, i, -, hr⟩ := legacyStep_rank.mp hr
    have hrecords : Inv (P.record s.1 cc cands) := record_invariant (fun r => hrecord r cc) hinv
    simp only [protocol, Option.ite_none_left_eq_some, Option.some.injEq] at hbusy
    refine ⟨hr ▸ hrecords, fun hfree => ?_⟩
    rw [← hbusy.2] at hfree
    cases hfree
  | replaced id =>
    obtain ⟨-, hr⟩ := legacyStep_replaced.mp hr
    obtain ⟨hinv', hidle'⟩ := hreplaced s.1 id hinv
    rw [← hr]
    exact ⟨hinv', fun _ => hidle'⟩

end Steps
end Zsim.LegacyRank
