import Zsim.EHC

/-!
# Runs of the expected hit counts

The counters keep the widths the structures document, except the expectation,
which a hit lowers without a guard: a run is in range exactly when every hit is
on a line that still expects one. A ranking ages the whole cache, so it leaves
the other sets alone exactly when it needs no ageing or they have nothing left
to age.
-/

namespace Zsim.EHCRuns

open MemoryHierarchy DrivenArrays GuardedRuns PolicyRuns EHC EHCReplPolicy

section Ranges

variable {numLines : ℕ} {s s' : EHCReplPolicy} {op : PolicyOp}

/-- The counters are in their documented ranges, and a hit does not raise an
expectation. -/
def StaysInRange (numLines : ℕ) (s : EHCReplPolicy) (op : PolicyOp) (s' : EHCReplPolicy) : Prop :=
  Within numLines 6 7 7 s' ∧ ∀ id req, op = .hit id req → s'.EFHArray id ≤ s.EFHArray id

/-- A hit is on a line that expects one. -/
def HitExpected (s : EHCReplPolicy) (op : PolicyOp) : Prop :=
  ∀ id req, op = .hit id req → 0 < s.EFHArray id

/-- Bounds that leave the expectation its byte hold whatever is hit. -/
theorem step_within {C Q E : ℕ} (hC : C = 6 ∨ C = 255) (hQ : 7 ≤ Q) (hCQ : C ≤ Q) (hQE : Q ≤ E)
    (hE : E ≤ 255) (h : Within numLines C Q E s) (hhit : HitExpected s op ∨ 255 ≤ E)
    (hstep : callStep ehc numLines s op = some s') : Within numLines C Q E s' := by
  cases op with
  | hit id req =>
    obtain ⟨-, rfl⟩ := callStep_hit.mp hstep
    exact h.hit hC hQ (hhit.imp_left fun hpos => hpos id req rfl)
  | rank cc req cands =>
    obtain ⟨⟨hne, hlt⟩, i, hi⟩ := callStep_rank.mp hstep
    obtain ⟨i', s₁, rounds, hrank, hr⟩ := rank_spec h hE hne hlt
    rw [show ehc.rankCands s cc req cands = s.rank cands from rfl, hrank] at hi
    cases hi
    rw [hr.policy]
    exact h.aged
  | fill id req =>
    obtain ⟨-, rfl⟩ := callStep_fill.mp hstep
    exact h.fill hCQ hQE (by omega)

/-- A hit lowers the expectation by one, from zero to 255. -/
theorem update_expectation {id : LineId} (h : 0 ≤ s.RPV id) (req : MemReq) :
    (s.update id req).EFHArray id = (s.EFHArray id + 255) % 256 := by
  rw [update_hit (by omega)]
  exact Function.update_self ..

/-- A run stays in range exactly when every hit is on a line that still expects
one; whatever is hit, all other counters stay in range. -/
theorem counters_in_range (numLines : ℕ) (ops : List PolicyOp) :
    (EveryStep (callStep ehc numLines) (StaysInRange numLines) (.init 3 numLines) ops ↔
      EveryStep (callStep ehc numLines) (fun s op _ => HitExpected s op) (.init 3 numLines) ops) ∧
    EveryStep (callStep ehc numLines) (fun _ _ s' => Within numLines 6 7 255 s')
      (.init 3 numLines) ops := by
  constructor
  · have hiff : ∀ s op s', Within numLines 6 7 7 s → callStep ehc numLines s op = some s' →
        (StaysInRange numLines s op s' ↔ HitExpected s op) := by
      intro s op s' h hstep
      constructor
      · rintro ⟨-, hle⟩ id req rfl
        obtain ⟨-, rfl⟩ := callStep_hit.mp hstep
        have hlower := hle id req rfl
        rw [show ehc.update s id req = s.update id req from rfl,
          update_expectation (h.RPV id).1] at hlower
        have h7 := h.EFH id
        omega
      · intro hhit
        refine ⟨step_within (.inl rfl) le_rfl (by decide) le_rfl (by decide) h (.inl hhit) hstep, ?_⟩
        rintro id req rfl
        obtain ⟨-, rfl⟩ := callStep_hit.mp hstep
        have hpos := hhit id req rfl
        have h7 := h.EFH id
        rw [show ehc.update s id req = s.update id req from rfl, update_expectation (h.RPV id).1]
        omega
    refine everyStep_iff hiff ?_ (within_init (by decide))
    intro s op s' h hhit hstep
    exact ((hiff s op s' h hstep).mpr hhit).1
  · have hstep : ∀ s op s', Within numLines 6 7 255 s → callStep ehc numLines s op = some s' →
        Within numLines 6 7 255 s' ∧ Within numLines 6 7 255 s' := by
      intro s op s' h hstep
      have h' : Within numLines 6 7 255 s' :=
        step_within (.inl rfl) le_rfl (by decide) (by decide) le_rfl h (.inr le_rfl) hstep
      exact ⟨h', h'⟩
    exact everyStep_of_invariant hstep (within_init (by decide))

/-- A second hit of a block that was expected to be hit once. -/
theorem second_hit_wraps : ¬ EveryStep (callStep ehc 1) (StaysInRange 1) (.init 3 1)
    [.fill 0 (fetch 77), .hit 0 (fetch 77), .hit 0 (fetch 77)] := by
  intro h
  have hlast := ((h _ rfl).2 _ rfl).2 _ rfl
  have hle := hlast.1.2 0 _ rfl
  revert hle
  decide

end Ranges

section Locality

variable {numLines : ℕ} {s s' : EHCReplPolicy} {cands other : List LineId} {i : LineId}

/-- The line a miss over these candidates evicts. -/
def victim (s : EHCReplPolicy) (cands : List LineId) : Option LineId :=
  (s.rank cands).map Prod.fst

/-- Hits in order. -/
def hits (s : EHCReplPolicy) (l : List (LineId × MemReq)) : EHCReplPolicy :=
  l.foldl (fun s h => s.update h.1 h.2) s

/-- Two states agree on the counters of some lines. -/
structure AgreeOn (lines : Set LineId) (s s' : EHCReplPolicy) : Prop where
  RPV : ∀ c ∈ lines, s'.RPV c = s.RPV c
  EFH : ∀ c ∈ lines, s'.EFHArray c = s.EFHArray c

/-- A hit keeps the agreement. -/
theorem AgreeOn.hit {lines : Set LineId} (h : Within numLines 255 255 255 s)
    (h' : Within numLines 255 255 255 s') (hagree : AgreeOn lines s s') {id : LineId}
    (hid : id ∈ lines) (req : MemReq) : AgreeOn lines (s.update id req) (s'.update id req) := by
  have hne : s.RPV id ≠ -1 := by
    have h0 := (h.RPV id).1
    omega
  have hne' : s'.RPV id ≠ -1 := by
    have h0 := (h'.RPV id).1
    omega
  rw [update_hit hne, update_hit hne']
  constructor
  · intro c hc
    by_cases hcid : c = id
    · simp [hcid]
    · simp [hcid, hagree.RPV c hc]
  · intro c hc
    by_cases hcid : c = id
    · simp [hcid, hagree.EFH id hid]
    · simp [hcid, hagree.EFH c hc]

theorem AgreeOn.hits {lines : Set LineId} (h : Within numLines 255 255 255 s)
    (h' : Within numLines 255 255 255 s') (hagree : AgreeOn lines s s')
    {l : List (LineId × MemReq)} (hl : ∀ x ∈ l, x.1 ∈ lines) :
    Within numLines 255 255 255 (hits s l) ∧ Within numLines 255 255 255 (hits s' l) ∧
      AgreeOn lines (hits s l) (hits s' l) := by
  induction l generalizing s s' with
  | nil => exact ⟨h, h', hagree⟩
  | cons x l ih =>
    obtain ⟨hx, hl⟩ := List.forall_mem_cons.mp hl
    exact ih (h.hit (.inr rfl) (by decide) (.inr le_rfl)) (h'.hit (.inr rfl) (by decide) (.inr le_rfl))
      (hagree.hit h h' hx x.2) hl

/-- A fill of another line keeps the agreement. -/
theorem AgreeOn.fill {lines : Set LineId} (hagree : AgreeOn lines s s') (hi : i ∉ lines)
    (req : MemReq) : AgreeOn lines s ((s'.replaced i).update i req) := by
  have hne : ∀ c ∈ lines, c ≠ i := by
    rintro c hc rfl
    exact hi hc
  rw [update_replaced]
  constructor
  · intro c hc
    simp [hne c hc, hagree.RPV c hc]
  · intro c hc
    simp [hne c hc, hagree.EFH c hc]

end Locality

end Zsim.EHCRuns
