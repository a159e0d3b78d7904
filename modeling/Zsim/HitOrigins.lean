import Zsim.EHCRuns

/-!
# Where the hit counts come from

A second table runs beside the policy's own and stores, for every hit count,
the block whose residency it was counted in. The counts that a fill averages
belong to blocks of the same tag and index, except under the key of address
zero: the fill of a line without a block enters a count there. Tag and index
skip the six low bits of a line address.
-/

namespace Zsim.HitOrigins

open MemoryHierarchy DrivenArrays GuardedRuns PolicyRuns HitHistory EHC

/-- Where a hit count comes from. -/
inductive Origin where
  /-- The zero an entry starts with. -/
  | initial
  /-- Entered for a line that held this block, if any. -/
  | entered (block : Option Address) (hits : ℕ)

instance : Zero Origin := ⟨.initial⟩

/-- The hit count. -/
def Origin.hits : Origin → ℕ
  | .initial => 0
  | .entered _ hits => hits

/-- A count that is not initial was counted in a residency of a block with this
index and tag. -/
def Origin.Belongs (index tag : ℕ) : Origin → Prop
  | .initial => True
  | .entered none _ => False
  | .entered (some block) _ => indexOf block = index ∧ tagOf block = tag

/-- A policy run with the origins of the hit counts. -/
structure Traced where
  state : PolicyState EHCReplPolicy
  origins : Table Origin

namespace Traced

/-- The policy as built, over an empty cache. -/
def init (numLines : ℕ) : Traced := ⟨⟨.init 3 numLines, fun _ => none⟩, empty⟩

/-- The origins after a call. A hit enters its count when that saturates, a
fill the count of the block that leaves. -/
def originsAfter (t : Traced) : PolicyOp → Table Origin
  | .hit id req =>
    if (t.state.rp.CHCArray id + 1) % 256 = 7 then
      updateHHT t.origins req.lineAddr (.entered (t.state.resident id) 7)
    else t.origins
  | .rank .. => t.origins
  | .fill id _ => updateHHT t.origins (t.state.rp.lineAddr id)
      (.entered (t.state.resident id) (t.state.rp.CHCArray id))

/-- One call with the origins. -/
def step (numLines : ℕ) (t : Traced) (op : PolicyOp) : Option Traced :=
  (policyStep ehc numLines t.state op).map fun state => ⟨state, t.originsAfter op⟩

/-- The entry found for the address holds counts of its own history. -/
def Owned (t : Traced) (lineAddr : Address) : Prop :=
  ∀ way, searchHHT t.state.rp.HHT (tagOf lineAddr) (indexOf lineAddr) = some way →
    ∀ i, ((t.origins (indexOf lineAddr) way).hitCountQueue i).Belongs (indexOf lineAddr)
      (tagOf lineAddr)

/-- The fill of a line without a block enters nothing, and the entry a fill
averages holds counts of the history of its address. -/
def FillOwned (t : Traced) (op : PolicyOp) (t' : Traced) : Prop :=
  ∀ id req, op = .fill id req →
    (t.state.resident id = none → t'.state.rp.HHT = t.state.rp.HHT) ∧ t'.Owned req.lineAddr

/-- The call does not fill a line without a block. -/
def FillsUsed (t : Traced) (op : PolicyOp) : Prop :=
  ∀ id req, op = .fill id req → t.state.resident id ≠ none

/-- The two tables and the lines agree. -/
structure Tracked (numLines : ℕ) (t : Traced) : Prop where
  within : Within numLines 255 255 255 t.state.rp
  table : t.state.rp.HHT = mapTable Origin.hits t.origins
  lineAddr : ∀ id, t.state.rp.lineAddr id = (t.state.resident id).getD 0
  /-- Only the key of address zero takes counts that belong to no block. -/
  belongs : Everywhere (fun index tag o => ¬ (index = 0 ∧ tag = 0) → o.Belongs index tag) t.origins

/-- No address is in the table and no line holds a block. -/
structure Fresh (numLines : ℕ) (t : Traced) : Prop where
  within : Within numLines 255 255 255 t.state.rp
  table : t.state.rp.HHT = empty
  resident : ∀ id, t.state.resident id = none

end Traced

section Runs

variable {numLines : ℕ} {t t' : Traced} {op : PolicyOp} {a b : Address}

theorem tracked_init : (Traced.init numLines).Tracked numLines :=
  ⟨within_init (by decide), rfl, fun _ => rfl, fun _ _ _ _ => trivial⟩

/-- Every call moves both tables alike. -/
theorem step_tracked (h : t.Tracked numLines) (hstep : t.step numLines op = some t') :
    t'.Tracked numLines := by
  obtain ⟨s, hpolicy, rfl⟩ := Option.map_eq_some_iff.mp hstep
  have hwithin : Within numLines 255 255 255 s.rp :=
    callStep_inv (ehc_ranks numLines) h.within (policyStep_iff.mp hpolicy).1
  cases op with
  | hit id req =>
    obtain ⟨⟨-, hres⟩, rfl⟩ := policyStep_hit.mp hpolicy
    have hne : t.state.rp.RPV id ≠ -1 := by
      have h0 := (h.within.RPV id).1
      omega
    have hupdate : t.state.rp.update id req = _ := update_hit hne
    refine ⟨hwithin, ?_, fun id' => ?_, ?_⟩
    · simp only [ehc, hupdate, Traced.originsAfter]
      split
      · next h7 => rw [h7, h.table, ← updateHHT_map Origin.hits rfl]; rfl
      · exact h.table
    · simp only [ehc, hupdate]
      exact h.lineAddr id'
    · simp only [Traced.originsAfter]
      split
      · refine everywhere_updateHHT (fun _ _ _ => trivial) h.belongs fun _ => ?_
        rw [hres]
        exact ⟨rfl, rfl⟩
      · exact h.belongs
  | rank cc req cands =>
    obtain ⟨⟨hne, hlt⟩, i, r, hr, rfl⟩ := policyStep_rank.mp hpolicy
    obtain ⟨i', s', rounds, hrank, hranked⟩ := rank_spec h.within le_rfl hne hlt
    obtain rfl : s' = r := by
      rw [show ehc.rankCands t.state.rp cc req cands = t.state.rp.rank cands from rfl, hrank] at hr
      cases hr
      rfl
    refine ⟨hwithin, ?_, ?_, h.belongs⟩
    · rw [hranked.policy]
      exact h.table
    · rw [hranked.policy]
      exact h.lineAddr
  | fill id req =>
    obtain ⟨-, rfl⟩ := policyStep_fill.mp hpolicy
    refine ⟨hwithin, ?_, fun id' => ?_, ?_⟩
    · simp only [ehc, update_replaced, Traced.originsAfter]
      rw [h.table, ← updateHHT_map Origin.hits rfl]
      rfl
    · simp only [ehc, update_replaced]
      by_cases hid : id' = id
      · simp [hid]
      · simp [hid, h.lineAddr]
    · refine everywhere_updateHHT (fun _ _ _ => trivial) h.belongs fun hkey => ?_
      rw [h.lineAddr] at hkey ⊢
      cases hres : t.state.resident id with
      | none =>
        rw [hres] at hkey
        exact absurd ⟨rfl, rfl⟩ hkey
      | some block => exact ⟨rfl, rfl⟩

/-- The entry of an address other than those of key zero holds its history. -/
theorem Traced.Tracked.owned (h : t.Tracked numLines) (ha : ¬ (indexOf a = 0 ∧ tagOf a = 0)) :
    t.Owned a := by
  intro way hway i
  rw [h.table, searchHHT_map] at hway
  exact h.belongs.found hway i ha

/-- The first entry changes the table. -/
theorem updateHHT_empty_ne (hits : ℕ) : updateHHT empty a hits ≠ empty := by
  intro heq
  obtain ⟨way, hway⟩ : ∃ way, searchHHT (updateHHT empty a hits) (tagOf a) (indexOf a) = some way :=
    searchHHT_updateHHT (queued_empty (indexOf a))
  rw [heq] at hway
  cases (searchHHT_some hway).1

/-- While no line is filled, nothing is hit and nothing is entered. -/
theorem step_fresh (h : t.Fresh numLines) (hguard : t.FillsUsed op)
    (hstep : t.step numLines op = some t') : t'.Fresh numLines := by
  obtain ⟨s, hpolicy, rfl⟩ := Option.map_eq_some_iff.mp hstep
  have hwithin : Within numLines 255 255 255 s.rp :=
    callStep_inv (ehc_ranks numLines) h.within (policyStep_iff.mp hpolicy).1
  cases op with
  | hit id req =>
    obtain ⟨⟨-, hres⟩, -⟩ := policyStep_hit.mp hpolicy
    rw [h.resident id] at hres
    cases hres
  | rank cc req cands =>
    obtain ⟨⟨hne, hlt⟩, i, r, hr, rfl⟩ := policyStep_rank.mp hpolicy
    obtain ⟨i', s', rounds, hrank, hranked⟩ := rank_spec h.within le_rfl hne hlt
    rw [show ehc.rankCands t.state.rp cc req cands = t.state.rp.rank cands from rfl, hrank] at hr
    cases hr
    exact ⟨hwithin, by rw [hranked.policy]; exact h.table, h.resident⟩
  | fill id req => exact absurd (h.resident id) (hguard id req rfl)

/-- Two addresses share an entry in some table that a run reaches. -/
def Share (a b : Address) : Prop :=
  ∃ numLines ops s way, run (callStep ehc numLines) (.init 3 numLines) ops = some s ∧
    indexOf a = indexOf b ∧ searchHHT s.HHT (tagOf a) (indexOf a) = some way ∧
    searchHHT s.HHT (tagOf b) (indexOf b) = some way

/-- Two addresses share an entry exactly when bits 6 to 32 agree. -/
theorem share_iff : Share a b ↔ a / 2 ^ 6 % 2 ^ 27 = b / 2 ^ 6 % 2 ^ 27 := by
  rw [← same_key_iff]
  constructor
  · rintro ⟨numLines, ops, s, way, -, hindex, ha, hb⟩
    rw [← hindex] at hb
    exact ⟨(searchHHT_some ha).2.symm.trans (searchHHT_some hb).2, hindex⟩
  · rintro ⟨htag, hindex⟩
    have hqueued : ∀ index, Queued ((updateHHT empty 0 0 : Table ℕ) index) :=
      Queued.updateHHT queued_empty 0
    obtain ⟨way, hway⟩ : ∃ way, searchHHT (updateHHT (updateHHT empty 0 0) a 0) (tagOf a)
        (indexOf a) = some way := searchHHT_updateHHT (hqueued (indexOf a))
    have hfill : ∀ s : EHCReplPolicy, callStep ehc 1 s (.fill 0 (fetch a)) =
        some ((s.replaced 0).update 0 (fetch a)) := fun s => rfl
    have hrun : run (callStep ehc 1) (.init 3 1) [.fill 0 (fetch a), .fill 0 (fetch a)] =
        some ((((EHCReplPolicy.init 3 1).replaced 0).update 0 (fetch a)).replaced 0 |>.update 0
          (fetch a)) := by
      simp only [run, hfill, Option.bind_some]
    have htable : ((((EHCReplPolicy.init 3 1).replaced 0).update 0 (fetch a)).replaced 0 |>.update 0
          (fetch a)).HHT = updateHHT (updateHHT empty 0 0) a 0 := by
      simp [update_replaced, EHCReplPolicy.init, fetch]
    refine ⟨1, _, _, way, hrun, hindex, ?_, ?_⟩
    · rw [htable]
      exact hway
    · rw [htable, ← htag, ← hindex]
      exact hway

/-- From an empty cache, the histories are those of the blocks they are used
for exactly in the runs that fill no line without a block. In every run they
are, except under the key of address zero. Addresses that differ in the 27 low
bits have entries of their own exactly when they differ in bits 6 to 32. -/
theorem hit_histories (numLines : ℕ) (ops : List PolicyOp) :
    (EveryStep (Traced.step numLines) Traced.FillOwned (.init numLines) ops ↔
      EveryStep (Traced.step numLines) (fun t op _ => t.FillsUsed op) (.init numLines) ops) ∧
    EveryStep (Traced.step numLines) (fun _ op t' =>
        t'.state.rp.HHT = mapTable Origin.hits t'.origins ∧
          ∀ id req, op = .fill id req → ¬ (indexOf req.lineAddr = 0 ∧ tagOf req.lineAddr = 0) →
            t'.Owned req.lineAddr) (.init numLines) ops ∧
    ∀ a b, (a % 2 ^ 27 ≠ b % 2 ^ 27 → ¬ Share a b) ↔
      a % 2 ^ 27 = b % 2 ^ 27 ∨ a / 2 ^ 6 % 2 ^ 27 ≠ b / 2 ^ 6 % 2 ^ 27 := by
  refine ⟨?_, ?_, fun a b => ?_⟩
  · have hiff : ∀ (t : Traced) op t', t.Fresh numLines → t.step numLines op = some t' →
        (t.FillOwned op t' ↔ t.FillsUsed op) := by
      intro t op t' h hstep
      constructor
      · rintro howned id req rfl hres
        obtain ⟨s, hpolicy, rfl⟩ := Option.map_eq_some_iff.mp hstep
        obtain ⟨-, rfl⟩ := policyStep_fill.mp hpolicy
        have hsame := (howned id req rfl).1 hres
        simp only [ehc, update_replaced, h.table] at hsame
        exact updateHHT_empty_ne _ hsame
      · intro hused id req hop
        exact absurd (h.resident id) (hused id req hop)
    exact everyStep_iff hiff (fun t op t' h hguard hstep => step_fresh h hguard hstep)
      ⟨within_init (by decide), rfl, fun _ => rfl⟩
  · have hstep : ∀ (t : Traced) op t', t.Tracked numLines → t.step numLines op = some t' →
        t'.Tracked numLines ∧ (t'.state.rp.HHT = mapTable Origin.hits t'.origins ∧
          ∀ id req, op = .fill id req → ¬ (indexOf req.lineAddr = 0 ∧ tagOf req.lineAddr = 0) →
            t'.Owned req.lineAddr) := by
      intro t op t' h hstep
      have h' := step_tracked h hstep
      exact ⟨h', h'.table, fun id req _ hkey => h'.owned hkey⟩
    exact everyStep_of_invariant hstep tracked_init
  · rw [share_iff]
    tauto

/-- The first fill enters a count that belongs to no block, under the key of
address zero; the addresses 64 and 65 share an entry. -/
theorem first_fill_enters :
    ¬ EveryStep (Traced.step 1) Traced.FillOwned (.init 1) [.fill 0 (fetch 5)] ∧
    (∃ t', (Traced.init 1).step 1 (.fill 0 (fetch 5)) = some t' ∧ ¬ t'.Owned 5) ∧
    64 % 2 ^ 27 ≠ 65 % 2 ^ 27 ∧ Share 64 65 := by
  refine ⟨fun h => ?_, ⟨_, rfl, fun howned => ?_⟩, by decide, share_iff.mpr (by decide)⟩
  · exact updateHHT_empty_ne 0 (((h _ rfl).1 0 _ rfl).1 rfl)
  · exact howned 0 (by decide) 0

end Runs

end Zsim.HitOrigins
