import Zsim.LegacyRank
import Zsim.Selection
import Mathlib.Data.Prod.Lex
import Mathlib.Order.OrderDual

/-!
# Least frequently used lines

Every line has the mean time of its accesses and their number, and the distance
of the mean to the present, divided by the number, ranks it. The comparison of
two candidates is written by hand: it prefers a candidate that was never
accessed even to another such one. It agrees with a total preorder all the same,
so the fold over the candidates ends with a minimum in whatever order they come.
-/

namespace Zsim.LFU

open MemoryHierarchy DrivenArrays GuardedRuns LegacyRank Selection

/-- `LFUReplPolicy::LFUInfo`. -/
structure LFUInfo where
  ts : ℕ
  acc : ℕ

/-- `LFUReplPolicy::Rank`. -/
structure Rank where
  lfuInfo : LFUInfo
  sharers : ℕ
  valid : Bool

namespace Rank

/-- `Rank::reset`. -/
def reset : Rank := ⟨⟨0, 0⟩, 0, false⟩

/-- `(curTs - lfuInfo.ts)/lfuInfo.acc`. -/
def invFreq (r : Rank) (curTs : ℕ) : ℕ := (curTs - r.lfuInfo.ts) / r.lfuInfo.acc

/-- `Rank::lessThan`. -/
def lessThan (r other : Rank) (curTs : ℕ) : Bool :=
  if r.valid = false ∧ other.valid = true then true
  else if r.valid = other.valid then
    if r.sharers = 0 ∧ 0 < other.sharers then true
    else if 0 < r.sharers ∧ other.sharers = 0 then false
    else if r.lfuInfo.acc = 0 then true
    else if other.lfuInfo.acc = 0 then false
    else decide (other.invFreq curTs < r.invFreq curTs)
  else false

end Rank

/-- `LFUReplPolicy`. -/
structure LFUReplPolicy where
  timestamp : ℕ
  /-- None for the id -1. -/
  bestCandidate : Option LineId
  array : LineId → LFUInfo
  bestRank : Rank

namespace LFUReplPolicy

/-- The constructor. -/
def init : LFUReplPolicy where
  timestamp := 1
  bestCandidate := none
  array _ := ⟨0, 0⟩
  bestRank := .reset

/-- `LFUReplPolicy::update`, without a bound on the numbers. -/
def update (s : LFUReplPolicy) (id : LineId) : LFUReplPolicy :=
  { s with
    array := Function.update s.array id
      ⟨((s.array id).acc * (s.array id).ts + s.timestamp) / ((s.array id).acc + 1),
        (s.array id).acc + 1⟩
    timestamp := s.timestamp + 1000 }

/-- The rank of a candidate. -/
def candRank (s : LFUReplPolicy) (cc : CCView) (id : LineId) : Rank :=
  ⟨s.array id, cc.numSharers id, cc.isValid id⟩

/-- `LFUReplPolicy::recordCandidate`. -/
def recordCandidate (s : LFUReplPolicy) (cc : CCView) (id : LineId) : LFUReplPolicy :=
  if s.bestCandidate = none ∨ (s.candRank cc id).lessThan s.bestRank s.timestamp = true then
    { s with
      bestRank := s.candRank cc id
      bestCandidate := some id }
  else s

/-- `LFUReplPolicy::replaced`. -/
def replaced (s : LFUReplPolicy) (id : LineId) : LFUReplPolicy :=
  { s with
    bestCandidate := none
    bestRank := .reset
    array := Function.update s.array id { s.array id with acc := 0 } }

end LFUReplPolicy

/-- The policy interface of `LFUReplPolicy`; `getBestCandidate` asserts that
there is one. -/
def lfu : LegacyReplPolicy LFUReplPolicy where
  update := LFUReplPolicy.update
  recordCandidate := LFUReplPolicy.recordCandidate
  getBestCandidate s := s.bestCandidate
  replaced := LFUReplPolicy.replaced

section Order

variable {r other : Rank} {curTs : ℕ}

/-- The preorder of the ranks: a line that is not valid first, then one without
sharers, then one that was never accessed, then the one of the largest inverse
frequency. -/
def rankClass (curTs : ℕ) (r : Rank) : ℕ ×ₗ ℕ ×ₗ ℕ ×ₗ ℕᵒᵈ :=
  toLex (r.valid.toNat, toLex (if r.sharers = 0 then 0 else 1, toLex (if r.lfuInfo.acc = 0 then 0 else 1,
    OrderDual.toDual (if r.lfuInfo.acc = 0 then 0 else r.invFreq curTs))))

theorem rankClass_le : rankClass curTs r ≤ rankClass curTs other ↔
    (r.valid = false ∧ other.valid = true) ∨ (r.valid = other.valid ∧
      ((r.sharers = 0 ∧ 0 < other.sharers) ∨ ((r.sharers = 0 ↔ other.sharers = 0) ∧
        (r.lfuInfo.acc = 0 ∨ (0 < other.lfuInfo.acc ∧ other.invFreq curTs ≤ r.invFreq curTs))))) := by
  have hvalid : r.valid.toNat < other.valid.toNat ↔ r.valid = false ∧ other.valid = true := by
    cases r.valid <;> cases other.valid <;> decide
  have hsame : r.valid.toNat = other.valid.toNat ↔ r.valid = other.valid := by
    cases r.valid <;> cases other.valid <;> decide
  simp only [rankClass, Prod.Lex.toLex_le_toLex, hvalid, hsame, OrderDual.toDual_le_toDual]
  by_cases hr : r.sharers = 0 <;> by_cases ho : other.sharers = 0 <;>
    by_cases har : r.lfuInfo.acc = 0 <;> by_cases hao : other.lfuInfo.acc = 0 <;>
      simp [hr, ho, har, hao, Nat.pos_of_ne_zero]

/-- A candidate that is taken is at least as good. -/
theorem rankClass_of_lessThan (h : r.lessThan other curTs = true) :
    rankClass curTs r ≤ rankClass curTs other := by
  rw [rankClass_le]
  unfold Rank.lessThan at h
  split at h
  · next hvalid => exact Or.inl hvalid
  · split at h
    · next hsame =>
      refine Or.inr ⟨hsame, ?_⟩
      split at h
      · next hshare => exact Or.inl hshare
      · split at h
        · cases h
        · next h₁ h₂ =>
          refine Or.inr ⟨by omega, ?_⟩
          split at h
          · next hacc => exact Or.inl hacc
          · split at h
            · cases h
            · exact Or.inr ⟨by omega, (of_decide_eq_true h).le⟩
    · cases h

/-- A candidate that is not taken is no better. -/
theorem rankClass_of_not_lessThan (h : ¬ r.lessThan other curTs = true) :
    rankClass curTs other ≤ rankClass curTs r := by
  rw [rankClass_le]
  unfold Rank.lessThan at h
  split at h
  · exact absurd rfl h
  · next hvalid =>
    split at h
    · next hsame =>
      refine Or.inr ⟨hsame.symm, ?_⟩
      split at h
      · exact absurd rfl h
      · next h₁ =>
        split at h
        · next h₂ => exact Or.inl ⟨h₂.2, h₂.1⟩
        · refine Or.inr ⟨by omega, ?_⟩
          split at h
          · exact absurd rfl h
          · split at h
            · next hacc => exact Or.inl hacc
            · refine Or.inr ⟨by omega, ?_⟩
              rw [decide_eq_true_iff] at h
              exact not_lt.mp h
    · next hdiffer =>
      left
      cases hv : r.valid <;> cases ho : other.valid <;> simp [hv, ho] at hvalid hdiffer ⊢

end Order

section Ranking

variable {s s' : LFUReplPolicy} {cc : CCView} {seen cands : List LineId} {c : LineId}

/-- The class of a line among the candidates. -/
def classOf (s : LFUReplPolicy) (cc : CCView) (id : LineId) : ℕ ×ₗ ℕ ×ₗ ℕ ×ₗ ℕᵒᵈ :=
  rankClass s.timestamp (s.candRank cc id)

/-- The best of the candidates seen is held with its rank. -/
def Holds (s : LFUReplPolicy) (cc : CCView) (seen : List LineId) : Prop :=
  ∃ i, s.bestCandidate = some i ∧ s.bestRank = s.candRank cc i ∧ Least (classOf s cc) seen i

/-- Recording candidates leaves the lines and the time alone. -/
theorem recordCandidate_lines (s : LFUReplPolicy) (cc : CCView) (c : LineId) :
    (s.recordCandidate cc c).array = s.array ∧ (s.recordCandidate cc c).timestamp = s.timestamp := by
  unfold LFUReplPolicy.recordCandidate
  split <;> exact ⟨rfl, rfl⟩

theorem classOf_recordCandidate : classOf (s.recordCandidate cc c) cc = classOf s cc := by
  obtain ⟨harray, htime⟩ := recordCandidate_lines s cc c
  funext id
  simp only [classOf, LFUReplPolicy.candRank, harray, htime]

theorem Holds.recordCandidate (h : Holds s cc seen) (c : LineId) :
    Holds (s.recordCandidate cc c) cc (seen ++ [c]) := by
  obtain ⟨i, hi, hrank, hleast⟩ := h
  have hturn := @Least.snoc _ _ _ (classOf s cc) seen i c
    ((s.candRank cc c).lessThan s.bestRank s.timestamp = true) _ hleast
    (fun hless => by
      rw [hrank] at hless
      exact rankClass_of_lessThan hless)
    (fun hless => by
      rw [hrank] at hless
      exact rankClass_of_not_lessThan hless)
  have hclass := @classOf_recordCandidate s cc c
  by_cases hless : (s.candRank cc c).lessThan s.bestRank s.timestamp = true
  · rw [if_pos hless, ← hclass] at hturn
    rw [LFUReplPolicy.recordCandidate, if_pos (Or.inr hless)] at hturn ⊢
    exact ⟨c, rfl, rfl, hturn⟩
  · have hkeep : ¬ (s.bestCandidate = none ∨
        (s.candRank cc c).lessThan s.bestRank s.timestamp = true) := by
      rw [hi]
      simpa using hless
    rw [if_neg hless] at hturn
    rw [LFUReplPolicy.recordCandidate, if_neg hkeep]
    exact ⟨i, hi, hrank, hturn⟩

/-- The first candidate is taken as it is. -/
theorem holds_first (h : s.bestCandidate = none) (c : LineId) :
    Holds (s.recordCandidate cc c) cc [c] := by
  rw [LFUReplPolicy.recordCandidate, if_pos (Or.inl h)]
  refine ⟨c, rfl, rfl, by simp, fun d hd => ?_⟩
  rw [List.mem_singleton] at hd
  exact hd ▸ le_rfl

theorem Holds.record (h : Holds s cc seen) :
    Holds (lfu.record s cc cands) cc (seen ++ cands) :=
  @record_seen _ lfu s cc cands (fun s seen => Holds s cc seen) seen
    (fun _ _ c h => h.recordCandidate c) h

theorem classOf_record : classOf (lfu.record s cc cands) cc = classOf s cc :=
  @record_invariant _ lfu s cc cands (fun s' => classOf s' cc = classOf s cc)
    (fun _ _ h => classOf_recordCandidate.trans h) rfl

/-- A ranking that starts with no best candidate returns a least one. -/
theorem rank_least (h : s.bestCandidate = none) (hne : cands ≠ []) :
    ∃ i s', lfu.rank s cc cands = some (i, s') ∧ Least (classOf s cc) cands i := by
  cases cands with
  | nil => exact absurd rfl hne
  | cons c cands =>
    have hholds : Holds (lfu.record s cc (c :: cands)) cc (c :: cands) :=
      Holds.record (holds_first h c)
    obtain ⟨i, hi, -, hleast⟩ := hholds
    rw [classOf_record] at hleast
    exact ⟨i, _, congrArg (Option.map _) hi, hleast⟩

end Ranking

section Runs

variable {numLines : ℕ} {s s' : LFUReplPolicy} {id : LineId}

/-- Every mean time is in the past. -/
structure Timed (s : LFUReplPolicy) : Prop where
  lines : ∀ i, (s.array i).ts < s.timestamp
  best : s.bestRank.lfuInfo.ts < s.timestamp

theorem timed_init : Timed .init := ⟨fun _ => Nat.zero_lt_one, Nat.zero_lt_one⟩

/-- The mean of times up to now is at most now. -/
theorem mean_le {acc ts now : ℕ} (h : ts ≤ now) : (acc * ts + now) / (acc + 1) ≤ now := by
  have hsum : acc * ts + now ≤ now * (acc + 1) := by
    calc acc * ts + now ≤ acc * now + now := Nat.add_le_add_right (Nat.mul_le_mul_left acc h) now
      _ = now * (acc + 1) := by rw [Nat.mul_succ, Nat.mul_comm]
  exact (Nat.div_le_div_right hsum).trans_eq (Nat.mul_div_cancel now (Nat.succ_pos acc))

theorem Timed.update (h : Timed s) : Timed (s.update id) := by
  constructor
  · intro i
    have hi := h.lines i
    simp only [LFUReplPolicy.update]
    by_cases hid : i = id
    · have hmean := @mean_le (s.array id).acc _ _ (h.lines id).le
      rw [hid, Function.update_self]
      dsimp only
      omega
    · rw [Function.update_of_ne hid]
      omega
  · have hbest := h.best
    simp only [LFUReplPolicy.update]
    omega

theorem Timed.recordCandidate {cc : CCView} (h : Timed s) : Timed (s.recordCandidate cc id) := by
  unfold LFUReplPolicy.recordCandidate
  split
  · exact ⟨h.lines, h.lines id⟩
  · exact h

theorem Timed.replaced (h : Timed s) : Timed (s.replaced id) := by
  constructor
  · intro i
    simp only [LFUReplPolicy.replaced]
    by_cases hid : i = id
    · rw [hid, Function.update_self]
      exact h.lines id
    · rw [Function.update_of_ne hid]
      exact h.lines i
  · exact Nat.zero_lt_of_lt (h.lines id)

theorem protocol_timed {s s' : LFUReplPolicy × Bool} {call : LegacyCall}
    (h : Timed s.1 ∧ (s.2 = false → s.1.bestCandidate = none))
    (hs : protocolStep lfu numLines s call = some s') :
    Timed s'.1 ∧ (s'.2 = false → s'.1.bestCandidate = none) :=
  @protocolStep_idle _ lfu numLines s s' call Timed (fun r => r.bestCandidate = none)
    (fun _ _ hr => ⟨hr.update, fun hnone => hnone⟩) (fun _ _ _ hr => hr.recordCandidate)
    (fun _ _ hr => ⟨hr.replaced, rfl⟩) h hs

/-- In every run every mean time is in the past, so no distance to the present
underflows. A ranking returns a candidate that no other one is better than, and
in whatever order the candidates come its class is the same. -/
theorem lfu_least (numLines : ℕ) (calls : List LegacyCall) (s : LFUReplPolicy × Bool)
    (hrun : run (protocolStep lfu numLines) (.init, false) calls = some s) :
    (∀ i, (s.1.array i).ts < s.1.timestamp) ∧ s.1.bestRank.lfuInfo.ts < s.1.timestamp ∧
    (s.2 = false → ∀ cc cands, cands ≠ [] →
      ∃ i s', lfu.rank s.1 cc cands = some (i, s') ∧ Least (classOf s.1 cc) cands i ∧
        ∀ order : List LineId, order.Perm cands →
          ∃ j s'', lfu.rank s.1 cc order = some (j, s'') ∧ classOf s.1 cc j = classOf s.1 cc i) := by
  have hinit : Timed LFUReplPolicy.init ∧ (false = false → LFUReplPolicy.init.bestCandidate = none) :=
    ⟨timed_init, fun _ => rfl⟩
  obtain ⟨htimed, hidle⟩ := @run_invariant _ _ _
    (fun s : LFUReplPolicy × Bool => Timed s.1 ∧ (s.2 = false → s.1.bestCandidate = none))
    (fun _ _ _ h hs => protocol_timed h hs) _ _ _ hinit hrun
  refine ⟨htimed.lines, htimed.best, fun hfree cc cands hne => ?_⟩
  obtain ⟨i, s', hi, hleast⟩ := rank_least (hidle hfree) hne
  refine ⟨i, s', hi, hleast, fun order hperm => ?_⟩
  have hne' : order ≠ [] := fun hnil => hne (List.nil_perm.mp (hnil ▸ hperm))
  obtain ⟨j, s'', hj, hleast'⟩ := rank_least (hidle hfree) hne'
  exact ⟨j, s'', hj, (hleast'.perm hperm).key_eq hleast⟩

/-- Line 0 is used twice and line 1 once; line 1 is the better candidate. -/
theorem lfu_least_used : ∃ s : LFUReplPolicy × Bool, ∃ i s',
    run (protocolStep lfu 2) (.init, false) [.update 1, .update 0, .update 0] = some s ∧
      lfu.rank s.1 ⟨fun _ => 0, fun _ => true⟩ [0, 1] = some (i, s') ∧
        Least (classOf s.1 ⟨fun _ => 0, fun _ => true⟩) [0, 1] i ∧ i = 1 := by
  have hrun : run (protocolStep lfu 2) (.init, false) [.update 1, .update 0, .update 0] =
      some (((LFUReplPolicy.init.update 1).update 0).update 0, false) := rfl
  obtain ⟨-, -, hrank⟩ := lfu_least 2 _ _ hrun
  obtain ⟨i, s', hi, hleast, -⟩ := hrank rfl ⟨fun _ => 0, fun _ => true⟩ [0, 1] (by decide)
  have hone : (lfu.rank (((LFUReplPolicy.init.update 1).update 0).update 0)
      ⟨fun _ => 0, fun _ => true⟩ [0, 1]).map Prod.fst = some 1 := by decide
  refine ⟨_, i, s', hrun, hi, hleast, ?_⟩
  rw [hi] at hone
  exact Option.some.inj hone

end Runs
end Zsim.LFU
