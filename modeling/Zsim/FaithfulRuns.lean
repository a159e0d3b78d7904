import Zsim.EHC
import Zsim.SHiP
import Zsim.SRRIP

/-!
# Runs of the arrays under their policies

From an empty array and a policy that ranks, no call ever fails. The array
holds the addresses that were inserted and not reported for writeback since,
each of them once and where a lookup finds it. The three policies rank in every
state they reach.
-/

namespace Zsim.FaithfulRuns

open MemoryHierarchy CacheArrays DrivenArrays GuardedRuns PolicyRuns SetAssoc ZCache

variable {σ ρ : Type}

/-- An array and its policy before the first call. -/
def start (array : σ) (rp : ρ) : ArrayState σ ρ := ⟨array, rp, none, ∅⟩

theorem sound_start {A : CacheArray σ} {F : Faithful A} {J : ρ → Prop} {array : σ} {rp : ρ}
    (hinv : F.Inv array) (hempty : ∀ i, A.line array i = 0) (hrp : J rp) :
    Sound F J (start array rp) := by
  refine ⟨hrp, hinv, nofun, fun a => ?_⟩
  have hnone : a ∈ (start array rp).contents ↔ False := by simp [start]
  rw [hnone, false_iff]
  rintro ⟨ha, i, hi⟩
  exact ha ((F.lookup_line array a i hinv hi).symm.trans (hempty i))

/-- The address an insertion in flight has reported is the one it will
replace. -/
def ReportsLine (line : LineId → Address) (pending : Option Insertion) : Prop :=
  ∀ ins, pending = some ins → ins.wbLineAddr = line ins.lineId

theorem sound_reportsLine {A : CacheArray σ} {F : Faithful A} {J : ρ → Prop} {s : ArrayState σ ρ}
    (hs : Sound F J s) : ReportsLine (A.line s.array) s.pending := by
  intro ins hins
  obtain ⟨s₀, harr, -, -, -, -, hwb⟩ := hs.pending ins hins
  rw [harr, F.preinsert_line, hwb]

section ZArray

/-- What holds of a zcache array between calls. -/
structure ZFaithful (s : ArrayState ZArray ρ) : Prop where
  /-- `lookupArray` is a permutation of the line ids. -/
  perm : Set.BijOn s.array.lookupArray (Set.Iio s.array.numLines) (Set.Iio s.array.numLines)
  /-- A lookup finds the line of every stored address. -/
  found : ∀ i, s.array.array i ≠ 0 → s.array.find (s.array.array i) = some i
  /-- A lookup finds nothing else. -/
  stored : ∀ a i, s.array.find a = some i → s.array.array i = a
  once : ∀ i j, s.array.array i ≠ 0 → s.array.array i = s.array.array j → i = j
  /-- Every insertion so far has added its address and removed the one it
  reported, and nothing else. -/
  contents : ∀ a, a ∈ s.contents ↔ a ≠ 0 ∧ ∃ i, s.array.array i = a
  reports : ReportsLine s.array.array s.pending

theorem wellStored_init {ways cands k : ℕ} (hways : 2 ≤ ways) (hcands : ways ≤ cands)
    (hash : ℕ → Address → ℕ) : WellStored (.init (ways * 2 ^ k) ways cands hash) := by
  have hsets : (ZArray.init (ways * 2 ^ k) ways cands hash).numSets = 2 ^ k :=
    Nat.mul_div_cancel_left _ (by omega)
  refine ⟨hways, hcands, ?_, ⟨k, hsets⟩, Set.bijOn_id _, fun _ h => absurd rfl h,
    fun _ _ h => absurd rfl h⟩
  rw [hsets]
  rfl

/-- For any ways, power of two of sets, candidates, hash family and policy that
ranks, every run of the zcache array succeeds and is faithful. -/
theorem zArray_runs {ways cands : ℕ} (k : ℕ) (hash : ℕ → Address → ℕ) (hways : 2 ≤ ways)
    (hcands : ways ≤ cands) {P : ReplPolicy ρ} {J : ρ → Prop} (hP : Ranks P (ways * 2 ^ k) J)
    {rp : ρ} (hrp : J rp) {ops : List ArrayOp} {r : Except ArrayFailure (ArrayState ZArray ρ)}
    (hrun : run (step (ZArray.methods P)) (.ok (start (.init (ways * 2 ^ k) ways cands hash) rp))
      ops = some r) : ∃ s, r = .ok s ∧ ZFaithful s := by
  have hstart : Sound (ZCache.sized_faithful (ways * 2 ^ k)) J
      (start (.init (ways * 2 ^ k) ways cands hash) rp) :=
    sound_start ⟨wellStored_init hways hcands hash, rfl⟩ (fun _ => rfl) hrp
  obtain ⟨s, rfl, hs⟩ := run_sound (zArray_implements hP) hstart hrun
  have hinv : WellStored s.array := hs.inv.1
  refine ⟨s, rfl, hinv.perm, fun i hi => hinv.find_stored hi, fun a i hi => ZCache.find_line hi,
    hinv.unique, fun a => ?_, sound_reportsLine hs⟩
  rw [hs.contents]
  refine and_congr_right fun ha => ?_
  exact lookup_iff_line (ZCache.sized_faithful (ways * 2 ^ k)) hs.inv ha

/-- An insertion and a lookup in two ways of two sets, under SRRIP. -/
theorem zArray_runs_insertion : ∃ r, run (step (ZArray.methods SRRIP.srrip))
    (.ok (start (.init (2 * 2 ^ 1) 2 4 fun w a => a + w) .init))
    [.preinsert ⟨fun _ => 0, fun _ => false⟩ (fetch 5), .postinsert, .lookup (fetch 5) true] =
      some r ∧ ∃ s, r = .ok s ∧ ZFaithful s := by
  obtain ⟨r, hrun⟩ : ∃ r, run (step (ZArray.methods SRRIP.srrip))
      (.ok (start (.init (2 * 2 ^ 1) 2 4 fun w a => a + w) .init))
      [.preinsert ⟨fun _ => 0, fun _ => false⟩ (fetch 5), .postinsert, .lookup (fetch 5) true] =
        some r := ⟨_, rfl⟩
  exact ⟨r, hrun, zArray_runs 1 _ (by decide) (by decide) (SRRIP.srrip_ranks _)
    SRRIP.inRange_init hrun⟩

end ZArray

section SetAssocArray

/-- What holds of a set-associative array between calls. -/
structure SetFaithful (s : ArrayState SetAssocArray ρ) : Prop where
  once : ∀ i j, s.array.array i ≠ 0 → s.array.array i = s.array.array j → i = j
  /-- Every address lies in its own set. -/
  home : ∀ i, s.array.array i ≠ 0 → i ∈ s.array.cands (s.array.array i)
  /-- A lookup succeeds exactly for the addresses inserted and not reported
  since. -/
  lookup : ∀ a, a ≠ 0 → ((s.array.find a).isSome = true ↔ a ∈ s.contents)
  stored : ∀ a i, s.array.find a = some i → s.array.array i = a
  reports : ReportsLine s.array.array s.pending

theorem wellPlaced_init {assoc k : ℕ} (hassoc : 0 < assoc) (hash : ℕ → Address → ℕ) :
    WellPlaced (.init (2 ^ k * assoc) assoc hash) :=
  ⟨⟨k, Nat.mul_div_cancel _ hassoc⟩, fun _ h => absurd rfl h, fun _ _ h => absurd rfl h⟩

/-- The policies written for the simulator rank in every state they reach. -/
structure PoliciesRank (numLines maxSHCTVal SHCTsize : ℕ) : Prop where
  ehc : Ranks EHC.ehc numLines (EHC.Within numLines 255 255 255) ∧
    EHC.Within numLines 255 255 255 (.init 3 numLines)
  ship : Ranks SHiP.ship numLines SHiP.InRange ∧ SHiP.InRange (.init 3 maxSHCTVal SHCTsize)
  srrip : Ranks SRRIP.srrip numLines SRRIP.InRange ∧ SRRIP.InRange .init

theorem policies_rank (numLines maxSHCTVal SHCTsize : ℕ) :
    PoliciesRank numLines maxSHCTVal SHCTsize :=
  ⟨⟨EHC.ehc_ranks numLines, EHC.within_init (by decide)⟩,
    ⟨SHiP.ship_ranks numLines, SHiP.inRange_init maxSHCTVal SHCTsize⟩,
    ⟨SRRIP.srrip_ranks numLines, SRRIP.inRange_init⟩⟩

/-- For any associativity, power of two of sets, hash family and policy that
ranks, every run of the set-associative array succeeds and is faithful. The
policies written for the simulator rank. -/
theorem setAssoc_runs {assoc : ℕ} (k : ℕ) (hash : ℕ → Address → ℕ) (hassoc : 0 < assoc)
    {P : ReplPolicy ρ} {J : ρ → Prop} (hP : Ranks P (2 ^ k * assoc) J) {rp : ρ} (hrp : J rp)
    {ops : List ArrayOp} {r : Except ArrayFailure (ArrayState SetAssocArray ρ)}
    (hrun : run (step (SetAssocArray.methods P)) (.ok (start (.init (2 ^ k * assoc) assoc hash) rp))
      ops = some r) (maxSHCTVal SHCTsize : ℕ) :
    (∃ s, r = .ok s ∧ SetFaithful s) ∧ PoliciesRank (2 ^ k * assoc) maxSHCTVal SHCTsize := by
  have hstart : Sound (SetAssoc.sized_faithful (2 ^ k * assoc)) J
      (start (.init (2 ^ k * assoc) assoc hash) rp) :=
    sound_start ⟨wellPlaced_init hassoc hash, rfl⟩ (fun _ => rfl) hrp
  obtain ⟨s, rfl, hs⟩ := run_sound (setAssoc_implements hP) hstart hrun
  have hinv : WellPlaced s.array := hs.inv.1
  refine ⟨⟨s, rfl, hinv.unique, hinv.home, fun a ha => ?_, fun a i hi => SetAssoc.find_line hi,
    sound_reportsLine hs⟩, policies_rank _ _ _⟩
  rw [hs.contents, Option.isSome_iff_exists]
  exact (and_iff_right ha).symm

/-- An insertion and a lookup in four sets of two lines, under SRRIP. -/
theorem setAssoc_runs_insertion : ∃ r, run (step (SetAssocArray.methods SRRIP.srrip))
    (.ok (start (.init (2 ^ 2 * 2) 2 fun _ a => a) .init))
    [.preinsert ⟨fun _ => 0, fun _ => false⟩ (fetch 5), .postinsert, .lookup (fetch 5) true] =
      some r ∧ (∃ s, r = .ok s ∧ SetFaithful s) ∧ PoliciesRank 8 7 16384 := by
  obtain ⟨r, hrun⟩ : ∃ r, run (step (SetAssocArray.methods SRRIP.srrip))
      (.ok (start (.init (2 ^ 2 * 2) 2 fun _ a => a) .init))
      [.preinsert ⟨fun _ => 0, fun _ => false⟩ (fetch 5), .postinsert, .lookup (fetch 5) true] =
        some r := ⟨_, rfl⟩
  exact ⟨r, hrun, setAssoc_runs 2 _ (by decide) (SRRIP.srrip_ranks _) SRRIP.inRange_init hrun
    7 16384⟩

end SetAssocArray

section Policies

/-- Under a policy that ranks, every run of either array is one of the policy: it is updated for hits on the line of a
block and for fills only, and ranks lines of the array. -/
theorem arrays_refine_policy {P : ReplPolicy ρ} {numLines : ℕ} {J : ρ → Prop} (hP : Ranks P numLines J) {rp : ρ}
    (hrp : J rp) (k : ℕ) (ops : List ArrayOp) :
    (∀ assoc hash s, 0 < assoc → numLines = 2 ^ k * assoc →
      run (step (SetAssocArray.methods P)) (.ok (start (.init numLines assoc hash) rp)) ops = some (.ok s) →
      ∃ pops, run (policyStep P numLines) ⟨rp, fun _ => none⟩ pops = some (view setAssocArray s)) ∧
    (∀ ways cands hash s, 2 ≤ ways → ways ≤ cands → numLines = ways * 2 ^ k →
      run (step (ZArray.methods P)) (.ok (start (.init numLines ways cands hash) rp)) ops = some (.ok s) →
      ∃ pops, run (policyStep P numLines) ⟨rp, fun _ => none⟩ pops = some (view zArray s)) := by
  constructor
  · rintro assoc hash s hassoc rfl hrun
    exact run_refines (setAssoc_implements hP) setAssoc_drives
      (sound_start ⟨wellPlaced_init hassoc hash, rfl⟩ (fun _ => rfl) hrp) hrun
  · rintro ways cands hash s hways hcands rfl hrun
    exact run_refines (zArray_implements hP) zArray_drives
      (sound_start ⟨wellStored_init hways hcands hash, rfl⟩ (fun _ => rfl) hrp) hrun

/-- An insertion and a hit in two ways of two sets, under SRRIP. -/
theorem arrays_refine_policy_hit : ∃ s pops, run (step (ZArray.methods SRRIP.srrip))
    (.ok (start (.init 4 2 4 fun w a => a + w) .init))
    [.preinsert ⟨fun _ => 0, fun _ => false⟩ (fetch 5), .postinsert, .lookup (fetch 5) true] = some (.ok s) ∧
      run (policyStep SRRIP.srrip 4) ⟨.init, fun _ => none⟩ pops = some (view zArray s) := by
  obtain ⟨s, hrun⟩ : ∃ s, run (step (ZArray.methods SRRIP.srrip)) (.ok (start (.init 4 2 4 fun w a => a + w) .init))
    [.preinsert ⟨fun _ => 0, fun _ => false⟩ (fetch 5), .postinsert, .lookup (fetch 5) true] = some (.ok s) := ⟨_, rfl⟩
  obtain ⟨pops, hpops⟩ := (arrays_refine_policy (SRRIP.srrip_ranks 4) SRRIP.inRange_init 1 _).2 2 4 _ s (by decide)
    (by decide) rfl hrun
  exact ⟨s, pops, hrun, hpops⟩

end Policies

end Zsim.FaithfulRuns
