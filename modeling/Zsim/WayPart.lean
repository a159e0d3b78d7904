import Zsim.PartPolicy
import Zsim.GuardedRuns
import Mathlib.Algebra.BigOperators.Intervals
import Mathlib.Algebra.Order.BigOperators.Group.Finset
import Mathlib.Data.Int.Notation

/-!
# Way partitioning

Each way of the cache belongs to a partition, and a line of a partition may
fill its ways only. Line ids are held as `int32_t` while a victim is chosen,
and the first assignment of ways is computed in 32 bits.
-/

namespace Zsim.WayPart

open WeakestPre MemoryHierarchy CheckedTables PartPolicy

/-- `WayPartInfo`. -/
structure WayPartInfo where
  addr : Address
  /-- Zero if the line is empty. -/
  ts : ℕ
  p : ℕ

/-- `WayPartReplPolicy`; `monitors` is the number of parts of the monitor. -/
structure WayPartReplPolicy where
  partitions : ℕ
  totalSize : ℕ
  waySize : ℕ
  ways : ℕ
  testMode : Bool
  monitors : ℕ
  partInfo : Table PartInfo
  array : Table WayPartInfo
  /-- The partition of each way. -/
  wayPartIndex : Table ℕ
  /-- Negative before a candidate has been chosen. -/
  bestId : ℤ
  candIdx : ℕ
  incomingLinePart : ℕ
  incomingLineAddr : Address
  timestamp : ℕ

abbrev Act (α : Type) := Prog WayPartReplPolicy PartFailure α

abbrev partInfo : TableRef WayPartReplPolicy PartInfo :=
  ⟨fun s => s.partInfo, fun s t => { s with partInfo := t }⟩

abbrev array : TableRef WayPartReplPolicy WayPartInfo :=
  ⟨fun s => s.array, fun s t => { s with array := t }⟩

abbrev wayPartIndex : TableRef WayPartReplPolicy ℕ :=
  ⟨fun s => s.wayPartIndex, fun s t => { s with wayPartIndex := t }⟩

/-- A line id stored in an `int32_t`. -/
def int32 (id : LineId) : ℤ := if id < 2 ^ 31 then Int.ofNat id else Int.ofNat id - 2 ^ 32

/-- `w*partitions/ways`, in 32 bits. -/
def firstOwner (partitions ways w : ℕ) : ℕ := w * partitions % 2 ^ 32 / ways

/-- The zeroed tables of the constructor. -/
def allocated (partitions lines ways : ℕ) (testMode : Bool) (monitors : ℕ) : WayPartReplPolicy where
  partitions := partitions
  totalSize := lines
  waySize := lines / ways
  ways := ways
  testMode := testMode
  monitors := monitors
  partInfo := ⟨partitions, fun _ => ⟨0, 0⟩⟩
  array := ⟨lines, fun _ => ⟨0, 0, 0⟩⟩
  wayPartIndex := ⟨ways, fun _ => 0⟩
  bestId := -1
  candIdx := 0
  incomingLinePart := 0
  incomingLineAddr := 0
  timestamp := 1

/-- The rest of the constructor. -/
def construct : Act Unit := do
  let s ← observe id
  ensure (s.waySize * s.ways = s.totalSize) .partialWays
  forUpTo (fun i _ => modifyCell partInfo i (fun p => { p with targetSize := 0 }) .outside)
    s.partitions ()
  modifyCell partInfo 0 (fun p => { p with size := s.totalSize }) .outside
  forUpTo (fun w _ => do
      let p := firstOwner s.partitions s.ways w
      modifyCell wayPartIndex w (fun _ => p) .outside
      modifyCell partInfo p (fun i => { i with targetSize := i.targetSize + s.waySize }) .outside)
    s.ways ()

/-- `WayPartReplPolicy::update`. -/
def update (id : LineId) : Act Unit := do
  let e ← readCell array id .outside
  (if 0 < e.ts then touch partInfo e.p
    else do
      let newPart ← observe fun s => s.incomingLinePart
      (if e.p ≠ newPart then do
          modifyCell partInfo e.p (fun i => { i with size := dec64 i.size }) .outside
          modifyCell partInfo newPart (fun i => { i with size := inc64 i.size }) .outside
        else touch partInfo e.p)
      touch partInfo newPart
      modifyCell array id (fun e => { e with p := newPart }) .outside)
  let ts ← observe fun s => s.timestamp
  modifyCell array id (fun e => { e with ts := ts }) .outside
  change fun s => { s with timestamp := inc64 s.timestamp }
  let e ← readCell array id .outside
  monitorAccess (fun s => s.monitors) e.p

/-- `WayPartReplPolicy::startReplacement`; `part` is the mapper's answer. -/
def startReplacement (part : ℕ) (lineAddr : Address) : Act Unit := do
  let s ← observe id
  ensure (s.candIdx = 0) .replacing
  ensure (s.bestId = -1) .replacing
  change fun s => { s with incomingLinePart := part, incomingLineAddr := lineAddr }

/-- Whether a candidate replaces the best one so far, as the comparisons of
`recordCandidate` decide. -/
def better (testMode : Bool) (q : ℕ) (c best : WayPartInfo) : Bool :=
  if testMode = true ∨ (c.p = q ∧ best.p = q) then decide (c.ts < best.ts)
  else if c.p = q ∧ best.p ≠ q then false
  else if c.p ≠ q ∧ best.p = q then true
  else decide (c.ts < best.ts)

/-- `WayPartReplPolicy::recordCandidate`. -/
def recordCandidate (id : LineId) : Act Unit := do
  let s ← observe fun s => s
  ensure (s.candIdx < s.ways) .manyCandidates
  change fun s => { s with candIdx := s.candIdx + 1 }
  let owned ← (if s.testMode = true then pure true
    else do
      let owner ← readCell wayPartIndex s.candIdx .outside
      pure (owner == s.incomingLinePart))
  if owned = true then
    if s.bestId < 0 then change fun s => { s with bestId := int32 id }
    else do
      let c ← readCell array id .outside
      let best ← readCell array s.bestId.toNat .outside
      if better s.testMode s.incomingLinePart c best = true then
        change fun s => { s with bestId := int32 id }
      else pure ()
  else pure ()

/-- `WayPartReplPolicy::getBestCandidate`. -/
def getBestCandidate : Act LineId := do
  let bestId ← observe fun s => s.bestId
  ensure (0 ≤ bestId) .noCandidate
  pure bestId.toNat

/-- `LegacyReplPolicy::rank`. -/
def rank (part : ℕ) (lineAddr : Address) (cands : List LineId) : Act LineId := do
  startReplacement part lineAddr
  cands.foldlM (fun _ id => recordCandidate id) ()
  getBestCandidate

/-- `WayPartReplPolicy::replaced`. -/
def replaced (id : LineId) : Act Unit := do
  change fun s => { s with candIdx := 0, bestId := -1 }
  let lineAddr ← observe fun s => s.incomingLineAddr
  modifyCell array id (fun e => { e with ts := 0, addr := lineAddr }) .outside

/-- One round of `setPartitionSizes`: partition `p` gets its target and the
next `n` ways. -/
def assignPart (totalSize ways p n curWay : ℕ) : Act ℕ := do
  modifyCell partInfo p (fun i => { i with targetSize := totalSize * n % 2 ^ 32 / ways }) .outside
  forUpTo (fun _ curWay => do
    modifyCell wayPartIndex curWay (fun _ => p) .outside
    pure (curWay + 1)) n curWay

/-- `WayPartReplPolicy::setPartitionSizes`. -/
def setPartitionSizes (waysPart : ℕ → ℕ) : Act Unit := do
  let s ← observe fun s => s
  let curWay ← forUpTo (fun p curWay => assignPart s.totalSize s.ways p (waysPart p) curWay)
    s.partitions 0
  ensure (curWay = s.ways) .waysAssigned

/-- The first way of a partition. -/
def firstWay (waysPart : ℕ → ℕ) (p : ℕ) : ℕ := (Finset.range p).sum waysPart

section Sizes

variable {waysPart : ℕ → ℕ} {s s' : WayPartReplPolicy} {p : ℕ}

theorem firstWay_succ : firstWay waysPart (p + 1) = firstWay waysPart p + waysPart p :=
  Finset.sum_range_succ ..

theorem firstWay_mono {q : ℕ} (h : p ≤ q) : firstWay waysPart p ≤ firstWay waysPart q :=
  Finset.sum_le_sum_of_subset (Finset.range_mono h)

/-- The ways before those of partition `p` have been assigned and `i` of its
own; sizes and all else are kept. -/
structure Assigned (waysPart : ℕ → ℕ) (s : WayPartReplPolicy) (p i : ℕ) (s' : WayPartReplPolicy) :
    Prop where
  same : s' = { s with partInfo := s'.partInfo, wayPartIndex := s'.wayPartIndex }
  infos : s'.partInfo.length = s.partInfo.length
  size : ∀ q, (s'.partInfo.cell q).size = (s.partInfo.cell q).size
  length : s'.wayPartIndex.length = s.wayPartIndex.length
  before : ∀ q < p, ∀ w, firstWay waysPart q ≤ w → w < firstWay waysPart (q + 1) →
    s'.wayPartIndex.cell w = q
  own : ∀ w, firstWay waysPart p ≤ w → w < firstWay waysPart p + i → s'.wayPartIndex.cell w = p

/-- One way is assigned. -/
theorem Assigned.next {i : ℕ} (h : Assigned waysPart s p i s') :
    Assigned waysPart s p (i + 1) { s' with
      wayPartIndex := s'.wayPartIndex.set (firstWay waysPart p + i) p } where
  same := by rw [h.same]
  infos := h.infos
  size := h.size
  length := h.length
  before q hq w hw hw' := by
    have hmono : firstWay waysPart (q + 1) ≤ firstWay waysPart p := firstWay_mono (by omega)
    rw [set_cell_of_ne _ _ _ (by omega)]
    exact h.before q hq w hw hw'
  own w hw hw' := by
    by_cases hlast : w = firstWay waysPart p + i
    · rw [hlast, set_cell_self]
    · rw [set_cell_of_ne _ _ _ hlast]
      exact h.own w hw (by omega)

/-- Only the entries of the partitions are read. -/
theorem setPartitionSizes_congr {waysPart' : ℕ → ℕ}
    (h : ∀ p < s.partitions, waysPart p = waysPart' p) :
    setPartitionSizes waysPart s = setPartitionSizes waysPart' s := by
  have hloop := forUpTo_congr (fun p hp =>
    congrArg (assignPart s.totalSize s.ways p) (h p hp)) (0 : ℕ)
  exact congrArg (fun m : Act ℕ => (do
    let curWay ← m
    ensure (curWay = s.ways) .waysAssigned : Act Unit) s) hloop

/-- When the entries add up to the ways, every way is assigned to the partition
whose range it lies in, and nothing is written outside. -/
theorem setPartitionSizes_spec (hinfo : s.partInfo.length = s.partitions)
    (hindex : s.wayPartIndex.length = s.ways) (hsum : firstWay waysPart s.partitions = s.ways) :
    wp (setPartitionSizes waysPart) (fun _ => Assigned waysPart s s.partitions 0) s := by
  simp only [setPartitionSizes, wp_bind, wp_observe, wp_ensure]
  refine wp_mono (wp_forUpTo (fun p curWay s' => curWay = firstWay waysPart p ∧
    Assigned waysPart s p 0 s') ?_ ?_) ?_
  · rintro p curWay s' hp ⟨rfl, h⟩
    rw [assignPart, wp_bind, wp_modifyCell]
    refine ⟨by rw [h.infos, hinfo]; exact hp, ?_⟩
    have hle : firstWay waysPart (p + 1) ≤ s.ways := hsum ▸ firstWay_mono hp
    rw [firstWay_succ] at hle
    refine wp_mono (wp_forUpTo (fun i curWay s' => curWay = firstWay waysPart p + i ∧
      Assigned waysPart s p i s') ?_ ?_) ?_
    · rintro i curWay s' hi ⟨rfl, h⟩
      rw [wp_bind, wp_modifyCell, wp_pure]
      refine ⟨?_, by omega, h.next⟩
      show firstWay waysPart p + i < s'.wayPartIndex.length
      rw [h.length, hindex]
      omega
    · refine ⟨rfl, by rw [h.same], h.infos, fun q => ?_, h.length, h.before, h.own⟩
      by_cases hq : q = p
      · rw [hq, set_cell_self]
        exact h.size p
      · rw [set_cell_of_ne _ _ _ hq]
        exact h.size q
    · rintro curWay s' ⟨rfl, h⟩
      refine ⟨firstWay_succ.symm, h.same, h.infos, h.size, h.length, fun q hq w hw hw' => ?_,
        fun w hw hw' => ?_⟩
      · rcases Nat.lt_succ_iff_lt_or_eq.mp hq with hlt | rfl
        · exact h.before q hlt w hw hw'
        · rw [firstWay_succ] at hw'
          exact h.own w hw hw'
      · omega
  · refine ⟨rfl, rfl, rfl, fun _ => rfl, rfl, fun q hq => absurd hq (Nat.not_lt_zero q), ?_⟩
    intro w hw hw'
    omega
  · rintro curWay s' ⟨rfl, h⟩
    exact ⟨hsum, h⟩

end Sizes

end Zsim.WayPart
