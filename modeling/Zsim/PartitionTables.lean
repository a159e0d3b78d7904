import Zsim.Lookahead
import Zsim.IdealLRUPart
import Zsim.PartitionMapper
import Zsim.VantageRuns
import Zsim.WayPartRuns

/-!
# Partition ids and the tables they index

The mapper's partition ids index the tables of the partitioned policies, the
monitors and the allocations of the partitioner. Each of these was allocated
with its own idea of the number of partitions. A run constructs a policy and
calls it for the requests of a simulation; an access outside a table ends it.
-/

namespace Zsim.PartitionTables

open WeakestPre MemoryHierarchy CheckedTables PartPolicy Outcomes GuardedRuns PartitionMapper
open Vantage (VantagePartInfo Setpoint)

/-- Every failure but an access outside a table. -/
def Inside (e : PartFailure) : Prop := e ≠ .outside

/-- The calls a cache and its partitioner make, with the requests they are made for. -/
inductive Op where
  | rank (a : Access) (lineAddr : Address) (cands : List LineId)
      (control : VantagePartInfo → Option Setpoint)
  | replaced (id : LineId)
  | update (a : Access) (phaseCycles : ℕ) (draw : ℕ → ℕ) (id : LineId)
  | setPartitionSizes (sizes : ℕ → ℕ) (draw : ℕ → ℕ → ℕ)

/-- The partitioned policies, with the arguments of their constructors. -/
inductive Policy where
  | WayPart (ways : ℕ) (testMode : Bool)
  | Vantage (assoc partPortionPct partSlackPct maxAperturePct buckets : ℕ) (smoothTransients : Bool)
  | IdealLRUPart (buckets : ℕ)

/-- The number of buckets of the monitor and of the partitioner. -/
def Policy.buckets : Policy → ℕ
  | .WayPart ways _ => ways
  | .Vantage _ _ _ _ buckets _ => buckets
  | .IdealLRUPart buckets => buckets

section WayPartTables

open WayPart

variable {P lines ways : ℕ} {s : WayPartReplPolicy}

/-- The tables of the policy and the ids it holds. -/
structure Indexed (P lines ways : ℕ) (s : WayPartReplPolicy) : Prop where
  partitions : s.partitions = P
  ways_eq : s.ways = ways
  infos : s.partInfo.length = P
  cells : s.array.length = lines
  index : s.wayPartIndex.length = ways
  monitors : P ≤ s.monitors
  parts : ∀ i < lines, (s.array.cell i).p < P
  incoming : s.incomingLinePart < P
  best : 0 ≤ s.bestId → s.bestId.toNat < lines

theorem Indexed.info_lt (h : Indexed P lines ways s) {q : ℕ} (hq : q < P) :
    q < s.partInfo.length := h.infos.symm ▸ hq

theorem Indexed.cell_lt (h : Indexed P lines ways s) {id : LineId} (hid : id < lines) :
    id < s.array.length := h.cells.symm ▸ hid

/-- A line may move to any partition. -/
theorem Indexed.parts_set (h : Indexed P lines ways s) {id : LineId} {v : WayPartInfo} (hv : v.p < P) :
    ∀ i < lines, ((s.array.set id v).cell i).p < P := by
  intro i hi
  by_cases hii : i = id
  · rw [hii, set_cell_self]
    exact hv
  · rw [set_cell_of_ne _ _ _ hii]
    exact h.parts i hi

/-- Writes that keep the lengths of the tables and the ids in range. -/
theorem Indexed.written (h : Indexed P lines ways s) {t : Table PartInfo} {a : Table WayPartInfo}
    {bestId : ℤ} {candIdx part timestamp : ℕ} {lineAddr : Address}
    (ht : t.length = s.partInfo.length) (ha : a.length = s.array.length)
    (hparts : ∀ i < lines, (a.cell i).p < P) (hpart : part < P)
    (hbest : 0 ≤ bestId → bestId.toNat < lines) :
    Indexed P lines ways { s with
      partInfo := t
      array := a
      bestId := bestId
      candIdx := candIdx
      incomingLinePart := part
      incomingLineAddr := lineAddr
      timestamp := timestamp } :=
  ⟨h.partitions, h.ways_eq, ht.trans h.infos, ha.trans h.cells, h.index, h.monitors, hparts, hpart,
    hbest⟩

/-- Targets and the owners of the ways may change. -/
theorem Indexed.reassigned (h : Indexed P lines ways s) {t : Table PartInfo} {u : Table ℕ}
    (ht : t.length = s.partInfo.length) (hu : u.length = s.wayPartIndex.length) :
    Indexed P lines ways { s with partInfo := t, wayPartIndex := u } :=
  ⟨h.partitions, h.ways_eq, ht.trans h.infos, h.cells, hu.trans h.index, h.monitors, h.parts,
    h.incoming, h.best⟩

theorem update_indexed (h : Indexed P lines ways s) {id : LineId} (hid : id < lines) :
    ends Inside (update id) (fun _ => Indexed P lines ways) s := by
  refine ends_of_wp ?_
  simp only [update, wp_bind, wp_readCell, wp_ite, wp_touch, wp_observe, wp_modifyCell, wp_change,
    wp_monitorAccess, set_length, set_cell_self, set_set]
  have hown := h.parts id hid
  have hp := h.info_lt hown
  have hq := h.info_lt h.incoming
  have hcell := h.cell_lt hid
  refine ⟨hcell, ?_⟩
  split
  · refine ⟨hp, hcell, hcell, lt_of_lt_of_le hown h.monitors, ?_⟩
    exact h.written rfl rfl (h.parts_set hown) h.incoming h.best
  · have hmonitor := lt_of_lt_of_le h.incoming h.monitors
    split
    · refine ⟨hp, hq, hq, hcell, hcell, hcell, hmonitor, ?_⟩
      exact h.written rfl rfl (h.parts_set h.incoming) h.incoming h.best
    · refine ⟨hp, hq, hcell, hcell, hcell, hmonitor, ?_⟩
      exact h.written rfl rfl (h.parts_set h.incoming) h.incoming h.best

theorem replaced_indexed (h : Indexed P lines ways s) {id : LineId} (hid : id < lines) :
    ends Inside (replaced id) (fun _ => Indexed P lines ways) s := by
  refine ends_of_wp ?_
  simp only [replaced, wp_bind, wp_change, wp_observe, wp_modifyCell]
  have hnone : (0 : ℤ) ≤ -1 → (-1 : ℤ).toNat < lines := fun hle => absurd hle (by decide)
  exact ⟨h.cell_lt hid, h.written rfl rfl (h.parts_set (h.parts id hid)) h.incoming hnone⟩

/-- A line id read back from an `int32_t` is the line, or negative. -/
theorem int32_lt {id : ℕ} (hlines : lines < 2 ^ 32) (hid : id < lines) (hle : 0 ≤ int32 id) :
    (int32 id).toNat < lines := by
  have hval : int32 id = if id < 2 ^ 31 then (id : ℤ) else (id : ℤ) - 2 ^ 32 := rfl
  split at hval
  · omega
  · omega

/-- A candidate is compared with the best one, if there is one. -/
theorem recordCandidate_indexed (hlines : lines < 2 ^ 32) (h : Indexed P lines ways s) {id : LineId}
    (hid : id < lines) : ends Inside (recordCandidate id) (fun _ => Indexed P lines ways) s := by
  have hbetter := int32_lt hlines hid
  have hsame : ∀ candIdx, Indexed P lines ways { s with candIdx := candIdx } := fun _ =>
    h.written rfl rfl h.parts h.incoming h.best
  have hbest : ∀ candIdx, Indexed P lines ways { s with candIdx := candIdx, bestId := int32 id } :=
    fun _ => h.written rfl rfl h.parts h.incoming hbetter
  -- the comparison, once the candidate's way belongs to the incoming partition
  have hcompare : ∀ owned : Bool, ends Inside (do
      if owned = true then
        if s.bestId < 0 then change fun s => { s with bestId := int32 id }
        else do
          let c ← readCell array id .outside
          let best ← readCell array s.bestId.toNat .outside
          if better s.testMode s.incomingLinePart c best = true then
            change fun s => { s with bestId := int32 id }
          else pure ()
      else pure () : Act Unit) (fun _ => Indexed P lines ways) { s with candIdx := s.candIdx + 1 } := by
    intro owned
    rw [ends_ite]
    split
    · rw [ends_ite]
      split
      · exact hbest _
      · next hpos =>
        have hold := h.cell_lt (h.best (by omega))
        rw [ends_bind, ends_readCell_of_lt (h.cell_lt hid), ends_bind, ends_readCell_of_lt hold,
          ends_ite]
        split
        · exact hbest _
        · exact hsame _
    · exact hsame _
  simp only [recordCandidate, ends_bind, ends_observe, ends_ensure, ends_change]
  constructor
  · intro hcand
    rw [ends_ite]
    split
    · exact hcompare true
    · rw [ends_bind, ends_readCell_of_lt (h.index.symm ▸ h.ways_eq ▸ hcand)]
      exact hcompare _
  · exact fun _ h => by cases h

theorem rank_indexed (hlines : lines < 2 ^ 32) (h : Indexed P lines ways s) {part : ℕ} (hpart : part < P)
    (lineAddr : Address) {cands : List LineId} (hcands : ∀ id ∈ cands, id < lines) :
    ends Inside (rank part lineAddr cands) (fun _ => Indexed P lines ways) s := by
  simp only [rank, startReplacement, ends_bind, ends_observe, ends_ensure, ends_change]
  refine ⟨fun _ => ⟨fun _ => ?_, fun _ h => by cases h⟩, fun _ h => by cases h⟩
  have hstart : Indexed P lines ways { s with incomingLinePart := part, incomingLineAddr := lineAddr } :=
    h.written rfl rfl h.parts hpart h.best
  refine ends_mono (ends_foldlM (fun ids _ s' => Indexed P lines ways s' ∧ ∀ id ∈ ids, id < lines) ?_
    ⟨hstart, hcands⟩) ?_
  · intro id ids _ s' hinv
    refine ends_mono (recordCandidate_indexed hlines hinv.1 (hinv.2 id List.mem_cons_self)) ?_
    intro _ s'' h''
    exact ⟨h'', fun id' hid' => hinv.2 id' (List.mem_cons_of_mem id hid')⟩
  · intro _ s' hinv
    simp only [getBestCandidate, ends_bind, ends_observe, ends_ensure, ends_pure]
    exact ⟨fun _ => hinv.1, fun _ h => by cases h⟩

/-- Ways are given out one after the other, as many as there are. -/
theorem setPartitionSizes_indexed (h : Indexed P lines ways s) {sizes : ℕ → ℕ}
    (hsum : firstWay sizes P ≤ ways) :
    ends Inside (setPartitionSizes sizes) (fun _ => Indexed P lines ways) s := by
  simp only [setPartitionSizes, ends_bind, ends_observe, ends_ensure]
  refine ends_mono (ends_forUpTo (fun p curWay s' => curWay = firstWay sizes p ∧
    Indexed P lines ways s') ?_ ⟨rfl, h⟩) ?_
  · intro p curWay s₁ hp hinv
    obtain ⟨rfl, h₁⟩ := hinv
    rw [h.partitions] at hp
    have hnext : firstWay sizes (p + 1) ≤ ways := (firstWay_mono hp).trans hsum
    rw [firstWay_succ] at hnext ⊢
    rw [assignPart, ends_bind, ends_modifyCell_of_lt (h₁.info_lt hp)]
    refine ends_forUpTo (fun i curWay s' => curWay = firstWay sizes p + i ∧
      Indexed P lines ways s') ?_ ⟨rfl, h₁.reassigned rfl rfl⟩
    intro i curWay s₂ hi hinv₂
    obtain ⟨rfl, h₂⟩ := hinv₂
    have hlt : firstWay sizes p + i < s₂.wayPartIndex.length := by
      rw [h₂.index]
      omega
    rw [ends_bind, ends_modifyCell_of_lt hlt, ends_pure]
    exact ⟨rfl, h₂.reassigned rfl rfl⟩
  · intro curWay s' hinv
    exact ⟨fun _ => hinv.2, fun _ h => by cases h⟩

/-- The constructor gives each way a partition that there is. -/
theorem construct_indexed (hP : 0 < P) (testMode : Bool) :
    ends Inside construct (fun _ => Indexed P lines ways) (allocated P lines ways testMode P) := by
  have hstart : Indexed P lines ways (allocated P lines ways testMode P) :=
    ⟨rfl, rfl, rfl, rfl, rfl, le_rfl, fun _ _ => hP, hP,
      fun hle => absurd (show (0 : ℤ) ≤ -1 from hle) (by decide)⟩
  simp only [construct, ends_bind, ends_observe, ends_ensure, id]
  refine ⟨fun _ => ?_, fun _ h => by cases h⟩
  refine ends_mono (ends_forUpTo (fun _ _ => Indexed P lines ways) ?_ hstart) ?_
  · intro i _ s₁ hi h₁
    rw [ends_modifyCell_of_lt (h₁.info_lt hi)]
    exact h₁.reassigned rfl rfl
  · intro _ s₁ h₁
    rw [ends_modifyCell_of_lt (h₁.info_lt hP)]
    refine ends_forUpTo (fun _ _ => Indexed P lines ways) ?_ (h₁.reassigned rfl rfl)
    intro w _ s₂ hw h₂
    have hway : w < s₂.wayPartIndex.length := h₂.index.symm ▸ hw
    have hset : Indexed P lines ways { s₂ with
        wayPartIndex := s₂.wayPartIndex.set w (firstOwner P ways w) } := h₂.reassigned rfl rfl
    rw [ends_bind, ends_modifyCell_of_lt hway,
      ends_modifyCell_of_lt (hset.info_lt (WayPartRuns.firstOwner_lt hP hw))]
    exact hset.reassigned rfl rfl

end WayPartTables

section Allocations

open Lookahead

variable {L : LookaheadPartitioner} {m : MissCurves} {t : ℕ → ℕ}

/-- The failures of a partitioning other than an access outside `curAllocs`. -/
def InsideAllocs (e : Stop) : Prop := e ≠ .allocsOutside

theorem get_ends (p b : ℕ) {Q : ℕ → (ℕ → ℕ) → Prop} (h : ∀ x, Q x t) :
    ends InsideAllocs (L.get m p b) Q t := by
  simp only [LookaheadPartitioner.get, ends_bind, ends_ensure, ends_pure]
  exact ⟨fun _ => h _, fun _ h => by cases h⟩

theorem getMaxMarginalUtility_ends (part partAlloc balance : ℕ) {Q : ℚ × ℕ → (ℕ → ℕ) → Prop}
    (h : ∀ x t', Q x t') : ends InsideAllocs (L.getMaxMarginalUtility m part partAlloc balance) Q t := by
  simp only [LookaheadPartitioner.getMaxMarginalUtility, ends_bind, ends_ensure]
  refine ⟨fun _ => ?_, fun _ h => by cases h⟩
  refine ends_mono (ends_forUpTo (fun _ _ _ => True) (fun j best t' _ _ => ?_) trivial)
    fun x t' _ => h x t'
  simp only [ends_bind, ends_pure]
  exact get_ends _ _ fun _ => get_ends _ _ fun _ => trivial

/-- The rounds do not look at `curAllocs`. -/
theorem greedy_ends (fuel : ℕ) (allocs : ℕ → ℕ) (balance : ℕ) :
    ends InsideAllocs (L.greedy m fuel allocs balance) (fun _ _ => True) t := by
  induction fuel generalizing allocs balance t with
  | zero =>
    unfold LookaheadPartitioner.greedy
    rw [ends_ite]
    split
    · trivial
    · exact fun h => by cases h
  | succ fuel ih =>
    unfold LookaheadPartitioner.greedy
    rw [ends_ite]
    split
    · trivial
    · simp only [ends_bind, ends_ensure, LookaheadPartitioner.choose]
      refine ends_mono (ends_forUpTo (fun _ _ _ => True) (fun i best t' _ _ => ?_) trivial) ?_
      · rw [ends_ite]
        split
        · trivial
        · rw [ends_bind]
          exact getMaxMarginalUtility_ends _ _ _ fun _ _ => trivial
      · intro c t' _
        exact ⟨fun _ => ih _ _, fun _ h => by cases h⟩

theorem totalUtility_ends {parts : ℕ → Act ℕ}
    (hparts : ∀ p < L.numPartitions, ∀ t, ends InsideAllocs (parts p) (fun _ _ => True) t) :
    ends InsideAllocs (L.computePartitioningTotalUtility m parts) (fun _ _ => True) t := by
  simp only [LookaheadPartitioner.computePartitioningTotalUtility, ends_bind, ends_pure]
  refine ends_forUpTo (fun _ _ _ => True) (fun p sums t' hp _ => ?_) trivial
  simp only [ends_bind, ends_pure]
  refine get_ends _ _ fun _ => ends_mono (hparts p hp t') ?_
  intro alloc t'' _
  exact get_ends _ _ fun _ => trivial

/-- Where `curAllocs` has an entry for each partition, it is indexed inside. -/
theorem partition_ends (hlen : L.numPartitions ≤ L.allocsLength) (fuel : ℕ) :
    ends InsideAllocs (L.partition m fuel) (fun _ _ => True) t := by
  have hinside : ∀ p < L.numPartitions, p < L.allocsLength := fun p hp => lt_of_lt_of_le hp hlen
  simp only [LookaheadPartitioner.partition, LookaheadPartitioner.computeBestPartitioning, ends_bind]
  refine ends_mono (greedy_ends fuel _ _) ?_
  intro best t₁ _
  refine ends_mono (totalUtility_ends fun p _ t' => trivial) ?_
  intro _ t₂ _
  refine ends_mono (totalUtility_ends fun p hp t' => ?_) ?_
  · simp only [LookaheadPartitioner.readAlloc, ends_bind, ends_ensure, ends_observe]
    exact ⟨fun _ => trivial, fun hout => absurd (hinside p hp) hout⟩
  intro _ t₃ _
  refine ends_forUpTo (fun _ _ _ => True) (fun p _ t' hp _ => ?_) trivial
  simp only [LookaheadPartitioner.writeAlloc, ends_bind, ends_ensure, ends_change]
  exact ⟨fun _ => trivial, fun hout => absurd (hinside p hp) hout⟩

theorem computeBestPartitioning_zero (hbudget : L.budget = 0) (hmin : L.minAlloc = 0) (fuel : ℕ) :
    L.computeBestPartitioning m L.budget (L.minAlloc * L.numPartitions % 2 ^ 32) fuel =
      pure fun _ => 0 := by
  rw [hbudget, hmin, Nat.zero_mul, Nat.zero_mod, LookaheadPartitioner.computeBestPartitioning,
    Nat.sub_zero, Nat.zero_add, Nat.mod_self]
  unfold LookaheadPartitioner.greedy
  exact if_pos rfl

/-- Where `curAllocs` is too short, even a partitioner that has nothing to hand
out leaves it. -/
theorem partition_outside (hforb : L.forbidden = none) (hbudget : L.budget = 0)
    (hmin : L.minAlloc = 0) (hshort : L.allocsLength < L.numPartitions) (fuel : ℕ) :
    L.partition m fuel (fun _ => 0) = .error .allocsOutside := by
  have hnot : ¬wp (L.partition m fuel) (fun _ _ => True) (fun _ => 0) := by
    intro h
    have hlen := (partition_returns h hforb (by rw [hmin]; omega)).2 (by omega)
    omega
  have hget : ∀ p < L.numPartitions, ∀ (t : ℕ → ℕ) (Q : ℕ → (ℕ → ℕ) → Prop), (∀ x, Q x t) →
      ends (fun e => e = .allocsOutside) (L.get m p 0) Q t := by
    intro p hp t Q hQ
    simp only [LookaheadPartitioner.get, ends_bind, ends_ensure, ends_pure]
    exact ⟨fun _ => hQ _, fun hout => absurd ⟨hp, Nat.zero_le _⟩ hout⟩
  -- the monitor is asked for the first bucket only
  have htotal : ∀ parts : ℕ → Act ℕ, (∀ p t, (t = fun _ => 0) →
      ends (fun e => e = .allocsOutside) (parts p) (fun x t' => x = 0 ∧ t' = fun _ => 0) t) →
      ends (fun e => e = .allocsOutside) (L.computePartitioningTotalUtility m parts)
        (fun _ t => t = fun _ => 0) (fun _ => 0) := by
    intro parts hparts
    simp only [LookaheadPartitioner.computePartitioningTotalUtility, ends_bind, ends_pure]
    refine ends_forUpTo (fun _ _ t => t = fun _ => 0) (fun p sums t hp ht => ?_) rfl
    simp only [ends_bind, ends_pure]
    refine hget p hp t _ fun _ => ends_mono (hparts p t ht) ?_
    intro alloc t' hread
    rw [hread.1]
    exact hget p hp t' _ fun _ => hread.2
  have hends : ends (fun e => e = .allocsOutside) (L.partition m fuel) (fun _ _ => True)
      (fun _ => 0) := by
    rw [LookaheadPartitioner.partition, computeBestPartitioning_zero hbudget hmin]
    simp only [ends_bind, ends_pure]
    refine ends_mono (htotal _ fun p t ht => ⟨rfl, ht⟩) ?_
    intro _ t ht
    rw [ht]
    refine ends_mono (htotal _ fun p t ht => ?_) ?_
    · simp only [LookaheadPartitioner.readAlloc, ends_bind, ends_ensure, ends_observe]
      exact ⟨fun _ => ⟨congrFun ht p, ht⟩, fun _ => trivial⟩
    intro _ t' _
    refine ends_forUpTo (fun _ _ _ => True) (fun p _ t'' _ _ => ?_) trivial
    simp only [LookaheadPartitioner.writeAlloc, ends_bind, ends_ensure, ends_change]
    exact ⟨fun _ => trivial, fun _ => trivial⟩
  unfold ends at hends
  split at hends
  · next r hr => exact absurd ⟨_, _, hr, trivial⟩ hnot
  · next e he => rw [he, hends]

end Allocations

/-- The code of a policy, over what its constructor has allocated. -/
structure PolicyCode (σ : Type) where
  start : σ
  construct : Prog σ PartFailure Unit
  /-- A call; `part` is the mapper's answer to its request. -/
  perform : ℕ → Op → Prog σ PartFailure Unit
  /-- The sizes the policy can be given; that others overrun its ways is a
  matter of the partitioner. -/
  fits : (ℕ → ℕ) → Bool

/-- `WayPartReplPolicy`. -/
def wayPart (P lines ways : ℕ) (testMode : Bool) : PolicyCode WayPart.WayPartReplPolicy where
  start := WayPart.allocated P lines ways testMode P
  construct := WayPart.construct
  perform part
    | .rank _ lineAddr cands _ => do
      let _ ← WayPart.rank part lineAddr cands
      pure ()
    | .replaced id => WayPart.replaced id
    | .update _ _ _ id => WayPart.update id
    | .setPartitionSizes sizes _ => WayPart.setPartitionSizes sizes
  fits sizes := decide (WayPart.firstWay sizes P ≤ ways)

/-- `VantageReplPolicy`. -/
def vantage (P lines assoc partPortionPct partSlackPct maxAperturePct buckets : ℕ)
    (smoothTransients : Bool) : PolicyCode Vantage.VantageReplPolicy where
  start := Vantage.allocated P lines assoc buckets smoothTransients P
  construct := Vantage.construct partPortionPct partSlackPct maxAperturePct
  perform part
    | .rank _ lineAddr cands control => VantageRuns.perform (.rank lineAddr cands control)
    | .replaced id => VantageRuns.perform (.replaced id)
    | .update _ phaseCycles draw id => VantageRuns.perform (.update part phaseCycles draw id)
    | .setPartitionSizes sizes draw => VantageRuns.perform (.setPartitionSizes sizes draw)
  fits _ := true

/-- `IdealLRUPartReplPolicy`. -/
def idealLRUPart (P lines buckets : ℕ) : PolicyCode IdealLRUPart.IdealLRUPartReplPolicy where
  start := IdealLRUPart.allocated P lines buckets P P
  construct := IdealLRUPart.construct
  perform part
    | .rank _ _ _ _ => do
      let _ ← IdealLRUPart.rank part
      pure ()
    | .replaced id => IdealLRUPart.replaced id
    | .update _ _ _ id => IdealLRUPart.update part id
    | .setPartitionSizes sizes _ => IdealLRUPart.setPartitionSizes sizes
  fits _ := true

section Runs

variable {σ : Type} (z : System) (name : MapperName) (lines : ℕ) (code : PolicyCode σ)

/-- A call is made for a request of the simulation and for lines of the cache. -/
def Legal : Op → Prop
  | .rank a _ cands _ => z.Makes a ∧ ∀ id ∈ cands, id < lines
  | .replaced id => id < lines
  | .update a _ _ id => z.Makes a ∧ id < lines
  | .setPartitionSizes sizes _ => code.fits sizes = true

instance : (op : Op) → Decidable (Legal z lines code op)
  | .rank a _ cands _ => inferInstanceAs (Decidable (z.Makes a ∧ ∀ id ∈ cands, id < lines))
  | .replaced id => inferInstanceAs (Decidable (id < lines))
  | .update a _ _ id => inferInstanceAs (Decidable (z.Makes a ∧ id < lines))
  | .setPartitionSizes sizes _ => inferInstanceAs (Decidable (code.fits sizes = true))

/-- The mapper's answer to the request of a call. -/
def answer : Op → Except MapperFailure ℕ
  | .rank a _ _ _ => z.partition name a
  | .update a _ _ _ => z.partition name a
  | .replaced _ => .ok 0
  | .setPartitionSizes _ _ => .ok 0

/-- One call; nothing is called after a failure. -/
def step : Except PartFailure σ → Op → Option (Except PartFailure σ)
  | .error _, _ => none
  | .ok s, op =>
    if Legal z lines code op then
      match answer z name op with
      | .error _ => none
      | .ok part => some ((code.perform part op s).map fun r => r.2)
    else none

/-- The constructor and the calls after it access no table outside its length. -/
def Contained : Prop :=
  ∀ ops r, run (step z name lines code) ((code.construct code.start).map fun r => r.2) ops = some r →
    r ≠ .error .outside

variable {z name lines code}

/-- What keeps a run inside the tables: an invariant of the policy. -/
theorem contained_of_invariant {P : ℕ} (inv : σ → Prop) (hP : 0 < P)
    (hcounted : ∀ a, z.Makes a → ∃ p, z.partition name a = .ok p ∧ p < P)
    (hconstruct : ends Inside code.construct (fun _ => inv) code.start)
    (hperform : ∀ s part op, inv s → part < P → Legal z lines code op →
      ends Inside (code.perform part op) (fun _ => inv) s) : Contained z name lines code := by
  have hsound : ∀ (m : Prog σ PartFailure Unit) s, ends Inside m (fun _ => inv) s →
      (∀ s', ((m s).map fun r => r.2) = .ok s' → inv s') ∧
        ((m s).map fun r => r.2) ≠ .error .outside := by
    intro m s h
    constructor
    · intro s' hs'
      obtain ⟨_, hinv⟩ := state_of_ends h hs'
      exact hinv
    · intro he
      unfold ends at h
      cases hm : m s with
      | error e =>
        rw [hm] at h he
        cases he
        exact h rfl
      | ok r =>
        rw [hm] at he
        cases he
  have hpart : ∀ op part, Legal z lines code op → answer z name op = .ok part → part < P := by
    intro op part hlegal hanswer
    cases op with
    | rank a =>
      obtain ⟨p, hp, hlt⟩ := hcounted a hlegal.1
      cases hanswer.symm.trans hp
      exact hlt
    | update a =>
      obtain ⟨p, hp, hlt⟩ := hcounted a hlegal.1
      cases hanswer.symm.trans hp
      exact hlt
    | replaced id =>
      cases hanswer
      exact hP
    | setPartitionSizes sizes =>
      cases hanswer
      exact hP
  have hstep : ∀ r op r', ((∀ s, r = .ok s → inv s) ∧ r ≠ .error .outside) →
      step z name lines code r op = some r' → (∀ s, r' = .ok s → inv s) ∧ r' ≠ .error .outside := by
    intro r op r' h hs
    cases r with
    | error e => cases hs
    | ok s =>
      simp only [step, Option.ite_none_right_eq_some] at hs
      obtain ⟨hlegal, hs⟩ := hs
      cases hanswer : answer z name op with
      | error e =>
        rw [hanswer] at hs
        cases hs
      | ok part =>
        rw [hanswer] at hs
        cases hs
        exact hsound _ _ (hperform s part op (h.1 s rfl) (hpart op part hlegal hanswer) hlegal)
  intro ops r hr
  exact (run_invariant hstep (hsound _ _ hconstruct) hr).2

end Runs

section Policies

variable {z : System} {name : MapperName} {P lines : ℕ}

theorem wayPart_contained (hP : 0 < P) (hlines : lines < 2 ^ 32)
    (hcounted : ∀ a, z.Makes a → ∃ p, z.partition name a = .ok p ∧ p < P) (ways : ℕ)
    (testMode : Bool) : Contained z name lines (wayPart P lines ways testMode) := by
  refine contained_of_invariant (Indexed P lines ways) hP hcounted
    (construct_indexed hP testMode) ?_
  intro s part op h hpart hlegal
  cases op with
  | rank a lineAddr cands control =>
    change ends Inside (do let _ ← WayPart.rank part lineAddr cands; pure ()) _ s
    rw [ends_bind]
    exact ends_mono (rank_indexed hlines h hpart lineAddr hlegal.2) fun _ _ h' => h'
  | replaced id => exact replaced_indexed h hlegal
  | update a phaseCycles draw id => exact update_indexed h hlegal.2
  | setPartitionSizes sizes draw =>
    exact setPartitionSizes_indexed h (of_decide_eq_true hlegal)

theorem vantage_contained (hP : 0 < P) (hlines : lines < 2 ^ 32)
    (hcounted : ∀ a, z.Makes a → ∃ p, z.partition name a = .ok p ∧ p < P)
    (assoc partPortionPct partSlackPct maxAperturePct buckets : ℕ) (smoothTransients : Bool) :
    Contained z name lines (vantage P lines assoc partPortionPct partSlackPct maxAperturePct buckets
      smoothTransients) := by
  have hinside : VantageRuns.Inside Inside := fun _ he => he
  refine contained_of_invariant (VantageRuns.Sound P lines assoc) hP hcounted ?_ ?_
  · by_cases hpct : partPortionPct ≤ 100 ∧ partSlackPct ≤ 100 ∧ maxAperturePct ≤ 100
    · refine ends_mono (ends_of_wp (VantageRuns.construct_spec P assoc buckets smoothTransients hlines
        hpct.1 hpct.2.1 hpct.2.2)) ?_
      intro _ s h
      exact h.1
    · change ends Inside (Vantage.construct partPortionPct partSlackPct maxAperturePct) _ _
      simp only [Vantage.construct, ends_bind, ends_ensure]
      refine ⟨fun hportion => ⟨fun hslack => ⟨fun haperture => ?_, fun _ h => by cases h⟩, fun _ h => by cases h⟩,
        fun _ h => by cases h⟩
      exact absurd ⟨hportion, hslack, haperture⟩ hpct
  · intro s part op h hpart hlegal
    obtain ⟨hparts, htotal, -⟩ := h.geometry
    have hperform : ∀ op', VantageRuns.Legal s op' →
        ends Inside (VantageRuns.perform op') (fun _ => VantageRuns.Sound P lines assoc) s :=
      fun op' hop => ends_mono (VantageRuns.perform_ends hinside h hop) fun _ _ h' => h'.1
    have hline : ∀ id, id < lines → id < s.totalSize := fun id hid => htotal.symm ▸ hid
    cases op with
    | rank a lineAddr cands control => 
      exact hperform (.rank lineAddr cands control) fun id hid => hline id (hlegal.2 id hid)
    | replaced id => exact hperform (.replaced id) (hline id hlegal)
    | update a phaseCycles draw id =>
      exact hperform (.update part phaseCycles draw id) ⟨hparts.symm ▸ hpart, hline id hlegal.2⟩
    | setPartitionSizes sizes draw => exact hperform (.setPartitionSizes sizes draw) trivial

/-- The constructor initialises one entry more than there are. -/
theorem idealLRUPart_outside (P lines buckets : ℕ) :
    (idealLRUPart P lines buckets).construct (idealLRUPart P lines buckets).start =
      .error .outside := by
  set init : ℕ → Unit → IdealLRUPart.PolicyAct Unit := fun p _ =>
    modifyCell IdealLRUPart.partInfo p
      (fun _ => ⟨⟨0, lines / P⟩, IntrusiveList.InList.empty⟩) .outside with hinit
  have hround : ∀ p u (s : IdealLRUPart.IdealLRUPartReplPolicy), p < P → s.partInfo.length = P →
      wp (init p u) (fun _ s' => s'.partInfo.length = P) s := by
    intro p u s hp hlen
    rw [hinit, wp_modifyCell]
    exact ⟨hlen.symm ▸ hp, hlen⟩
  have hlast : ∀ u (s : IdealLRUPart.IdealLRUPartReplPolicy), s.partInfo.length = P →
      init P u s = .error .outside := by
    intro u s hlen
    have hout : ¬P < s.partInfo.length := by omega
    exact modifyCell_outside _ _ hout
  have hloop : forUpTo init (P + 1) () (idealLRUPart P lines buckets).start = .error .outside :=
    bind_error (wp_forUpTo (fun _ _ s => s.partInfo.length = P) hround rfl) hlast
  change ((forUpTo init (P + 1) () (idealLRUPart P lines buckets).start).bind fun r => _) = _
  rw [hloop]
  rfl

end Policies

/-- A partitioned cache bank. -/
structure Bank where
  lines : ℕ
  policy : Policy
  lines_lt : lines < 2 ^ 32
  buckets_pos : 0 < policy.buckets
  buckets_lt : policy.buckets < 2 ^ 32

/-- No run of the policy accesses a table outside its length. -/
def Policy.Contained (z : System) (name : MapperName) (lines : ℕ) : Policy → Prop
  | .WayPart ways testMode =>
    PartitionTables.Contained z name lines (wayPart (z.partitions name) lines ways testMode)
  | .Vantage assoc partPortionPct partSlackPct maxAperturePct buckets smoothTransients =>
    PartitionTables.Contained z name lines (vantage (z.partitions name) lines assoc partPortionPct
      partSlackPct maxAperturePct buckets smoothTransients)
  | .IdealLRUPart buckets =>
    PartitionTables.Contained z name lines (idealLRUPart (z.partitions name) lines buckets)

/-- Partition ids index every table safely. The monitor asserts that there is a
partition, so without one nothing else is built. -/
structure Safe (z : System) (name : MapperName) (bank : Bank) : Prop where
  /-- Every request has a partition below the number of partitions. -/
  counted : ∀ a, z.Makes a → ∃ p, z.partition name a = .ok p ∧ p < z.partitions name
  /-- Requests share a partition as the mapper's name promises. -/
  promised : ∀ a b, z.Makes a → z.Makes b →
    (z.partition name a = z.partition name b ↔ z.Together a b name)
  tables : 0 < z.partitions name → bank.policy.Contained z name bank.lines
  allocs : 0 < z.partitions name → ∀ L : Lookahead.LookaheadPartitioner,
    L.numPartitions = z.partitions name → L.buckets = bank.policy.buckets →
      ∀ m fuel t, L.partition m fuel t ≠ .error .allocsOutside

/-- What it takes: where there are requests, a mapper other than `InstrData`
whose partitions fit 32 bits; and where there are partitions, a policy other
than `IdealLRUPart` and an entry of `curAllocs` for each partition. -/
structure Fits (z : System) (name : MapperName) (bank : Bank) : Prop where
  mapper : 0 < z.numCores → 0 < z.processes.numProcs → name ≠ .InstrData ∧ z.Narrow name
  policy : 0 < z.partitions name → ∀ buckets, bank.policy ≠ .IdealLRUPart buckets
  allocs : 0 < z.partitions name → z.partitions name ≤ (bank.policy.buckets + 1) % 2 ^ 32

section Main

variable {z : System} {name : MapperName} {bank : Bank}

theorem Fits.counted (h : Fits z name bank) (a : Access) (ha : z.Makes a) :
    ∃ p, z.partition name a = .ok p ∧ p < z.partitions name := by
  obtain ⟨hname, hnarrow⟩ := h.mapper (Nat.zero_lt_of_lt ha.1) (Nat.zero_lt_of_lt ha.2)
  exact System.partition_lt hname hnarrow ha

theorem safe_of_fits (h : Fits z name bank) : Safe z name bank where
  counted := h.counted
  promised a b ha hb := System.partition_eq_iff
    (h.mapper (Nat.zero_lt_of_lt ha.1) (Nat.zero_lt_of_lt ha.2)).2 ha hb
  tables hP := by
    cases hpolicy : bank.policy with
    | WayPart ways testMode => exact wayPart_contained hP bank.lines_lt h.counted ways testMode
    | Vantage assoc portion slack aperture buckets smooth =>
      exact vantage_contained hP bank.lines_lt h.counted assoc portion slack aperture buckets smooth
    | IdealLRUPart buckets => exact absurd hpolicy (h.policy hP buckets)
  allocs hP L hn hb m fuel t hrun := by
    have hlen : L.numPartitions ≤ L.allocsLength := by
      rw [Lookahead.LookaheadPartitioner.allocsLength, hn, hb]
      exact h.allocs hP
    have hends := partition_ends (m := m) (t := t) hlen fuel
    unfold ends at hends
    rw [hrun] at hends
    exact hends rfl

/-- A partitioner with nothing to hand out. -/
def idle (z : System) (name : MapperName) (bank : Bank) : Lookahead.LookaheadPartitioner where
  numPartitions := z.partitions name
  buckets := bank.policy.buckets
  minAlloc := 0
  allocPortion := 0
  forbidden := none
  numPartitions_lt := z.partitions_lt name
  buckets_lt := bank.buckets_lt
  buckets_pos := bank.buckets_pos
  portion_nonneg := le_rfl
  product_lt := by
    rw [zero_mul, DoubleRounding.roundDouble_zero]
    norm_num

theorem idle_budget : (idle z name bank).budget = 0 := by
  rw [Lookahead.LookaheadPartitioner.budget]
  change ⌊DoubleRounding.roundDouble (0 * _)⌋₊ = 0
  rw [zero_mul, DoubleRounding.roundDouble_zero, Nat.floor_zero]

theorem fits_of_safe (h : Safe z name bank) : Fits z name bank where
  mapper hcores hprocs := System.narrow_of_partition_lt hcores hprocs h.counted
  policy hP buckets hpolicy := by
    have hcontained := h.tables hP
    rw [hpolicy] at hcontained
    refine hcontained [] _ rfl ?_
    rw [idealLRUPart_outside]
    rfl
  allocs hP := by
    by_contra hshort
    refine h.allocs hP (idle z name bank) rfl rfl ⟨fun _ _ => 0, fun _ _ => by norm_num⟩ 0
      (fun _ => 0) ?_
    exact partition_outside rfl idle_budget rfl (Nat.not_le.mp hshort) 0

/-- Partition ids index every table safely exactly where the mapper, the policy
and the partitioner agree on the number of partitions. -/
theorem ids_index_safely (z : System) (name : MapperName) (bank : Bank) :
    Safe z name bank ↔ Fits z name bank :=
  ⟨fits_of_safe, safe_of_fits⟩

end Main

theorem one_core_lt : 1 < 2 ^ 32 := by decide

/-- One core and one process. -/
def oneCore : System where
  numCores := 1
  processes := ⟨1, 1, [0]⟩
  numCores_lt := one_core_lt
  created := ⟨64, .process false .done .done, rfl⟩

/-- An instruction fetch belongs to partition 2 of 2, and the ideal policy does
not get past its constructor. -/
theorem fetch_outside :
    (oneCore.Makes ⟨0, ⟨0, IFETCH⟩⟩ ∧ oneCore.partitions .InstrData = 2 ∧
      oneCore.partition .InstrData ⟨0, ⟨0, IFETCH⟩⟩ = .ok 2) ∧
    (idealLRUPart (oneCore.partitions .Core) 4 4).construct
      (idealLRUPart (oneCore.partitions .Core) 4 4).start = .error .outside := by
  refine ⟨⟨by decide, rfl, rfl⟩, ?_⟩
  exact idealLRUPart_outside _ 4 4

end Zsim.PartitionTables
