import Zsim.WayPart
import Zsim.DoubleRounding

/-!
# The lookahead partitioner

Each round gives the partition with the largest marginal utility the buckets
that utility was found for, until none are left. Allocations and bucket numbers
are 32-bit and utilities are doubles. The caller passes the minimum allocation
of all partitions together as the minimum of each.
-/

namespace Zsim.Lookahead

open WeakestPre CheckedTables GuardedRuns DoubleRounding WayPart

/-- Why a partitioning stops without an answer. -/
inductive Stop where
  /-- The rounds are exhausted. -/
  | outOfFuel
  /-- A 32-bit counter wraps before it passes its bound. -/
  | endlessCount
  /-- `assert(maxMuPart < numPartitions)` -/
  | illegalPart
  /-- The monitor is asked for a partition or bucket it does not have. -/
  | askedOutside
  /-- An access outside `curAllocs`. -/
  | allocsOutside
  deriving DecidableEq, Repr

/-- What the monitor answers for each partition and bucket. -/
structure MissCurves where
  misses : ℕ → ℕ → ℕ
  lt : ∀ p b, misses p b < 2 ^ 32

/-- `LookaheadPartitioner`, without its current allocations. -/
structure LookaheadPartitioner where
  numPartitions : ℕ
  buckets : ℕ
  minAlloc : ℕ
  allocPortion : ℚ
  forbidden : Option (ℕ → Bool)
  numPartitions_lt : numPartitions < 2 ^ 32
  buckets_lt : buckets < 2 ^ 32
  buckets_pos : 0 < buckets
  portion_nonneg : 0 ≤ allocPortion
  /-- The product fits the `uint32_t` it is passed as. -/
  product_lt : roundDouble (allocPortion * buckets) < 2 ^ 32

/-- Programs on the contents of `curAllocs`. -/
abbrev Act (α : Type) := Prog (ℕ → ℕ) Stop α

namespace LookaheadPartitioner

variable (L : LookaheadPartitioner) (m : MissCurves)

/-- `allocPortion*buckets`, passed as a `uint32_t`. -/
def budget : ℕ := ⌊roundDouble (L.allocPortion * L.buckets)⌋₊

/-- The length `curAllocs` is allocated with. -/
def allocsLength : ℕ := (L.buckets + 1) % 2 ^ 32

/-- Read `curAllocs[p]`. -/
def readAlloc (p : ℕ) : Act ℕ := do
  ensure (p < L.allocsLength) .allocsOutside
  observe fun t => t p

/-- Write `curAllocs[p]`. -/
def writeAlloc (p v : ℕ) : Act Unit := do
  ensure (p < L.allocsLength) .allocsOutside
  change fun t => Function.update t p v

/-- `monitor.get`. -/
def get (p b : ℕ) : Act ℕ := do
  ensure (p < L.numPartitions ∧ b ≤ L.buckets) .askedOutside
  pure (m.misses p b)

/-- `getMaxMarginalUtility`: the utility and its buckets. -/
def getMaxMarginalUtility (part partAlloc balance : ℕ) : Act (ℚ × ℕ) := do
  ensure (balance + 1 < 2 ^ 32) .endlessCount
  forUpTo (fun j best => do
    let i := j + 1
    let cur ← L.get m part partAlloc
    let next ← L.get m part ((partAlloc + i) % 2 ^ 32)
    let extraHits : ℕ := (cur + 2 ^ 32 - next) % 2 ^ 32
    let mu := roundDouble (extraHits / (i : ℚ))
    pure (if best.1 < mu then (mu, i) else best)) balance (-1, 0)

/-- The best partition to give buckets to, and how many. -/
structure Choice where
  maxMu : ℚ
  maxMuPart : ℕ
  maxMuAlloc : ℕ

/-- The inner loop of `computeBestPartitioning`. -/
def choose (allocs : ℕ → ℕ) (balance : ℕ) : Act Choice :=
  forUpTo (fun i best =>
    if (L.forbidden.any fun f => f i) = true then pure best
    else do
      let mu ← L.getMaxMarginalUtility m i (allocs i) balance
      pure (if best.maxMu < mu.1 then ⟨mu.1, i, mu.2⟩ else best))
    L.numPartitions ⟨-1, L.numPartitions, 0⟩

/-- The rounds of `computeBestPartitioning`. -/
def greedy : ℕ → (ℕ → ℕ) → ℕ → Act (ℕ → ℕ)
  | fuel, allocs, balance =>
    if balance = 0 then pure allocs
    else match fuel with
      | 0 => abort .outOfFuel
      | fuel + 1 => do
        let c ← L.choose m allocs balance
        ensure (c.maxMuPart < L.numPartitions) .illegalPart
        greedy fuel
          (Function.update allocs c.maxMuPart ((allocs c.maxMuPart + c.maxMuAlloc) % 2 ^ 32))
          ((balance + 2 ^ 32 - c.maxMuAlloc) % 2 ^ 32)

/-- `computeBestPartitioning`. -/
def computeBestPartitioning (buckets minAlloc fuel : ℕ) : Act (ℕ → ℕ) :=
  L.greedy m fuel (fun _ => minAlloc) ((buckets + 2 ^ 32 - minAlloc) % 2 ^ 32)

/-- `computePartitioningTotalUtility`, of allocations read one by one. -/
def computePartitioningTotalUtility (parts : ℕ → Act ℕ) : Act ℕ := do
  let sums ← forUpTo (fun p (sums : ℕ × ℕ) => do
    let none ← L.get m p 0
    let alloc ← parts p
    let cur ← L.get m p alloc
    pure ((sums.1 + none) % 2 ^ 64, (sums.2 + cur) % 2 ^ 64)) L.numPartitions (0, 0)
  pure ((sums.1 + 2 ^ 64 - sums.2) % 2 ^ 64)

/-- `LookaheadPartitioner::partition`, up to the call of `setPartitionSizes`. -/
def partition (fuel : ℕ) : Act Unit := do
  let bestAllocs ← L.computeBestPartitioning m L.budget
    (L.minAlloc * L.numPartitions % 2 ^ 32) fuel
  let _newUtility ← L.computePartitioningTotalUtility m fun p => pure (bestAllocs p)
  let _curUtility ← L.computePartitioningTotalUtility m L.readAlloc
  -- `switchAllocs` compares the two and is then set to true regardless
  forUpTo (fun p _ => L.writeAlloc p (bestAllocs p)) L.numPartitions ()

/-- One call that returns. -/
def call (t : ℕ → ℕ) (x : ℕ × MissCurves) : Option (ℕ → ℕ) :=
  match L.partition x.2 x.1 t with
  | .ok (_, t') => some t'
  | .error _ => none

end LookaheadPartitioner

section Rounds

variable {L : LookaheadPartitioner} {m : MissCurves} {t : ℕ → ℕ} {part partAlloc balance : ℕ}

@[simp] theorem wp_get (p b : ℕ) (Q : ℕ → (ℕ → ℕ) → Prop) :
    wp (L.get m p b) Q t ↔ (p < L.numPartitions ∧ b ≤ L.buckets) ∧ Q (m.misses p b) t := by
  simp only [LookaheadPartitioner.get, wp_bind, wp_ensure, wp_pure]

@[simp] theorem wp_readAlloc (p : ℕ) (Q : ℕ → (ℕ → ℕ) → Prop) :
    wp (L.readAlloc p) Q t ↔ p < L.allocsLength ∧ Q (t p) t := by
  simp only [LookaheadPartitioner.readAlloc, wp_bind, wp_ensure, wp_observe]

@[simp] theorem wp_writeAlloc (p v : ℕ) (Q : Unit → (ℕ → ℕ) → Prop) :
    wp (L.writeAlloc p v) Q t ↔ p < L.allocsLength ∧ Q () (Function.update t p v) := by
  simp only [LookaheadPartitioner.writeAlloc, wp_bind, wp_ensure, wp_change]

/-- A utility has been found for at least one bucket, whatever it is. -/
theorem getMaxMarginalUtility_spec (hp : part < L.numPartitions)
    (hle : partAlloc + balance ≤ L.buckets) (hB : L.buckets + 1 < 2 ^ 32) :
    wp (L.getMaxMarginalUtility m part partAlloc balance) (fun r t' => t' = t ∧
      (0 < balance → 0 ≤ r.1 ∧ 1 ≤ r.2 ∧ r.2 ≤ balance)) t := by
  simp only [LookaheadPartitioner.getMaxMarginalUtility, wp_bind, wp_ensure]
  refine ⟨by omega, wp_mono (wp_forUpTo (fun j best t' => t' = t ∧
    (j = 0 ∧ best = (-1, 0) ∨ 0 ≤ best.1 ∧ 1 ≤ best.2 ∧ best.2 ≤ balance)) ?_
    ⟨rfl, .inl ⟨rfl, rfl⟩⟩) ?_⟩
  · rintro j best t' hj ⟨rfl, hbest⟩
    have hnext : (partAlloc + (j + 1)) % 2 ^ 32 = partAlloc + (j + 1) := Nat.mod_eq_of_lt (by omega)
    simp only [wp_bind, wp_get, hnext, wp_pure]
    refine ⟨⟨hp, by omega⟩, ⟨hp, by omega⟩, trivial, .inr ?_⟩
    have hmu : ∀ hits : ℕ, 0 ≤ roundDouble ((hits : ℚ) / ((j + 1 : ℕ) : ℚ)) := fun hits =>
      roundDouble_nonneg (div_nonneg (Nat.cast_nonneg _) (Nat.cast_nonneg _))
    split
    · exact ⟨hmu _, Nat.succ_pos j, hj⟩
    · next hnot =>
      rcases hbest with ⟨-, rfl⟩ | hbest
      · exact absurd (lt_of_lt_of_le (by norm_num) (hmu _)) hnot
      · exact hbest
  · rintro r t' ⟨rfl, hr⟩
    exact ⟨rfl, fun hpos => hr.resolve_left fun h => hpos.ne' h.1⟩

/-- Some partition is chosen, and gets at least one bucket. -/
theorem choose_spec {allocs : ℕ → ℕ} (hforb : L.forbidden = none) (hn : 0 < L.numPartitions)
    (hle : ∀ i < L.numPartitions, allocs i + balance ≤ L.buckets) (hB : L.buckets + 1 < 2 ^ 32)
    (hpos : 0 < balance) :
    wp (L.choose m allocs balance) (fun c t' => t' = t ∧ c.maxMuPart < L.numPartitions ∧
      1 ≤ c.maxMuAlloc ∧ c.maxMuAlloc ≤ balance) t := by
  refine wp_mono (wp_forUpTo (fun i best t' => t' = t ∧
    (i = 0 ∧ best = ⟨-1, L.numPartitions, 0⟩ ∨ 0 ≤ best.maxMu ∧ best.maxMuPart < L.numPartitions ∧
      1 ≤ best.maxMuAlloc ∧ best.maxMuAlloc ≤ balance)) ?_ ⟨rfl, .inl ⟨rfl, rfl⟩⟩) ?_
  · rintro i best t' hi ⟨rfl, hbest⟩
    rw [hforb, if_neg (by simp), wp_bind]
    refine wp_mono (getMaxMarginalUtility_spec hi (hle i hi) hB) ?_
    rintro mu t' ⟨rfl, hmu⟩
    obtain ⟨hnonneg, hone, hbal⟩ := hmu hpos
    rw [wp_pure]
    refine ⟨rfl, .inr ?_⟩
    split
    · exact ⟨hnonneg, hi, hone, hbal⟩
    · next hnot =>
      rcases hbest with ⟨-, rfl⟩ | hbest
      · exact absurd (lt_of_lt_of_le (by norm_num) hnonneg) hnot
      · exact hbest
  · rintro c t' ⟨rfl, hc⟩
    exact ⟨rfl, (hc.resolve_left fun h => hn.ne' h.1).2⟩

theorem sum_give {n p : ℕ} (allocs : ℕ → ℕ) (a : ℕ) (hp : p < n) :
    (Finset.range n).sum (Function.update allocs p (allocs p + a)) =
      (Finset.range n).sum allocs + a := by
  rw [Finset.sum_update_of_mem (Finset.mem_range.mpr hp), add_right_comm,
    ← Finset.sum_eq_add_sum_sdiff_singleton_of_mem (Finset.mem_range.mpr hp)]

/-- The rounds hand out the whole balance. -/
theorem greedy_spec (hforb : L.forbidden = none) (hn : 0 < L.numPartitions)
    (hB : L.buckets + 1 < 2 ^ 32) {b : ℕ} (hb : b ≤ L.buckets) {fuel : ℕ} {allocs : ℕ → ℕ}
    (hfuel : balance ≤ fuel) (hle : ∀ i < L.numPartitions, allocs i + balance ≤ b) :
    wp (L.greedy m fuel allocs balance) (fun r t' => t' = t ∧
      (Finset.range L.numPartitions).sum r = (Finset.range L.numPartitions).sum allocs + balance ∧
      ∀ i < L.numPartitions, allocs i ≤ r i ∧ r i ≤ b) t := by
  induction fuel generalizing allocs balance with
  | zero =>
    obtain rfl : balance = 0 := Nat.le_zero.mp hfuel
    rw [LookaheadPartitioner.greedy, if_pos rfl, wp_pure]
    exact ⟨rfl, rfl, fun i hi => ⟨le_rfl, hle i hi⟩⟩
  | succ fuel ih =>
    unfold LookaheadPartitioner.greedy
    split
    · next hz =>
      rw [wp_pure, hz]
      exact ⟨rfl, rfl, fun i hi => ⟨le_rfl, (Nat.le_add_right _ _).trans (hle i hi)⟩⟩
    · next hpos =>
      simp only [wp_bind, wp_ensure]
      refine wp_mono (choose_spec hforb hn (fun i hi => (hle i hi).trans hb) hB
        (Nat.pos_of_ne_zero hpos)) ?_
      rintro c t' ⟨rfl, hpart, hone, hbal⟩
      have hfit := hle _ hpart
      rw [Nat.mod_eq_of_lt (show allocs c.maxMuPart + c.maxMuAlloc < 2 ^ 32 by omega),
        show (balance + 2 ^ 32 - c.maxMuAlloc) % 2 ^ 32 = balance - c.maxMuAlloc by omega]
      refine ⟨hpart, wp_mono (ih (by omega) fun i hi => ?_) ?_⟩
      · have hi' := hle i hi
        by_cases hip : i = c.maxMuPart
        · subst hip
          rw [Function.update_self]
          omega
        · rw [Function.update_of_ne hip]
          omega
      · rintro r t' ⟨rfl, hsum, hr⟩
        rw [sum_give allocs c.maxMuAlloc hpart] at hsum
        refine ⟨rfl, by omega, fun i hi => ⟨?_, (hr i hi).2⟩⟩
        have hge := (hr i hi).1
        by_cases hip : i = c.maxMuPart
        · subst hip
          rw [Function.update_self] at hge
          omega
        · rwa [Function.update_of_ne hip] at hge

end Rounds

section Partition

variable {L : LookaheadPartitioner} {m : MissCurves} {t : ℕ → ℕ} {fuel : ℕ}

theorem budget_lt (L : LookaheadPartitioner) : L.budget < 2 ^ 32 := by
  have hnonneg : 0 ≤ roundDouble (L.allocPortion * L.buckets) :=
    roundDouble_nonneg (mul_nonneg L.portion_nonneg (Nat.cast_nonneg _))
  rw [LookaheadPartitioner.budget, Nat.floor_lt hnonneg]
  exact_mod_cast L.product_lt

theorem budget_of_one (h : L.allocPortion = 1) : L.budget = L.buckets := by
  rw [LookaheadPartitioner.budget, h, one_mul,
    roundDouble_natCast (L.buckets_lt.trans (by norm_num)), Nat.floor_natCast]

theorem totalUtility_spec {parts : ℕ → Act ℕ}
    (hparts : ∀ p < L.numPartitions, wp (parts p) (fun a t' => a ≤ L.buckets ∧ t' = t) t) :
    wp (L.computePartitioningTotalUtility m parts) (fun _ t' => t' = t) t := by
  simp only [LookaheadPartitioner.computePartitioningTotalUtility, wp_bind]
  refine wp_mono (wp_forUpTo (fun _ _ t' => t' = t) ?_ rfl) ?_
  · rintro p sums t' hp rfl
    simp only [wp_bind, wp_get]
    refine ⟨⟨hp, Nat.zero_le _⟩, wp_mono (hparts p hp) ?_⟩
    rintro a t' ⟨ha, rfl⟩
    rw [wp_pure]
    exact ⟨⟨hp, ha⟩, rfl⟩
  · rintro sums t' rfl
    rw [wp_pure]

/-- The minimum is subtracted once for all partitions. -/
theorem partition_spec (hforb : L.forbidden = none) (hn : 0 < L.numPartitions)
    (hlen : L.numPartitions ≤ L.allocsLength) (hbud : L.budget ≤ L.buckets)
    (hmin : L.numPartitions * L.minAlloc ≤ L.budget) (ht : ∀ p < L.numPartitions, t p ≤ L.buckets)
    (hfuel : L.budget ≤ fuel) :
    wp (L.partition m fuel) (fun _ t' => (Finset.range L.numPartitions).sum t' =
        L.numPartitions * (L.numPartitions * L.minAlloc) +
          (L.budget - L.numPartitions * L.minAlloc) ∧
      ∀ p < L.numPartitions, L.numPartitions * L.minAlloc ≤ t' p ∧ t' p ≤ L.budget) t := by
  have hlt := budget_lt L
  have hB : L.buckets + 1 < 2 ^ 32 := by
    have hbuckets := L.buckets_lt
    unfold LookaheadPartitioner.allocsLength at hlen
    omega
  have hmins : L.minAlloc * L.numPartitions % 2 ^ 32 = L.numPartitions * L.minAlloc := by
    rw [Nat.mul_comm]
    exact Nat.mod_eq_of_lt (by omega)
  have hbalance : (L.budget + 2 ^ 32 - L.numPartitions * L.minAlloc) % 2 ^ 32 =
      L.budget - L.numPartitions * L.minAlloc := by omega
  simp only [LookaheadPartitioner.partition, LookaheadPartitioner.computeBestPartitioning, wp_bind,
    hmins, hbalance]
  refine wp_mono (greedy_spec hforb hn hB hbud (by omega) fun i hi => by omega) ?_
  rintro best t' ⟨rfl, hsum, hbest⟩
  refine wp_mono (totalUtility_spec fun p hp => ?_) ?_
  · rw [wp_pure]
    exact ⟨(hbest p hp).2.trans hbud, rfl⟩
  rintro _ t' rfl
  refine wp_mono (totalUtility_spec fun p hp => ?_) ?_
  · rw [wp_readAlloc]
    exact ⟨lt_of_lt_of_le hp hlen, ht p hp, rfl⟩
  rintro _ t' rfl
  refine wp_mono (wp_forUpTo (fun i _ t'' => ∀ p < i, t'' p = best p) ?_ ?_) ?_
  · intro i _ t'' hi hcopied
    rw [wp_writeAlloc]
    refine ⟨lt_of_lt_of_le hi hlen, fun p hp => ?_⟩
    by_cases hpi : p = i
    · rw [hpi, Function.update_self]
    · rw [Function.update_of_ne hpi]
      exact hcopied p (by omega)
  · exact fun p hp => absurd hp (Nat.not_lt_zero p)
  · intro _ t'' hcopied
    constructor
    · rw [Finset.sum_congr rfl fun p hp => hcopied p (Finset.mem_range.mp hp), hsum,
        Finset.sum_const, Finset.card_range, nsmul_eq_mul, Nat.cast_id]
    · intro p hp
      rw [hcopied p hp]
      exact hbest p hp

theorem readOnly_get (p b : ℕ) : ReadOnly (L.get m p b) :=
  (readOnly_ensure _ _).bind fun _ => readOnly_pure _

theorem readOnly_readAlloc (p : ℕ) : ReadOnly (L.readAlloc p) :=
  (readOnly_ensure _ _).bind fun _ => readOnly_observe _

theorem readOnly_choose (allocs : ℕ → ℕ) (balance : ℕ) : ReadOnly (L.choose m allocs balance) := by
  refine readOnly_forUpTo (fun i best => (readOnly_pure _).ite ?_) _ _
  refine ReadOnly.bind ?_ fun mu => readOnly_pure _
  refine (readOnly_ensure _ _).bind fun _ => readOnly_forUpTo (fun j best => ?_) _ _
  exact (readOnly_get _ _).bind fun _ => (readOnly_get _ _).bind fun _ => readOnly_pure _

theorem readOnly_greedy (fuel : ℕ) (allocs : ℕ → ℕ) (balance : ℕ) :
    ReadOnly (L.greedy m fuel allocs balance) := by
  induction fuel generalizing allocs balance with
  | zero =>
    unfold LookaheadPartitioner.greedy
    exact (readOnly_pure _).ite (readOnly_abort _)
  | succ fuel ih =>
    unfold LookaheadPartitioner.greedy
    exact (readOnly_pure _).ite ((readOnly_choose _ _).bind fun c =>
      (readOnly_ensure _ _).bind fun _ => ih _ _)

theorem readOnly_totalUtility {parts : ℕ → Act ℕ} (h : ∀ p, ReadOnly (parts p)) :
    ReadOnly (L.computePartitioningTotalUtility m parts) :=
  (readOnly_forUpTo (fun p _ => (readOnly_get _ _).bind fun _ => (h p).bind fun _ =>
    (readOnly_get _ _).bind fun _ => readOnly_pure _) _ _).bind fun _ => readOnly_pure _

/-- A round that returns has asked about the whole balance. -/
theorem choose_asks {allocs : ℕ → ℕ} {balance : ℕ} {Q : LookaheadPartitioner.Choice → (ℕ → ℕ) → Prop}
    (h : wp (L.choose m allocs balance) Q t) (hforb : L.forbidden = none)
    (hn : 0 < L.numPartitions) (hpos : 0 < balance) :
    (allocs 0 + balance) % 2 ^ 32 ≤ L.buckets := by
  obtain ⟨_, t₁, hpart⟩ := forUpTo_reaches h hn
  rw [hforb, if_neg (by simp), wp_bind] at hpart
  simp only [LookaheadPartitioner.getMaxMarginalUtility, wp_bind, wp_ensure] at hpart
  obtain ⟨_, t₂, hlast⟩ := forUpTo_reaches hpart.2 (show balance - 1 < balance by omega)
  simp only [wp_bind, wp_get, Nat.sub_add_cancel hpos] at hlast
  exact hlast.2.1.2

/-- What a call that returns says about the partitioner. -/
theorem partition_returns {Q : Unit → (ℕ → ℕ) → Prop} (h : wp (L.partition m fuel) Q t)
    (hforb : L.forbidden = none) (hmin : L.numPartitions * L.minAlloc ≤ L.budget) :
    (L.numPartitions = 0 → L.budget = 0) ∧ (0 < L.numPartitions →
      L.budget ≤ L.buckets ∧ L.numPartitions ≤ L.allocsLength ∧
        ∀ p < L.numPartitions, t p ≤ L.buckets) := by
  have hlt := budget_lt L
  have hmins : L.minAlloc * L.numPartitions % 2 ^ 32 = L.numPartitions * L.minAlloc := by
    rw [Nat.mul_comm]
    exact Nat.mod_eq_of_lt (by omega)
  have hbalance : (L.budget + 2 ^ 32 - L.numPartitions * L.minAlloc) % 2 ^ 32 =
      L.budget - L.numPartitions * L.minAlloc := by omega
  simp only [LookaheadPartitioner.partition, LookaheadPartitioner.computeBestPartitioning,
    wp_bind _ _ Q, hmins, hbalance] at h
  constructor
  · intro hz
    by_contra hpos
    obtain ⟨best, t₁, hgreedy, -⟩ := h
    have hwp : wp (L.greedy m fuel (fun _ => L.numPartitions * L.minAlloc)
        (L.budget - L.numPartitions * L.minAlloc)) (fun _ _ => True) t := ⟨best, t₁, hgreedy, trivial⟩
    unfold LookaheadPartitioner.greedy at hwp
    rw [if_neg (by rw [hz]; omega)] at hwp
    cases fuel with
    | zero => exact (wp_abort _ _ _).mp hwp
    | succ fuel =>
      simp only [wp_bind, wp_ensure, LookaheadPartitioner.choose, hz, forUpTo, wp_pure] at hwp
      exact absurd hwp.1 (lt_irrefl 0)
  · intro hn
    obtain ⟨best, hgreedy, h⟩ := (readOnly_greedy _ _ _).answer h
    obtain ⟨_, hnew, h⟩ := (readOnly_totalUtility fun _ => readOnly_pure _).answer h
    obtain ⟨_, hcur, h⟩ := (readOnly_totalUtility readOnly_readAlloc).answer h
    have hgreedy : wp (L.greedy m fuel (fun _ => L.numPartitions * L.minAlloc)
        (L.budget - L.numPartitions * L.minAlloc)) (fun a _ => a = best) t := ⟨_, _, hgreedy, rfl⟩
    refine ⟨?_, ?_, fun p hp => ?_⟩
    · unfold LookaheadPartitioner.greedy at hgreedy
      split at hgreedy
      · next hz =>
        -- nothing to hand out: the minimum itself is asked about
        rw [wp_pure] at hgreedy
        have hnew : wp (L.computePartitioningTotalUtility m fun p => pure (best p))
            (fun _ _ => True) t := ⟨_, _, hnew, trivial⟩
        simp only [LookaheadPartitioner.computePartitioningTotalUtility, wp_bind _ _ fun _ _ => True]
          at hnew
        obtain ⟨_, _, hround⟩ := forUpTo_reaches hnew hn
        simp only [wp_bind, wp_get, wp_pure] at hround
        have hask := hround.2.1.2
        rw [← hgreedy] at hask
        dsimp only at hask
        omega
      · next hpos =>
        cases fuel with
        | zero => exact ((wp_abort _ _ _).mp hgreedy).elim
        | succ fuel =>
          have hask := choose_asks ((wp_bind ..).mp hgreedy) hforb hn (Nat.pos_of_ne_zero hpos)
          rwa [Nat.add_sub_cancel' hmin, Nat.mod_eq_of_lt hlt] at hask
    · obtain ⟨_, _, hround⟩ := forUpTo_reaches h (show L.numPartitions - 1 < L.numPartitions by omega)
      have hwrite := (wp_writeAlloc _ _ _).mp hround
      omega
    · have hcur : wp (L.computePartitioningTotalUtility m L.readAlloc) (fun _ _ => True) t :=
        ⟨_, _, hcur, trivial⟩
      simp only [LookaheadPartitioner.computePartitioningTotalUtility, wp_bind _ _ fun _ _ => True]
        at hcur
      obtain ⟨_, hround⟩ := readOnly_reaches (fun p _ => (readOnly_get _ _).bind fun _ =>
        (readOnly_readAlloc p).bind fun _ => (readOnly_get _ _).bind fun _ => readOnly_pure _) hcur hp
      simp only [wp_bind, wp_get, wp_readAlloc, wp_pure] at hround
      exact hround.2.2.1.2

end Partition

section Exact

variable {L : LookaheadPartitioner} {m : MissCurves} {t : ℕ → ℕ}

/-- The budget is handed out exactly: every large enough number of rounds
returns the same allocations, which never made the monitor be asked outside its
curves, and a way partitioning of as many ways assigns each way once. -/
def Exact (L : LookaheadPartitioner) (m : MissCurves) (t : ℕ → ℕ) : Prop :=
  ∃ N t', (∀ fuel, N ≤ fuel → L.partition m fuel t = .ok ((), t')) ∧
    (∀ p < L.numPartitions, L.minAlloc ≤ t' p) ∧
    (Finset.range L.numPartitions).sum t' = L.budget ∧
    (L.allocPortion = 1 → ∀ w : WayPartReplPolicy, w.ways = L.buckets →
      w.partitions = L.numPartitions → w.partInfo.length = w.partitions →
      w.wayPartIndex.length = w.ways →
      ∃ w', setPartitionSizes t' w = .ok ((), w') ∧ firstWay t' w.partitions = w.ways ∧
        Assigned t' w w.partitions 0 w')

/-- What it takes: a single partition or no minimum, and tables that reach. -/
def Fits (L : LookaheadPartitioner) : Prop :=
  (L.numPartitions = 0 ∧ L.budget = 0) ∨ (L.numPartitions ≤ L.allocsLength ∧
    L.budget ≤ L.buckets ∧ (L.numPartitions = 1 ∨ 0 < L.numPartitions ∧ L.minAlloc = 0))

/-- More rounds than are needed make no difference. -/
theorem greedy_fuel {fuel fuel' : ℕ} (hle : fuel ≤ fuel') {allocs : ℕ → ℕ} {balance : ℕ}
    {Q : (ℕ → ℕ) → (ℕ → ℕ) → Prop} (h : wp (L.greedy m fuel allocs balance) Q t) :
    wp (L.greedy m fuel' allocs balance) Q t := by
  induction fuel generalizing fuel' allocs balance t with
  | zero =>
    unfold LookaheadPartitioner.greedy at h ⊢
    split at h
    · next hz =>
      rw [if_pos hz]
      exact h
    · exact ((wp_abort _ _ _).mp h).elim
  | succ fuel ih =>
    obtain ⟨fuel', rfl⟩ := Nat.exists_eq_succ_of_ne_zero (show fuel' ≠ 0 by omega)
    unfold LookaheadPartitioner.greedy at h ⊢
    split at h
    · next hz =>
      rw [if_pos hz]
      exact h
    · next hpos =>
      rw [if_neg hpos]
      simp only [wp_bind, wp_ensure] at h ⊢
      exact wp_mono h fun c s hc => ⟨hc.1, ih (by omega) hc.2⟩

theorem partition_fuel {fuel fuel' : ℕ} (hle : fuel ≤ fuel') {Q : Unit → (ℕ → ℕ) → Prop}
    (h : wp (L.partition m fuel) Q t) : wp (L.partition m fuel') Q t := by
  simp only [LookaheadPartitioner.partition, LookaheadPartitioner.computeBestPartitioning,
    wp_bind _ _ Q] at h ⊢
  exact greedy_fuel hle h

theorem exact_of_fits (hforb : L.forbidden = none)
    (hmin : L.numPartitions * L.minAlloc ≤ L.budget) (hfits : Fits L)
    (ht : ∀ p < L.numPartitions, t p ≤ L.buckets) : Exact L m t := by
  -- the sum of the allocations, with the minimum counted once
  have hone : 0 < L.numPartitions → L.numPartitions = 1 ∨ L.minAlloc = 0 →
      L.numPartitions * (L.numPartitions * L.minAlloc) +
        (L.budget - L.numPartitions * L.minAlloc) = L.budget := by
    rintro - (hn | hz)
    · rw [hn] at hmin ⊢
      omega
    · rw [hz]
      omega
  obtain ⟨t', hrun, hmins, hsum⟩ : ∃ t', L.partition m L.budget t = .ok ((), t') ∧
      (∀ p < L.numPartitions, L.minAlloc ≤ t' p) ∧
      (Finset.range L.numPartitions).sum t' = L.budget := by
    rcases hfits with ⟨hn, hb⟩ | ⟨hlen, hbud, hcase⟩
    · refine ⟨t, ?_, fun p hp => absurd hp (by omega), by rw [hn, hb]; rfl⟩
      simp [LookaheadPartitioner.partition, LookaheadPartitioner.computeBestPartitioning, hn, hb,
        LookaheadPartitioner.computePartitioningTotalUtility, LookaheadPartitioner.greedy, forUpTo]
      rfl
    · have hn : 0 < L.numPartitions := hcase.elim (fun h => by omega) And.left
      obtain ⟨_, t', hrun, hsum, hallocs⟩ :=
        partition_spec (m:=m) hforb hn hlen hbud hmin ht le_rfl
      refine ⟨t', hrun, fun p hp => ?_, hsum.trans (hone hn (hcase.imp_right And.right))⟩
      exact (Nat.le_mul_of_pos_left _ hn).trans (hallocs p hp).1
  refine ⟨L.budget, t', fun fuel hfuel => ?_, hmins, hsum, fun hp w hways hparts hinfo hindex => ?_⟩
  · obtain ⟨_, _, hrun', rfl⟩ := partition_fuel hfuel (Q:=fun _ s => s = t') ⟨_, _, hrun, rfl⟩
    exact hrun'
  · have hways' : firstWay t' w.partitions = w.ways := by
      rw [firstWay, hparts, hsum, budget_of_one hp, hways]
    obtain ⟨_, w', hset, hassigned⟩ := setPartitionSizes_spec hinfo hindex hways'
    exact ⟨w', hset, hways', hassigned⟩

theorem fits_of_exact (hforb : L.forbidden = none)
    (hmin : L.numPartitions * L.minAlloc ≤ L.budget) (h : Exact L m t) : Fits L := by
  obtain ⟨N, t', hrun, -, hsum, -⟩ := h
  have hret := partition_returns (Q:=fun _ s => s = t') ⟨_, _, hrun N le_rfl, rfl⟩ hforb hmin
  rcases Nat.eq_zero_or_pos L.numPartitions with hn | hn
  · exact .inl ⟨hn, hret.1 hn⟩
  · obtain ⟨hbud, hlen, ht⟩ := hret.2 hn
    have hsame := hrun (max N L.budget) (le_max_left ..)
    obtain ⟨_, t'', hrun', hsum', -⟩ :=
      partition_spec (m:=m) hforb hn hlen hbud hmin ht (le_max_right N L.budget)
    rw [hsame] at hrun'
    cases hrun'
    refine .inr ⟨hlen, hbud, ?_⟩
    rcases Nat.eq_or_lt_of_le hn with hn1 | hn2
    · exact .inl hn1.symm
    · refine .inr ⟨hn, ?_⟩
      by_contra hm
      have hgrow : L.numPartitions * L.minAlloc <
          L.numPartitions * (L.numPartitions * L.minAlloc) :=
        lt_mul_of_one_lt_left (Nat.mul_pos hn (Nat.pos_of_ne_zero hm)) hn2
      omega

/-- The allocations a run has left stay inside the curves where they fit. -/
theorem call_bounded (hforb : L.forbidden = none)
    (hmin : L.numPartitions * L.minAlloc ≤ L.budget) (hfits : Fits L) {x : ℕ × MissCurves}
    {t' : ℕ → ℕ} (ht : ∀ p < L.numPartitions, t p ≤ L.buckets) (h : L.call t x = some t') :
    ∀ p < L.numPartitions, t' p ≤ L.buckets := by
  intro p hp
  have hrun : L.partition x.2 x.1 t = .ok ((), t') := by
    unfold LookaheadPartitioner.call at h
    split at h
    · next hr =>
      cases h
      exact hr
    · cases h
  rcases hfits with ⟨hn, -⟩ | ⟨hlen, hbud, -⟩
  · omega
  · obtain ⟨_, _, hrun', rfl⟩ := partition_fuel (le_max_left x.1 L.budget)
      (Q:=fun _ s => s = t') ⟨_, _, hrun, rfl⟩
    obtain ⟨_, t'', hrun'', -, hallocs⟩ :=
      partition_spec (m:=x.2) hforb (by omega) hlen hbud hmin ht (le_max_right x.1 L.budget)
    rw [hrun'] at hrun''
    cases hrun''
    exact (hallocs p hp).2.trans hbud

/-- After any number of calls, the next one hands out exactly its budget if and
only if there is one partition or no minimum. -/
theorem partition_exact_iff (L : LookaheadPartitioner) (hforb : L.forbidden = none)
    (hmin : L.numPartitions * L.minAlloc ≤ L.budget) {calls : List (ℕ × MissCurves)}
    (hrun : run L.call (fun _ => 0) calls = some t) (m : MissCurves) : Exact L m t ↔ Fits L := by
  refine ⟨fits_of_exact hforb hmin, fun hfits => exact_of_fits hforb hmin hfits ?_⟩
  have hstep : ∀ t x t', (∀ p < L.numPartitions, t p ≤ L.buckets) → L.call t x = some t' →
      ∀ p < L.numPartitions, t' p ≤ L.buckets := fun _ _ _ => call_bounded hforb hmin hfits
  exact run_invariant hstep (fun _ _ => Nat.zero_le _) hrun

/-- Two partitions of two buckets, with a minimum of one. -/
def twoParts : LookaheadPartitioner where
  numPartitions := 2
  buckets := 2
  minAlloc := 1
  allocPortion := 1
  forbidden := none
  numPartitions_lt := by decide
  buckets_lt := by decide
  buckets_pos := by decide
  portion_nonneg := by norm_num
  product_lt := by
    rw [one_mul, roundDouble_natCast (by norm_num)]
    norm_num

/-- Nobody misses. -/
def noMisses : MissCurves := ⟨fun _ _ => 0, fun _ _ => by norm_num⟩

theorem twoParts_budget : twoParts.budget = 2 := budget_of_one rfl

/-- A single partition of the same cache. -/
def onePart : LookaheadPartitioner := { twoParts with numPartitions := 1, numPartitions_lt := by decide }

theorem onePart_budget : onePart.budget = 2 := budget_of_one rfl

theorem onePart_exact : Exact onePart noMisses (fun _ => 0) ↔ Fits onePart :=
  partition_exact_iff onePart rfl (by rw [onePart_budget]; decide)
    (show run onePart.call (fun _ => 0) [] = some fun _ => 0 from rfl) noMisses

/-- Both partitions get both ways, and the way partitioning writes past its
table. -/
theorem minimum_counted_twice :
    twoParts.numPartitions * twoParts.minAlloc ≤ twoParts.budget ∧
      ¬ Exact twoParts noMisses (fun _ => 0) ∧
      ∃ t, twoParts.partition noMisses 2 (fun _ => 0) = .ok ((), t) ∧ t 0 = 2 ∧ t 1 = 2 ∧
        setPartitionSizes t (allocated 2 2 2 false 2) = .error .outside := by
  have hmin : twoParts.numPartitions * twoParts.minAlloc ≤ twoParts.budget := by
    rw [twoParts_budget]
    decide
  refine ⟨hmin, fun hexact => ?_, ?_⟩
  · rcases fits_of_exact rfl hmin hexact with ⟨hn, -⟩ | ⟨-, -, hn | ⟨-, hm⟩⟩
    · cases hn
    · cases hn
    · cases hm
  · obtain ⟨_, t, hrun, -, hallocs⟩ := partition_spec (m:=noMisses) (t:=fun _ => 0) (L:=twoParts)
      rfl (by decide) (by decide) (by rw [twoParts_budget]; decide) hmin
      (fun _ _ => Nat.zero_le _) twoParts_budget.le
    rw [twoParts_budget] at hallocs
    have hfill : ∀ p < 2, t p = 2 := fun p hp => le_antisymm (hallocs p hp).2 (hallocs p hp).1
    have h₀ := hfill 0 (by decide)
    have h₁ := hfill 1 (by decide)
    refine ⟨t, hrun, h₀, h₁, ?_⟩
    have hset := setPartitionSizes_congr (s:=allocated 2 2 2 false 2)
      (show ∀ p < 2, t p = (fun _ => 2) p from hfill)
    rw [hset]
    rfl

end Exact

end Zsim.Lookahead
