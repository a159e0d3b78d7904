import Zsim.WayPart
import Zsim.TableCounts
import Mathlib.Data.Prod.Lex

/-!
# Runs of the way partitioning policy

A run hits lines that have been filled, fills lines of a set for a partition,
and gives every partition new ways. The sizes of the partitions count their
lines, and the victim of a fill is one of the partition's own ways: a line of
another partition if there is one, and the oldest of these.
-/

namespace Zsim.WayPartRuns

open WeakestPre MemoryHierarchy CheckedTables TableCounts PartPolicy WayPart GuardedRuns

/-- The partition of each line. -/
def classes (t : Table WayPartInfo) : LineId → ℕ := fun i => (t.cell i).p

theorem classes_set (t : Table WayPartInfo) (id : LineId) (v : WayPartInfo) :
    classes (t.set id v) = Function.update (classes t) id v.p :=
  cell_set t id v fun e => e.p

/-- The tables are whole and the sizes count the lines. -/
structure Tables (s : WayPartReplPolicy) : Prop where
  infos : s.partInfo.length = s.partitions
  lines : s.array.length = s.totalSize
  index : s.wayPartIndex.length = s.ways
  monitors : s.partitions ≤ s.monitors
  fits : s.waySize * s.ways = s.totalSize
  /-- Line ids fit an `int32_t`. -/
  small : s.totalSize ≤ 2 ^ 31
  mode : s.testMode = false
  parts : ∀ i < s.totalSize, classes s.array i < s.partitions
  sizes : ∀ q < s.partitions, (s.partInfo.cell q).size = countOf s.totalSize (classes s.array) q

/-- What `update` and `replaced` leave alone. -/
structure Keeps (s s' : WayPartReplPolicy) : Prop where
  partitions : s'.partitions = s.partitions
  totalSize : s'.totalSize = s.totalSize
  waySize : s'.waySize = s.waySize
  ways : s'.ways = s.ways
  wayPartIndex : s'.wayPartIndex = s.wayPartIndex
  incomingLinePart : s'.incomingLinePart = s.incomingLinePart

section Update

variable {s : WayPartReplPolicy} {id : LineId} {q : ℕ}

/-- Writing a line without moving it. -/
theorem Tables.stamp (h : Tables s) {v : WayPartInfo} {ts : ℕ} (hv : v.p = classes s.array id) :
    Tables { s with array := s.array.set id v, timestamp := ts } := by
  have hsame : classes (s.array.set id v) = classes s.array := by
    rw [classes_set, hv, Function.update_eq_self]
  exact ⟨h.infos, h.lines, h.index, h.monitors, h.fits, h.small, h.mode, hsame ▸ h.parts,
    hsame ▸ h.sizes⟩

/-- Moving a line takes one from its partition and adds one to the other. -/
theorem Tables.move (h : Tables s) (hid : id < s.totalSize) (hq : q < s.partitions)
    (hne : classes s.array id ≠ q) {v : WayPartInfo} (hv : v.p = q) {p p' : PartInfo}
    (hp : p.size = dec64 (s.partInfo.cell (classes s.array id)).size)
    (hp' : p'.size = inc64 (s.partInfo.cell q).size) {ts : ℕ} :
    Tables { s with
      partInfo := (s.partInfo.set (classes s.array id) p).set q p'
      array := s.array.set id v
      timestamp := ts } := by
  have hsmall := h.small
  have hclasses : classes (s.array.set id v) = Function.update (classes s.array) id q := by
    rw [classes_set, hv]
  refine ⟨h.infos, h.lines, h.index, h.monitors, h.fits, h.small, h.mode, fun i hi => ?_,
    fun r hr => ?_⟩
  · dsimp only
    rw [hclasses]
    by_cases hii : i = id
    · rw [hii, Function.update_self]
      exact hq
    · rw [Function.update_of_ne hii]
      exact h.parts i hi
  · dsimp only at hr ⊢
    rw [hclasses]
    have hcount := countOf_update hid (classes s.array) q r
    have hle := countOf_le s.totalSize (classes s.array) r
    by_cases hrq : r = q
    · subst hrq
      rw [set_cell_self, hp', h.sizes r hr, inc64_of_lt (Nat.lt_succ_of_le hle) (by omega)]
      rw [if_neg hne, if_pos rfl] at hcount
      omega
    · rw [set_cell_of_ne _ _ _ hrq]
      by_cases hrp : r = classes s.array id
      · subst hrp
        have hpos := countOf_pos hid (classes s.array)
        rw [set_cell_self, hp, h.sizes _ hr, dec64_of_pos hpos]
        rw [if_pos rfl, if_neg (Ne.symm hrq)] at hcount
        omega
      · rw [set_cell_of_ne _ _ _ hrp, h.sizes r hr]
        rw [if_neg (Ne.symm hrp), if_neg (Ne.symm hrq)] at hcount
        omega

theorem update_spec (h : Tables s) (hid : id < s.totalSize)
    (hq : s.incomingLinePart < s.partitions) :
    wp (update id) (fun _ s' => Tables s' ∧ Keeps s s' ∧ s'.candIdx = s.candIdx ∧
      s'.bestId = s.bestId) s := by
  have hlen : id < s.array.length := by rwa [h.lines]
  have hinfo : ∀ {p}, p < s.partitions → p < s.partInfo.length := fun hp => by rwa [h.infos]
  have hp : classes s.array id < s.partitions := h.parts id hid
  simp only [update, wp_bind, wp_readCell, wp_ite, wp_touch, wp_observe, wp_modifyCell, wp_change,
    wp_monitorAccess, set_length, set_cell_self, set_set]
  refine ⟨hlen, ?_⟩
  split
  · refine ⟨hinfo hp, hlen, hlen, lt_of_lt_of_le hp h.monitors, h.stamp ?_,
      ⟨rfl, rfl, rfl, rfl, rfl, rfl⟩, trivial, trivial⟩
    rfl
  · split
    · next hne =>
      refine ⟨hinfo hp, hinfo hq, hinfo hq, hlen, hlen, hlen, lt_of_lt_of_le hq h.monitors,
        h.move hid hq hne ?_ ?_ ?_, ⟨rfl, rfl, rfl, rfl, rfl, rfl⟩, trivial, trivial⟩
      · rfl
      · rfl
      · rw [set_cell_of_ne _ _ _ (Ne.symm hne)]
    · next heq =>
      refine ⟨hinfo hp, hinfo hq, hlen, hlen, hlen, lt_of_lt_of_le hq h.monitors, h.stamp ?_,
        ⟨rfl, rfl, rfl, rfl, rfl, rfl⟩, trivial, trivial⟩
      exact (not_not.mp heq).symm

end Update

/-- Lines of other partitions come first, and then the older ones. -/
def key (q : ℕ) (e : WayPartInfo) : ℕ ×ₗ ℕ := toLex (if e.p = q then 1 else 0, e.ts)

/-- Among the first `n` lines of a set, the first minimal one in a way of the
partition. -/
structure IsVictim (s : WayPartReplPolicy) (q first n w : ℕ) : Prop where
  lt : w < n
  owned : s.wayPartIndex.cell w = q
  least : ∀ v < n, s.wayPartIndex.cell v = q →
    key q (s.array.cell (first + w)) ≤ key q (s.array.cell (first + v))
  earliest : ∀ v < w, s.wayPartIndex.cell v = q →
    key q (s.array.cell (first + w)) < key q (s.array.cell (first + v))

/-- One fill of a partition's line in a set. -/
def fill (set q : ℕ) (lineAddr : Address) : Act LineId := do
  let ways ← observe fun s => s.ways
  let id ← rank q lineAddr (List.range' (set * ways) ways)
  replaced id
  update id
  pure id

section Rank

variable {s : WayPartReplPolicy} {id : LineId} {q first i : ℕ}

theorem better_iff (q : ℕ) (c best : WayPartInfo) :
    better false q c best = true ↔ key q c < key q best := by
  unfold better key
  rw [Prod.Lex.toLex_lt_toLex]
  by_cases hc : c.p = q
  · by_cases hb : best.p = q
    · simp [hc, hb]
    · simp [hc, hb]
  · by_cases hb : best.p = q
    · simp [hc, hb]
    · simp [hc, hb]

theorem int32_of_lt (h : id < 2 ^ 31) : int32 id = id := if_pos h

/-- The state of the ranking after `i` candidates. -/
def ranking (s : WayPartReplPolicy) (q : ℕ) (lineAddr : Address) (i : ℕ) (bestId : ℤ) :
    WayPartReplPolicy :=
  { s with
    incomingLinePart := q
    incomingLineAddr := lineAddr
    candIdx := i
    bestId := bestId }

/-- The best of the first `i` candidates, if one of them may be replaced. -/
def Best (s : WayPartReplPolicy) (q first i : ℕ) (bestId : ℤ) : Prop :=
  (bestId = -1 ∧ ∀ v < i, s.wayPartIndex.cell v ≠ q) ∨
    ∃ w, bestId = (first + w : ℕ) ∧ IsVictim s q first i w

theorem recordCandidate_spec (h : Tables s) {lineAddr : Address} {bestId : ℤ}
    (hbest : Best s q first i bestId) (hi : i < s.ways) (hlt : first + i < s.totalSize) :
    wp (recordCandidate (first + i)) (fun _ s' => ∃ bestId', s' = ranking s q lineAddr (i + 1) bestId' ∧
      Best s q first (i + 1) bestId') (ranking s q lineAddr i bestId) := by
  have hindex : i < s.wayPartIndex.length := by rwa [h.index]
  have hid : int32 (first + i) = (first + i : ℕ) := int32_of_lt (lt_of_lt_of_le hlt h.small)
  have hline : ∀ {v}, v ≤ i → first + v < s.array.length := by
    intro v hv
    rw [h.lines]
    omega
  simp only [recordCandidate, ranking, h.mode, wp_bind, wp_observe, wp_ensure, wp_change, wp_ite,
    wp_readCell, wp_pure, Bool.false_eq_true, if_false, beq_iff_eq, hid, better_iff]
  refine ⟨hi, hindex, ?_⟩
  split
  · next howned =>
    rcases hbest with ⟨rfl, hnone⟩ | ⟨w, rfl, hw⟩
    · -- the first way of the partition
      rw [if_pos (by decide)]
      refine ⟨_, rfl, .inr ⟨i, rfl, i.lt_succ_self, howned, fun v hv hvq => ?_, fun v hv hvq => ?_⟩⟩
      · rcases Nat.lt_succ_iff_lt_or_eq.mp hv with hvi | rfl
        · exact absurd hvq (hnone v hvi)
        · exact le_rfl
      · exact absurd hvq (hnone v hv)
    · rw [if_neg (by omega)]
      refine ⟨hline le_rfl, ?_, ?_⟩
      · rw [Int.toNat_natCast]
        exact hline hw.lt.le
      · rw [Int.toNat_natCast]
        split
        · next hless =>
          refine ⟨_, rfl, .inr ⟨i, rfl, i.lt_succ_self, howned, fun v hv hvq => ?_,
            fun v hv hvq => ?_⟩⟩
          · rcases Nat.lt_succ_iff_lt_or_eq.mp hv with hvi | rfl
            · exact hless.le.trans (hw.least v hvi hvq)
            · exact le_rfl
          · exact lt_of_lt_of_le hless (hw.least v hv hvq)
        · next hnot =>
          refine ⟨_, rfl, .inr ⟨w, rfl, Nat.lt_succ_of_lt hw.lt, hw.owned, fun v hv hvq => ?_,
            hw.earliest⟩⟩
          rcases Nat.lt_succ_iff_lt_or_eq.mp hv with hvi | rfl
          · exact hw.least v hvi hvq
          · exact not_lt.mp hnot
  · next hother =>
    refine ⟨_, rfl, ?_⟩
    rcases hbest with ⟨rfl, hnone⟩ | ⟨w, rfl, hw⟩
    · refine .inl ⟨rfl, fun v hv => ?_⟩
      rcases Nat.lt_succ_iff_lt_or_eq.mp hv with hvi | rfl
      · exact hnone v hvi
      · exact hother
    · refine .inr ⟨w, rfl, Nat.lt_succ_of_lt hw.lt, hw.owned, fun v hv hvq => ?_, hw.earliest⟩
      rcases Nat.lt_succ_iff_lt_or_eq.mp hv with hvi | rfl
      · exact hw.least v hvi hvq
      · exact absurd hvq hother

/-- The candidates of a set leave the best of them in `bestId`. -/
theorem candidates_spec (h : Tables s) (hcand : s.candIdx = 0) (hbestId : s.bestId = -1)
    {lineAddr : Address} {n : ℕ} (hn : n = s.ways) (hfirst : first + n ≤ s.totalSize) :
    wp (do
        startReplacement q lineAddr
        (List.range' first n).foldlM (fun _ id => recordCandidate id) ())
      (fun _ s' => ∃ bestId, s' = ranking s q lineAddr n bestId ∧ Best s q first n bestId) s := by
  simp only [startReplacement, wp_bind, wp_observe, wp_ensure, wp_change, id]
  refine ⟨hcand, hbestId, wp_mono (wp_foldlM (fun xs _ s' => ∃ i bestId, i ≤ n ∧
    xs = List.range' (first + i) (n - i) ∧ s' = ranking s q lineAddr i bestId ∧
    Best s q first i bestId) ?_ ?_) ?_⟩
  · rintro x xs _ s' ⟨i, bestId, hi, hxs, rfl, hbest⟩
    have hin : i < n := by
      by_contra hge
      rw [show n - i = 0 by omega] at hxs
      cases hxs
    rw [show n - i = n - (i + 1) + 1 by omega, List.range'_succ] at hxs
    obtain ⟨rfl, rfl⟩ := List.cons.inj hxs
    refine wp_mono (recordCandidate_spec h hbest (hn ▸ hin) (by omega)) ?_
    rintro _ s' ⟨bestId', rfl, hbest'⟩
    exact ⟨i + 1, bestId', hin, rfl, rfl, hbest'⟩
  · refine ⟨0, -1, Nat.zero_le n, rfl, ?_, .inl ⟨rfl, fun v hv => absurd hv (Nat.not_lt_zero v)⟩⟩
    simp only [ranking, hcand, hbestId]
  · rintro _ s' ⟨i, bestId, hi, hxs, rfl, hbest⟩
    have hin : i = n := by
      have hlen := congrArg List.length hxs
      simp only [List.length_nil, List.length_range'] at hlen
      omega
    exact ⟨bestId, by rw [hin], hin ▸ hbest⟩

theorem rank_eq (q : ℕ) (lineAddr : Address) (cands : List LineId) :
    rank q lineAddr cands = (do
      startReplacement q lineAddr
      cands.foldlM (fun _ id => recordCandidate id) ()) >>= fun _ => getBestCandidate := by
  rw [rank, bind_assoc]

/-- The chosen line is the victim, if the partition has a way at all. -/
theorem rank_spec (h : Tables s) (hcand : s.candIdx = 0) (hbestId : s.bestId = -1) {lineAddr : Address}
    {n : ℕ} (hn : n = s.ways) (hfirst : first + n ≤ s.totalSize)
    (howned : ∃ w < n, s.wayPartIndex.cell w = q) :
    wp (rank q lineAddr (List.range' first n)) (fun id s' => ∃ w, id = first + w ∧
      IsVictim s q first n w ∧ s' = ranking s q lineAddr n (first + w : ℕ)) s := by
  rw [rank_eq, wp_bind]
  refine wp_mono (candidates_spec h hcand hbestId hn hfirst) ?_
  rintro _ s' ⟨bestId, rfl, hbest⟩
  simp only [getBestCandidate, wp_bind, wp_observe, wp_ensure, wp_pure]
  rcases hbest with ⟨-, hnone⟩ | ⟨w, rfl, hw⟩
  · obtain ⟨w, hw, hwq⟩ := howned
    exact absurd hwq (hnone w hw)
  · exact ⟨Int.natCast_nonneg _, w, Int.toNat_natCast _, hw, rfl⟩

/-- A partition without ways fails the assertion of `getBestCandidate`. -/
theorem rank_fails (h : Tables s) (hcand : s.candIdx = 0) (hbestId : s.bestId = -1)
    {lineAddr : Address} {n : ℕ} (hn : n = s.ways) (hfirst : first + n ≤ s.totalSize)
    (hnone : ∀ w < n, s.wayPartIndex.cell w ≠ q) :
    rank q lineAddr (List.range' first n) s = .error .noCandidate := by
  rw [rank_eq]
  refine bind_error (candidates_spec h hcand hbestId hn hfirst) ?_
  rintro _ s' ⟨bestId, rfl, ⟨rfl, -⟩ | ⟨w, -, hw⟩⟩
  · rfl
  · exact absurd hw.owned (hnone w hw.lt)

end Rank

/-- The invariant between operations. -/
structure Ready (s : WayPartReplPolicy) : Prop where
  tables : Tables s
  candIdx : s.candIdx = 0
  bestId : s.bestId = -1
  owned : ∀ q < s.partitions, ∃ w < s.ways, s.wayPartIndex.cell w = q

section Operations

variable {s s' : WayPartReplPolicy} {id : LineId} {q : ℕ}

theorem Ready.of_keeps (h : Ready s) (ht : Tables s') (hk : Keeps s s') (hc : s'.candIdx = 0)
    (hb : s'.bestId = -1) : Ready s' :=
  ⟨ht, hc, hb, by
    rw [hk.partitions, hk.ways, hk.wayPartIndex]
    exact h.owned⟩

theorem hit_spec (h : Ready s) (hid : id < s.totalSize) (hq : s.incomingLinePart < s.partitions) :
    wp (update id) (fun _ s' => Ready s' ∧ Keeps s s') s := by
  refine wp_mono (update_spec h.tables hid hq) ?_
  rintro _ s' ⟨ht, hk, hc, hb⟩
  exact ⟨h.of_keeps ht hk (hc.trans h.candIdx) (hb.trans h.bestId), hk⟩

theorem line_lt (h : Tables s) {set w : ℕ} (hset : set < s.waySize) (hw : w ≤ s.ways) :
    set * s.ways + w ≤ s.totalSize := by
  have hle := Nat.mul_le_mul_right s.ways (Nat.succ_le_of_lt hset)
  rw [Nat.succ_mul, h.fits] at hle
  omega

/-- A fill takes the victim's line. -/
theorem fill_spec (h : Ready s) {set : ℕ} (hset : set < s.waySize) (hq : q < s.partitions)
    (lineAddr : Address) :
    wp (fill set q lineAddr) (fun id s' => (∃ w, id = set * s.ways + w ∧
        IsVictim s q (set * s.ways) s.ways w) ∧
      Ready s' ∧ Keeps { s with incomingLinePart := q } s') s := by
  simp only [fill, wp_bind, wp_observe]
  refine wp_mono (rank_spec h.tables h.candIdx h.bestId rfl (line_lt h.tables hset le_rfl)
    (h.owned q hq)) ?_
  rintro id s' ⟨w, rfl, hw, rfl⟩
  have hid : set * s.ways + w < s.totalSize :=
    lt_of_lt_of_le (Nat.add_lt_add_left hw.lt _) (line_lt h.tables hset le_rfl)
  simp only [replaced, wp_bind, wp_change, wp_observe, wp_modifyCell, ranking]
  refine ⟨by rw [h.tables.lines]; exact hid, ?_⟩
  have ht : Tables { s with
      array := s.array.set (set * s.ways + w) ⟨lineAddr, 0, classes s.array (set * s.ways + w)⟩
      timestamp := s.timestamp } := h.tables.stamp rfl
  have ht' : Ready { s with
      bestId := -1
      candIdx := 0
      incomingLinePart := q
      incomingLineAddr := lineAddr
      array := s.array.set (set * s.ways + w) ⟨lineAddr, 0, classes s.array (set * s.ways + w)⟩ } :=
    ⟨⟨ht.infos, ht.lines, ht.index, ht.monitors, ht.fits, ht.small, ht.mode, ht.parts, ht.sizes⟩, rfl,
      rfl, h.owned⟩
  refine wp_mono (hit_spec ht' hid hq) ?_
  rintro _ s' ⟨hready, hk⟩
  rw [wp_pure]
  exact ⟨⟨w, rfl, hw⟩, hready,
    ⟨hk.partitions, hk.totalSize, hk.waySize, hk.ways, hk.wayPartIndex, hk.incomingLinePart⟩⟩

theorem fill_fails (h : Tables s) (hcand : s.candIdx = 0) (hbestId : s.bestId = -1) {set : ℕ}
    (hset : set < s.waySize) {lineAddr : Address} (hnone : ∀ w < s.ways, s.wayPartIndex.cell w ≠ q) :
    fill set q lineAddr s = .error .noCandidate := by
  have hrank : rank q lineAddr (List.range' (set * s.ways) s.ways) s = _ :=
    rank_fails h hcand hbestId rfl (line_lt h hset le_rfl) hnone
  change ((rank q lineAddr (List.range' (set * s.ways) s.ways) s).bind _) = _
  rw [hrank]
  rfl

/-- New ways for every partition. -/
theorem setPartitionSizes_ready (h : Ready s) {waysPart : ℕ → ℕ}
    (hpos : ∀ p < s.partitions, 1 ≤ waysPart p) (hsum : firstWay waysPart s.partitions = s.ways) :
    wp (setPartitionSizes waysPart) (fun _ s' => Ready s' ∧ s'.partitions = s.partitions ∧
      s'.totalSize = s.totalSize ∧ s'.waySize = s.waySize ∧ s'.ways = s.ways ∧
      s'.incomingLinePart = s.incomingLinePart) s := by
  refine wp_mono (setPartitionSizes_spec h.tables.infos h.tables.index hsum) ?_
  intro _ s' ha
  have ht := h.tables
  have howner := ha.before
  have hinfos := ha.infos
  have hsize := ha.size
  have hlength := ha.length
  rw [ha.same]
  refine ⟨⟨⟨hinfos.trans ht.infos, ht.lines, hlength.trans ht.index, ht.monitors, ht.fits, ht.small,
    ht.mode, ht.parts, fun q hq => (hsize q).trans (ht.sizes q hq)⟩, h.candIdx, h.bestId,
    fun q hq => ?_⟩, rfl, rfl, rfl, rfl, rfl⟩
  have hone := hpos q hq
  have hnext : firstWay waysPart (q + 1) = _ := firstWay_succ
  have hle : firstWay waysPart (q + 1) ≤ s.ways := hsum ▸ firstWay_mono hq
  exact ⟨firstWay waysPart q, by dsimp only; omega, howner q hq _ le_rfl (by omega)⟩

end Operations

/-- The calls a cache and its partitioner make. -/
inductive Op where
  /-- A hit on a line that has been filled. -/
  | hit (id : LineId)
  /-- A fill in a set for a request of the partition. -/
  | fill (set q : ℕ) (lineAddr : Address)
  | setPartitionSizes (waysPart : ℕ → ℕ)

/-- The policy, and the lines that have been filled. -/
structure Cache where
  rp : WayPartReplPolicy
  filled : LineId → Bool

/-- One call. -/
def step : Except PartFailure Cache → Op → Option (Except PartFailure Cache)
  | .error _, _ => none
  | .ok c, .hit id =>
    if c.filled id = true then some ((update id c.rp).map fun r => { c with rp := r.2 }) else none
  | .ok c, .fill set q lineAddr =>
    if set < c.rp.waySize ∧ q < c.rp.partitions then
      some ((fill set q lineAddr c.rp).map fun r => ⟨r.2, Function.update c.filled r.1 true⟩)
    else none
  | .ok c, .setPartitionSizes waysPart =>
    if (∀ p < c.rp.partitions, 1 ≤ waysPart p) ∧
        (Finset.range c.rp.partitions).sum waysPart = c.rp.ways then
      some ((setPartitionSizes waysPart c.rp).map fun r => { c with rp := r.2 })
    else none

/-- What holds between calls of a cache of this geometry. -/
structure Sound (partitions lines ways : ℕ) (c : Cache) : Prop where
  ready : Ready c.rp
  parts : c.rp.partitions = partitions
  size : c.rp.totalSize = lines
  wayLines : c.rp.waySize = lines / ways
  assoc : c.rp.ways = ways
  filled : ∀ id, c.filled id = true → id < lines ∧ c.rp.incomingLinePart < partitions

/-- What the policy promises between calls: the sizes count the lines, and every
fill takes the victim among the partition's ways. -/
structure Isolated (partitions lines ways : ℕ) (c : Cache) : Prop where
  sizes : ∀ q < partitions, (c.rp.partInfo.cell q).size = countOf lines (classes c.rp.array) q
  shared : ((Finset.range partitions).sum fun q => (c.rp.partInfo.cell q).size) = lines
  victims : ∀ set q lineAddr, set < lines / ways → q < partitions → ∃ w s',
    fill set q lineAddr c.rp = .ok (set * ways + w, s') ∧ IsVictim c.rp q (set * ways) ways w

section Runs

variable {partitions lines ways : ℕ} {c : Cache}

theorem step_sound (h : Sound partitions lines ways c) {op : Op} {r : Except PartFailure Cache}
    (hs : step (.ok c) op = some r) : ∃ c', r = .ok c' ∧ Sound partitions lines ways c' := by
  cases op with
  | hit id =>
    simp only [step, Option.ite_none_right_eq_some, Option.some.injEq] at hs
    obtain ⟨hf, rfl⟩ := hs
    obtain ⟨hid, hq⟩ := h.filled id hf
    obtain ⟨_, s', hrun, hready, hk⟩ := wp_map
      (hit_spec h.ready (h.size.symm ▸ hid) (h.parts.symm ▸ hq))
      (fun r => ({ c with rp := r.2 } : Cache))
    refine ⟨_, hrun, hready, hk.partitions.trans h.parts, hk.totalSize.trans h.size,
      hk.waySize.trans h.wayLines, hk.ways.trans h.assoc, fun i hi => ⟨(h.filled i hi).1, ?_⟩⟩
    dsimp only
    rw [hk.incomingLinePart]
    exact hq
  | fill set q lineAddr =>
    simp only [step, Option.ite_none_right_eq_some, Option.some.injEq] at hs
    obtain ⟨⟨hset, hq⟩, rfl⟩ := hs
    obtain ⟨id, s', hrun, ⟨w, hid, hw⟩, hready, hk⟩ := wp_map (fill_spec h.ready hset hq lineAddr)
      (fun r => (⟨r.2, Function.update c.filled r.1 true⟩ : Cache))
    refine ⟨_, hrun, hready, hk.partitions.trans h.parts, hk.totalSize.trans h.size,
      hk.waySize.trans h.wayLines, hk.ways.trans h.assoc, fun i hi => ⟨?_, ?_⟩⟩
    · by_cases hii : i = id
      · rw [hii, hid, ← h.size]
        exact lt_of_lt_of_le (Nat.add_lt_add_left hw.lt _) (line_lt h.ready.tables hset le_rfl)
      · dsimp only at hi
        rw [Function.update_of_ne hii] at hi
        exact (h.filled i hi).1
    · dsimp only
      rw [hk.incomingLinePart, ← h.parts]
      exact hq
  | setPartitionSizes waysPart =>
    simp only [step, Option.ite_none_right_eq_some, Option.some.injEq] at hs
    obtain ⟨⟨hpos, hsum⟩, rfl⟩ := hs
    obtain ⟨_, s', hrun, hready, hp, ht, hws, hw, hin⟩ := wp_map
      (setPartitionSizes_ready h.ready hpos hsum) (fun r => ({ c with rp := r.2 } : Cache))
    refine ⟨_, hrun, hready, hp.trans h.parts, ht.trans h.size, hws.trans h.wayLines,
      hw.trans h.assoc, fun i hi => ⟨(h.filled i hi).1, ?_⟩⟩
    dsimp only
    rw [hin]
    exact (h.filled i hi).2

theorem isolated_of_sound (h : Sound partitions lines ways c) : Isolated partitions lines ways c where
  sizes q hq := h.size ▸ h.ready.tables.sizes q (h.parts.symm ▸ hq)
  shared := by
    have hsum := sum_countOf h.ready.tables.parts
    rw [h.size, h.parts] at hsum
    refine (Finset.sum_congr rfl fun q hq => ?_).trans hsum
    rw [← h.size]
    exact h.ready.tables.sizes q (h.parts.symm ▸ Finset.mem_range.mp hq)
  victims set q lineAddr hset hq := by
    obtain ⟨id, s', hrun, ⟨w, rfl, hw⟩, -⟩ :=
      fill_spec h.ready (h.wayLines.symm ▸ hset) (h.parts.symm ▸ hq) lineAddr
    rw [h.assoc] at hrun hw
    exact ⟨w, s', hrun, hw⟩

end Runs

section Construction

variable {partitions lines ways : ℕ}

theorem firstOwner_lt (hparts : 0 < partitions) {w : ℕ} (hw : w < ways) :
    firstOwner partitions ways w < partitions := by
  have hmod : w * partitions % 2 ^ 32 ≤ w * partitions := Nat.mod_le ..
  exact Nat.div_lt_of_lt_mul (lt_of_le_of_lt hmod (Nat.mul_lt_mul_of_pos_right hw hparts))

/-- The constructed policy: everything belongs to partition 0, and the ways are
shared out. -/
structure Constructed (partitions lines ways : ℕ) (s : WayPartReplPolicy) : Prop where
  same : s = { allocated partitions lines ways false partitions with
    partInfo := s.partInfo
    wayPartIndex := s.wayPartIndex }
  infos : s.partInfo.length = partitions
  size : ∀ q, (s.partInfo.cell q).size = if q = 0 then lines else 0
  index : s.wayPartIndex.length = ways
  owner : ∀ w < ways, s.wayPartIndex.cell w = firstOwner partitions ways w

theorem construct_spec (hparts : 0 < partitions) (hfits : lines / ways * ways = lines) :
    wp construct (fun _ => Constructed partitions lines ways)
      (allocated partitions lines ways false partitions) := by
  simp only [construct, wp_bind, wp_observe, wp_ensure, id]
  refine ⟨hfits, wp_mono (wp_forUpTo (fun _ _ s' =>
    s' = { allocated partitions lines ways false partitions with partInfo := s'.partInfo } ∧
    s'.partInfo.length = partitions ∧ ∀ q, (s'.partInfo.cell q).size = 0) ?_ ?_) ?_⟩
  · rintro i _ s' hi ⟨hsame, hlen, hsize⟩
    rw [wp_modifyCell]
    refine ⟨by rw [hlen]; exact hi, ?_, hlen, fun q => ?_⟩
    · rw [hsame]
    · by_cases hq : q = i
      · rw [hq, set_cell_self]
        exact hsize i
      · rw [set_cell_of_ne _ _ _ hq]
        exact hsize q
  · exact ⟨rfl, rfl, fun _ => rfl⟩
  · rintro _ s₁ ⟨hsame, hlen, hsize⟩
    rw [wp_modifyCell]
    refine ⟨by rw [hlen]; exact hparts, ?_⟩
    refine wp_mono (wp_forUpTo (fun w _ s' =>
      s' = { allocated partitions lines ways false partitions with
        partInfo := s'.partInfo
        wayPartIndex := s'.wayPartIndex } ∧
      s'.partInfo.length = partitions ∧
      (∀ q, (s'.partInfo.cell q).size = if q = 0 then lines else 0) ∧
      s'.wayPartIndex.length = ways ∧
      ∀ v < w, s'.wayPartIndex.cell v = firstOwner partitions ways v) ?_ ?_) ?_
    · rintro w _ s' hw ⟨hsame, hlen, hsize, hindex, howner⟩
      rw [wp_bind, wp_modifyCell, wp_modifyCell]
      refine ⟨by rw [hindex]; exact hw, by rw [hlen]; exact firstOwner_lt hparts hw, ?_, hlen,
        fun q => ?_, hindex, fun v hv => ?_⟩
      · rw [hsame]
      · change ((s'.partInfo.set (firstOwner partitions ways w) _).cell q).size = _
        by_cases hq : q = firstOwner partitions ways w
        · rw [hq, set_cell_self]
          exact hsize _
        · rw [set_cell_of_ne _ _ _ hq]
          exact hsize q
      · rcases Nat.lt_succ_iff_lt_or_eq.mp hv with hlt | rfl
        · exact (set_cell_of_ne _ _ _ hlt.ne).trans (howner v hlt)
        · exact set_cell_self ..
    · refine ⟨?_, hlen, fun q => ?_, ?_, fun v hv => absurd hv (Nat.not_lt_zero v)⟩
      · rw [hsame]
      · change ((s₁.partInfo.set 0 _).cell q).size = _
        by_cases hq : q = 0
        · rw [hq, set_cell_self, if_pos rfl]
          rfl
        · rw [set_cell_of_ne _ _ _ hq, if_neg hq]
          exact hsize q
      · rw [hsame]
        rfl
    · rintro _ s' ⟨hsame, hlen, hsize, hindex, howner⟩
      exact ⟨hsame, hlen, hsize, hindex, howner⟩

theorem constructed_tables {s : WayPartReplPolicy} (h : Constructed partitions lines ways s)
    (hparts : 0 < partitions) (hfits : lines / ways * ways = lines) (hsmall : lines ≤ 2 ^ 31) :
    Tables s := by
  have hinfos := h.infos
  have hindex := h.index
  have hsize := h.size
  rw [h.same]
  refine ⟨hinfos, rfl, hindex, le_rfl, hfits, hsmall, rfl, fun i _ => hparts, fun q _ => ?_⟩
  refine (hsize q).trans ?_
  change _ = countOf lines (fun _ => 0) q
  by_cases hq : q = 0
  · rw [if_pos hq, hq, countOf_const]
  · rw [if_neg hq, countOf_const_of_ne _ (Ne.symm hq)]

/-- The constructor of a policy whose first assignment serves every partition. -/
theorem construct_sound (hparts : 0 < partitions) (hfits : lines / ways * ways = lines)
    (hsmall : lines ≤ 2 ^ 31) (howned : ∀ q < partitions, ∃ w < ways, firstOwner partitions ways w = q) :
    ∃ s, construct (allocated partitions lines ways false partitions) = .ok ((), s) ∧
      Sound partitions lines ways ⟨s, fun _ => false⟩ := by
  obtain ⟨_, s, hrun, h⟩ := construct_spec hparts hfits
  refine ⟨s, hrun, ⟨constructed_tables h hparts hfits hsmall, ?_, ?_, fun q hq => ?_⟩, ?_, ?_, ?_, ?_, ?_⟩
  · rw [h.same]
    rfl
  · rw [h.same]
    rfl
  · rw [h.same] at hq
    obtain ⟨w, hw, hwq⟩ := howned q hq
    refine ⟨w, ?_, (h.owner w hw).trans hwq⟩
    rw [h.same]
    exact hw
  · rw [h.same]
    rfl
  · rw [h.same]
    rfl
  · rw [h.same]
    rfl
  · rw [h.same]
    rfl
  · intro id hid
    cases hid

end Construction

/-- When the first assignment, as it is computed in 32 bits, gives every
partition a way and line ids fit an `int32_t`, every run keeps the partitions
apart. -/
theorem ways_isolate (partitions lines ways : ℕ) (hparts : 0 < partitions)
    (hfits : lines / ways * ways = lines) (hsmall : lines ≤ 2 ^ 31)
    (howned : ∀ q < partitions, ∃ w < ways, firstOwner partitions ways w = q) :
    ∃ s, construct (allocated partitions lines ways false partitions) = .ok ((), s) ∧
      ∀ ops r, run step (.ok ⟨s, fun _ => false⟩) ops = some r →
        ∃ c, r = .ok c ∧ Isolated partitions lines ways c := by
  obtain ⟨s, hrun, hsound⟩ := construct_sound hparts hfits hsmall howned
  refine ⟨s, hrun, fun ops r hr => ?_⟩
  have hstep : ∀ (x : Except PartFailure Cache) op x', (∃ c, x = .ok c ∧ Sound partitions lines ways c) →
      step x op = some x' → ∃ c, x' = .ok c ∧ Sound partitions lines ways c := by
    rintro _ op x' ⟨c, rfl, hc⟩ hs
    exact step_sound hc hs
  obtain ⟨c, rfl, hc⟩ := run_invariant hstep ⟨_, rfl, hsound⟩ hr
  exact ⟨c, rfl, isolated_of_sound hc⟩

/-- The assignment serves every partition whenever it does not wrap. -/
theorem firstOwner_covers {partitions ways q : ℕ} (hle : partitions ≤ ways)
    (hwrap : (ways - 1) * partitions < 2 ^ 32) (hq : q < partitions) :
    ∃ w < ways, firstOwner partitions ways w = q := by
  have hparts : 0 < partitions := Nat.zero_lt_of_lt hq
  -- the first way `w` with `q*ways ≤ w*partitions`
  set w := (q * ways + (partitions - 1)) / partitions with hw
  have hlow : q * ways ≤ w * partitions := by
    have hdiv := Nat.lt_div_mul_add hparts (a := q * ways + (partitions - 1))
    rw [← hw] at hdiv
    omega
  have hhigh : w * partitions ≤ q * ways + (partitions - 1) := Nat.div_mul_le_self ..
  have hlt : w < ways := by
    have hnext : q * ways + ways ≤ partitions * ways := by
      rw [← Nat.succ_mul]
      exact Nat.mul_le_mul_right ways hq
    refine Nat.lt_of_mul_lt_mul_right (a := partitions) ?_
    rw [Nat.mul_comm ways]
    omega
  have hsmall : w * partitions < 2 ^ 32 :=
    lt_of_le_of_lt (Nat.mul_le_mul_right _ (by omega)) hwrap
  refine ⟨w, hlt, ?_⟩
  rw [firstOwner, Nat.mod_eq_of_lt hsmall, Nat.div_eq_of_lt_le hlow]
  rw [Nat.succ_mul]
  omega

theorem twoParts_isolate : ∃ s, construct (allocated 2 8 4 false 2) = .ok ((), s) ∧
    ∀ ops r, run step (.ok ⟨s, fun _ => false⟩) ops = some r → ∃ c, r = .ok c ∧ Isolated 2 8 4 c :=
  ways_isolate 2 8 4 (by decide) (by decide) (by decide)
    fun _ hq => firstOwner_covers (by decide) (by decide) hq

/-- With as many partitions as ways, 65537, the last way goes to partition 0
and the last partition gets none. -/
theorem lastPartition_unserved : ∃ s,
    construct (allocated 65537 65537 65537 false 65537) = .ok ((), s) ∧
      step (.ok ⟨s, fun _ => false⟩) (.fill 0 65536 1) = some (.error .noCandidate) := by
  obtain ⟨_, s, hrun, h⟩ : wp construct (fun _ => Constructed 65537 65537 65537)
      (allocated 65537 65537 65537 false 65537) := construct_spec (by decide) (by decide)
  have htables := constructed_tables h (by decide) (by decide) (by decide)
  have hways : s.ways = 65537 := by
    rw [h.same]
    rfl
  have hway : s.waySize = 1 := by
    rw [h.same]
    rfl
  have hguard : 0 < s.waySize ∧ 65536 < s.partitions := by
    rw [hway, h.same]
    exact ⟨Nat.one_pos, Nat.lt_succ_self 65536⟩
  have hnone : ∀ w < s.ways, s.wayPartIndex.cell w ≠ 65536 := by
    intro w hw
    rw [hways] at hw
    rw [h.owner w hw, firstOwner]
    omega
  refine ⟨s, hrun, ?_⟩
  rw [step, if_pos hguard, fill_fails htables ?_ ?_ ?_ hnone]
  · rfl
  · rw [h.same]
    rfl
  · rw [h.same]
    rfl
  · exact hguard.1

end Zsim.WayPartRuns
