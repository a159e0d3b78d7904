import Zsim.DoubleRounding
import Zsim.GuardedRuns
import Zsim.Outcomes
import Zsim.PartPolicy

/-!
# The utility monitor

Each partition has a `UMon`, a sampled stack of addresses for each of its sets,
which counts the hits at each stack position. The monitor turns these counts
into a curve of misses for each partition and keeps the curves side by side in
`missCache`. A curve has one value more than there are buckets. `slack` is how
many cells behind a table can be written; the tables are allocated with none.
-/

namespace Zsim.UtilityMonitor

open WeakestPre MemoryHierarchy CheckedTables PartPolicy DoubleRounding Outcomes GuardedRuns

/-- `UMon`; each set is its list of addresses, most recent first. -/
structure UMon where
  /-- The ways of the monitor. -/
  buckets : ℕ
  samplingFactorBits : ℕ
  setsBits : ℕ
  curWayHits : ℕ → ℕ
  curMisses : ℕ
  heads : Table (List Address)

/-- The constructor of `UMon`. -/
def UMon.new (bankLines umonLines buckets : ℕ) : UMon where
  buckets := buckets
  samplingFactorBits := Nat.log2 (bankLines / umonLines)
  setsBits := Nat.log2 (umonLines / buckets)
  curWayHits := fun _ => 0
  curMisses := 0
  heads := ⟨umonLines / buckets, fun _ => List.replicate buckets 0⟩

/-- Look an address up in its set and move it to the front; a missing one
replaces the last. -/
def UMon.record (u : UMon) (set : ℕ) (lineAddr : Address) : UMon :=
  let nodes := u.heads.cell set
  match nodes.findIdx? (fun addr => addr == lineAddr) with
  | some b => { u with
      curWayHits := Function.update u.curWayHits b (inc64 (u.curWayHits b))
      heads := u.heads.set set (lineAddr :: nodes.eraseIdx b) }
  | none => { u with
      curMisses := inc64 u.curMisses
      heads := u.heads.set set (lineAddr :: nodes.dropLast) }

/-- `UMon::startNextInterval`. -/
def UMon.startNextInterval (u : UMon) : UMon :=
  { u with curMisses := 0, curWayHits := fun _ => 0 }

/-- The misses with `i` ways fewer than the monitor has, as `UMon::getMisses` adds them up. -/
def UMon.total (u : UMon) : ℕ → ℕ
  | 0 => u.curMisses
  | i + 1 => (u.total i + u.curWayHits (u.buckets - i - 1)) % 2 ^ 64

/-- What the monitor reports for `ways` ways. -/
def UMon.reports (u : UMon) (ways : ℕ) : ℕ := u.total (u.buckets - ways)

/-- Why the monitor stops. -/
inductive MonitorFailure where
  /-- An access outside the length a table was allocated with. -/
  | outside
  /-- `_numPartitions > 0` -/
  | noPartitions
  /-- `partition < monitors.size()` -/
  | badPartition
  /-- An access while the misses are cached. -/
  | missesCached
  /-- The buckets and the ways do not divide each other. -/
  | badRatio
  deriving DecidableEq, Repr

/-- `UMonMonitor`, and the curve that `getMissCurve` allocates on its stack. -/
structure UMonMonitor where
  buckets : ℕ
  missCache : Table ℕ
  missCacheValid : Bool
  monitors : Table UMon
  umonMisses : Table ℕ
  slack : ℕ

abbrev Act (α : Type) := Prog UMonMonitor MonitorFailure α

abbrev missCache : TableRef UMonMonitor ℕ :=
  ⟨fun s => s.missCache, fun s t => { s with missCache := t }⟩

abbrev monitors : TableRef UMonMonitor UMon :=
  ⟨fun s => s.monitors, fun s t => { s with monitors := t }⟩

abbrev umonMisses : TableRef UMonMonitor ℕ :=
  ⟨fun s => s.umonMisses, fun s t => { s with umonMisses := t }⟩

/-- The tables of the constructor. -/
def allocated (numLines umonLines umonBuckets numPartitions buckets slack : ℕ) : UMonMonitor where
  buckets := buckets
  missCache := ⟨buckets * numPartitions % 2 ^ 32 + slack, fun _ => 0⟩
  missCacheValid := false
  monitors := ⟨numPartitions, fun _ => UMon.new numLines umonLines umonBuckets⟩
  umonMisses := ⟨0, fun _ => 0⟩
  slack := slack

/-- The assertion of the constructor. -/
def construct : Act Unit := do
  let s ← observe fun s => s
  ensure (0 < s.monitors.length) .noPartitions

/-- `UMonMonitor::access`; `hash` is the hash family of the monitors. -/
def access (hash : ℕ → Address → ℕ) (partition : ℕ) (lineAddr : Address) : Act Unit := do
  let u ← readCell monitors partition .badPartition
  (if hash 0 lineAddr % 2 ^ u.samplingFactorBits ≠ 0 then pure ()
    else do
      let set := hash 1 lineAddr % 2 ^ u.setsBits
      ensure (set < u.heads.length) .outside
      modifyCell monitors partition (fun u => u.record set lineAddr) .badPartition)
  let s ← observe fun s => s
  ensure (s.missCacheValid = false) .missesCached
  change fun s => { s with missCacheValid := false }

/-- `UMon::getMisses`, into `umonMisses`. -/
def getMisses (u : UMon) : Act Unit := do
  let total ← forUpTo (fun i total => do
    modifyCell umonMisses (u.buckets - i) (fun _ => total) .outside
    pure ((total + u.curWayHits (u.buckets - i - 1)) % 2 ^ 64)) u.buckets u.curMisses
  modifyCell umonMisses 0 (fun _ => total) .outside

/-- A value between two values of the curve, `k` of `ratio` steps apart. -/
def interpolate (x y k ratio : ℕ) : ℕ :=
  let frac := roundDouble (k / ratio)
  let m0 := roundDouble (roundDouble x * roundDouble (1 - frac))
  let m1 := roundDouble (roundDouble y * frac)
  ⌊roundDouble (m0 + m1)⌋₊

/-- Write a value of the curve at `misses`, as a `uint32_t`. -/
def writeMisses (misses j v : ℕ) : Act Unit :=
  modifyCell missCache (misses + j) (fun _ => v % 2 ^ 32) .outside

/-- Copy the curve, or leave out values of it. -/
def downsample (misses umonBuckets buckets : ℕ) : Act Unit := do
  let downsampleRatio := umonBuckets / buckets
  ensure (umonBuckets % buckets = 0) .badRatio
  forUpTo (fun j _ => do
    let v ← readCell umonMisses (j * downsampleRatio) .outside
    writeMisses misses j v) buckets ()
  let last ← readCell umonMisses umonBuckets .outside
  writeMisses misses buckets last

/-- Interpolate the curve. -/
def upsample (misses umonBuckets buckets : ℕ) : Act Unit := do
  let upsampleRatio := buckets / umonBuckets
  ensure (buckets % umonBuckets = 0) .badRatio
  forUpTo (fun j _ => do
    let m0 ← readCell umonMisses j .outside
    writeMisses misses (upsampleRatio * j) m0
    let m1 ← readCell umonMisses (j + 1) .outside
    forUpTo (fun k _ => writeMisses misses (upsampleRatio * j + (k + 1))
      (interpolate m0 m1 (k + 1) upsampleRatio)) (upsampleRatio - 1) ()
    let last ← readCell umonMisses umonBuckets .outside
    writeMisses misses buckets last) umonBuckets ()

/-- `UMonMonitor::getMissCurve`, whose curve has as many values as the `UMon` has ways. -/
def getMissCurve (misses partition : ℕ) : Act Unit := do
  let u ← readCell monitors partition .badPartition
  change fun s => { s with umonMisses := ⟨u.buckets + s.slack, s.umonMisses.cell⟩ }
  getMisses u
  let s ← observe fun s => s
  if s.buckets ≤ u.buckets then downsample misses u.buckets s.buckets
  else upsample misses u.buckets s.buckets

/-- `UMonMonitor::getMissCurves`. -/
def getMissCurves : Act Unit := do
  let s ← observe fun s => s
  forUpTo (fun partition _ => getMissCurve (partition * s.buckets % 2 ^ 32) partition)
    s.monitors.length ()

/-- `UMonMonitor::get`. -/
def get (partition bucket : ℕ) : Act ℕ := do
  let s ← observe fun s => s
  ensure (partition < s.monitors.length) .badPartition
  (if s.missCacheValid = true then pure ()
    else do
      getMissCurves
      change fun s => { s with missCacheValid := true })
  readCell missCache ((partition * s.buckets + bucket) % 2 ^ 32) .outside

/-- `UMonMonitor::reset`. -/
def reset : Act Unit :=
  change fun s => { s with
    monitors := { s.monitors with cell := fun p => (s.monitors.cell p).startNextInterval }
    missCacheValid := false }

section Curves

variable {s : UMonMonitor} {u : UMon}

/-- The curve is written from its end, the first value behind the last cell. -/
theorem getMisses_outside (hlen : s.umonMisses.length = u.buckets) :
    getMisses u s = .error .outside := by
  cases hb : u.buckets with
  | zero =>
    have hout : ¬0 < s.umonMisses.length := by omega
    unfold getMisses
    rw [hb]
    change modifyCell umonMisses 0 (fun _ => u.curMisses) MonitorFailure.outside s = _
    exact modifyCell_outside umonMisses _ hout
  | succ n =>
    have hout : ¬u.buckets - 0 < s.umonMisses.length := by omega
    unfold getMisses
    rw [hb] at hout ⊢
    exact error_bind (forUpTo_error (error_bind (modifyCell_outside umonMisses _ hout) _) n) _

/-- With a cell more, the curve is what the monitor reports. -/
theorem getMisses_spec (hlen : u.buckets < s.umonMisses.length) :
    wp (getMisses u) (fun _ s' => s' = { s with umonMisses := s'.umonMisses } ∧
      s'.umonMisses.length = s.umonMisses.length ∧
      ∀ k ≤ u.buckets, s'.umonMisses.cell k = u.reports k) s := by
  simp only [getMisses, wp_bind]
  refine wp_mono (wp_forUpTo (fun i total s' => total = u.total i ∧
    s' = { s with umonMisses := s'.umonMisses } ∧ s'.umonMisses.length = s.umonMisses.length ∧
    ∀ k, u.buckets - i < k → k ≤ u.buckets → s'.umonMisses.cell k = u.reports k) ?_ ?_) ?_
  · intro i total s' hi hinv
    obtain ⟨htotal, hsame, hlength, hcells⟩ := hinv
    rw [wp_bind, wp_modifyCell, wp_pure]
    refine ⟨by rw [hlength]; omega, by rw [htotal]; rfl, ?_, hlength, fun k hk hle => ?_⟩
    · rw [hsame]
    · by_cases hki : k = u.buckets - i
      · rw [hki, set_cell_self, htotal, UMon.reports]
        congr 1
        omega
      · rw [set_cell_of_ne _ _ _ hki]
        exact hcells k (by omega) hle
  · exact ⟨rfl, rfl, rfl, fun k hk hle => by omega⟩
  · intro total s' hinv
    obtain ⟨htotal, hsame, hlength, hcells⟩ := hinv
    rw [wp_modifyCell]
    refine ⟨by rw [hlength]; omega, ?_, hlength, fun k hle => ?_⟩
    · rw [hsame]
    · by_cases hk : k = 0
      · rw [hk, set_cell_self, htotal]
        rfl
      · rw [set_cell_of_ne _ _ _ hk]
        exact hcells k (by omega) hle

/-- The row of a partition begins at `misses` and ends where the next one begins. -/
theorem downsample_spec {misses ratio : ℕ} (hB : 0 < s.buckets)
    (hlen : s.buckets * ratio < s.umonMisses.length) (hcache : misses + s.buckets < s.missCache.length) :
    wp (downsample misses (s.buckets * ratio) s.buckets) (fun _ s' =>
      s' = { s with missCache := s'.missCache } ∧ s'.missCache.length = s.missCache.length ∧
      (∀ j < s.buckets, s'.missCache.cell (misses + j) = s.umonMisses.cell (j * ratio) % 2 ^ 32) ∧
      s'.missCache.cell (misses + s.buckets) = s.umonMisses.cell (s.buckets * ratio) % 2 ^ 32 ∧
      ∀ i < misses, s'.missCache.cell i = s.missCache.cell i) s := by
  have hratio : s.buckets * ratio / s.buckets = ratio := Nat.mul_div_cancel_left ratio hB
  simp only [downsample, writeMisses, wp_bind, wp_ensure, wp_readCell, wp_modifyCell, hratio]
  refine ⟨Nat.mul_mod_right _ _, wp_mono (wp_forUpTo (fun k _ s' =>
    s' = { s with missCache := s'.missCache } ∧ s'.missCache.length = s.missCache.length ∧
    (∀ j < k, s'.missCache.cell (misses + j) = s.umonMisses.cell (j * ratio) % 2 ^ 32) ∧
    ∀ i < misses, s'.missCache.cell i = s.missCache.cell i) ?_ ?_) ?_⟩
  · intro k _ s' hk hinv
    obtain ⟨hsame, hlength, hcells, hbefore⟩ := hinv
    have hcurve : s'.umonMisses = s.umonMisses := by rw [hsame]
    have hle : k * ratio ≤ s.buckets * ratio := Nat.mul_le_mul_right ratio hk.le
    simp only [wp_bind, wp_readCell, wp_modifyCell]
    refine ⟨by rw [hcurve]; omega, by rw [hlength]; omega, ?_, hlength, fun j hj => ?_, fun i hi => ?_⟩
    · rw [hsame]
    · by_cases hjk : j = k
      · rw [hjk, set_cell_self, hcurve]
      · rw [set_cell_of_ne _ _ _ (by omega)]
        exact hcells j (by omega)
    · rw [set_cell_of_ne _ _ _ (by omega)]
      exact hbefore i hi
  · exact ⟨rfl, rfl, fun j hj => absurd hj (Nat.not_lt_zero j), fun _ _ => rfl⟩
  · intro _ s' hinv
    obtain ⟨hsame, hlength, hcells, hbefore⟩ := hinv
    have hcurve : s'.umonMisses = s.umonMisses := by rw [hsame]
    refine ⟨by rw [hcurve]; omega, by rw [hlength]; exact hcache, ?_, hlength, fun j hj => ?_, ?_,
      fun i hi => ?_⟩
    · rw [hsame]
    · rw [set_cell_of_ne _ _ _ (by omega)]
      exact hcells j hj
    · rw [set_cell_self, hcurve]
    · rw [set_cell_of_ne _ _ _ (by omega)]
      exact hbefore i hi

/-- What filling the cache leaves alone. -/
structure Keeps (s s' : UMonMonitor) : Prop where
  buckets : s'.buckets = s.buckets
  monitors : s'.monitors = s.monitors
  missCacheValid : s'.missCacheValid = s.missCacheValid
  slack : s'.slack = s.slack
  length : s'.missCache.length = s.missCache.length

/-- The curve of one partition. -/
theorem getMissCurve_spec {misses partition ratio : ℕ} (hpart : partition < s.monitors.length)
    (hB : 0 < s.buckets) (hratio : 0 < ratio)
    (hways : (s.monitors.cell partition).buckets = s.buckets * ratio) (hslack : 0 < s.slack)
    (hcache : misses + s.buckets < s.missCache.length) :
    wp (getMissCurve misses partition) (fun _ s' => Keeps s s' ∧
      (∀ j < s.buckets, s'.missCache.cell (misses + j) =
        (s.monitors.cell partition).reports (j * ratio) % 2 ^ 32) ∧
      s'.missCache.cell (misses + s.buckets) =
        (s.monitors.cell partition).reports (s.buckets * ratio) % 2 ^ 32 ∧
      ∀ i < misses, s'.missCache.cell i = s.missCache.cell i) s := by
  simp only [getMissCurve, wp_bind, wp_readCell, wp_change, wp_observe]
  refine ⟨hpart, wp_mono (getMisses_spec (Nat.lt_add_of_pos_right hslack)) ?_⟩
  intro _ s₁ hcurve
  obtain ⟨hsame₁, hlength₁, hcells₁⟩ := hcurve
  have hbuckets : s₁.buckets = s.buckets := by rw [hsame₁]
  have hmissCache : s₁.missCache = s.missCache := by rw [hsame₁]
  have hle : s.buckets ≤ s.buckets * ratio := Nat.le_mul_of_pos_right _ hratio
  rw [hways] at hlength₁ hcells₁ ⊢
  rw [hbuckets, if_pos hle, ← hbuckets]
  refine wp_mono (downsample_spec (by omega) ?_ (by rw [hbuckets, hmissCache]; exact hcache)) ?_
  · rw [hlength₁, hbuckets]
    exact Nat.lt_add_of_pos_right hslack
  intro _ s₂ hrow
  obtain ⟨hsame₂, hlength₂, hcells₂, hlast₂, hbefore₂⟩ := hrow
  rw [hbuckets] at hcells₂ hlast₂ ⊢
  refine ⟨⟨?_, ?_, ?_, ?_, ?_⟩, fun j hj => ?_, ?_, fun i hi => ?_⟩
  · rw [hsame₂, hsame₁]
  · rw [hsame₂, hsame₁]
  · rw [hsame₂, hsame₁]
  · rw [hsame₂, hsame₁]
  · rw [hlength₂, hmissCache]
  · rw [hcells₂ j hj, hcells₁ _ (Nat.mul_le_mul_right ratio hj.le)]
  · rw [hlast₂, hcells₁ _ le_rfl]
  · rw [hbefore₂ i hi, hmissCache]

end Curves

/-- What `get(p, b)` finds in a cache with the rows of `n` partitions of `B`
buckets: the last value of a row is the first value of the next one. -/
def overlaid (reports : ℕ → ℕ → ℕ) (n B ratio p b : ℕ) : ℕ :=
  if b = B ∧ p + 1 < n then reports (p + 1) 0 % 2 ^ 32 else reports p (b * ratio) % 2 ^ 32

section Rows

variable {s : UMonMonitor} {n B ratio : ℕ}

/-- A monitor whose tables have a cell to spare. -/
structure Roomy (n B ratio : ℕ) (s : UMonMonitor) : Prop where
  parts : s.monitors.length = n
  buckets : s.buckets = B
  slack : 0 < s.slack
  cache : B * n < s.missCache.length
  ways : ∀ p < n, (s.monitors.cell p).buckets = B * ratio

/-- The reports of a partition's own monitor. -/
def own (s : UMonMonitor) (p ways : ℕ) : ℕ := (s.monitors.cell p).reports ways

/-- All rows are in the cache. -/
def Filled (n B ratio : ℕ) (s : UMonMonitor) : Prop :=
  ∀ p < n, ∀ b ≤ B, s.missCache.cell (p * B + b) = overlaid (own s) n B ratio p b

theorem getMissCurves_spec (h : Roomy n B ratio s) (hB : 0 < B) (hratio : 0 < ratio)
    (hsmall : B * n < 2 ^ 32) :
    wp getMissCurves (fun _ s' => Keeps s s' ∧ Filled n B ratio s') s := by
  have hstart : ∀ k ≤ n, k * B ≤ B * n := fun k hk => by
    rw [Nat.mul_comm B]
    exact Nat.mul_le_mul_right B hk
  simp only [getMissCurves, wp_bind, wp_observe, h.parts, h.buckets]
  -- row by row; the row after the last one written still has no first value
  refine wp_mono (wp_forUpTo (fun k _ s' => Keeps s s' ∧
    (∀ p < k, ∀ b < B, s'.missCache.cell (p * B + b) = own s p (b * ratio) % 2 ^ 32) ∧
    (∀ p, p + 1 = k → s'.missCache.cell (k * B) = own s p (B * ratio) % 2 ^ 32)) ?_ ?_) ?_
  · intro k _ s' hk hinv
    obtain ⟨hkeeps, hrows, hlast⟩ := hinv
    have hnext := hstart (k + 1) hk
    rw [Nat.add_one_mul] at hnext
    have hk' : k < s'.monitors.length := by
      rw [hkeeps.monitors, h.parts]
      exact hk
    have hbuckets : s'.buckets = B := hkeeps.buckets.trans h.buckets
    rw [Nat.mod_eq_of_lt (by omega)]
    refine wp_mono (getMissCurve_spec hk' (by omega) hratio ?_ ?_ ?_) ?_
    · rw [hkeeps.monitors, hbuckets]
      exact h.ways k hk
    · rw [hkeeps.slack]
      exact h.slack
    · have hcache := h.cache
      rw [hkeeps.length, hbuckets]
      omega
    intro _ s'' hrow
    obtain ⟨hkeeps', hcells, hend, hbefore⟩ := hrow
    rw [hbuckets, hkeeps.monitors] at hcells hend
    refine ⟨⟨?_, ?_, ?_, ?_, ?_⟩, fun p hp b hb => ?_, fun p hp => ?_⟩
    · rw [hkeeps'.buckets, hkeeps.buckets]
    · rw [hkeeps'.monitors, hkeeps.monitors]
    · rw [hkeeps'.missCacheValid, hkeeps.missCacheValid]
    · rw [hkeeps'.slack, hkeeps.slack]
    · rw [hkeeps'.length, hkeeps.length]
    · by_cases hpk : p = k
      · rw [hpk]
        exact hcells b hb
      · have hlt : p + 1 ≤ k := by omega
        have hle := Nat.mul_le_mul_right B hlt
        rw [Nat.add_one_mul] at hle
        rw [hbefore _ (by omega)]
        exact hrows p (by omega) b hb
    · rw [Nat.add_one_mul, hend]
      rw [Nat.succ.inj hp]
      rfl
  · refine ⟨⟨rfl, rfl, rfl, rfl, rfl⟩, fun p hp => absurd hp (Nat.not_lt_zero p), fun p hp => ?_⟩
    exact absurd hp (Nat.succ_ne_zero p)
  · intro _ s' hinv
    obtain ⟨hkeeps, hrows, hlast⟩ := hinv
    refine ⟨hkeeps, fun p hp b hb => ?_⟩
    have hown : own s' = own s := by
      unfold own
      rw [hkeeps.monitors]
    unfold overlaid
    rw [hown]
    by_cases hbB : b = B
    · rw [hbB, ← Nat.add_one_mul]
      by_cases hlt : p + 1 < n
      · have hzero := hrows (p + 1) hlt 0 hB
        rw [Nat.zero_mul, Nat.add_zero] at hzero
        rw [if_pos ⟨rfl, hlt⟩]
        exact hzero
      · have hn : p + 1 = n := by omega
        rw [if_neg (fun hand => hlt hand.2), hn]
        exact hlast p hn
    · rw [if_neg (fun hand => hbB hand.1)]
      exact hrows p hp b (by omega)

/-- What the calls keep where the tables have a cell to spare: valid rows are
filled in. -/
structure Spare (n B ratio : ℕ) (s : UMonMonitor) : Prop where
  roomy : Roomy n B ratio s
  filled : s.missCacheValid = true → Filled n B ratio s

/-- The first part of `get` leaves the rows filled in. -/
theorem cached_spec (h : Spare n B ratio s) (hB : 0 < B) (hratio : 0 < ratio)
    (hsmall : B * n < 2 ^ 32) :
    wp (if s.missCacheValid = true then pure ()
      else do
        getMissCurves
        change fun s => { s with missCacheValid := true } : Act Unit)
      (fun _ s' => Spare n B ratio s' ∧ Filled n B ratio s' ∧ s'.monitors = s.monitors) s := by
  simp only [wp_ite, wp_bind, wp_pure, wp_change]
  split
  · next hvalid => exact ⟨h, h.filled hvalid, trivial⟩
  · refine wp_mono (getMissCurves_spec h.roomy hB hratio hsmall) ?_
    intro _ s' hpost
    obtain ⟨hkeeps, hfilled⟩ := hpost
    refine ⟨⟨⟨?_, ?_, ?_, ?_, ?_⟩, fun _ => hfilled⟩, hfilled, hkeeps.monitors⟩
    · rw [← h.roomy.parts, ← hkeeps.monitors]
    · rw [← h.roomy.buckets, ← hkeeps.buckets]
    · exact hkeeps.slack.symm ▸ h.roomy.slack
    · exact hkeeps.length.symm ▸ h.roomy.cache
    · intro q hq
      have hways := h.roomy.ways q hq
      rw [← hkeeps.monitors] at hways
      exact hways

/-- A filled cache answers from the rows. -/
theorem get_spec (h : Spare n B ratio s) (hB : 0 < B) (hratio : 0 < ratio) (hsmall : B * n < 2 ^ 32)
    {p b : ℕ} (hp : p < n) (hb : b ≤ B) :
    wp (get p b) (fun v _ => v = overlaid (own s) n B ratio p b) s := by
  have hle : p * B + B ≤ B * n := by
    rw [← Nat.add_one_mul, Nat.mul_comm B]
    exact Nat.mul_le_mul_right B hp
  simp only [get, wp_bind _ _ fun v _ => v = _, wp_observe, wp_ensure, h.roomy.parts, h.roomy.buckets]
  rw [Nat.mod_eq_of_lt (by omega)]
  refine ⟨hp, wp_mono (cached_spec h hB hratio hsmall) ?_⟩
  intro _ s' hpost
  obtain ⟨hspare, hfilled, hmonitors⟩ := hpost
  have hcache := hspare.roomy.cache
  rw [wp_readCell]
  refine ⟨show p * B + b < s'.missCache.length by omega, ?_⟩
  have hcell := hfilled p hp b hb
  unfold own at hcell ⊢
  rwa [hmonitors] at hcell

theorem get_spare (h : Spare n B ratio s) (hB : 0 < B) (hratio : 0 < ratio) (hsmall : B * n < 2 ^ 32)
    (p b : ℕ) : ends (fun _ => True) (get p b) (fun _ => Spare n B ratio) s := by
  simp only [get, ends_bind _ _ fun _ => Spare n B ratio, ends_observe, ends_ensure]
  refine ⟨fun _ => ?_, fun _ => trivial⟩
  refine ends_mono (ends_of_wp (cached_spec h hB hratio hsmall)) ?_
  intro _ s' hpost
  rw [ends_readCell]
  exact ⟨fun _ => hpost.1, fun _ => trivial⟩

theorem getMissCurve_outside (hslack : s.slack = 0) {p : ℕ} (hp : p < s.monitors.length)
    (misses : ℕ) : getMissCurve misses p s = .error .outside := by
  have hread : wp (readCell monitors p MonitorFailure.badPartition) (fun _ s' => s' = s) s :=
    (wp_readCell ..).mpr ⟨hp, rfl⟩
  refine bind_error hread ?_
  intro u _ hs
  rw [hs]
  have halloc : wp (change fun s => { s with umonMisses := ⟨u.buckets + s.slack, s.umonMisses.cell⟩ } :
      Act Unit) (fun _ s' => s'.umonMisses.length = u.buckets) s := by
    rw [wp_change, hslack]
    rfl
  exact bind_error halloc fun _ s' hlen => error_bind (getMisses_outside hlen) _

/-- Without a cell to spare, no call that has to fill the cache returns. -/
theorem get_outside (hvalid : s.missCacheValid = false) (hslack : s.slack = 0) {p : ℕ}
    (hp : p < s.monitors.length) (b : ℕ) : get p b s = .error .outside := by
  obtain ⟨n, hn⟩ : ∃ n, s.monitors.length = n + 1 := ⟨s.monitors.length - 1, by omega⟩
  have hfirst := getMissCurve_outside hslack (p := 0) (by omega) (0 * s.buckets % 2 ^ 32)
  have hcurves : getMissCurves s = .error .outside := by
    change forUpTo _ s.monitors.length () s = _
    rw [hn]
    exact forUpTo_error hfirst n
  have hmiss : ¬s.missCacheValid = true := by rw [hvalid]; exact Bool.false_ne_true
  have hensure : (ensure (p < s.monitors.length) MonitorFailure.badPartition : Act Unit) = pure () :=
    if_pos hp
  change (ensure (p < s.monitors.length) MonitorFailure.badPartition >>= fun _ =>
    (if s.missCacheValid = true then pure () else _) >>= _ : Act ℕ) s = _
  rw [hensure, if_neg hmiss, pure_bind]
  exact error_bind (error_bind hcurves _) _

theorem get_badPartition {p : ℕ} (hp : ¬p < s.monitors.length) (b : ℕ) :
    get p b s = .error .badPartition := by
  have hensure : (ensure (p < s.monitors.length) MonitorFailure.badPartition : Act Unit) s =
      .error .badPartition := by
    unfold ensure
    rw [if_neg hp]
    rfl
  have hobserve : wp (observe fun s => s : Act UMonMonitor) (fun a s' => a = s ∧ s' = s) s :=
    (wp_observe ..).mpr ⟨rfl, rfl⟩
  refine bind_error hobserve ?_
  intro a s' hs
  rw [hs.1, hs.2]
  exact error_bind hensure _

end Rows

/-- The calls of a policy and of a partitioner. -/
inductive Op where
  | access (partition : ℕ) (lineAddr : Address)
  | get (partition bucket : ℕ)
  | reset

/-- What a call runs. -/
def perform (hash : ℕ → Address → ℕ) : Op → Act Unit
  | .access partition lineAddr => access hash partition lineAddr
  | .get partition bucket => do
    let _ ← get partition bucket
    pure ()
  | .reset => reset

/-- One call; nothing is called after a failure. -/
def step (hash : ℕ → Address → ℕ) :
    Except MonitorFailure UMonMonitor → Op → Option (Except MonitorFailure UMonMonitor)
  | .error _, _ => none
  | .ok s, op => some ((perform hash op s).map fun r => r.2)

/-- A run from the constructor, with `slack` cells behind each table. -/
def runs (hash : ℕ → Address → ℕ) (numLines umonLines umonBuckets numPartitions buckets slack : ℕ)
    (ops : List Op) : Option (Except MonitorFailure UMonMonitor) :=
  run (step hash) ((construct (allocated numLines umonLines umonBuckets numPartitions buckets
    slack)).map fun r => r.2) ops

section Runs

variable {hash : ℕ → Address → ℕ} {s : UMonMonitor} {n B ratio slack : ℕ}

theorem record_buckets (u : UMon) (set : ℕ) (lineAddr : Address) :
    (u.record set lineAddr).buckets = u.buckets := by
  unfold UMon.record
  dsimp only
  split
  · rfl
  · rfl

/-- The counters of the monitors have changed, and nothing is cached. -/
structure Recounted (s s' : UMonMonitor) : Prop where
  same : s' = { s with monitors := s'.monitors, missCacheValid := false }
  length : s'.monitors.length = s.monitors.length
  ways : ∀ p, (s'.monitors.cell p).buckets = (s.monitors.cell p).buckets

theorem access_recounted (p : ℕ) (lineAddr : Address) :
    ends (fun _ => True) (access hash p lineAddr) (fun _ => Recounted s) s := by
  simp only [access, ends_bind, ends_readCell, ends_observe, ends_ensure, ends_change]
  refine ⟨fun hp => ?_, fun _ => trivial⟩
  rw [ends_ite]
  split
  · exact ⟨fun _ => ⟨rfl, rfl, fun _ => rfl⟩, fun _ => trivial⟩
  · simp only [ends_bind, ends_ensure, ends_modifyCell]
    refine ⟨fun _ => ⟨fun _ => ⟨fun _ => ⟨rfl, rfl, fun q => ?_⟩, fun _ => trivial⟩, fun _ => trivial⟩,
      fun _ => trivial⟩
    by_cases hq : q = p
    · rw [hq, set_cell_self, record_buckets]
    · rw [set_cell_of_ne _ _ _ hq]

theorem Recounted.roomy {s' : UMonMonitor} (h : Recounted s s') (hroomy : Roomy n B ratio s) :
    Roomy n B ratio s' := by
  refine ⟨h.length.trans hroomy.parts, ?_, ?_, ?_, fun p hp => (h.ways p).trans (hroomy.ways p hp)⟩
  · rw [h.same]
    exact hroomy.buckets
  · rw [h.same]
    exact hroomy.slack
  · rw [h.same]
    exact hroomy.cache

/-- What a call keeps where the tables have no cell to spare: nothing is cached. -/
structure Tight (n : ℕ) (s : UMonMonitor) : Prop where
  parts : s.monitors.length = n
  slack : s.slack = 0
  empty : s.missCacheValid = false

theorem Recounted.tight {s' : UMonMonitor} (h : Recounted s s') (htight : Tight n s) : Tight n s' := by
  refine ⟨h.length.trans htight.parts, ?_, ?_⟩
  · rw [h.same]
    exact htight.slack
  · rw [h.same]

theorem Recounted.spare {s' : UMonMonitor} (h : Recounted s s') (hspare : Spare n B ratio s) :
    Spare n B ratio s' := by
  refine ⟨h.roomy hspare.roomy, fun hvalid => ?_⟩
  rw [h.same] at hvalid
  cases hvalid

theorem perform_tight (h : Tight n s) (op : Op) :
    ends (fun _ => True) (perform hash op) (fun _ => Tight n) s := by
  cases op with
  | access p lineAddr =>
    refine ends_mono (access_recounted p lineAddr) ?_
    intro _ s' hr
    exact hr.tight h
  | get p b =>
    change ends _ (get p b >>= fun _ => pure ()) _ s
    rw [ends_bind]
    by_cases hp : p < s.monitors.length
    · exact ends_of_error (get_outside h.empty h.slack hp b) trivial
    · exact ends_of_error (get_badPartition hp b) trivial
  | reset => exact ⟨h.parts, h.slack, rfl⟩

theorem perform_spare (hB : 0 < B) (hratio : 0 < ratio) (hsmall : B * n < 2 ^ 32)
    (h : Spare n B ratio s) (op : Op) :
    ends (fun _ => True) (perform hash op) (fun _ => Spare n B ratio) s := by
  cases op with
  | access p lineAddr =>
    refine ends_mono (access_recounted p lineAddr) ?_
    intro _ s' hr
    exact hr.spare h
  | get p b =>
    change ends _ (get p b >>= fun _ => pure ()) _ s
    rw [ends_bind]
    exact ends_mono (get_spare h hB hratio hsmall p b) fun _ _ h' => h'
  | reset =>
    have hr : Recounted s { s with
        monitors := { s.monitors with cell := fun p => (s.monitors.cell p).startNextInterval }
        missCacheValid := false } := ⟨rfl, rfl, fun _ => rfl⟩
    exact hr.spare h

/-- What a run keeps, an operation keeps. -/
theorem run_keeps {Q : UMonMonitor → Prop}
    (hop : ∀ s op, Q s → ends (fun _ => True) (perform hash op) (fun _ => Q) s)
    {r r' : Except MonitorFailure UMonMonitor} (h : ∀ s, r = .ok s → Q s) {ops : List Op}
    (hrun : run (step hash) r ops = some r') : ∀ s, r' = .ok s → Q s := by
  have hstep : ∀ r op r', (∀ s, r = .ok s → Q s) → step hash r op = some r' →
      ∀ s, r' = .ok s → Q s := by
    intro r op r' hr hs s' hs'
    cases r with
    | error e => cases hs
    | ok s =>
      simp only [step, Option.some.injEq] at hs
      rw [← hs] at hs'
      obtain ⟨_, hq⟩ := state_of_ends (hop s op (hr s rfl)) hs'
      exact hq
  exact run_invariant hstep h hrun

/-- As the tables are allocated, a call of `get` never returns: it writes behind
the curve on the stack. With a cell to spare behind each table it answers from
the cache, where the last value of each row but the last is the first value of
the next partition's row. -/
theorem curves_overrun (hash : ℕ → Address → ℕ) (numLines umonLines n B ratio : ℕ) :
    (∀ ops s, runs hash numLines umonLines (B * ratio) n B 0 ops = some (.ok s) →
      ∀ p < n, ∀ b, get p b s = .error .outside) ∧
    (0 < B → 0 < ratio → B * n < 2 ^ 32 → ∀ slack, 0 < slack →
      ∀ ops s, runs hash numLines umonLines (B * ratio) n B slack ops = some (.ok s) →
        ∀ p < n, ∀ b ≤ B, ∃ s', get p b s = .ok (overlaid (own s) n B ratio p b, s')) := by
  have hconstruct : ∀ (slack : ℕ) s,
      (construct (allocated numLines umonLines (B * ratio) n B slack)).map (fun r => r.2) = .ok s →
        s = allocated numLines umonLines (B * ratio) n B slack := by
    intro slack s hs
    have hends : ends (fun _ => True) construct (fun _ s => s = allocated numLines umonLines (B * ratio)
        n B slack) (allocated numLines umonLines (B * ratio) n B slack) := by
      simp only [construct, ends_bind, ends_observe, ends_ensure]
      exact ⟨fun _ => trivial, fun _ => trivial⟩
    obtain ⟨_, heq⟩ := state_of_ends hends hs
    exact heq
  constructor
  · intro ops s hrun p hp b
    have htight : Tight n s := by
      refine run_keeps (fun s op h => perform_tight h op) (fun s hs => ?_) hrun s rfl
      rw [hconstruct 0 s hs]
      exact ⟨rfl, rfl, rfl⟩
    exact get_outside htight.empty htight.slack (htight.parts.symm ▸ hp) b
  · intro hB hratio hsmall slack hslack ops s hrun p hp b hb
    have hspare : Spare n B ratio s := by
      refine run_keeps (fun s op h => perform_spare hB hratio hsmall h op) (fun s hs => ?_) hrun s rfl
      rw [hconstruct slack s hs]
      refine ⟨⟨rfl, rfl, hslack, ?_, fun _ _ => rfl⟩, fun h => by cases h⟩
      change B * n < B * n % 2 ^ 32 + slack
      rw [Nat.mod_eq_of_lt hsmall]
      omega
    obtain ⟨v, s', hget, rfl⟩ := get_spec hspare hB hratio hsmall hp hb
    exact ⟨s', hget⟩

/-- The first call of `get` writes behind the curve. And with a cell to spare, an
access by partition 1 is a miss of partition 0 with all its ways. -/
theorem first_get_outside :
    get 0 0 (allocated 1 1 1 1 1 0) = .error .outside ∧
    ∃ s, runs (fun _ _ => 0) 1 1 1 2 1 1 [.access 1 5] = some (.ok s) ∧ own s 0 1 = 0 ∧
      (get 0 1 s).map (fun r => r.1) = .ok 1 := by
  constructor
  · exact get_outside rfl rfl Nat.one_pos 0
  · exact ⟨_, rfl, rfl, rfl⟩

end Runs

end Zsim.UtilityMonitor
