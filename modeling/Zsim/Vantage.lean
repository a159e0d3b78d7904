import Zsim.PartPolicy
import Zsim.DoubleRounding
import Zsim.WayPart

/-!
# The Vantage policy

A line is in a managed partition or in the unmanaged region, which takes the
place behind the last partition. Lines are demoted to the unmanaged region
while a victim is sought, and promoted back by a hit. The feedback that moves
the setpoints and the random draws of `takeOneLine` are arguments.
-/

namespace Zsim.Vantage

open WeakestPre MemoryHierarchy CheckedTables PartPolicy DoubleRounding WayPart

/-- `VantagePartInfo`, without its profiling counters. -/
structure VantagePartInfo extends PartInfo where
  curBts : ℕ
  curBtsHits : ℕ
  setpointBts : ℕ
  curIntervalIns : ℕ
  curIntervalDems : ℕ
  curIntervalCands : ℕ
  extendedSize : ℕ
  longTermTargetSize : ℕ

/-- `LineInfo`. -/
structure LineInfo where
  addr : Address
  /-- Zero if the line is empty. -/
  ts : ℕ
  bts : ℕ
  p : ℕ
  /-- The original partition of a line in the unmanaged region. -/
  op : ℕ

/-- `VantageReplPolicy`; `monitors` is the number of parts of the monitor. -/
structure VantageReplPolicy where
  partitions : ℕ
  totalSize : ℕ
  assoc : ℕ
  monitors : ℕ
  partGranularity : ℕ
  smoothTransients : Bool
  partInfo : Table VantagePartInfo
  array : Table LineInfo
  candList : Table LineId
  candIdx : ℕ
  incomingLineAddr : Address
  timestamp : ℕ
  lastUpdateCycle : ℕ

abbrev Act (α : Type) := Prog VantageReplPolicy PartFailure α

abbrev partInfo : TableRef VantageReplPolicy VantagePartInfo :=
  ⟨fun s => s.partInfo, fun s t => { s with partInfo := t }⟩

abbrev array : TableRef VantageReplPolicy LineInfo :=
  ⟨fun s => s.array, fun s t => { s with array := t }⟩

abbrev candList : TableRef VantageReplPolicy LineId :=
  ⟨fun s => s.candList, fun s t => { s with candList := t }⟩

/-- Add one to a 32-bit counter. -/
def inc32 (x : ℕ) : ℕ := (x + 1) % 2 ^ 32

/-- The difference of two 64-bit values. -/
def sub64 (x y : ℕ) : ℕ := if y ≤ x then x - y else x + 2 ^ 64 - y

/-- `((double)totalSize)*partPortion`, as a `uint32_t`. -/
def targetManagedSize (totalSize partPortionPct : ℕ) : ℕ :=
  ⌊roundDouble (totalSize * roundDouble (partPortionPct / 100))⌋₊

/-- The managed region is a part of the cache. -/
theorem targetManagedSize_le {totalSize partPortionPct : ℕ} (h : totalSize < 2 ^ 53)
    (hpct : partPortionPct ≤ 100) : targetManagedSize totalSize partPortionPct ≤ totalSize := by
  have hone : ((partPortionPct / 100 : ℚ)) ≤ (1 : ℕ) := by
    rw [Nat.cast_one, div_le_one (by norm_num)]
    exact_mod_cast hpct
  have hportion := roundDouble_le hone (by positivity) (by norm_num)
  have hpos : (0 : ℚ) ≤ roundDouble (partPortionPct / 100) := roundDouble_nonneg (by positivity)
  have hproduct : (totalSize * roundDouble (partPortionPct / 100) : ℚ) ≤ totalSize := by
    rw [Nat.cast_one] at hportion
    exact mul_le_of_le_one_right (by positivity) hportion
  have hround := roundDouble_le hproduct (by positivity) h
  exact Nat.floor_le_of_le hround

/-- The zeroed tables of the constructor. -/
def allocated (partitions lines assoc partGranularity : ℕ) (smoothTransients : Bool)
    (monitors : ℕ) : VantageReplPolicy where
  partitions := partitions
  totalSize := lines
  assoc := assoc
  monitors := monitors
  partGranularity := partGranularity
  smoothTransients := smoothTransients
  partInfo := ⟨partitions + 1, fun _ => ⟨⟨0, 0⟩, 0, 0, 0, 0, 0, 0, 0, 0⟩⟩
  array := ⟨lines, fun _ => ⟨0, 0, 0, 0, 0⟩⟩
  candList := ⟨assoc, fun _ => 0⟩
  candIdx := 0
  incomingLineAddr := 0
  timestamp := 1
  lastUpdateCycle := 0

/-- Give every partition its target, and all the lines to the unmanaged region. -/
def initialise (target : ℕ) : Act Unit := do
  let s ← observe fun s => s
  forUpTo (fun i _ => modifyCell partInfo i (fun p =>
    { p with targetSize := target, longTermTargetSize := target, extendedSize := 0 }) .outside)
    (s.partitions + 1) ()
  modifyCell partInfo s.partitions (fun p => { p with targetSize := 0, longTermTargetSize := 0 })
    .outside
  modifyCell partInfo s.partitions
    (fun p => { p with size := s.totalSize, extendedSize := s.totalSize }) .outside
  forUpTo (fun i _ => modifyCell array i (fun e => { e with p := s.partitions, op := s.partitions })
    .badCandidate) s.totalSize ()

/-- The rest of the constructor. -/
def construct (partPortionPct partSlackPct maxAperturePct : ℕ) : Act Unit := do
  ensure (partPortionPct ≤ 100) .percentage
  ensure (partSlackPct ≤ 100) .percentage
  ensure (maxAperturePct ≤ 100) .percentage
  let s ← observe fun s => s
  initialise (targetManagedSize s.totalSize partPortionPct / s.partitions)

/-- How far a short-term target is above the long-term one, as an `int32_t`. -/
def VantagePartInfo.left (i : VantagePartInfo) : ℤ :=
  int32 (sub64 i.targetSize i.longTermTargetSize % 2 ^ 32)

/-- `VantageReplPolicy::takeOneLine`; `draw` is the answer of `rng.randInt`. -/
def takeOneLine (draw : ℕ → ℕ) : Act Unit := do
  let s ← observe fun s => s
  ensure (s.smoothTransients = true) .smoothTransients
  let linesLeft ← forUpTo (fun p n => do
    let i ← readCell partInfo p .outside
    pure ((n + i.left.toNat) % 2 ^ 32)) s.partitions 0
  ensure (0 < linesLeft) .noLinesLeft
  let r ← forUpTo (fun p (r : ℕ × Bool) =>
    if r.2 = true then pure r
    else do
      let i ← readCell partInfo p .outside
      let curLines := (r.1 + i.left.toNat) % 2 ^ 32
      if 0 < i.left ∧ draw linesLeft < curLines then do
        modifyCell partInfo p (fun i => { i with targetSize := dec64 i.targetSize }) .outside
        pure (curLines, true)
      else pure (curLines, false)) s.partitions (0, false)
  ensure (r.2 = true) .noLinesLeft

/-- The line becomes the most recent one. -/
def recordHit (id : LineId) : Act Unit := do
  let ts ← observe fun s => s.timestamp
  modifyCell array id (fun e => { e with ts := ts }) .badCandidate
  change fun s => { s with timestamp := inc64 s.timestamp }
  let e ← readCell array id .badCandidate
  touch partInfo e.p

/-- A hit; a line of the unmanaged region is promoted to the partition `part`. -/
def hitUpdate (part : ℕ) (id : LineId) : Act Unit := do
  let s ← observe fun s => s
  let e ← readCell array id .badCandidate
  (if e.p = s.partitions then do
      modifyCell array id (fun e => { e with p := part }) .badCandidate
      modifyCell partInfo part (fun i => { i with curIntervalIns := inc32 i.curIntervalIns })
        .outside
      modifyCell partInfo part (fun i => { i with size := inc64 i.size }) .outside
      modifyCell partInfo s.partitions (fun i => { i with size := dec64 i.size }) .outside
    else pure ())
  recordHit id

/-- The line that has just been filled moves to the partition `part`. -/
def insertLine (part : ℕ) (id : LineId) : Act Unit := do
  let s ← observe fun s => s
  let e ← readCell array id .badCandidate
  modifyCell array id (fun e => { e with ts := s.timestamp }) .badCandidate
  change fun s => { s with timestamp := inc64 s.timestamp }
  modifyCell partInfo e.p (fun i => { i with size := dec64 i.size }) .outside
  modifyCell partInfo e.op (fun i => { i with extendedSize := dec64 i.extendedSize }) .outside
  modifyCell array id (fun e => { e with p := part, op := part }) .badCandidate
  modifyCell partInfo part (fun i => { i with curIntervalIns := inc32 i.curIntervalIns }) .outside
  modifyCell partInfo part (fun i => { i with size := inc64 i.size }) .outside
  modifyCell partInfo part (fun i => { i with extendedSize := inc64 i.extendedSize }) .outside
  touch partInfo part

/-- The update after a miss. -/
def missUpdate (part : ℕ) (draw : ℕ → ℕ) (id : LineId) : Act Unit := do
  insertLine part id
  let s ← observe fun s => s
  let i ← readCell partInfo part .outside
  if i.targetSize < i.longTermTargetSize then do
    ensure (s.smoothTransients = true) .smoothTransients
    modifyCell partInfo part (fun i => { i with targetSize := inc64 i.targetSize }) .outside
    takeOneLine draw
  else pure ()

/-- The coarse-grain timestamp of a line and its partition. -/
def adjustTimestamp (id : LineId) : Act Unit := do
  let e ← readCell array id .badCandidate
  let i ← readCell partInfo e.p .outside
  modifyCell array id (fun e => { e with bts := i.curBts }) .badCandidate
  modifyCell partInfo e.p (fun i => { i with curBtsHits := inc32 i.curBtsHits }) .outside
  let i ← readCell partInfo e.p .outside
  if i.size % 2 ^ 32 / 16 ≤ i.curBtsHits then
    modifyCell partInfo e.p (fun i => { i with
      curBts := inc64 i.curBts
      setpointBts := inc64 i.setpointBts
      curBtsHits := 0 }) .outside
  else pure ()

/-- `VantageReplPolicy::update`; `part` is the mapper's answer. -/
def update (part globPhaseCycles : ℕ) (draw : ℕ → ℕ) (id : LineId) : Act Unit := do
  let s ← observe fun s => s
  (if s.lastUpdateCycle < globPhaseCycles then do
      forUpTo (fun p _ => touch partInfo p) (s.partitions + 1) ()
      change fun s => { s with lastUpdateCycle := globPhaseCycles }
    else pure ())
  let e ← readCell array id .badCandidate
  (if 0 < e.ts then hitUpdate part id else missUpdate part draw id)
  let e ← readCell array id .badCandidate
  monitorAccess (fun s => s.monitors) e.p
  adjustTimestamp id

/-- `VantageReplPolicy::startReplacement`. -/
def startReplacement (lineAddr : Address) : Act Unit :=
  change fun s => { s with incomingLineAddr := lineAddr }

/-- `VantageReplPolicy::recordCandidate`. -/
def recordCandidate (id : LineId) : Act Unit := do
  let s ← observe fun s => s
  ensure (s.candIdx < s.assoc) .manyCandidates
  modifyCell candList s.candIdx (fun _ => id) .badCandidate
  change fun s => { s with candIdx := s.candIdx + 1 }

/-- What the aperture control does to a setpoint. -/
inductive Setpoint where
  | increase
  | decrease
  | keep
  deriving DecidableEq, Repr

/-- Move the setpoint of a partition and start a new interval. -/
def adjustSetpoint (sp : Setpoint) (i : VantagePartInfo) : VantagePartInfo :=
  { i with
    setpointBts := match sp with
      | .increase => if i.setpointBts < i.curBts then inc64 i.setpointBts else i.setpointBts
      | .decrease =>
        if sub64 i.curBts i.setpointBts < 255 then dec64 i.setpointBts else i.setpointBts
      | .keep => i.setpointBts
    curIntervalCands := 0
    curIntervalIns := 0
    curIntervalDems := 0 }

/-- Move a line from its partition `p` to the unmanaged region. -/
def demote (p : ℕ) (id : LineId) : Act Unit := do
  let s ← observe fun s => s
  modifyCell partInfo p (fun i => { i with size := dec64 i.size }) .outside
  modifyCell array id (fun e => { e with p := s.partitions }) .badCandidate
  modifyCell partInfo s.partitions (fun i => { i with size := inc64 i.size }) .outside
  modifyCell partInfo p (fun i => { i with curIntervalDems := inc32 i.curIntervalDems }) .outside

/-- One round of the demotion loop; `control` is the aperture control, which
may fail its assertion on the slope. -/
def considerDemotion (control : VantagePartInfo → Option Setpoint) (id : LineId) : Act Unit := do
  let s ← observe fun s => s
  let e ← readCell array id .badCandidate
  if e.ts = 0 ∨ e.p = s.partitions then pure ()
  else do
    let i ← readCell partInfo e.p .outside
    if i.size % 2 ^ 32 ≤ i.targetSize then pure ()
    else do
      (if sub64 i.curBts i.setpointBts % 256 ≤ sub64 i.curBts e.bts % 256 then demote e.p id
        else pure ())
      modifyCell partInfo e.p (fun i => { i with curIntervalCands := inc32 i.curIntervalCands })
        .outside
      let i ← readCell partInfo e.p .outside
      if 256 ≤ i.curIntervalCands then
        match control i with
        | none => abort .slope
        | some sp => modifyCell partInfo e.p (adjustSetpoint sp) .outside
      else pure ()

/-- Whether a candidate is preferred to the best one so far. -/
def better (partitions : ℕ) (e best : LineInfo) : Bool :=
  if e.p = partitions ∧ best.p ≠ partitions then true
  else if e.p = partitions ∧ best.p = partitions then decide (e.ts < best.ts)
  else if e.p ≠ partitions ∧ best.p = partitions then false
  else decide (e.ts < best.ts)

/-- `VantageReplPolicy::getBestCandidate`. -/
def getBestCandidate (control : VantagePartInfo → Option Setpoint) : Act LineId := do
  let s ← observe fun s => s
  ensure (0 < s.candIdx) .noCandidate
  ensure (s.candIdx ≤ s.assoc) .manyCandidates
  forUpTo (fun i _ => do
    let id ← readCell candList i .badCandidate
    considerDemotion control id) s.candIdx ()
  let first ← readCell candList 0 .badCandidate
  let r ← forUpTo (fun i (r : ℤ × Bool) =>
    if r.2 = true then pure r
    else do
      let id ← readCell candList i .badCandidate
      let e ← readCell array id .badCandidate
      ensure (0 ≤ r.1) .badCandidate
      let best ← readCell array r.1.toNat .badCandidate
      pure (if e.ts = 0 then (int32 id, true)
        else if better s.partitions e best = true then (int32 id, false) else r))
    s.candIdx (int32 first, false)
  ensure (0 ≤ r.1 ∧ r.1.toNat < s.totalSize) .badCandidate
  pure r.1.toNat

/-- `LegacyReplPolicy::rank`. -/
def rank (control : VantagePartInfo → Option Setpoint) (lineAddr : Address)
    (cands : List LineId) : Act LineId := do
  startReplacement lineAddr
  cands.foldlM (fun _ id => recordCandidate id) ()
  getBestCandidate control

/-- `VantageReplPolicy::replaced`. -/
def replaced (id : LineId) : Act Unit := do
  change fun s => { s with candIdx := 0 }
  let lineAddr ← observe fun s => s.incomingLineAddr
  modifyCell array id (fun e => { e with ts := 0, bts := 0, addr := lineAddr }) .badCandidate

/-- The new targets of one partition, and the lines to take away for it. -/
def resize (smoothTransients : Bool) (size32 : ℕ) (i : VantagePartInfo) : VantagePartInfo × ℕ :=
  if smoothTransients = true then
    let i := { i with longTermTargetSize := size32 }
    if i.targetSize < size32 then
      let newTarget := max i.targetSize (min i.longTermTargetSize (inc64 i.size)) % 2 ^ 32
      ({ i with targetSize := newTarget }, sub64 newTarget i.targetSize)
    else (i, 0)
  else ({ i with targetSize := size32, longTermTargetSize := size32 }, 0)

/-- `VantageReplPolicy::setPartitionSizes`. -/
def setPartitionSizes (sizes : ℕ → ℕ) (draw : ℕ → ℕ → ℕ) : Act Unit := do
  let s ← observe fun s => s
  let linesToTakeAway ← forUpTo (fun p n => do
    let i ← readCell partInfo p .outside
    let r := resize s.smoothTransients (s.totalSize * sizes p % 2 ^ 32 / s.partGranularity) i
    modifyCell partInfo p (fun _ => r.1) .outside
    pure ((n + r.2) % 2 ^ 32)) s.partitions 0
  forUpTo (fun i _ => takeOneLine (draw i)) linesToTakeAway ()

end Zsim.Vantage
