import Zsim.IdealLRU
import Zsim.DoubleRounding

/-!
# The ideal partitioned LRU array

The policy keeps one intrusive list for each partition and evicts from the
partition that is proportionally furthest above its target. The array maps
addresses to lines and calls the policy. Sizes are compared as 32-bit integers
and divided as doubles. The constructor initialises one entry of `partInfo`
more than it allocates; how many there are is an argument here.
-/

namespace Zsim.IdealLRUPart

open WeakestPre MemoryHierarchy CheckedTables PartPolicy IntrusiveList DoubleRounding
open WayPart (int32)

/-- `IdPartInfo`. -/
structure IdPartInfo extends PartInfo where
  lruList : InList

/-- `Entry`; its line id is its index. -/
structure Entry where
  p : ℕ
  /-- True except when just evicted. -/
  used : Bool

/-- `IdealLRUPartReplPolicy`; `monitors` is the number of parts of the monitor. -/
structure IdealLRUPartReplPolicy where
  partitions : ℕ
  numLines : ℕ
  numBuckets : ℕ
  monitors : ℕ
  partInfo : Table IdPartInfo
  array : Table Entry
  nodes : Heap

abbrev PolicyAct (α : Type) := Prog IdealLRUPartReplPolicy PartFailure α

abbrev partInfo : TableRef IdealLRUPartReplPolicy IdPartInfo :=
  ⟨fun s => s.partInfo, fun s t => { s with partInfo := t }⟩

abbrev array : TableRef IdealLRUPartReplPolicy Entry :=
  ⟨fun s => s.array, fun s t => { s with array := t }⟩

/-- A method of the list of a partition. -/
def listMethod (p : ℕ) (f : Heap → InList → Option (Heap × InList)) : PolicyAct Unit := do
  let i ← readCell partInfo p .outside
  let s ← observe fun s => s
  match f s.nodes i.lruList with
  | none => abort .listNode
  | some (h, L) => do
    change fun s => { s with nodes := h }
    modifyCell partInfo p (fun i => { i with lruList := L }) .outside

/-- `partInfo[p].lruList.push_front`. -/
def listPushFront (p : ℕ) (id : LineId) : PolicyAct Unit :=
  listMethod p fun h L => pushFront h p L id

/-- `partInfo[p].lruList.remove`. -/
def listRemove (p : ℕ) (id : LineId) : PolicyAct Unit :=
  listMethod p fun h L => remove h p L id

/-- Remove a line from the list of a partition and push it on one. -/
def moveList (oldPart newPart : ℕ) (id : LineId) : PolicyAct Unit := do
  listRemove oldPart id
  listPushFront newPart id

/-- The policy before its entries are constructed, with `infos` entries of
`partInfo`. -/
def allocated (partitions numLines numBuckets infos monitors : ℕ) : IdealLRUPartReplPolicy where
  partitions := partitions
  numLines := numLines
  numBuckets := numBuckets
  monitors := monitors
  partInfo := ⟨infos, fun _ => ⟨⟨0, 0⟩, InList.empty⟩⟩
  array := ⟨numLines, fun _ => ⟨0, false⟩⟩
  nodes := fun _ => Node.free

/-- The constructor of the policy. -/
def construct : PolicyAct Unit := do
  let s ← observe fun s => s
  forUpTo (fun p _ => modifyCell partInfo p (fun _ =>
    ⟨⟨0, s.numLines / s.partitions⟩, InList.empty⟩) .outside) (s.partitions + 1) ()
  forUpTo (fun i _ => do
    modifyCell array i (fun _ => ⟨0, true⟩) .badCandidate
    listPushFront 0 i
    modifyCell partInfo 0 (fun i => { i with size := inc64 i.size }) .outside) s.numLines ()

/-- `IdealLRUPartReplPolicy::setPartitionSizes`. -/
def setPartitionSizes (sizes : ℕ → ℕ) : PolicyAct Unit := do
  let s ← observe fun s => s
  forUpTo (fun p _ => modifyCell partInfo p (fun i =>
    { i with targetSize := sizes p * s.numLines % 2 ^ 32 / s.numBuckets }) .outside) s.partitions ()

/-- The sizes after a line has changed its partition. -/
def moveSize (oldPart newPart : ℕ) : PolicyAct Unit := do
  (if oldPart ≠ newPart then do
      modifyCell partInfo oldPart (fun i => { i with size := dec64 i.size }) .outside
      modifyCell partInfo newPart (fun i => { i with size := inc64 i.size }) .outside
    else touch partInfo oldPart)
  touch partInfo newPart

/-- A line that has just been filled changes its partition. -/
def moveLine (oldPart newPart : ℕ) (id : LineId) : PolicyAct Unit := do
  moveSize oldPart newPart
  modifyCell array id (fun e => { e with p := newPart }) .badCandidate
  moveList oldPart newPart id
  modifyCell array id (fun e => { e with used := true }) .badCandidate

/-- `IdealLRUPartReplPolicy::update`; `part` is the mapper's answer. -/
def update (part : ℕ) (id : LineId) : PolicyAct Unit := do
  let e ← readCell array id .badCandidate
  (if e.used = true then do
      touch partInfo e.p
      moveList e.p e.p id
    else moveLine e.p part id)
  let e ← readCell array id .badCandidate
  monitorAccess (fun s => s.monitors) e.p

/-- `IdealLRUPartReplPolicy::replaced`. -/
def replaced (id : LineId) : PolicyAct Unit :=
  modifyCell array id (fun e => { e with used := false }) .badCandidate

/-- The difference of the low halves, as an `int32_t`. -/
def sub32 (x y : ℕ) : ℤ := int32 ((x % 2 ^ 32 + (2 ^ 32 - y % 2 ^ 32)) % 2 ^ 32)

/-- How far a partition is above its target, proportionally. -/
def partDiff (i : PartInfo) : ℚ :=
  roundDouble (sub32 i.size i.targetSize / roundDouble (inc64 i.targetSize))

/-- The loop of `rank` that looks for the partition to evict from. -/
def victimPart (part : ℕ) : PolicyAct ℕ := do
  let s ← observe fun s => s
  let own ← readCell partInfo part .outside
  let r ← forUpTo (fun p (r : ℚ × ℕ) => do
    let i ← readCell partInfo p .outside
    let diff := partDiff i.toPartInfo
    pure (if r.1 < diff ∧ 0 < i.size then (diff, p) else r))
    s.partitions (if own.size = 0 then -2 else 0, part)
  pure r.2

/-- `IdealLRUPartReplPolicy::rank`, without its warning. -/
def rank (part : ℕ) : PolicyAct LineId := do
  let p ← victimPart part
  let i ← readCell partInfo p .outside
  ensure (0 < i.size) .emptyPartition
  ensure (i.size = i.lruList.elems) .emptyPartition
  match i.lruList.tail with
  | none => abort .badCandidate
  | some id => pure id

/-- `IdealLRUPartArray`. -/
structure IdealLRUPartArray where
  lineMap : Address → Option LineId
  lineAddrs : Table Address
  rp : IdealLRUPartReplPolicy
  numLines : ℕ

abbrev Act (α : Type) := Prog IdealLRUPartArray PartFailure α

abbrev lineAddrs : TableRef IdealLRUPartArray Address :=
  ⟨fun s => s.lineAddrs, fun s t => { s with lineAddrs := t }⟩

/-- A call of the policy. -/
def policy {α : Type} (m : PolicyAct α) : Act α := fun s =>
  (m s.rp).map fun r => (r.1, { s with rp := r.2 })

/-- The array built over a policy. -/
def IdealLRUPartArray.new (numLines : ℕ) (rp : IdealLRUPartReplPolicy) : IdealLRUPartArray where
  lineMap := fun _ => none
  lineAddrs := ⟨numLines, fun _ => 0⟩
  rp := rp
  numLines := numLines

/-- `IdealLRUPartArray::lookup`; the line id is returned as an `int32_t`. -/
def lookup (part : ℕ) (lineAddr : Address) (updateReplacement : Bool) : Act ℤ := do
  let s ← observe fun s => s
  match s.lineMap lineAddr with
  | none => pure (-1)
  | some lineId => do
    (if updateReplacement = true then policy (update part lineId) else pure ())
    pure (int32 lineId)

/-- `IdealLRUPartArray::preinsert`: the line id and `*wbLineAddr`. -/
def preinsert (part : ℕ) : Act (LineId × Address) := do
  let lineId ← policy (rank part)
  let wbLineAddr ← readCell lineAddrs lineId .badCandidate
  pure (lineId, wbLineAddr)

/-- `IdealLRUPartArray::postinsert`. -/
def postinsert (part : ℕ) (lineAddr : Address) (lineId : LineId) : Act Unit := do
  let old ← readCell lineAddrs lineId .badCandidate
  change fun s => { s with lineMap := Function.update s.lineMap old none }
  let s ← observe fun s => s
  ensure (s.lineMap lineAddr = none) .mapped
  modifyCell lineAddrs lineId (fun _ => lineAddr) .badCandidate
  change fun s => { s with lineMap := Function.update s.lineMap lineAddr (some lineId) }
  policy (replaced lineId)
  policy (update part lineId)

section Policy

variable {α : Type}

@[simp] theorem wp_policy (m : PolicyAct α) (Q : α → IdealLRUPartArray → Prop)
    (s : IdealLRUPartArray) :
    wp (policy m) Q s ↔ wp m (fun a r => Q a { s with rp := r }) s.rp := by
  constructor
  · rintro ⟨a, s', hrun, hq⟩
    unfold policy at hrun
    cases hm : m s.rp with
    | error e =>
      rw [hm] at hrun
      cases hrun
    | ok r =>
      rw [hm] at hrun
      cases hrun
      exact ⟨r.1, r.2, hm, hq⟩
  · rintro ⟨a, r, hrun, hq⟩
    refine ⟨a, { s with rp := r }, ?_, hq⟩
    unfold policy
    rw [hrun]
    rfl

end Policy

end Zsim.IdealLRUPart
