import Mathlib.Data.Nat.Bitwise
import Mathlib.Data.List.Basic
import Mathlib.Data.Nat.Notation

/-!
# Partition mappers

A mapper decides which partition a request belongs to, from its core, from the
running process or the group of the process, and from whether it fetches an
instruction. Process groups are numbered while the process tree is built, one
level of the configuration after the other. All numbers are 32 bits wide.
-/

namespace Zsim.PartitionMapper

/-- Panics and assertions of the process tree and of the mappers. -/
inductive MapperFailure where
  /-- "Can't group process0 with the previous one" -/
  | noPrevious
  /-- `groupIdx > 0` -/
  | noGroup
  /-- `procIdx == globProcVector.size()` -/
  | badProcIdx
  /-- "Cannot simulate more than sys.lineSize=%d processes" -/
  | manyProcs
  /-- `procIdx < numProcs` -/
  | badProcess
  /-- `groupIdx < zinfo->numProcGroups` -/
  | badGroup
  deriving DecidableEq, Repr

/-- The entries `process0`, `process1`, … of one level of the configuration. -/
inductive ProcessConfig where
  | done
  | process (groupWithPrevious : Bool) (children rest : ProcessConfig)

/-- The counters of `PopulateLevel`, and the group of each process in
`globProcVector`. -/
structure Population where
  procIdx : ℕ
  groupIdx : ℕ
  globProcVector : List ℕ

/-- The group of the next process. -/
def nextGroup (groupWithPrevious : Bool) (t : Population) : Except MapperFailure ℕ :=
  if groupWithPrevious = true then
    if t.procIdx = 0 then .error .noPrevious
    else if t.groupIdx = 0 then .error .noGroup
    else .ok (t.groupIdx - 1)
  else .ok t.groupIdx

/-- One process of the first loop of `PopulateLevel`. -/
def addProcess (groupWithPrevious : Bool) (t : Population) : Except MapperFailure Population := do
  let groupIdx ← nextGroup groupWithPrevious t
  if t.procIdx = t.globProcVector.length then
    .ok ⟨(t.procIdx + 1) % 2 ^ 32, (groupIdx + 1) % 2 ^ 32, t.globProcVector ++ [groupIdx]⟩
  else .error .badProcIdx

/-- The first loop of `PopulateLevel`, over the processes of the level. -/
def addLevel : ProcessConfig → Population → Except MapperFailure Population
  | .done, t => .ok t
  | .process groupWithPrevious _ rest, t => do
    let t ← addProcess groupWithPrevious t
    addLevel rest t

/-- The second loop of `PopulateLevel`, which populates the level below each process. -/
def populateChildren : ProcessConfig → Population → Except MapperFailure Population
  | .done, t => .ok t
  | .process _ children rest, t => do
    let t ← addLevel children t
    let t ← populateChildren children t
    populateChildren rest t

/-- `PopulateLevel`. -/
def populateLevel (config : ProcessConfig) (t : Population) : Except MapperFailure Population := do
  let t ← addLevel config t
  populateChildren config t

/-- What the process tree leaves in `zinfo`; a process is its group. -/
structure ProcessTree where
  numProcs : ℕ
  numProcGroups : ℕ
  procArray : List ℕ

/-- `CreateProcessTree`. -/
def createProcessTree (lineSize : ℕ) (config : ProcessConfig) :
    Except MapperFailure ProcessTree := do
  let t ← populateLevel config ⟨0, 0, []⟩
  if lineSize < t.procIdx then .error .manyProcs
  else .ok ⟨t.procIdx, t.groupIdx, t.globProcVector.take t.procIdx⟩

section Tree

variable {t t' : Population} {config : ProcessConfig}

/-- The counters count, as long as they do not wrap, and every group is below
the next one. -/
structure Numbered (t : Population) : Prop where
  length_le : t.globProcVector.length ≤ 2 ^ 32
  procIdx : t.procIdx = t.globProcVector.length % 2 ^ 32
  groupIdx_lt : t.groupIdx < 2 ^ 32
  groupIdx : t.globProcVector.length < 2 ^ 32 → t.groupIdx ≤ t.globProcVector.length
  groups : t.globProcVector.length < 2 ^ 32 → ∀ g ∈ t.globProcVector, g < t.groupIdx

theorem nextGroup_spec {groupWithPrevious : Bool} {groupIdx : ℕ}
    (h : nextGroup groupWithPrevious t = .ok groupIdx) :
    groupIdx ≤ t.groupIdx ∧ t.groupIdx ≤ groupIdx + 1 := by
  unfold nextGroup at h
  split at h
  · split at h
    · cases h
    · split at h
      · cases h
      · cases h
        omega
  · cases h
    omega

/-- What a new process does to the counters. -/
theorem addProcess_spec {groupWithPrevious : Bool} (hadd : addProcess groupWithPrevious t = .ok t') :
    ∃ groupIdx, nextGroup groupWithPrevious t = .ok groupIdx ∧
      t.procIdx = t.globProcVector.length ∧ t'.procIdx = (t.procIdx + 1) % 2 ^ 32 ∧
      t'.groupIdx = (groupIdx + 1) % 2 ^ 32 ∧ t'.globProcVector = t.globProcVector ++ [groupIdx] := by
  unfold addProcess at hadd
  cases hgroup : nextGroup groupWithPrevious t with
  | error e =>
    rw [hgroup] at hadd
    cases hadd
  | ok groupIdx =>
    rw [hgroup] at hadd
    change (if t.procIdx = t.globProcVector.length then _ else _) = _ at hadd
    split at hadd
    · next hidx =>
      cases hadd
      exact ⟨groupIdx, rfl, hidx, rfl, rfl, rfl⟩
    · cases hadd

theorem addProcess_numbered {groupWithPrevious : Bool} (h : Numbered t)
    (hadd : addProcess groupWithPrevious t = .ok t') : Numbered t' := by
  obtain ⟨groupIdx, hnextGroup, hidx, hproc, hgroup, hvector⟩ := addProcess_spec hadd
  have hnear := nextGroup_spec hnextGroup
  have hlength := h.length_le
  have hmod := h.procIdx
  have hlt : t.globProcVector.length < 2 ^ 32 := by omega
  have hcount := h.groupIdx hlt
  have hlength' : t'.globProcVector.length = t.globProcVector.length + 1 := by
    rw [hvector, List.length_append, List.length_singleton]
  have hnext : t'.globProcVector.length < 2 ^ 32 → t'.groupIdx = groupIdx + 1 := by
    intro hlt'
    rw [hgroup, Nat.mod_eq_of_lt (by omega)]
  constructor
  · omega
  · rw [hproc, hlength', hidx]
  · omega
  · intro hlt'
    rw [hnext hlt']
    omega
  · intro hlt' g hg
    rw [hvector, List.mem_append, List.mem_singleton] at hg
    rw [hnext hlt']
    rcases hg with hg | rfl
    · have hold := h.groups hlt g hg
      omega
    · omega

/-- A part of the construction, seen as two parts. -/
theorem bind_numbered {f g : Population → Except MapperFailure Population}
    (hf : ∀ t t', Numbered t → f t = .ok t' → Numbered t')
    (hg : ∀ t t', Numbered t → g t = .ok t' → Numbered t') (h : Numbered t)
    (hrun : (do let t ← f t; g t) = .ok t') : Numbered t' := by
  cases hfirst : f t with
  | error e =>
    rw [hfirst] at hrun
    cases hrun
  | ok t₁ =>
    rw [hfirst] at hrun
    exact hg t₁ t' (hf t t₁ h hfirst) hrun

theorem addLevel_numbered (t t' : Population) (h : Numbered t) (hrun : addLevel config t = .ok t') :
    Numbered t' := by
  induction config generalizing t t' with
  | done =>
    cases hrun
    exact h
  | process groupWithPrevious children rest _ ih =>
    exact bind_numbered (fun _ _ => addProcess_numbered) (fun t t' => ih t t') h hrun

theorem populateChildren_numbered (t t' : Population) (h : Numbered t)
    (hrun : populateChildren config t = .ok t') : Numbered t' := by
  induction config generalizing t t' with
  | done =>
    cases hrun
    exact h
  | process groupWithPrevious children rest ihc ihr =>
    exact bind_numbered addLevel_numbered
      (fun _ _ h' => bind_numbered (fun t t' => ihc t t') (fun t t' => ihr t t') h') h hrun

/-- Every process of a finished tree has a group of the tree. -/
theorem createProcessTree_spec {lineSize : ℕ} {z : ProcessTree}
    (hrun : createProcessTree lineSize config = .ok z) :
    z.procArray.length = z.numProcs ∧ z.numProcs < 2 ^ 32 ∧ z.numProcGroups < 2 ^ 32 ∧
      ∀ g ∈ z.procArray, g < z.numProcGroups := by
  have hstart : Numbered ⟨0, 0, []⟩ :=
    ⟨Nat.zero_le _, rfl, by decide, fun _ => le_rfl, fun _ g hg => absurd hg List.not_mem_nil⟩
  unfold createProcessTree at hrun
  cases hlevel : populateLevel config ⟨0, 0, []⟩ with
  | error e =>
    rw [hlevel] at hrun
    cases hrun
  | ok t =>
    rw [hlevel] at hrun
    have h : Numbered t := bind_numbered addLevel_numbered populateChildren_numbered hstart hlevel
    change (if lineSize < t.procIdx then _ else _) = _ at hrun
    split at hrun
    · cases hrun
    · cases hrun
      have hlength := h.length_le
      have hprocs := h.procIdx
      refine ⟨?_, ?_, h.groupIdx_lt, ?_⟩
      · dsimp only
        rw [List.length_take]
        omega
      · dsimp only
        omega
      · intro g hg
        -- a wrapped count leaves no process in the array
        have hmem := List.mem_of_mem_take hg
        have hpos : 0 < (t.globProcVector.take t.procIdx).length := List.length_pos_of_mem hg
        rw [List.length_take] at hpos
        exact h.groups (by omega) g hmem

end Tree

/-- `MemReq`: what the mappers read of a request. -/
structure Request where
  srcId : ℕ
  flags : ℕ

/-- `MemReq::IFETCH`. -/
def IFETCH : ℕ := 1 <<< 1

/-- Whether a request fetches an instruction. -/
def Request.instr (r : Request) : Bool := decide (r.flags &&& IFETCH ≠ 0)

/-- The classes of `PartMapper`. -/
inductive PartMapper where
  | core (numCores : ℕ)
  | instrData
  | instrDataCore (numCores : ℕ)
  | process (numProcs : ℕ)
  | instrDataProcess (numProcs : ℕ)
  | processGroup
  deriving DecidableEq, Repr

/-- `getNumPartitions`. -/
def PartMapper.getNumPartitions (z : ProcessTree) : PartMapper → ℕ
  | .core numCores => numCores
  | .instrData => 2
  | .instrDataCore numCores => 2 * numCores % 2 ^ 32
  | .process numProcs => numProcs
  | .instrDataProcess numProcs => 2 * numProcs % 2 ^ 32
  | .processGroup => z.numProcGroups

/-- `getPartition`, while the process `procIdx` runs. -/
def PartMapper.getPartition (z : ProcessTree) (procIdx : ℕ) (r : Request) :
    PartMapper → Except MapperFailure ℕ
  | .core _ => .ok r.srcId
  | .instrData => .ok (r.flags &&& IFETCH)
  | .instrDataCore numCores => .ok ((r.srcId + if r.instr = true then numCores else 0) % 2 ^ 32)
  | .process numProcs => if procIdx < numProcs then .ok procIdx else .error .badProcess
  | .instrDataProcess numProcs =>
    if procIdx < numProcs then
      .ok ((procIdx + if r.instr = true then numProcs else 0) % 2 ^ 32)
    else .error .badProcess
  | .processGroup => match z.procArray[procIdx]? with
    | none => .error .badProcess
    | some groupIdx => if groupIdx < z.numProcGroups then .ok groupIdx else .error .badGroup

/-- The mappers of the configuration. -/
inductive MapperName where
  | Core
  | InstrData
  | InstrDataCore
  | Process
  | InstrDataProcess
  | ProcessGroup
  deriving DecidableEq, Repr

/-- The cores and the processes of a simulation. -/
structure System where
  numCores : ℕ
  processes : ProcessTree
  numCores_lt : numCores < 2 ^ 32
  created : ∃ lineSize config, createProcessTree lineSize config = .ok processes

/-- A request of a running process. -/
structure Access where
  procIdx : ℕ
  req : Request

namespace System

variable (z : System)

/-- The mapper that is built for a name. -/
def mapper : MapperName → PartMapper
  | .Core => .core z.numCores
  | .InstrData => .instrData
  | .InstrDataCore => .instrDataCore z.numCores
  | .Process => .process z.processes.numProcs
  | .InstrDataProcess => .instrDataProcess z.processes.numProcs
  | .ProcessGroup => .processGroup

/-- `getNumPartitions` of the mapper. -/
def partitions (name : MapperName) : ℕ := (z.mapper name).getNumPartitions z.processes

/-- `getPartition` of the mapper. -/
def partition (name : MapperName) (a : Access) : Except MapperFailure ℕ :=
  (z.mapper name).getPartition z.processes a.procIdx a.req

/-- The request is made by a core and a process of the simulation. -/
def Makes (a : Access) : Prop := a.req.srcId < z.numCores ∧ a.procIdx < z.processes.numProcs

instance (a : Access) : Decidable (z.Makes a) :=
  inferInstanceAs (Decidable (a.req.srcId < z.numCores ∧ a.procIdx < z.processes.numProcs))

/-- The requests that a mapper promises to keep together. -/
def Together (a b : Access) : MapperName → Prop
  | .Core => a.req.srcId = b.req.srcId
  | .InstrData => a.req.instr = b.req.instr
  | .InstrDataCore => a.req.srcId = b.req.srcId ∧ a.req.instr = b.req.instr
  | .Process => a.procIdx = b.procIdx
  | .InstrDataProcess => a.procIdx = b.procIdx ∧ a.req.instr = b.req.instr
  | .ProcessGroup => z.processes.procArray[a.procIdx]? = z.processes.procArray[b.procIdx]?

/-- Twice the number of cores or processes fits 32 bits where it is the number
of partitions. -/
def Narrow : MapperName → Prop
  | .InstrDataCore => 2 * z.numCores < 2 ^ 32
  | .InstrDataProcess => 2 * z.processes.numProcs < 2 ^ 32
  | _ => True

end System

section Mapper

variable {z : System} {name : MapperName} {a b : Access}

theorem and_IFETCH (flags : ℕ) : flags &&& IFETCH = 0 ∨ flags &&& IFETCH = 2 := by
  have hbit : flags &&& IFETCH = if flags.testBit 1 = true then 2 else 0 :=
    Nat.and_two_pow flags 1 ▸ by cases flags.testBit 1 <;> rfl
  rw [hbit]
  split
  · exact .inr rfl
  · exact .inl rfl

/-- Data partitions first, then instruction partitions. -/
theorem shifted_lt {i n : ℕ} {c : Bool} (hi : i < n) (hn : 2 * n < 2 ^ 32) :
    (i + if c = true then n else 0) % 2 ^ 32 < 2 * n % 2 ^ 32 := by
  cases c with
  | false =>
    rw [if_neg Bool.false_ne_true]
    omega
  | true =>
    rw [if_pos rfl]
    omega

theorem shifted_inj {i j n : ℕ} {c d : Bool} (hi : i < n) (hj : j < n) (hn : 2 * n < 2 ^ 32) :
    (i + if c = true then n else 0) % 2 ^ 32 = (j + if d = true then n else 0) % 2 ^ 32 ↔
      i = j ∧ c = d := by
  cases c <;> cases d <;> simp <;> omega

/-- The tree gives every process a group. -/
theorem System.group_lt {procIdx : ℕ} (hproc : procIdx < z.processes.numProcs) :
    ∃ g, z.processes.procArray[procIdx]? = some g ∧ g < z.processes.numProcGroups := by
  obtain ⟨lineSize, config, hcreated⟩ := z.created
  obtain ⟨hlength, -, -, hgroups⟩ := createProcessTree_spec hcreated
  have hlt : procIdx < z.processes.procArray.length := by omega
  exact ⟨_, List.getElem?_eq_getElem hlt, hgroups _ (List.getElem_mem hlt)⟩

/-- Every request belongs to a partition that the mapper counts. -/
theorem System.partition_lt (hname : name ≠ .InstrData) (hnarrow : z.Narrow name) (ha : z.Makes a) :
    ∃ p, z.partition name a = .ok p ∧ p < z.partitions name := by
  obtain ⟨hcore, hproc⟩ := ha
  cases name with
  | Core => exact ⟨_, rfl, hcore⟩
  | InstrData => exact absurd rfl hname
  | InstrDataCore => exact ⟨_, rfl, shifted_lt hcore hnarrow⟩
  | Process => exact ⟨_, if_pos hproc, hproc⟩
  | InstrDataProcess => exact ⟨_, if_pos hproc, shifted_lt hproc hnarrow⟩
  | ProcessGroup =>
    obtain ⟨g, hg, hlt⟩ := System.group_lt hproc
    refine ⟨g, ?_, hlt⟩
    simp only [System.partition, System.mapper, PartMapper.getPartition, hg, if_pos hlt]

/-- Two requests share a partition when the mapper promises so, and only then. -/
theorem System.partition_eq_iff (hnarrow : z.Narrow name) (ha : z.Makes a) (hb : z.Makes b) :
    z.partition name a = z.partition name b ↔ z.Together a b name := by
  obtain ⟨hcore, hproc⟩ := ha
  obtain ⟨hcore', hproc'⟩ := hb
  have hinj : ∀ p q : ℕ, (Except.ok p : Except MapperFailure ℕ) = .ok q ↔ p = q := fun p q => by
    rw [Except.ok.injEq]
  cases name with
  | Core => exact hinj ..
  | InstrData =>
    refine (hinj ..).trans ?_
    simp only [System.Together, Request.instr]
    rcases and_IFETCH a.req.flags with h | h <;> rcases and_IFETCH b.req.flags with h' | h' <;>
      simp [h, h']
  | InstrDataCore => exact (hinj ..).trans (shifted_inj hcore hcore' hnarrow)
  | Process =>
    simp only [System.partition, System.mapper, PartMapper.getPartition, if_pos hproc, if_pos hproc']
    exact hinj ..
  | InstrDataProcess =>
    simp only [System.partition, System.mapper, PartMapper.getPartition, if_pos hproc, if_pos hproc']
    exact (hinj ..).trans (shifted_inj hproc hproc' hnarrow)
  | ProcessGroup =>
    obtain ⟨g, hg, hlt⟩ := System.group_lt hproc
    obtain ⟨g', hg', hlt'⟩ := System.group_lt hproc'
    simp only [System.partition, System.mapper, PartMapper.getPartition, System.Together, hg, hg',
      if_pos hlt, if_pos hlt', Except.ok.injEq, Option.some.injEq]

theorem System.partitions_lt (z : System) (name : MapperName) : z.partitions name < 2 ^ 32 := by
  obtain ⟨lineSize, config, hcreated⟩ := z.created
  obtain ⟨-, hprocs, hgroups, -⟩ := createProcessTree_spec hcreated
  cases name with
  | Core => exact z.numCores_lt
  | InstrData => exact (by decide : 2 < 2 ^ 32)
  | InstrDataCore => exact Nat.mod_lt _ (by decide)
  | Process => exact hprocs
  | InstrDataProcess => exact Nat.mod_lt _ (by decide)
  | ProcessGroup => exact hgroups

/-- A request of the last core and the last process. -/
def System.lastRequest (z : System) (flags : ℕ) : Access where
  procIdx := z.processes.numProcs - 1
  req := ⟨z.numCores - 1, flags⟩

/-- The partitions are counted right only where the mapper is not `InstrData`
and its partitions fit 32 bits. -/
theorem System.narrow_of_partition_lt (hcores : 0 < z.numCores) (hprocs : 0 < z.processes.numProcs)
    (h : ∀ a, z.Makes a → ∃ p, z.partition name a = .ok p ∧ p < z.partitions name) :
    name ≠ .InstrData ∧ z.Narrow name := by
  have hmakes : ∀ flags, z.Makes (z.lastRequest flags) := by
    intro flags
    constructor
    · exact Nat.sub_lt hcores Nat.one_pos
    · exact Nat.sub_lt hprocs Nat.one_pos
  have hdata : (z.lastRequest 0).req.instr = false := by
    simp [System.lastRequest, Request.instr]
  -- a number of data partitions that wraps leaves out the last data partition
  have hwrap : ∀ n : ℕ, n < 2 ^ 32 → (n - 1) % 2 ^ 32 < 2 * n % 2 ^ 32 → 0 < n → 2 * n < 2 ^ 32 := by
    intro n hn hlt hpos
    omega
  cases name with
  | Core => exact ⟨nofun, trivial⟩
  | InstrData =>
    obtain ⟨p, hp, hlt⟩ := h _ (hmakes IFETCH)
    cases hp
    change IFETCH &&& IFETCH < 2 at hlt
    rw [Nat.and_self] at hlt
    exact absurd hlt (by decide)
  | InstrDataCore =>
    obtain ⟨p, hp, hlt⟩ := h _ (hmakes 0)
    cases hp
    rw [hdata, if_neg Bool.false_ne_true] at hlt
    exact ⟨nofun, hwrap _ z.numCores_lt hlt hcores⟩
  | Process => exact ⟨nofun, trivial⟩
  | InstrDataProcess =>
    obtain ⟨p, hp, hlt⟩ := h _ (hmakes 0)
    obtain ⟨lineSize, config, hcreated⟩ := z.created
    have hnum := (createProcessTree_spec hcreated).2.1
    simp only [System.partition, System.mapper, PartMapper.getPartition,
      if_pos (hmakes 0).2] at hp
    cases hp
    rw [hdata, if_neg Bool.false_ne_true] at hlt
    exact ⟨nofun, hwrap _ hnum hlt hprocs⟩
  | ProcessGroup => exact ⟨nofun, trivial⟩

end Mapper

end Zsim.PartitionMapper
