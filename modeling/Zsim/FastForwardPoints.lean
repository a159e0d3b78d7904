import Mathlib.Algebra.Order.Ring.Int
import Mathlib.Algebra.BigOperators.Group.Finset.Basic
import Zsim.AdaptiveEvents
import Zsim.GuardedRuns

/-!
# Fast-forwarding between instruction counts

A process with `ffiPoints` alternates between fast-forward and simulation. In
fast-forward each basic block counts its own instructions; in simulation an
adaptive event reads the process's count at the ends of phases. Two cells that
the event writes carry the count of a simulated interval back to the process.
-/

namespace Zsim.FastForwardPoints

open AdaptiveEvents GuardedRuns

/-- How far the process has come. -/
inductive Status where
  | fresh
  | running
  /-- There are no points. -/
  | disabled
  /-- `SimEnd` has been called. -/
  | ended
  /-- An assertion has failed. -/
  | failed
  deriving DecidableEq

/-- A process with instruction-based fast-forwarding. -/
structure Sim where
  ffiPoints : List ℕ
  procIdx : ℕ
  /-- `getGroupIdx` of each process. -/
  groupIdx : List ℕ
  phaseLength : ℕ
  inFastForward : Bool
  ffiPoint : ℕ
  ffiInstrsDone : ℕ
  ffiInstrsLimit : ℕ
  ffiNFF : Bool
  ffiFFStartInstrs : ℕ
  ffiPrevFFStartInstrs : ℕ
  /-- The tracking event in the queue, with the `startInstrs` it has captured. -/
  event : Option (ℕ × AdaptiveEvent)
  /-- `processStats->processInstrs`. -/
  processInstrs : ℕ → ℕ
  numPhases : ℕ
  status : Status
  /-- The instructions the process has executed, in either mode. -/
  total : ℕ

/-- `MAX_IPC`. -/
def MAX_IPC : ℕ := 4

namespace Sim

/-- A process before `FFIInit`, in a simulation of any age. -/
def start (ffiPoints : List ℕ) (procIdx : ℕ) (groupIdx : List ℕ) (phaseLength : ℕ)
    (inFastForward : Bool) (processInstrs : ℕ → ℕ) (numPhases : ℕ) : Sim where
  ffiPoints := ffiPoints
  procIdx := procIdx
  groupIdx := groupIdx
  phaseLength := phaseLength
  inFastForward := inFastForward
  ffiPoint := 0
  ffiInstrsDone := 0
  ffiInstrsLimit := 0
  ffiNFF := false
  ffiFFStartInstrs := 0
  ffiPrevFFStartInstrs := 0
  event := none
  processInstrs := processInstrs
  numPhases := numPhases
  status := .fresh
  total := 0

/-- `MAX_IPC*zinfo->phaseLength`, in 32 bits. -/
def maxRate (s : Sim) : ℕ := MAX_IPC * s.phaseLength % 2 ^ 32

/-- `FFITrackNFFInterval`; none where an assertion fails. -/
def FFITrackNFFInterval (s : Sim) : Option Sim :=
  if s.inFastForward = false ∧ s.ffiInstrsDone < s.ffiInstrsLimit then
    (makeAdaptiveEvent 0 (s.ffiInstrsLimit - s.ffiInstrsDone) s.maxRate s.numPhases).map fun ev =>
      { s with event := some (s.ffiFFStartInstrs, ev), ffiNFF := true }
  else none

/-- The counts at the first point. -/
def initCounts (s : Sim) (point : ℕ) : Sim := { s with
  ffiPoint := 0
  ffiInstrsDone := 0
  ffiInstrsLimit := point
  ffiFFStartInstrs := 0
  ffiPrevFFStartInstrs := 0
  ffiNFF := false
  status := .running }

/-- `FFIInit`. -/
def FFIInit (s : Sim) : Option Sim :=
  match s.ffiPoints with
  | [] => some { s with status := .disabled }
  | point :: _ =>
    let s := s.initCounts point
    if s.inFastForward then some s else s.FFITrackNFFInterval

/-- `FFIAdvance`. -/
def FFIAdvance (s : Sim) : Sim :=
  let s := { s with ffiPoint := s.ffiPoint + 1 }
  match s.ffiPoints[s.ffiPoint]? with
  | none => { s with status := .ended }
  | some point => { s with ffiInstrsLimit := (s.ffiInstrsLimit + point) % 2 ^ 64 }

/-- `FFIBasicBlock`. -/
def FFIBasicBlock (s : Sim) (instrs : ℕ) : Option Sim :=
  let s := { s with ffiInstrsDone := s.ffiInstrsDone + instrs, total := s.total + instrs }
  if s.ffiInstrsLimit ≤ s.ffiInstrsDone then
    let s := s.FFIAdvance
    if s.status = .ended then some s
    else if s.inFastForward then { s with inFastForward := false }.FFITrackNFFInterval
    else none
  else some s

/-- `FFIEntryBasicBlock`, the handler of the first block after a simulated interval. -/
def FFIEntryBasicBlock (s : Sim) (instrs : ℕ) : Option Sim :=
  let s := { s with
    ffiInstrsDone := s.ffiInstrsDone + (s.ffiFFStartInstrs - s.ffiPrevFFStartInstrs) }
  let s := s.FFIAdvance
  if s.status = .ended then some s
  else if s.ffiNFF then { s with ffiNFF := false }.FFIBasicBlock instrs
  else none

/-- The handler that `GetFFPtrs` installs. -/
def ffBasicBlock (s : Sim) (instrs : ℕ) : Option Sim :=
  if s.ffiNFF then s.FFIEntryBasicBlock instrs else s.FFIBasicBlock instrs

/-- What the processes of a group have executed in a phase. -/
def groupInstrs (s : Sim) (instrs : ℕ → ℕ) (group : ℕ) : ℕ :=
  (Finset.range s.groupIdx.length).sum fun q => if s.groupIdx[q]? = some group then instrs q else 0

/-- The counts at the end of a phase, when each process has executed so much. -/
def countPhase (s : Sim) (instrs : ℕ → ℕ) : Sim := { s with
  processInstrs := fun group => s.processInstrs group + s.groupInstrs instrs group
  total := s.total + instrs s.procIdx }

/-- `ffiFire`. -/
def ffiFire (s : Sim) : Option Sim :=
  if s.inFastForward then none
  else some { s with
    inFastForward := true
    ffiPrevFFStartInstrs := s.ffiFFStartInstrs
    ffiFFStartInstrs := s.processInstrs s.procIdx }

/-- `eventQueue->tick()`, as far as it concerns the process. -/
def tick (s : Sim) : Option Sim :=
  match s.event with
  | none => some s
  | some (startInstrs, ev) =>
    match ev.tick s.numPhases (s.processInstrs s.procIdx - startInstrs) with
    | none => none
    | some (.waits ev) => some { s with event := some (startInstrs, ev) }
    | some .fires => { s with event := none }.ffiFire

/-- The end of a phase. -/
def endPhase (s : Sim) (instrs : ℕ → ℕ) : Option Sim :=
  ((s.countPhase instrs).tick).map fun s => { s with numPhases := s.numPhases + 1 }

end Sim

/-- What happens to the process. -/
inductive SimOp where
  | init
  /-- A basic block of the only thread that runs in fast-forward. -/
  | basicBlock (instrs : ℕ)
  /-- A phase, with what each process executes in simulation. -/
  | phase (instrs : ℕ → ℕ)

/-- One event. A process in fast-forward executes nothing in simulation. -/
def step (s : Sim) : SimOp → Option Sim
  | .init => if s.status = .fresh then some (s.FFIInit.getD { s with status := .failed }) else none
  | .basicBlock instrs =>
    if s.status = .running ∧ s.inFastForward = true then
      some ((s.ffBasicBlock instrs).getD { s with status := .failed })
    else none
  | .phase instrs =>
    if s.status = .running ∧ (s.inFastForward = true → instrs s.procIdx = 0) then
      some ((s.endPhase instrs).getD { s with status := .failed })
    else none

section Switching

/-- Which code the process runs. -/
inductive Mode where
  | fastForward
  | simulated
  | ended
  deriving DecidableEq

/-- The other mode. -/
def Mode.other : Mode → Mode
  | .fastForward => .simulated
  | .simulated => .fastForward
  | .ended => .ended

/-- What instruction-based fast-forwarding is for: the process changes its mode
whenever its instructions reach the next point, and ends at the last. -/
structure Switching where
  total : ℕ
  switches : ℕ
  mode : Mode
  deriving DecidableEq

/-- The instructions at which a switch is to happen: the points up to it. -/
def pointTotal (ffiPoints : List ℕ) (switches : ℕ) : ℕ := (ffiPoints.take (switches + 1)).sum

/-- Instructions up to an opportunity to switch. -/
def Switching.execute (ffiPoints : List ℕ) (w : Switching) (instrs : ℕ) : Switching :=
  if pointTotal ffiPoints w.switches ≤ w.total + instrs then
    ⟨w.total + instrs, w.switches + 1,
      if w.switches + 1 < ffiPoints.length then w.mode.other else .ended⟩
  else { w with total := w.total + instrs }

/-- The opportunities are the ends of basic blocks in fast-forward and the ends
of phases in simulation. -/
def Switching.step (ffiPoints : List ℕ) (procIdx : ℕ) (w : Switching) : SimOp → Switching
  | .init => w
  | .basicBlock instrs => if w.mode = .fastForward then w.execute ffiPoints instrs else w
  | .phase instrs => if w.mode = .simulated then w.execute ffiPoints (instrs procIdx) else w

namespace Sim

/-- The switches made. One that enters fast-forward is counted by the first
block after it. -/
def switches (s : Sim) : ℕ :=
  if s.status = .running ∧ s.inFastForward = true ∧ s.ffiNFF = true then s.ffiPoint + 1
  else s.ffiPoint

/-- What the state means. -/
def switching (s : Sim) : Switching where
  total := s.total
  switches := s.switches
  mode := if s.switches < s.ffiPoints.length then
    if s.inFastForward then .fastForward else .simulated
  else .ended

end Sim

/-- The step switches as it should, its counts are exact, and no assertion fails. -/
structure SwitchesRight (s : Sim) (op : SimOp) (s' : Sim) : Prop where
  no_failure : s'.status ≠ .failed
  refines : s'.switching = s.switching.step s.ffiPoints s.procIdx op
  limit : s'.status = .running → s'.ffiInstrsLimit = pointTotal s'.ffiPoints s'.ffiPoint
  /-- Where fast-forward starts, what has been simulated brings the count up to date. -/
  entered : s.inFastForward = false → s'.inFastForward = true →
    s'.ffiInstrsDone + (s'.ffiFFStartInstrs - s'.ffiPrevFFStartInstrs) = s'.total
  /-- At the end of every block, and so where fast-forward ends, the count is up to date. -/
  counted : (∃ instrs, op = .basicBlock instrs) → s'.ffiInstrsDone = s'.total
  ends : (∃ instrs, op = .basicBlock instrs) → (s'.status = .ended ↔ s'.switching.mode = .ended)

/-- A block that brings the process to its point leaves it below the next one,
and the points fit in the counter. -/
def BlockBelowNext (s : Sim) (instrs : ℕ) : Prop :=
  s.switches < s.ffiPoints.length →
    (s.total + instrs < pointTotal s.ffiPoints s.switches →
      pointTotal s.ffiPoints s.switches < 2 ^ 64) ∧
    (pointTotal s.ffiPoints s.switches ≤ s.total + instrs →
      s.switches + 1 < s.ffiPoints.length →
        s.total + instrs < pointTotal s.ffiPoints (s.switches + 1) ∧
          pointTotal s.ffiPoints (s.switches + 1) < 2 ^ 64 ∧ s.maxRate ≠ 0)

instance (s : Sim) (instrs : ℕ) : Decidable (BlockBelowNext s instrs) :=
  inferInstanceAs (Decidable (_ → _))

/-- When a phase brings the process to its point, the event looks at the end of
this phase, at a count that is the process's own and at most a phase ahead; when
the event looks before, its count is behind too. -/
def PhaseNoticed (s : Sim) (instrs : ℕ → ℕ) (startInstrs : ℕ) (ev : AdaptiveEvent) : Prop :=
  if pointTotal s.ffiPoints s.ffiPoint ≤ s.total + instrs s.procIdx then
    ev.phase = s.numPhases ∧
      (s.countPhase instrs).processInstrs s.procIdx =
        startInstrs + (s.total + instrs s.procIdx - s.ffiInstrsDone) ∧
      s.total + instrs s.procIdx ≤ pointTotal s.ffiPoints s.ffiPoint + ev.maxRate
  else ev.phase = s.numPhases →
    (s.countPhase instrs).processInstrs s.procIdx < startInstrs + ev.target

instance (s : Sim) (instrs : ℕ → ℕ) (startInstrs : ℕ) (ev : AdaptiveEvent) :
    Decidable (PhaseNoticed s instrs startInstrs ev) := inferInstanceAs (Decidable (ite _ _ _))

/-- The condition on the state before a step. -/
def PointMet (s : Sim) : SimOp → Prop
  | .init => s.inFastForward = false → s.maxRate ≠ 0
  | .basicBlock instrs => BlockBelowNext s instrs
  | .phase instrs => ∀ tracking ∈ s.event, PhaseNoticed s instrs tracking.1 tracking.2

instance (s : Sim) : (op : SimOp) → Decidable (PointMet s op)
  | .init => inferInstanceAs (Decidable (_ → _))
  | .basicBlock instrs => inferInstanceAs (Decidable (BlockBelowNext s instrs))
  | .phase _ => inferInstanceAs (Decidable (∀ _ ∈ s.event, _))

end Switching

section Steps

variable {s s' : Sim} {op : SimOp} {n k : ℕ} {instrs : ℕ → ℕ} {ffiPoints : List ℕ}

theorem pointTotal_succ (h : k + 1 < ffiPoints.length) :
    pointTotal ffiPoints (k + 1) = pointTotal ffiPoints k + ffiPoints[k + 1] := by
  unfold pointTotal
  rw [List.sum_take_succ _ _ h]

theorem FFIAdvance_last (h : ¬s.ffiPoint + 1 < s.ffiPoints.length) :
    s.FFIAdvance = { s with ffiPoint := s.ffiPoint + 1, status := .ended } := by
  unfold Sim.FFIAdvance
  dsimp only
  rw [List.getElem?_eq_none (by omega)]

theorem FFIAdvance_next (h : s.ffiPoint + 1 < s.ffiPoints.length)
    (hlimit : s.ffiInstrsLimit = pointTotal s.ffiPoints s.ffiPoint % 2 ^ 64) :
    s.FFIAdvance = { s with
      ffiPoint := s.ffiPoint + 1
      ffiInstrsLimit := pointTotal s.ffiPoints (s.ffiPoint + 1) % 2 ^ 64 } := by
  unfold Sim.FFIAdvance
  dsimp only
  rw [List.getElem?_eq_getElem h, pointTotal_succ h, hlimit]
  dsimp only
  rw [Nat.mod_add_mod]

/-- The interval is tracked when the count is below the limit and the rate is
not zero. -/
theorem FFITrackNFFInterval_eq (hff : s.inFastForward = false) :
    s.FFITrackNFFInterval =
      if s.ffiInstrsDone < s.ffiInstrsLimit ∧ s.maxRate ≠ 0 then
        let target := s.ffiInstrsLimit - s.ffiInstrsDone
        let period := nextPeriod target s.maxRate
        some { s with
          event := some (s.ffiFFStartInstrs, ⟨target, s.maxRate, period, s.numPhases + period⟩)
          ffiNFF := true }
      else none := by
  unfold Sim.FFITrackNFFInterval makeAdaptiveEvent
  grind

/-- The event that tracks an interval whose count is below the limit. -/
theorem exists_tracked (hff : s.inFastForward = false) (hlt : s.ffiInstrsDone < s.ffiInstrsLimit)
    (hrate : s.maxRate ≠ 0) :
    ∃ ev, makeAdaptiveEvent 0 (s.ffiInstrsLimit - s.ffiInstrsDone) s.maxRate s.numPhases = some ev ∧
      s.FFITrackNFFInterval = some { s with event := some (s.ffiFFStartInstrs, ev), ffiNFF := true } := by
  have hev : makeAdaptiveEvent 0 (s.ffiInstrsLimit - s.ffiInstrsDone) s.maxRate s.numPhases = some _ :=
    if_pos ⟨Nat.zero_le _, hrate⟩
  unfold Sim.FFITrackNFFInterval
  rw [if_pos ⟨hff, hlt⟩, hev]
  exact ⟨_, rfl, rfl⟩

/-- In fast-forward, with the count up to date and the limit in 64 bits. -/
structure Counting (s : Sim) : Prop where
  running : s.status = .running
  fastForward : s.inFastForward = true
  entered : s.ffiNFF = false
  point : s.ffiPoint < s.ffiPoints.length
  done : s.ffiInstrsDone = s.total
  limit : s.ffiInstrsLimit = pointTotal s.ffiPoints s.ffiPoint % 2 ^ 64

/-- The outcome of a block handler. -/
structure BlockRight (s : Sim) (instrs : ℕ) (s' : Sim) : Prop where
  no_failure : s'.status ≠ .failed
  refines : s'.switching = s.switching.execute s.ffiPoints instrs
  limit : s'.status = .running → s'.ffiInstrsLimit = pointTotal s'.ffiPoints s'.ffiPoint
  counted : s'.ffiInstrsDone = s'.total
  ends : s'.status = .ended ↔ s'.switching.mode = .ended

theorem Counting.FFIBasicBlock_below (h : Counting s)
    (hlt : s.total + n < pointTotal s.ffiPoints s.ffiPoint % 2 ^ 64) :
    s.FFIBasicBlock n = some { s with
      ffiInstrsDone := s.total + n
      total := s.total + n } := by
  unfold Sim.FFIBasicBlock
  rw [h.done, h.limit]
  dsimp only
  rw [if_neg (by omega)]

theorem Counting.FFIBasicBlock_last (h : Counting s)
    (hle : pointTotal s.ffiPoints s.ffiPoint % 2 ^ 64 ≤ s.total + n)
    (hlast : ¬s.ffiPoint + 1 < s.ffiPoints.length) :
    s.FFIBasicBlock n = some { s with
      ffiInstrsDone := s.total + n
      total := s.total + n
      ffiPoint := s.ffiPoint + 1
      status := .ended } := by
  unfold Sim.FFIBasicBlock
  rw [h.done, h.limit]
  dsimp only
  rw [if_pos hle, FFIAdvance_last]
  · rw [if_pos rfl]
  · exact hlast

theorem Counting.FFIBasicBlock_next (h : Counting s)
    (hle : pointTotal s.ffiPoints s.ffiPoint % 2 ^ 64 ≤ s.total + n)
    (hnext : s.ffiPoint + 1 < s.ffiPoints.length) :
    s.FFIBasicBlock n = Sim.FFITrackNFFInterval { s with
      ffiInstrsDone := s.total + n
      total := s.total + n
      ffiPoint := s.ffiPoint + 1
      ffiInstrsLimit := pointTotal s.ffiPoints (s.ffiPoint + 1) % 2 ^ 64
      inFastForward := false } := by
  unfold Sim.FFIBasicBlock
  dsimp only
  rw [h.done, h.limit, if_pos hle, FFIAdvance_next]
  · dsimp only
    rw [h.running, if_neg (by decide), if_pos h.fastForward]
  · exact hnext
  · rfl

theorem Counting.switching (h : Counting s) : s.switching = ⟨s.total, s.ffiPoint, .fastForward⟩ := by
  unfold Sim.switching Sim.switches
  rw [h.entered, h.fastForward]
  simp [h.point]

/-- What a block handler does with a block that stays below the next point. -/
inductive BlockDone (s : Sim) (n : ℕ) : Sim → Prop where
  | below (hbelow : s.total + n < pointTotal s.ffiPoints s.ffiPoint)
      (hfits : pointTotal s.ffiPoints s.ffiPoint < 2 ^ 64) :
      BlockDone s n { s with ffiInstrsDone := s.total + n, total := s.total + n }
  | last (hreached : pointTotal s.ffiPoints s.ffiPoint ≤ s.total + n)
      (hlast : ¬s.ffiPoint + 1 < s.ffiPoints.length) :
      BlockDone s n { s with
        ffiInstrsDone := s.total + n
        total := s.total + n
        ffiPoint := s.ffiPoint + 1
        status := .ended }
  | next (ev : AdaptiveEvent) (hreached : pointTotal s.ffiPoints s.ffiPoint ≤ s.total + n)
      (hnext : s.ffiPoint + 1 < s.ffiPoints.length)
      (hbelow : s.total + n < pointTotal s.ffiPoints (s.ffiPoint + 1))
      (hfits : pointTotal s.ffiPoints (s.ffiPoint + 1) < 2 ^ 64) (hrate : s.maxRate ≠ 0)
      (hev : makeAdaptiveEvent 0 (pointTotal s.ffiPoints (s.ffiPoint + 1) - (s.total + n)) s.maxRate
        s.numPhases = some ev) :
      BlockDone s n { s with
        ffiInstrsDone := s.total + n
        total := s.total + n
        ffiPoint := s.ffiPoint + 1
        ffiInstrsLimit := pointTotal s.ffiPoints (s.ffiPoint + 1)
        inFastForward := false
        event := some (s.ffiFFStartInstrs, ev)
        ffiNFF := true }

theorem Counting.switches (h : Counting s) : s.switches = s.ffiPoint :=
  congrArg Switching.switches h.switching

theorem Counting.blockDone (h : Counting s) (hguard : BlockBelowNext s n) :
    ∃ s', s.FFIBasicBlock n = some s' ∧ BlockDone s n s' := by
  unfold BlockBelowNext at hguard
  rw [h.switches] at hguard
  obtain ⟨hfits, hguard⟩ := hguard h.point
  by_cases hbelow : s.total + n < pointTotal s.ffiPoints s.ffiPoint
  · rw [h.FFIBasicBlock_below (by rw [Nat.mod_eq_of_lt (hfits hbelow)]; exact hbelow)]
    exact ⟨_, rfl, .below hbelow (hfits hbelow)⟩
  · have hreached := Nat.le_of_not_lt hbelow
    have hle := (Nat.mod_le (pointTotal s.ffiPoints s.ffiPoint) (2 ^ 64)).trans hreached
    by_cases hnext : s.ffiPoint + 1 < s.ffiPoints.length
    · obtain ⟨hbelow', hfits', hrate⟩ := hguard hreached hnext
      rw [h.FFIBasicBlock_next hle hnext, Nat.mod_eq_of_lt hfits']
      obtain ⟨ev, hev, htracked⟩ := @exists_tracked { s with
        ffiInstrsDone := s.total + n
        total := s.total + n
        ffiPoint := s.ffiPoint + 1
        ffiInstrsLimit := pointTotal s.ffiPoints (s.ffiPoint + 1)
        inFastForward := false } rfl hbelow' hrate
      rw [htracked]
      exact ⟨_, rfl, .next ev hreached hnext hbelow' hfits' hrate hev⟩
    · rw [h.FFIBasicBlock_last hle hnext]
      exact ⟨_, rfl, .last hreached hnext⟩

theorem Counting.right_of_done (h : Counting s) (hdone : BlockDone s n s') : BlockRight s n s' := by
  have hrunning := h.running
  cases hdone with
  | below hbelow hfits =>
    have hswitching : Sim.switching { s with ffiInstrsDone := s.total + n, total := s.total + n } =
        ⟨s.total + n, s.ffiPoint, .fastForward⟩ :=
      Counting.switching ⟨h.running, h.fastForward, h.entered, h.point, rfl, h.limit⟩
    constructor
    · simp [hrunning]
    · rw [hswitching, h.switching]
      simp [Switching.execute, hbelow]
    · intro _
      rw [← Nat.mod_eq_of_lt hfits]
      exact h.limit
    · rfl
    · rw [hswitching]
      simp [hrunning]
  | last hreached hlast =>
    constructor
    · simp
    · rw [h.switching]
      simp [Switching.execute, Sim.switching, Sim.switches, hreached, hlast]
    · exact nofun
    · rfl
    · simp [Sim.switching, Sim.switches, hlast]
  | next ev hreached hnext =>
    constructor
    · simp [hrunning]
    · rw [h.switching]
      simp [Switching.execute, Sim.switching, Sim.switches, hreached, hnext, Mode.other]
    · intro _
      rfl
    · rfl
    · simp [Sim.switching, Sim.switches, hnext, hrunning]

/-- A block handler does right exactly when the block stays below the next point. -/
theorem Counting.block_iff (h : Counting s) {t : Sim} (ht : t.status = .failed) :
    BlockRight s n ((s.FFIBasicBlock n).getD t) ↔ BlockBelowNext s n := by
  have hswitching := h.switching
  constructor
  · intro hright
    have hrunning := h.running
    unfold BlockBelowNext
    rw [h.switches]
    intro _
    by_cases hlt : s.total + n < pointTotal s.ffiPoints s.ffiPoint % 2 ^ 64
    · have hle := hlt.trans_le (Nat.mod_le _ _)
      rw [h.FFIBasicBlock_below hlt, Option.getD_some] at hright
      have hlimit : s.ffiInstrsLimit = pointTotal s.ffiPoints s.ffiPoint := hright.limit hrunning
      rw [h.limit] at hlimit
      constructor
      · omega
      · omega
    · have hle := Nat.le_of_not_lt hlt
      by_cases hnext : s.ffiPoint + 1 < s.ffiPoints.length
      · rw [h.FFIBasicBlock_next hle hnext, FFITrackNFFInterval_eq rfl] at hright
        dsimp only at hright
        split at hright
        · rename_i htracked
          rw [Option.getD_some] at hright
          have hlimit : pointTotal s.ffiPoints (s.ffiPoint + 1) % 2 ^ 64 =
              pointTotal s.ffiPoints (s.ffiPoint + 1) := hright.limit hrunning
          have hrefines := hright.refines
          rw [hswitching] at hrefines
          simp only [Sim.switching, Sim.switches, Switching.execute] at hrefines
          have hsucc := pointTotal_succ hnext
          have hrate : s.maxRate ≠ 0 := htracked.2
          grind
        · exact absurd ht hright.no_failure
      · rw [h.FFIBasicBlock_last hle hnext, Option.getD_some] at hright
        have hrefines := hright.refines
        rw [hswitching] at hrefines
        simp only [Sim.switching, Sim.switches, Switching.execute] at hrefines
        grind
  · intro hguard
    obtain ⟨s', hs', hdone⟩ := h.blockDone hguard
    rw [hs', Option.getD_some]
    exact h.right_of_done hdone

/-- The event of a simulated interval. -/
structure Tracking (s : Sim) (ev : AdaptiveEvent) : Prop where
  queued : s.event = some (s.ffiFFStartInstrs, ev)
  target : ev.target = s.ffiInstrsLimit - s.ffiInstrsDone
  rate : ev.maxRate = s.maxRate
  ahead : s.numPhases ≤ ev.phase

/-- What blocks leave alone. -/
structure Steady (s : Sim) : Prop where
  positive : ∀ point ∈ s.ffiPoints, 0 < point
  fits : ∀ point ∈ s.ffiPoints, point < 2 ^ 64
  nonempty : s.ffiPoints ≠ []
  started : s.ffiFFStartInstrs ≤ s.processInstrs s.procIdx

/-- What holds as long as every step switches right. -/
structure Inv (s : Sim) : Prop extends Steady s where
  no_failure : s.status ≠ .failed
  fresh : s.status = .fresh → s.ffiPoint = 0 ∧ s.total = 0 ∧ s.event = none
  point : s.status = .running → s.ffiPoint < s.ffiPoints.length
  limit : s.status = .running →
    s.ffiInstrsLimit = pointTotal s.ffiPoints s.ffiPoint ∧ s.ffiInstrsLimit < 2 ^ 64
  idle : s.status = .running → s.inFastForward = true → s.event = none
  counting : s.status = .running → s.inFastForward = true → s.ffiNFF = false → s.ffiInstrsDone = s.total
  entering : s.status = .running → s.inFastForward = true → s.ffiNFF = true →
    s.ffiInstrsDone + (s.ffiFFStartInstrs - s.ffiPrevFFStartInstrs) = s.total
  tracking : s.status = .running → s.inFastForward = false →
    s.ffiNFF = true ∧ s.ffiInstrsDone < s.ffiInstrsLimit ∧ s.ffiInstrsDone ≤ s.total ∧ ∃ ev, Tracking s ev

theorem makeAdaptiveEvent_eq {target maxRate curPhase : ℕ} {ev : AdaptiveEvent}
    (h : makeAdaptiveEvent 0 target maxRate curPhase = some ev) :
    ev.target = target ∧ ev.maxRate = maxRate ∧ curPhase < ev.phase ∧ ev.phase = curPhase + ev.period := by
  unfold makeAdaptiveEvent at h
  have hpos := nextPeriod_pos (target - 0) maxRate
  grind

theorem pointTotal_zero (point : ℕ) (l : List ℕ) : pointTotal (point :: l) 0 = point := by
  simp [pointTotal]

theorem FFIInit_eq {point : ℕ} {l : List ℕ} (hl : s.ffiPoints = point :: l) :
    s.FFIInit = if s.inFastForward = true then some (s.initCounts point)
      else (s.initCounts point).FFITrackNFFInterval := by
  unfold Sim.FFIInit
  rw [hl]
  rfl

/-- `FFIInit` starts at the first point. In simulation it needs a rate to track at. -/
theorem Inv.init (h : Inv s) (hstep : step s .init = some s') :
    (SwitchesRight s .init s' ↔ PointMet s .init) ∧ (PointMet s .init → Inv s') := by
  simp only [step] at hstep
  split at hstep
  · rename_i hfresh
    obtain ⟨hpoint, htotal, hevent⟩ := h.fresh hfresh
    obtain ⟨point, l, hl⟩ := List.exists_cons_of_ne_nil h.nonempty
    have hpos := h.positive point (by simp [hl])
    have hfit := h.fits point (by simp [hl])
    have hzero : pointTotal s.ffiPoints 0 = point := by rw [hl, pointTotal_zero]
    have hlength : 0 < s.ffiPoints.length := by simp [hl]
    have hswitching : s.switching = ⟨0, 0, if s.inFastForward then .fastForward else .simulated⟩ := by
      simp [Sim.switching, Sim.switches, hfresh, hpoint, htotal, hlength]
    have hsteady : Steady (s.initCounts point) := ⟨h.positive, h.fits, h.nonempty, Nat.zero_le _⟩
    rw [FFIInit_eq hl, Option.some.injEq] at hstep
    by_cases hff : s.inFastForward = true
    · rw [if_pos hff, Option.getD_some] at hstep
      subst hstep
      have hinv : Inv (s.initCounts point) := by
        constructor
        · exact hsteady
        all_goals
          unfold Sim.initCounts
          grind
      have hright : SwitchesRight s .init (s.initCounts point) := by
        constructor
        · exact nofun
        · rw [hswitching]
          simp [Sim.initCounts, Sim.switching, Sim.switches, Switching.step, hff, htotal, hlength]
        · exact fun _ => hzero.symm
        · grind
        · exact nofun
        · exact nofun
      have hmet : PointMet s .init := fun hsim => absurd hff (by simp [hsim])
      exact ⟨iff_of_true hright hmet, fun _ => hinv⟩
    · have hff : s.inFastForward = false := by simpa using hff
      rw [if_neg (by simp [hff])] at hstep
      by_cases hrate : s.maxRate = 0
      · have huntracked : (s.initCounts point).FFITrackNFFInterval = none := by
          rw [@FFITrackNFFInterval_eq (s.initCounts point) hff]
          exact if_neg fun h => h.2 hrate
        rw [huntracked, Option.getD_none] at hstep
        have hwrong : ¬SwitchesRight s .init s' := fun hright => hright.no_failure (hstep ▸ rfl)
        have hunmet : ¬PointMet s .init := fun hmet => hmet hff hrate
        exact ⟨iff_of_false hwrong hunmet, fun hmet => absurd hmet hunmet⟩
      · obtain ⟨ev, hev, htracked⟩ := @exists_tracked (s.initCounts point) hff hpos hrate
        rw [htracked, Option.getD_some] at hstep
        subst hstep
        obtain ⟨htarget, hmaxRate, hphase, -⟩ := makeAdaptiveEvent_eq hev
        have hinv : Inv { s.initCounts point with
            event := some ((s.initCounts point).ffiFFStartInstrs, ev), ffiNFF := true } := by
          have htracking : Tracking { s.initCounts point with
              event := some ((s.initCounts point).ffiFFStartInstrs, ev), ffiNFF := true } ev :=
            ⟨rfl, htarget, hmaxRate, hphase.le⟩
          constructor
          · exact ⟨hsteady.positive, hsteady.fits, hsteady.nonempty, hsteady.started⟩
          all_goals
            unfold Sim.initCounts at *
            grind
        have hright : SwitchesRight s .init { s.initCounts point with
            event := some ((s.initCounts point).ffiFFStartInstrs, ev), ffiNFF := true } := by
          constructor
          · exact nofun
          · rw [hswitching]
            simp [Sim.initCounts, Sim.switching, Sim.switches, Switching.step, hff, htotal, hlength]
          · exact fun _ => hzero.symm
          · intro _ hin
            exact absurd hin (by simp [Sim.initCounts, hff])
          · exact nofun
          · exact nofun
        exact ⟨iff_of_true hright fun _ => hrate, fun _ => hinv⟩
  · simp at hstep

theorem Counting.inv_of_done (h : Counting s) (hsteady : Steady s) (hidle : s.event = none)
    (hdone : BlockDone s n s') : Inv s' := by
  have hrunning := h.running
  have hff := h.fastForward
  have hentered := h.entered
  cases hdone with
  | below hbelow hfits =>
    have hpoint := h.point
    have hlimit := h.limit
    rw [Nat.mod_eq_of_lt hfits] at hlimit
    constructor
    · exact ⟨hsteady.positive, hsteady.fits, hsteady.nonempty, hsteady.started⟩
    all_goals grind
  | last hreached hlast =>
    constructor
    · exact ⟨hsteady.positive, hsteady.fits, hsteady.nonempty, hsteady.started⟩
    all_goals simp
  | next ev hreached hnext hbelow hfits hrate hev =>
    obtain ⟨htarget, hmaxRate, hphase, -⟩ := makeAdaptiveEvent_eq hev
    constructor
    · exact ⟨hsteady.positive, hsteady.fits, hsteady.nonempty, hsteady.started⟩
    · simp [hrunning]
    · simp [hrunning]
    · exact fun _ => hnext
    · exact fun _ => ⟨rfl, hfits⟩
    · exact nofun
    · exact nofun
    · exact nofun
    · exact fun _ _ => ⟨rfl, hbelow, le_rfl, ev, rfl, htarget, hmaxRate, hphase.le⟩

/-- The state from which a block is counted: the process's own, or after a
simulated interval the one to which that has been added. -/
structure CountsFrom (s t : Sim) : Prop where
  counting : Counting t
  switching : t.switching = s.switching
  points : t.ffiPoints = s.ffiPoints
  procIdx : t.procIdx = s.procIdx
  length : t.phaseLength = s.phaseLength
  start : t.ffiFFStartInstrs = s.ffiFFStartInstrs
  instrs : t.processInstrs = s.processInstrs
  event : t.event = s.event

theorem CountsFrom.steady {t : Sim} (h : CountsFrom s t) (hsteady : Steady s) : Steady t := by
  constructor
  · exact h.points ▸ hsteady.positive
  · exact h.points ▸ hsteady.fits
  · exact h.points ▸ hsteady.nonempty
  · rw [h.start, h.instrs, h.procIdx]
    exact hsteady.started

theorem CountsFrom.below_iff {t : Sim} (h : CountsFrom s t) : BlockBelowNext t n ↔ BlockBelowNext s n := by
  have hswitches : t.switches = s.switches := congrArg Switching.switches h.switching
  have htotal : t.total = s.total := congrArg Switching.total h.switching
  unfold BlockBelowNext Sim.maxRate
  rw [hswitches, htotal, h.points, h.length]

theorem CountsFrom.right_iff {t : Sim} (h : CountsFrom s t) (hff : s.inFastForward = true) :
    SwitchesRight s (.basicBlock n) s' ↔ BlockRight t n s' := by
  have hmode : s.switching.mode = .fastForward := by rw [← h.switching, h.counting.switching]
  have hexecute : s.switching.step s.ffiPoints s.procIdx (.basicBlock n) =
      t.switching.execute t.ffiPoints n := by
    rw [h.switching, h.points]
    exact if_pos hmode
  constructor
  · intro hright
    constructor
    · exact hright.no_failure
    · rw [hright.refines, hexecute]
    · exact hright.limit
    · exact hright.counted ⟨n, rfl⟩
    · exact hright.ends ⟨n, rfl⟩
  · intro hright
    constructor
    · exact hright.no_failure
    · rw [hright.refines, hexecute]
    · exact hright.limit
    · exact fun hsim => absurd hff (by simp [hsim])
    · exact fun _ => hright.counted
    · exact fun _ => hright.ends

/-- A block is counted from some state, unless the last point has been reached. -/
theorem Inv.ffBasicBlock (h : Inv s) (hrunning : s.status = .running) (hff : s.inFastForward = true) :
    (∃ t, CountsFrom s t ∧ s.ffBasicBlock n = t.FFIBasicBlock n) ∨
      s.switches = s.ffiPoint + 1 ∧ ¬s.switches < s.ffiPoints.length ∧
        s.ffBasicBlock n = some { s with
          ffiInstrsDone := s.total
          ffiPoint := s.ffiPoint + 1
          status := .ended } := by
  have hpoint := h.point hrunning
  obtain ⟨hlimit, hwrap⟩ := h.limit hrunning
  have hmod : s.ffiInstrsLimit = pointTotal s.ffiPoints s.ffiPoint % 2 ^ 64 := by
    rw [hlimit] at hwrap ⊢
    rw [Nat.mod_eq_of_lt hwrap]
  unfold Sim.ffBasicBlock
  split
  · rename_i hentering
    have hdone := h.entering hrunning hff hentering
    have hswitches : s.switches = s.ffiPoint + 1 := by simp [Sim.switches, hrunning, hff, hentering]
    unfold Sim.FFIEntryBasicBlock
    dsimp only
    rw [hdone, hswitches]
    by_cases hnext : s.ffiPoint + 1 < s.ffiPoints.length
    · left
      have hcount : Counting { s with
          ffiPoint := s.ffiPoint + 1
          ffiInstrsDone := s.total
          ffiInstrsLimit := pointTotal s.ffiPoints (s.ffiPoint + 1) % 2 ^ 64
          ffiNFF := false } := ⟨hrunning, hff, rfl, hnext, rfl, rfl⟩
      have hswitching : s.switching = ⟨s.total, s.ffiPoint + 1, .fastForward⟩ := by
        simp [Sim.switching, hswitches, hnext, hff]
      refine ⟨_, ⟨hcount, hcount.switching.trans hswitching.symm, rfl, rfl, rfl, rfl, rfl, rfl⟩, ?_⟩
      rw [FFIAdvance_next]
      · dsimp only
        rw [hrunning, if_neg (by decide), if_pos hentering]
      · exact hnext
      · exact hmod
    · right
      rw [FFIAdvance_last]
      · exact ⟨rfl, hnext, if_pos rfl⟩
      · exact hnext
  · rename_i hcounting
    have hcounting : s.ffiNFF = false := by simpa using hcounting
    have hcount : Counting s :=
      ⟨hrunning, hff, hcounting, hpoint, h.counting hrunning hff hcounting, hmod⟩
    exact .inl ⟨s, ⟨hcount, rfl, rfl, rfl, rfl, rfl, rfl, rfl⟩, rfl⟩

theorem Inv.basicBlock (h : Inv s) (hstep : step s (.basicBlock n) = some s') :
    (SwitchesRight s (.basicBlock n) s' ↔ PointMet s (.basicBlock n)) ∧
      (PointMet s (.basicBlock n) → Inv s') := by
  simp only [step] at hstep
  split at hstep
  · rename_i hcond
    obtain ⟨hrunning, hff⟩ := hcond
    rw [Option.some.injEq] at hstep
    obtain ⟨t, ht, hblock⟩ | ⟨hswitches, hlast, hblock⟩ := h.ffBasicBlock hrunning hff (n := n)
    · have hmet : PointMet s (.basicBlock n) ↔ BlockBelowNext t n := ht.below_iff.symm
      rw [hblock] at hstep
      rw [hmet]
      constructor
      · rw [ht.right_iff hff, ← hstep]
        exact ht.counting.block_iff rfl
      · intro hguard
        obtain ⟨s₁, hs₁, hdone⟩ := ht.counting.blockDone hguard
        rw [hs₁, Option.getD_some] at hstep
        exact hstep ▸ ht.counting.inv_of_done (ht.steady h.toSteady)
          (ht.event.trans (h.idle hrunning hff)) hdone
    · rw [hblock, Option.getD_some] at hstep
      subst hstep
      have hmet : PointMet s (.basicBlock n) := fun hlt => absurd hlt hlast
      have hinv : Inv { s with
          ffiInstrsDone := s.total
          ffiPoint := s.ffiPoint + 1
          status := .ended } := by
        constructor
        · exact ⟨h.positive, h.fits, h.nonempty, h.started⟩
        all_goals simp
      have hright : SwitchesRight s (.basicBlock n) { s with
          ffiInstrsDone := s.total
          ffiPoint := s.ffiPoint + 1
          status := .ended } := by
        rw [hswitches] at hlast
        constructor
        · exact nofun
        · have hmode : s.switching.mode = .ended := by simp [Sim.switching, hswitches, hlast]
          unfold Switching.step
          dsimp only
          rw [if_neg (by simp [hmode])]
          unfold Sim.switching
          rw [hswitches]
          simp [Sim.switches, hlast]
        · exact nofun
        · exact fun hsim => absurd hff (by simp [hsim])
        · exact fun _ => rfl
        · simp [Sim.switching, Sim.switches, hlast]
      exact ⟨iff_of_true hright hmet, fun _ => hinv⟩
  · simp at hstep

theorem Steady.countPhase (h : Steady s) : Steady (s.countPhase instrs) := by
  constructor
  · exact h.positive
  · exact h.fits
  · exact h.nonempty
  · exact h.started.trans (Nat.le_add_right _ _)

theorem endPhase_idle (hidle : s.event = none) :
    s.endPhase instrs = some { s.countPhase instrs with numPhases := s.numPhases + 1 } := by
  unfold Sim.endPhase Sim.tick
  simp [Sim.countPhase, hidle]

/-- A phase passes by a process in fast-forward. -/
theorem Inv.phase_idle (h : Inv s) (hrunning : s.status = .running) (hff : s.inFastForward = true)
    (hzero : instrs s.procIdx = 0)
    (hs' : ((s.endPhase instrs).getD { s with status := .failed }) = s') :
    SwitchesRight s (.phase instrs) s' ∧ PointMet s (.phase instrs) ∧ Inv s' := by
  have hidle := h.idle hrunning hff
  rw [endPhase_idle hidle, Option.getD_some] at hs'
  subst hs'
  have htotal : (s.countPhase instrs).total = s.total := by simp [Sim.countPhase, hzero]
  constructor
  · constructor
    · exact fun hfail => absurd (hrunning.symm.trans hfail) (by decide)
    · have hmode : s.switching.mode ≠ .simulated := by
        simp only [Sim.switching, hff]
        split <;> simp
      unfold Switching.step
      dsimp only
      rw [if_neg hmode]
      unfold Sim.switching Sim.switches
      rw [htotal]
      rfl
    · exact fun _ => (h.limit hrunning).1
    · exact fun hsim => absurd hff (by simp [hsim])
    · exact nofun
    · exact nofun
  · constructor
    · intro tracking htracking
      rw [hidle] at htracking
      cases htracking
    · have hsteady : Steady (s.countPhase instrs) := h.toSteady.countPhase
      constructor
      · exact ⟨hsteady.positive, hsteady.fits, hsteady.nonempty, hsteady.started⟩
      · exact fun hfail => absurd (hrunning.symm.trans hfail) (by decide)
      · exact fun hfresh => absurd (hrunning.symm.trans hfresh) (by decide)
      · exact h.point
      · exact h.limit
      · exact h.idle
      · intro h₁ h₂ h₃
        exact (h.counting h₁ h₂ h₃).trans htotal.symm
      · intro h₁ h₂ h₃
        exact (h.entering h₁ h₂ h₃).trans htotal.symm
      · exact fun _ hsim => absurd hff (by simp [show s.inFastForward = false from hsim])

/-- In simulation the end of a phase does what the event does. -/
theorem endPhase_eq {ev : AdaptiveEvent} (hevent : s.event = some (s.ffiFFStartInstrs, ev))
    (hff : s.inFastForward = false) :
    s.endPhase instrs =
      (ev.tick s.numPhases ((s.countPhase instrs).processInstrs s.procIdx - s.ffiFFStartInstrs)).map
        fun t => match t with
          | .waits ev' => { s.countPhase instrs with
              event := some (s.ffiFFStartInstrs, ev'), numPhases := s.numPhases + 1 }
          | .fires => { s.countPhase instrs with
              event := none
              inFastForward := true
              ffiPrevFFStartInstrs := s.ffiFFStartInstrs
              ffiFFStartInstrs := (s.countPhase instrs).processInstrs s.procIdx
              numPhases := s.numPhases + 1 } := by
  unfold Sim.endPhase Sim.tick Sim.ffiFire
  have hevent' : (s.countPhase instrs).event = some (s.ffiFFStartInstrs, ev) := hevent
  have hff' : (s.countPhase instrs).inFastForward = false := hff
  have hphases : (s.countPhase instrs).numPhases = s.numPhases := rfl
  have hproc : (s.countPhase instrs).procIdx = s.procIdx := rfl
  rw [hevent', hphases, hproc]
  dsimp only
  cases ev.tick s.numPhases ((s.countPhase instrs).processInstrs s.procIdx - s.ffiFFStartInstrs) with
  | none => rfl
  | some t =>
    cases t with
    | waits ev' => rfl
    | fires =>
      dsimp only
      rw [hff', if_neg (by decide)]
      rfl

/-- A phase after which the event waits. -/
theorem Inv.phase_waits {ev ev' : AdaptiveEvent} (h : Inv s) (hrunning : s.status = .running)
    (hff : s.inFastForward = false) (hev : Tracking s ev)
    (htick : ev.tick s.numPhases ((s.countPhase instrs).processInstrs s.procIdx - s.ffiFFStartInstrs) =
      some (.waits ev')) :
    Inv { s.countPhase instrs with
      event := some (s.ffiFFStartInstrs, ev'), numPhases := s.numPhases + 1 } := by
  obtain ⟨hentered, hlt, hle, -⟩ := h.tracking hrunning hff
  obtain ⟨htarget, hrate, hphase, -⟩ := tick_waits hev.ahead htick
  have hsteady : Steady (s.countPhase instrs) := h.toSteady.countPhase
  constructor
  · exact ⟨hsteady.positive, hsteady.fits, hsteady.nonempty, hsteady.started⟩
  · exact fun hfail => absurd (hrunning.symm.trans hfail) (by decide)
  · exact fun hfresh => absurd (hrunning.symm.trans hfresh) (by decide)
  · exact h.point
  · exact h.limit
  · exact fun _ hin => absurd (hff.symm.trans hin) (by decide)
  · exact fun _ hin => absurd (hff.symm.trans hin) (by decide)
  · exact fun _ hin => absurd (hff.symm.trans hin) (by decide)
  · intro _ _
    exact ⟨hentered, hlt, hle.trans (Nat.le_add_right _ _), ev', rfl, htarget.trans hev.target,
      hrate.trans hev.rate, hphase⟩

/-- A phase after which the event has fired on the process's own count. -/
theorem Inv.phase_fires (h : Inv s) (hrunning : s.status = .running) (hff : s.inFastForward = false)
    (hown : s.ffiInstrsDone + ((s.countPhase instrs).processInstrs s.procIdx - s.ffiFFStartInstrs) =
      s.total + instrs s.procIdx) :
    Inv { s.countPhase instrs with
      event := none
      inFastForward := true
      ffiPrevFFStartInstrs := s.ffiFFStartInstrs
      ffiFFStartInstrs := (s.countPhase instrs).processInstrs s.procIdx
      numPhases := s.numPhases + 1 } := by
  obtain ⟨hentered, -⟩ := h.tracking hrunning hff
  constructor
  · exact ⟨h.positive, h.fits, h.nonempty, le_rfl⟩
  · exact fun hfail => absurd (hrunning.symm.trans hfail) (by decide)
  · exact fun hfresh => absurd (hrunning.symm.trans hfresh) (by decide)
  · exact h.point
  · exact h.limit
  · exact fun _ _ => rfl
  · exact fun _ _ hnot => absurd (hentered.symm.trans hnot) (by decide)
  · exact fun _ _ _ => hown
  · exact fun _ => nofun

/-- A phase does right exactly when the event notices the point in time. -/
theorem Inv.phase_simulated (h : Inv s) (hrunning : s.status = .running) (hff : s.inFastForward = false)
    (hs' : ((s.endPhase instrs).getD { s with status := .failed }) = s') :
    (SwitchesRight s (.phase instrs) s' ↔ PointMet s (.phase instrs)) ∧
      (PointMet s (.phase instrs) → Inv s') := by
  obtain ⟨hentered, hlt, hle, ev, hev⟩ := h.tracking hrunning hff
  obtain ⟨hlimit, hwrap⟩ := h.limit hrunning
  have hpoint := h.point hrunning
  have hstarted : s.ffiFFStartInstrs ≤ (s.countPhase instrs).processInstrs s.procIdx :=
    h.toSteady.countPhase.started
  have htarget := hev.target
  have hphase := hev.ahead
  have hswitching : s.switching = ⟨s.total, s.ffiPoint, .simulated⟩ := by
    simp [Sim.switching, Sim.switches, hff, hpoint]
  have hmet : PointMet s (.phase instrs) ↔
      if pointTotal s.ffiPoints s.ffiPoint ≤ s.total + instrs s.procIdx then
        ev.phase = s.numPhases ∧
          (s.countPhase instrs).processInstrs s.procIdx =
            s.ffiFFStartInstrs + (s.total + instrs s.procIdx - s.ffiInstrsDone) ∧
          s.total + instrs s.procIdx ≤ pointTotal s.ffiPoints s.ffiPoint + ev.maxRate
      else ev.phase = s.numPhases →
        (s.countPhase instrs).processInstrs s.procIdx < s.ffiFFStartInstrs + ev.target := by
    unfold PointMet PhaseNoticed
    dsimp only
    rw [hev.queued]
    simp
  rw [endPhase_eq hev.queued hff] at hs'
  rw [hmet]
  cases htick : ev.tick s.numPhases ((s.countPhase instrs).processInstrs s.procIdx - s.ffiFFStartInstrs) with
  | none =>
    rw [htick] at hs'
    have hwrong : ¬SwitchesRight s (.phase instrs) s' := fun hright => hright.no_failure (hs' ▸ rfl)
    have hfires := @tick_fires ev s.numPhases
      ((s.countPhase instrs).processInstrs s.procIdx - s.ffiFFStartInstrs)
    have hwaits := @tick_waits_of ev s.numPhases
      ((s.countPhase instrs).processInstrs s.procIdx - s.ffiFFStartInstrs) hphase
    grind
  | some t =>
    rw [htick] at hs'
    cases t with
    | waits ev' =>
      have hinv := h.phase_waits hrunning hff hev htick
      obtain ⟨-, -, -, hbehind⟩ := tick_waits hphase htick
      dsimp only [Option.map_some, Option.getD_some] at hs'
      subst hs'
      have hright : SwitchesRight s (.phase instrs) { s.countPhase instrs with
          event := some (s.ffiFFStartInstrs, ev'), numPhases := s.numPhases + 1 } ↔
          ¬pointTotal s.ffiPoints s.ffiPoint ≤ s.total + instrs s.procIdx := by
        have hswitching' : Sim.switching { s.countPhase instrs with
            event := some (s.ffiFFStartInstrs, ev'), numPhases := s.numPhases + 1 } =
            ⟨s.total + instrs s.procIdx, s.ffiPoint, .simulated⟩ := by
          simp [Sim.switching, Sim.switches, Sim.countPhase, hff, hpoint]
        constructor
        · intro hright hreached
          have hrefines := hright.refines
          rw [hswitching', hswitching] at hrefines
          simp [Switching.step, Switching.execute, hreached] at hrefines
        · intro hbelow
          constructor
          · exact fun hfail => absurd (hrunning.symm.trans hfail) (by decide)
          · rw [hswitching', hswitching]
            simp [Switching.step, Switching.execute, hbelow]
          · exact fun _ => hlimit
          · exact fun _ hin => absurd (hff.symm.trans hin) (by decide)
          · exact nofun
          · exact nofun
      rw [hright]
      constructor
      · grind
      · exact fun _ => hinv
    | fires =>
      obtain ⟨hdue, hreads, hrate⟩ := tick_fires.mp htick
      dsimp only [Option.map_some, Option.getD_some] at hs'
      subst hs'
      have hswitching' : Sim.switching { s.countPhase instrs with
          event := none
          inFastForward := true
          ffiPrevFFStartInstrs := s.ffiFFStartInstrs
          ffiFFStartInstrs := (s.countPhase instrs).processInstrs s.procIdx
          numPhases := s.numPhases + 1 } = ⟨s.total + instrs s.procIdx, s.ffiPoint + 1,
            if s.ffiPoint + 1 < s.ffiPoints.length then .fastForward else .ended⟩ := by
        simp [Sim.switching, Sim.switches, Sim.countPhase, hrunning, hentered]
      have hright : SwitchesRight s (.phase instrs) { s.countPhase instrs with
          event := none
          inFastForward := true
          ffiPrevFFStartInstrs := s.ffiFFStartInstrs
          ffiFFStartInstrs := (s.countPhase instrs).processInstrs s.procIdx
          numPhases := s.numPhases + 1 } ↔
          pointTotal s.ffiPoints s.ffiPoint ≤ s.total + instrs s.procIdx ∧
            s.ffiInstrsDone + ((s.countPhase instrs).processInstrs s.procIdx - s.ffiFFStartInstrs) =
              s.total + instrs s.procIdx := by
        constructor
        · intro hright
          constructor
          · by_contra hbelow
            have hrefines := hright.refines
            rw [hswitching', hswitching] at hrefines
            simp [Switching.step, Switching.execute, hbelow] at hrefines
          · exact hright.entered hff rfl
        · rintro ⟨hreached, hown⟩
          constructor
          · exact fun hfail => absurd (hrunning.symm.trans hfail) (by decide)
          · rw [hswitching', hswitching]
            simp [Switching.step, Switching.execute, hreached, Mode.other]
          · exact fun _ => hlimit
          · exact fun _ _ => hown
          · exact nofun
          · exact nofun
      rw [hright]
      constructor
      · grind
      · intro hguard
        have hown : s.ffiInstrsDone +
            ((s.countPhase instrs).processInstrs s.procIdx - s.ffiFFStartInstrs) =
              s.total + instrs s.procIdx := by
          grind
        exact h.phase_fires hrunning hff hown

theorem Inv.phase (h : Inv s) (hstep : step s (.phase instrs) = some s') :
    (SwitchesRight s (.phase instrs) s' ↔ PointMet s (.phase instrs)) ∧
      (PointMet s (.phase instrs) → Inv s') := by
  simp only [step] at hstep
  split at hstep
  · rename_i hcond
    obtain ⟨hrunning, hzero⟩ := hcond
    rw [Option.some.injEq] at hstep
    by_cases hff : s.inFastForward = true
    · obtain ⟨hright, hmet, hinv⟩ := h.phase_idle hrunning hff (hzero hff) hstep
      exact ⟨iff_of_true hright hmet, fun _ => hinv⟩
    · exact h.phase_simulated hrunning (by simpa using hff) hstep
  · simp at hstep

/-- A step switches right exactly when its condition is met, and then the next can. -/
theorem Inv.step (h : Inv s) (hstep : FastForwardPoints.step s op = some s') :
    (SwitchesRight s op s' ↔ PointMet s op) ∧ (PointMet s op → Inv s') := by
  cases op with
  | init => exact h.init hstep
  | basicBlock n => exact h.basicBlock hstep
  | phase instrs => exact h.phase hstep

end Steps

section Runs

variable {ffiPoints : List ℕ} {procIdx : ℕ} {groupIdx : List ℕ} {phaseLength : ℕ}
  {inFastForward : Bool} {processInstrs : ℕ → ℕ} {numPhases : ℕ}

theorem inv_start (hne : ffiPoints ≠ []) (hpos : ∀ point ∈ ffiPoints, 0 < point)
    (hfit : ∀ point ∈ ffiPoints, point < 2 ^ 64) :
    Inv (.start ffiPoints procIdx groupIdx phaseLength inFastForward processInstrs numPhases) := by
  constructor
  · exact ⟨hpos, hfit, hne, Nat.zero_le _⟩
  · exact nofun
  · exact fun _ => ⟨rfl, rfl, rfl⟩
  all_goals exact nofun

end Runs

end Zsim.FastForwardPoints
