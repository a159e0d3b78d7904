import Mathlib.Algebra.Order.Ring.Int
import Zsim.WeakestPre
import Mathlib.Data.Nat.Notation

/-!
# The recorders of the cores

A recorder links the events of its core for the weave phase and tells the core
how far contention has delayed them. Its zero-load clock is the clock of the
core without these delays. A thread that leaves lets the recorder drain: the
core is halted when the last event has run, which is known at the end of a
phase only. The event graph of a core is the chain of the events it is notified
of; what else they wait for is contention. Cycles are counted without bound.
-/

namespace Zsim.CoreRecorders

open WeakestPre

/-- `State`. -/
inductive State where
  | halted
  | running
  | draining
  deriving DecidableEq, Repr

/-- The assertions and panics of the recorders, the cores and `updateCore`. -/
inductive CoreFailure where
  /-- A halted core still has a last event. -/
  | lingering
  /-- `lastUnhaltedCycle <= curCycle` -/
  | haltedLater
  /-- "should not have gone out of sync..." -/
  | outOfSync
  /-- "Invalid state on join()", "invalid state on leave" -/
  | invalidState
  /-- There is no last event to link the next one with. -/
  | noLastEvent
  /-- An access or issue lies before the last one. -/
  | early
  /-- The core has not reached the end of the phase. -/
  | shortPhase
  /-- The last event that has run started after `curCycle`. -/
  | late
  /-- "Contention simulation introduced a negative skew" -/
  | negativeSkew
  /-- The last event has run and the core is not draining. -/
  | notDraining
  /-- `targetCycle >= curCycle` -/
  | targetPassed
  /-- `cCycles >= lastCoreCycles[cid]` -/
  | backwards
  deriving DecidableEq, Repr

/-- When an event may start. -/
inductive Trigger where
  /-- It is queued for a cycle. -/
  | queued (cycle : ℕ)
  /-- Its delay after the start of the event before it. -/
  | chained (delay : ℕ)

/-- A `TimingCoreEvent` or an `OOOIssueEvent`. -/
structure Event where
  zllStartCycle : ℕ
  trigger : Trigger

/-- What `CoreRecorder` and `OOOCoreRecorder` both keep. -/
structure Recorder where
  state : State
  gapCycles : ℕ
  lastEventSimulatedZllStartCycle : ℕ
  lastEventSimulatedStartCycle : ℕ
  totalGapCycles : ℕ
  totalHaltedCycles : ℕ
  lastUnhaltedCycle : ℕ
  /-- The events that have not run, in order. -/
  events : List Event

/-- A core with its recorder, the clock of the simulation, and what `ProcessStats`
keeps of it; `R` is what only one of the recorders keeps. -/
structure Core (R : Type) where
  globPhaseCycles : ℕ
  phaseLength : ℕ
  /-- The weave phase is over, and the next phase has not begun. -/
  simulated : Bool
  curCycle : ℕ
  cRec : Recorder
  own : R
  lastCoreCycles : ℕ
  processCycles : ℕ

abbrev Act (R α : Type) := Prog (Core R) CoreFailure α

/-- The difference of two `uint64_t` cycles. -/
def diff64 (x y : ℕ) : ℕ := if y ≤ x then x - y else x + 2 ^ 64 - y

/-- A delay, as the `uint32_t` of an event. -/
def delay32 (x : ℕ) : ℕ := x % 2 ^ 32

/-- The first cycle an event may start in, after an event that started in `lastStart`. -/
def Trigger.earliest (lastStart : ℕ) : Trigger → ℕ
  | .queued cycle => cycle
  | .chained delay => lastStart + delay

section Common

variable {R : Type}

/-- Change the recorder. -/
def setRec (f : Recorder → Recorder) : Act R Unit := change fun s => { s with cRec := f s.cRec }

/-- Add an event to the chain. -/
def Recorder.push (r : Recorder) (ev : Event) : Recorder := { r with events := r.events ++ [ev] }

/-- The constructors. -/
def Recorder.new (zllStartCycle startCycle : ℕ) : Recorder where
  state := .halted
  gapCycles := 0
  lastEventSimulatedZllStartCycle := zllStartCycle
  lastEventSimulatedStartCycle := startCycle
  totalGapCycles := 0
  totalHaltedCycles := 0
  lastUnhaltedCycle := 0
  events := []

def Core.new (own : R) (r : Recorder) (phaseLength : ℕ) : Core R where
  globPhaseCycles := 0
  phaseLength := phaseLength
  simulated := false
  curCycle := 0
  cRec := r
  own := own
  lastCoreCycles := 0
  processCycles := 0

/-- A halted core joins at the beginning of the phase: the cycles it was halted are
counted, and the zero-load clock is set anew. -/
def unhalt : Act R ℕ := do
  let s ← observe fun s => s
  let curCycle := s.globPhaseCycles
  setRec fun r => { r with totalGapCycles := r.totalGapCycles + r.gapCycles, gapCycles := 0 }
  ensure (s.cRec.lastUnhaltedCycle ≤ curCycle) .haltedLater
  setRec fun r => { r with
    totalHaltedCycles := r.totalHaltedCycles + diff64 curCycle r.lastUnhaltedCycle }
  pure curCycle

/-- The skew that contention has brought into the clock of the core. -/
def skewClock (curCycle : ℕ) : Act R ℕ := do
  let r ← observe fun s => s.cRec
  let lastEvCycle1 := r.lastEventSimulatedZllStartCycle + r.gapCycles
  let lastEvCycle2 := r.lastEventSimulatedStartCycle
  ensure (lastEvCycle1 ≤ curCycle) .late
  ensure (lastEvCycle2 ≤ curCycle) .late
  ensure (lastEvCycle1 ≤ lastEvCycle2) .negativeSkew
  let skew := diff64 lastEvCycle2 lastEvCycle1
  setRec fun r => { r with gapCycles := r.gapCycles + skew }
  pure skew

/-- The last event has run: the core was halted from its start on. -/
def halt : Act R Unit := do
  let r ← observe fun s => s.cRec
  ensure (r.state = .draining) .notDraining
  setRec fun r => { r with lastUnhaltedCycle := r.lastEventSimulatedStartCycle, state := .halted }

/-- The weave phase: the events run in order, each after the contention it meets, until
one does not start in this phase. -/
def simulate (report : Event → ℕ → Act R Unit) : List Event → (ℕ → ℕ) → Act R Unit
  | [], _ => pure ()
  | ev :: events, contention => do
    let s ← observe fun s => s
    let start := max s.globPhaseCycles (ev.trigger.earliest s.cRec.lastEventSimulatedStartCycle) +
      contention 0
    if start < s.globPhaseCycles + s.phaseLength then do
      report ev start
      simulate report events fun i => contention (i + 1)
    else pure ()

/-- `getUnhaltedCycles`. -/
def getUnhaltedCycles (s : Core R) : ℕ :=
  let cycle := max s.curCycle s.globPhaseCycles
  let haltedCycles := s.cRec.totalHaltedCycles +
    if s.cRec.state = .halted then diff64 cycle s.cRec.lastUnhaltedCycle else 0
  diff64 cycle haltedCycles

/-- `ProcessStats::updateCore`, at a deschedule or at the end of a phase. -/
def updateCore : Act R Unit := do
  let s ← observe fun s => s
  let cCycles := getUnhaltedCycles s
  ensure (s.lastCoreCycles ≤ cCycles) .backwards
  change fun s => { s with
    processCycles := s.processCycles + diff64 cCycles s.lastCoreCycles
    lastCoreCycles := cCycles }

/-- The next phase begins. -/
def nextPhase : Act R Unit :=
  change fun s => { s with globPhaseCycles := s.globPhaseCycles + s.phaseLength, simulated := false }

end Common

/-- What an access leaves for the recorder. -/
structure TimingRecord where
  isGet : Bool
  reqCycle : ℕ
  respCycle : ℕ

/-- What `prevRespEvent` points to. -/
inductive PrevResp where
  | null
  /-- The last `TimingCoreEvent`. -/
  | core
  /-- The end of an access. -/
  | access
  deriving DecidableEq, Repr

/-- `CoreRecorder`. -/
structure CoreRecorder where
  prevRespEvent : PrevResp
  prevRespCycle : ℕ
  /-- The delay from the start of the last event of the core to `prevRespEvent`. -/
  prevRespDelay : ℕ

namespace CoreRecorder

/-- Link an event with the last one; `delay` is its own delay. -/
def addEvent (delay : ℕ) : Act CoreRecorder Unit := do
  let s ← observe fun s => s
  ensure (s.own.prevRespEvent ≠ .null) .noLastEvent
  setRec fun r => r.push
    ⟨diff64 s.own.prevRespCycle s.cRec.gapCycles, .chained s.own.prevRespDelay⟩
  change fun s => { s with own := { s.own with prevRespEvent := .core, prevRespDelay := delay32 delay } }

/-- `CoreRecorder::notifyJoin`. -/
def notifyJoin (curCycle : ℕ) : Act CoreRecorder ℕ := do
  let s ← observe fun s => s
  let curCycle ← (match s.cRec.state with
    | .halted => do
      ensure (s.own.prevRespEvent = .null) .lingering
      let curCycle ← unhalt
      setRec fun r => r.push ⟨curCycle, .queued curCycle⟩
      change fun s => { s with own := ⟨.core, curCycle, 0⟩ }
      pure curCycle
    | .draining => do
      ensure (s.globPhaseCycles ≤ curCycle) .outOfSync
      pure curCycle
    | .running => abort .invalidState)
  setRec fun r => { r with state := .running }
  pure curCycle

/-- `CoreRecorder::notifyLeave`. -/
def notifyLeave (curCycle : ℕ) : Act CoreRecorder Unit := do
  let s ← observe fun s => s
  ensure (s.cRec.state = .running) .invalidState
  setRec fun r => { r with state := .draining }
  ensure (s.own.prevRespEvent ≠ .null) .noLastEvent
  addEvent (diff64 curCycle s.own.prevRespCycle)
  change fun s => { s with own := { s.own with prevRespCycle := curCycle } }
  addEvent 0

/-- `CoreRecorder::recordAccess`. A PUT is linked with the last event, and is not
followed by one. -/
def recordAccess (startCycle : ℕ) (tr : TimingRecord) : Act CoreRecorder Unit := do
  let s ← observe fun s => s
  ensure (s.own.prevRespCycle ≤ startCycle) .early
  ensure (startCycle ≤ tr.reqCycle) .early
  if tr.isGet = true then do
    addEvent (diff64 tr.reqCycle s.own.prevRespCycle)
    change fun s => { s with own :=
      ⟨.access, tr.respCycle, s.own.prevRespDelay + (tr.respCycle - tr.reqCycle)⟩ }
  else ensure (s.own.prevRespEvent ≠ .null) .noLastEvent

/-- `CoreRecorder::cSimStart`. -/
def cSimStart (curCycle : ℕ) : Act CoreRecorder ℕ := do
  let s ← observe fun s => s
  let nextPhaseCycle := s.globPhaseCycles + s.phaseLength
  match s.cRec.state with
  | .halted => pure curCycle
  | .running => do
    ensure (nextPhaseCycle ≤ curCycle) .shortPhase
    (if s.own.prevRespCycle < curCycle then do
        addEvent (diff64 curCycle s.own.prevRespCycle)
        change fun s => { s with own := { s.own with prevRespCycle := curCycle } }
      else pure ())
    -- it starts in the next phase, so that it never runs in this one
    addEvent 0
    pure curCycle
  | .draining => pure (max curCycle nextPhaseCycle)

/-- `CoreRecorder::reportEventSimulated`. -/
def reportEventSimulated (ev : Event) (startCycle : ℕ) : Act CoreRecorder Unit := do
  setRec fun r => { r with
    lastEventSimulatedStartCycle := startCycle
    lastEventSimulatedZllStartCycle := ev.zllStartCycle
    events := r.events.tail }
  let s ← observe fun s => s
  if s.cRec.events = [] ∧ s.own.prevRespEvent = .core then do
    ensure (s.cRec.state = .draining) .notDraining
    change fun s => { s with own := { s.own with prevRespEvent := .null } }
  else pure ()

/-- `CoreRecorder::cSimEnd`. -/
def cSimEnd (curCycle : ℕ) : Act CoreRecorder ℕ := do
  let s ← observe fun s => s
  if s.cRec.state = .halted then pure curCycle
  else do
    let skew ← skewClock curCycle
    change fun s => { s with own := { s.own with prevRespCycle := s.own.prevRespCycle + skew } }
    (if s.own.prevRespEvent = .null then halt else pure ())
    pure (curCycle + skew)

end CoreRecorder

/-- `OOOCoreRecorder`: `lastEvProduced` is the last of the events that have not run. -/
structure OOOCoreRecorder where

namespace OOOCoreRecorder

/-- `OOOCoreRecorder::addIssueEvent`. -/
def addIssueEvent (evCycle : ℕ) : Act OOOCoreRecorder Unit := do
  let s ← observe fun s => s
  match s.cRec.events.getLast? with
  | none => abort .noLastEvent
  | some lastEvProduced => do
    let zllCycle := diff64 evCycle s.cRec.gapCycles
    ensure (lastEvProduced.zllStartCycle ≤ zllCycle) .early
    setRec fun r => r.push ⟨zllCycle, .chained (delay32 (diff64 zllCycle lastEvProduced.zllStartCycle))⟩

/-- `OOOCoreRecorder::notifyJoin`. -/
def notifyJoin (curCycle : ℕ) : Act OOOCoreRecorder ℕ := do
  let s ← observe fun s => s
  let curCycle ← (match s.cRec.state with
    | .halted => do
      ensure (s.cRec.events = []) .lingering
      let curCycle ← unhalt
      setRec fun r => r.push ⟨curCycle, .queued curCycle⟩
      pure curCycle
    | .draining => do
      ensure (s.globPhaseCycles ≤ curCycle) .outOfSync
      addIssueEvent curCycle
      pure curCycle
    | .running => abort .invalidState)
  setRec fun r => { r with state := .running }
  pure curCycle

/-- `OOOCoreRecorder::notifyLeave`. -/
def notifyLeave (curCycle : ℕ) : Act OOOCoreRecorder Unit := do
  let s ← observe fun s => s
  ensure (s.cRec.state = .running) .invalidState
  setRec fun r => { r with state := .draining }
  addIssueEvent curCycle

/-- `OOOCoreRecorder::recordAccess`. A PUT is linked with the last event, and is not
followed by one. -/
def recordAccess (curCycle : ℕ) (isGet : Bool) : Act OOOCoreRecorder Unit :=
  if isGet = true then addIssueEvent curCycle
  else do
    let s ← observe fun s => s
    ensure (s.cRec.events ≠ []) .noLastEvent

/-- `OOOCoreRecorder::cSimStart`. -/
def cSimStart (curCycle : ℕ) : Act OOOCoreRecorder ℕ := do
  let s ← observe fun s => s
  let nextPhaseCycle := s.globPhaseCycles + s.phaseLength
  let zllCycle := diff64 curCycle s.cRec.gapCycles
  let zllNextPhaseCycle := diff64 nextPhaseCycle s.cRec.gapCycles
  match s.cRec.state with
  | .halted => pure curCycle
  | .running => do
    ensure (nextPhaseCycle < curCycle) .shortPhase
    match s.cRec.events.getLast? with
    | none => abort .noLastEvent
    | some lastEvProduced => do
      ensure (lastEvProduced.zllStartCycle ≤ zllCycle) .early
      (if lastEvProduced.zllStartCycle < zllNextPhaseCycle then addIssueEvent nextPhaseCycle
        else pure ())
      pure curCycle
  | .draining => pure (max curCycle nextPhaseCycle)

/-- `OOOCoreRecorder::reportIssueEventSimulated`. -/
def reportIssueEventSimulated (ev : Event) (startCycle : ℕ) : Act OOOCoreRecorder Unit :=
  setRec fun r => { r with
    lastEventSimulatedZllStartCycle := ev.zllStartCycle
    lastEventSimulatedStartCycle := startCycle
    events := r.events.tail }

/-- `OOOCoreRecorder::cSimEnd`. -/
def cSimEnd (curCycle : ℕ) : Act OOOCoreRecorder ℕ := do
  let s ← observe fun s => s
  if s.cRec.state = .halted then pure curCycle
  else do
    let skew ← skewClock curCycle
    (if s.cRec.events = [] then halt else pure ())
    pure (curCycle + skew)

end OOOCoreRecorder

/-- A kind of core: what the scheduler and the end of a phase call, and what its
thread does, of which there are as many kinds as `A` has. -/
structure CoreModel (R A : Type) where
  join : Act R Unit
  leave : Act R Unit
  work : A → Act R Unit
  cSimStart : Act R Unit
  reportSimulated : Event → ℕ → Act R Unit
  cSimEnd : Act R Unit

namespace TimingCore

def join : Act CoreRecorder Unit := do
  let curCycle ← observe fun s => s.curCycle
  let curCycle ← CoreRecorder.notifyJoin curCycle
  change fun s => { s with curCycle := curCycle }

def leave : Act CoreRecorder Unit := do
  let curCycle ← observe fun s => s.curCycle
  CoreRecorder.notifyLeave curCycle

/-- `TimingCore::loadAndRecord` and `storeAndRecord`; the cache answers after `latency` cycles. -/
def loadAndRecord (latency : ℕ) (tr : Option TimingRecord) : Act CoreRecorder Unit := do
  let startCycle ← observe fun s => s.curCycle
  change fun s => { s with curCycle := startCycle + latency }
  match tr with
  | none => pure ()
  | some tr => CoreRecorder.recordAccess startCycle tr

/-- `TimingCore::bblAndRecord`. -/
def bblAndRecord (instrs : ℕ) (fetches : List (ℕ × Option TimingRecord)) : Act CoreRecorder Unit := do
  change fun s => { s with curCycle := s.curCycle + instrs }
  fetches.foldlM (fun _ fetch => loadAndRecord fetch.1 fetch.2) ()

def cSimStart : Act CoreRecorder Unit := do
  let curCycle ← observe fun s => s.curCycle
  let curCycle ← CoreRecorder.cSimStart curCycle
  change fun s => { s with curCycle := curCycle }

def cSimEnd : Act CoreRecorder Unit := do
  let curCycle ← observe fun s => s.curCycle
  let curCycle ← CoreRecorder.cSimEnd curCycle
  change fun s => { s with curCycle := curCycle }

/-- What a thread does on the core. -/
inductive Work where
  | access (latency : ℕ) (tr : Option TimingRecord)
  | bbl (instrs : ℕ) (fetches : List (ℕ × Option TimingRecord))

def work : Work → Act CoreRecorder Unit
  | .access latency tr => loadAndRecord latency tr
  | .bbl instrs fetches => bblAndRecord instrs fetches

def model : CoreModel CoreRecorder Work where
  join := join
  leave := leave
  work := work
  cSimStart := cSimStart
  reportSimulated := CoreRecorder.reportEventSimulated
  cSimEnd := cSimEnd

end TimingCore

namespace OOOCore

/-- `OOOCore::advance`, where the target lies ahead. -/
def advance (targetCycle : ℕ) : Act OOOCoreRecorder Unit := do
  let curCycle ← observe fun s => s.curCycle
  if curCycle < targetCycle then change fun s => { s with curCycle := targetCycle } else pure ()

def join : Act OOOCoreRecorder Unit := do
  let curCycle ← observe fun s => s.curCycle
  let targetCycle ← OOOCoreRecorder.notifyJoin curCycle
  advance targetCycle

def leave : Act OOOCoreRecorder Unit := do
  let curCycle ← observe fun s => s.curCycle
  OOOCoreRecorder.notifyLeave curCycle

def cSimStart : Act OOOCoreRecorder Unit := do
  let curCycle ← observe fun s => s.curCycle
  let targetCycle ← OOOCoreRecorder.cSimStart curCycle
  ensure (curCycle ≤ targetCycle) .targetPassed
  advance targetCycle

def cSimEnd : Act OOOCoreRecorder Unit := do
  let curCycle ← observe fun s => s.curCycle
  let targetCycle ← OOOCoreRecorder.cSimEnd curCycle
  ensure (curCycle ≤ targetCycle) .targetPassed
  advance targetCycle

/-- What a thread does on the core. The instruction window only ever advances its clock. -/
inductive Work where
  | bbl (cycles : ℕ)
  | record (isGet : Bool)

def work : Work → Act OOOCoreRecorder Unit
  | .bbl cycles => change fun s => { s with curCycle := s.curCycle + cycles }
  | .record isGet => do
    let curCycle ← observe fun s => s.curCycle
    OOOCoreRecorder.recordAccess curCycle isGet

def model : CoreModel OOOCoreRecorder Work where
  join := join
  leave := leave
  work := work
  cSimStart := cSimStart
  reportSimulated := OOOCoreRecorder.reportIssueEventSimulated
  cSimEnd := cSimEnd

end OOOCore

/-- What happens to a core. -/
inductive Op (A : Type) where
  | join
  | leave
  | work (a : A)
  /-- `ContentionSim::simulatePhase`; the events meet contention in their order. -/
  | simulatePhase (contention : ℕ → ℕ)
  | nextPhase
  | updateCore

section Steps

variable {R A : Type}

/-- `ContentionSim::simulatePhase`, for one core. -/
def CoreModel.simulatePhase (M : CoreModel R A) (contention : ℕ → ℕ) : Act R Unit := do
  M.cSimStart
  let events ← observe fun s => s.cRec.events
  simulate M.reportSimulated events contention
  M.cSimEnd
  change fun s => { s with simulated := true }

def CoreModel.perform (M : CoreModel R A) : Op A → Act R Unit
  | .join => M.join
  | .leave => M.leave
  | .work a => M.work a
  | .simulatePhase contention => M.simulatePhase contention
  | .nextPhase => nextPhase
  | .updateCore => updateCore

/-- Threads act in the bound phase, and on a running core. -/
def Legal (s : Core R) : Op A → Prop
  | .join => s.simulated = false
  | .leave => s.simulated = false
  | .work _ => s.simulated = false ∧ s.cRec.state = .running
  | .simulatePhase _ => s.simulated = false
  | .nextPhase => s.simulated = true
  | .updateCore => True

instance (s : Core R) : (op : Op A) → Decidable (Legal s op)
  | .join => inferInstanceAs (Decidable (s.simulated = false))
  | .leave => inferInstanceAs (Decidable (s.simulated = false))
  | .work _ => inferInstanceAs (Decidable (s.simulated = false ∧ s.cRec.state = .running))
  | .simulatePhase _ => inferInstanceAs (Decidable (s.simulated = false))
  | .nextPhase => inferInstanceAs (Decidable (s.simulated = true))
  | .updateCore => inferInstanceAs (Decidable True)

/-- One step; after a failure there is none. -/
def CoreModel.step (M : CoreModel R A) :
    Except CoreFailure (Core R) → Op A → Option (Except CoreFailure (Core R))
  | .error _, _ => none
  | .ok s, op => if Legal s op then some ((M.perform op s).map fun r => r.2) else none

end Steps
end Zsim.CoreRecorders
