import Mathlib.Data.Nat.Notation
import Mathlib.Data.List.Perm.Basic
import Mathlib.Logic.Function.Basic

/-!
# The queues of the scheduler

A thread is on a context, in one of three queues, chosen for a hand-off, or
outside. The contexts take part in the phases through the barrier, of which
only the states of the contexts are kept here: a phase ends when every context
that takes part has run in it.
-/

namespace Zsim.SchedQueues

inductive ThreadState where
  | started
  | running
  | out
  | blocked
  | sleeping
  | queued
deriving DecidableEq

inductive ContextState where
  | idle
  | used
deriving DecidableEq

/-- Where the host thread of a RUNNING thread is. -/
inductive Place where
  | user
  /-- It waits for the barrier in `join`. -/
  | joining
  /-- It waits for the barrier in `sync`. -/
  | syncing
deriving DecidableEq

/-- A context in the barrier. -/
inductive BarState where
  /-- OFFLINE or LEFT. -/
  | left
  /-- WAITING to run in this phase. -/
  | ready
  | running
  /-- WAITING, and has run in this phase. -/
  | done
deriving DecidableEq

structure ThreadInfo where
  state : ThreadState
  cid : ℕ
  handoffThread : Option ℕ
  markedForSleep : Bool
  wakeupPhase : ℕ
  mask : ℕ → Bool
  fakeLeave : Bool
  /-- Its `gid` is in `gidMap`. -/
  registered : Bool
  place : Place

structure ContextInfo where
  state : ContextState
  curThread : Option ℕ

/-- The scheduler; threads and their queues are named by `gid`. -/
structure Sched where
  numCores : ℕ
  schedQuantum : ℕ
  /-- The threads that are not deleted. -/
  live : List ℕ
  thread : ℕ → ThreadInfo
  context : ℕ → ContextInfo
  freeList : List ℕ
  runQueue : List ℕ
  outQueue : List ℕ
  sleepQueue : List ℕ
  curPhase : ℕ
  scheduledThreads : ℕ
  bar : ℕ → BarState

/-- A thread that has just started. -/
def ThreadInfo.new (mask : ℕ → Bool) : ThreadInfo where
  state := .started
  cid := 0
  handoffThread := none
  markedForSleep := false
  wakeupPhase := 0
  mask := mask
  fakeLeave := false
  registered := true
  place := .user

namespace Sched

def init (numCores schedQuantum : ℕ) : Sched where
  numCores := numCores
  schedQuantum := schedQuantum
  live := []
  thread _ := .new fun _ => false
  context _ := ⟨.idle, none⟩
  freeList := List.range numCores
  runQueue := []
  outQueue := []
  sleepQueue := []
  curPhase := 0
  scheduledThreads := 0
  bar _ := .left

def setThread (s : Sched) (g : ℕ) (th : ThreadInfo) : Sched :=
  { s with thread := Function.update s.thread g th }

def setBar (s : Sched) (c : ℕ) (b : BarState) : Sched := { s with bar := Function.update s.bar c b }

/-- The thread is in no queue. -/
def unowned (s : Sched) (g : ℕ) : Prop := g ∉ s.runQueue ∧ g ∉ s.outQueue ∧ g ∉ s.sleepQueue

instance (s : Sched) (g : ℕ) : Decidable (s.unowned g) := inferInstanceAs (Decidable (_ ∧ _))

section Contexts

/-- `schedule`. -/
def schedule (s : Sched) (g c : ℕ) : Option Sched :=
  let th := s.thread g
  if (th.state = .started ∨ th.state = .blocked ∨ th.state = .queued) ∧
      (s.context c).state = .idle ∧ (s.context c).curThread = none then
    some { s with
      thread := Function.update s.thread g { th with state := .running, cid := c }
      context := Function.update s.context c ⟨.used, some g⟩
      scheduledThreads := s.scheduledThreads + 1 }
  else none

/-- `deschedule`. -/
def deschedule (s : Sched) (g c : ℕ) (targetState : ThreadState) : Option Sched :=
  let th := s.thread g
  if (th.state = .running ∨ th.state = .out) ∧ (s.context c).state = .used ∧ c = th.cid ∧
      (s.context c).curThread = some g ∧
      (targetState = .blocked ∨ targetState = .queued ∨ targetState = .sleeping) then
    some { s with
      thread := Function.update s.thread g { th with state := targetState }
      context := Function.update s.context c ⟨.idle, none⟩
      scheduledThreads := s.scheduledThreads - 1 }
  else none

/-- `wakeup`, from `waitForContext` or from a sleep. -/
def wakeup (s : Sched) (g : ℕ) : Sched := s.setThread g { s.thread g with place := .user }

/-- `schedThread`: a context for the thread, taken from its list or from a
thread that is OUT. -/
def schedThread (s : Sched) (g : ℕ) : Option (Option ℕ × Sched) :=
  let th := s.thread g
  if th.cid < s.numCores then
    if (s.context th.cid).state = .idle ∧ th.mask th.cid = true then
      if th.cid ∈ s.freeList then some (some th.cid, { s with freeList := s.freeList.erase th.cid }) else none
    else
      match s.freeList.find? th.mask with
      | some c => some (some c, { s with freeList := s.freeList.erase c })
      | none =>
        match s.outQueue.find? fun outTh => th.mask (s.thread outTh).cid with
        | some outTh =>
          let c := (s.thread outTh).cid
          ({ s with outQueue := s.outQueue.erase outTh }.deschedule outTh c .blocked).map
            fun s => (some c, s)
        | none => some (none, s)
  else none

/-- `schedContext`: a queued thread for the context. -/
def schedContext (s : Sched) (c : ℕ) : Option ℕ × Sched :=
  match s.runQueue.find? fun blockedTh => (s.thread blockedTh).mask c with
  | some g => (some g, { s with runQueue := s.runQueue.erase g })
  | none => (none, s)

end Contexts

section Phases

/-- The loop of `schedTick` over `runQueue`, with the available contexts. -/
def schedTick (s : Sched) : List ℕ → List ℕ → Option Sched
  | [], _ => some s
  | _, [] => some s
  | g :: l, avail =>
    match avail.find? (s.thread g).mask with
    | none => schedTick s l avail
    | some c =>
      match (s.context c).curThread with
      | none => none
      | some victimTh =>
        schedTick { s with
          thread := Function.update s.thread victimTh { s.thread victimTh with handoffThread := some g }
          runQueue := s.runQueue.erase g } l (avail.erase c)

/-- The loop of `callback` over `sleepQueue`. -/
def wakeSleepers (s : Sched) : List ℕ → Option Sched
  | [] => some s
  | g :: l =>
    if (s.thread g).wakeupPhase ≤ s.curPhase then
      if (s.thread g).wakeupPhase = s.curPhase then
        wakeSleepers { s with
          thread := Function.update s.thread g { s.thread g with state := .blocked, place := .user }
          sleepQueue := s.sleepQueue.tail } l
      else none
    else some s

/-- `callback`; `avail` is the shuffled list of the contexts. -/
def callback (s : Sched) (avail : List ℕ) : Option Sched :=
  if s.scheduledThreads ≤ s.numCores then
    let s := { s with curPhase := s.curPhase + 1 }
    (s.wakeSleepers s.sleepQueue).bind fun s =>
      if s.runQueue = [] then some s
      else if s.curPhase % s.schedQuantum = 0 then s.schedTick s.runQueue avail
      else some s
  else none

/-- Every context that takes part has run, and some context takes part. -/
def phaseOver (s : Sched) : Prop :=
  (∀ c < s.numCores, s.bar c = .left ∨ s.bar c = .done) ∧ ∃ c < s.numCores, s.bar c = .done

instance (s : Sched) : Decidable s.phaseOver := inferInstanceAs (Decidable (_ ∧ _))

/-- `tryWakeNext` as far as it ends the phase. -/
def tryEndPhase (s : Sched) (avail : List ℕ) : Option Sched :=
  if s.phaseOver then
    (s.callback avail).map fun s =>
      { s with bar := fun c => if s.bar c = .done then .ready else s.bar c }
  else some s

/-- `Barrier::join`. -/
def barJoin (s : Sched) (c : ℕ) : Option Sched :=
  if s.bar c = .left then some (s.setBar c .ready) else none

/-- `Barrier::leave`. -/
def barLeave (s : Sched) (c : ℕ) (avail : List ℕ) : Option Sched :=
  match s.bar c with
  | .running => (s.setBar c .left).tryEndPhase avail
  | .left => none
  | _ => some (s.setBar c .left)

/-- `Barrier::sync`. -/
def barSync (s : Sched) (c : ℕ) (avail : List ℕ) : Option Sched :=
  if s.bar c = .running then (s.setBar c .done).tryEndPhase avail else none

end Phases

section Calls

/-- The ordered insertion into `sleepQueue`. -/
def insertSleeper (wakeupPhase : ℕ → ℕ) (g : ℕ) : List ℕ → List ℕ
  | [] => [g]
  | cur :: l =>
    if wakeupPhase g < wakeupPhase cur then g :: cur :: l else cur :: insertSleeper wakeupPhase g l

/-- `start`. -/
def start (s : Sched) (g : ℕ) (mask : ℕ → Bool) : Option Sched :=
  if g ∉ s.live ∧ ∃ c < s.numCores, mask c = true then
    some { s.setThread g (.new mask) with live := g :: s.live }
  else none

/-- A thread that is marked for sleep is descheduled eagerly. -/
def fallAsleep (s : Sched) (g c : ℕ) : Option Sched :=
  ((s.setThread g { s.thread g with markedForSleep := false }).deschedule g c .sleeping).bind fun s =>
    if s.unowned g then
      some { s with sleepQueue := insertSleeper (fun t => (s.thread t).wakeupPhase) g s.sleepQueue }
    else none

/-- The context of a sleeper goes to a queued thread or to the list. -/
def passContext (s : Sched) (c : ℕ) (avail : List ℕ) : Option Sched :=
  match s.schedContext c with
  | (some inTh, s) => (s.schedule inTh c).map fun s => s.wakeup inTh
  | (none, s) =>
    if c ∈ s.freeList then none else { s with freeList := s.freeList ++ [c] }.barLeave c avail

/-- `leave`, with the lock held all along. -/
def leave (s : Sched) (g c : ℕ) (avail : List ℕ) : Option Sched :=
  if (s.context c).curThread = some g ∧ (s.thread g).state = .running then
    if (s.thread g).markedForSleep = true then
      (s.fallAsleep g c).bind fun s => s.passContext c avail
    else
      match s.schedContext c with
      | (some inTh, s) =>
        (s.deschedule g c .blocked).bind fun s => (s.schedule inTh c).map fun s => s.wakeup inTh
      | (none, s) =>
        if s.unowned g then
          { s.setThread g { s.thread g with state := .out } with outQueue := s.outQueue ++ [g] }.barLeave c avail
        else none
  else none

/-- The thread waits in `join` for the barrier. -/
def enterBarrier (s : Sched) (g c : ℕ) : Option Sched :=
  (s.barJoin c).map fun s => s.setThread g { s.thread g with place := .joining }

/-- A thread that is on no context gets one or queues. -/
def findContext (s : Sched) (g : ℕ) : Option Sched :=
  (s.schedThread g).bind fun r =>
    match r with
    | (some c, s) => (s.schedule g c).bind fun s => s.enterBarrier g c
    | (none, s) =>
      if s.unowned g then
        some { s.setThread g { s.thread g with state := .queued } with runQueue := s.runQueue ++ [g] }
      else none

/-- `join`, after the futex matching. -/
def join (s : Sched) (g : ℕ) : Option Sched :=
  let th := s.thread g
  if th.fakeLeave = true then
    if th.state = .running then some (s.setThread g { th with fakeLeave := false }) else none
  else if th.markedForSleep = true then none
  else
    match th.state with
    | .sleeping =>
      if g ∈ s.sleepQueue then
        { s.setThread g { th with state := .blocked } with sleepQueue := s.sleepQueue.erase g }.findContext g
      else none
    | .out =>
      if g ∈ s.outQueue then
        { s.setThread g { th with state := .running } with outQueue := s.outQueue.erase g }.enterBarrier g th.cid
      else none
    | .blocked => s.findContext g
    | .started => s.findContext g
    | _ => none

/-- `sync` until it waits for the barrier. -/
def sync (s : Sched) (c : ℕ) (avail : List ℕ) : Option Sched :=
  match (s.context c).curThread with
  | none => none
  | some g =>
    if (s.thread g).markedForSleep = true then none
    else (s.setThread g { s.thread g with place := .syncing }).barSync c avail

/-- `sync` from the barrier on: hand off the context if that has been requested. -/
def resume (s : Sched) (g : ℕ) : Option Sched :=
  match (s.thread g).handoffThread with
  | none => some (s.setThread g { s.thread g with place := .user })
  | some dst =>
    let c := (s.thread g).cid
    (((s.setThread g { s.thread g with handoffThread := none }).deschedule g c .queued).bind fun s =>
      (s.schedule dst c).map fun s => s.wakeup dst).bind fun s => s.findContext g

/-- `markForSleep`. -/
def markForSleep (s : Sched) (g wakeupPhase : ℕ) : Option Sched :=
  if (s.thread g).markedForSleep = true then none
  else some (s.setThread g { s.thread g with markedForSleep := true, wakeupPhase := wakeupPhase })

/-- `notifySleepEnd`. -/
def notifySleepEnd (s : Sched) (g : ℕ) : Option Sched :=
  let th := s.thread g
  if th.markedForSleep = true then none
  else
    match th.state with
    | .blocked => some s
    | .sleeping =>
      if g ∈ s.sleepQueue then
        some { s.setThread g { th with state := .blocked } with sleepQueue := s.sleepQueue.erase g }
      else none
    | _ => none

/-- `syscallLeave` when it does not leave. -/
def syscallLeave (s : Sched) (g : ℕ) : Option Sched :=
  let th := s.thread g
  if (s.context th.cid).curThread = some g ∧ th.state = .running ∧ th.fakeLeave = false then
    some (s.setThread g { th with fakeLeave := true })
  else none

/-- `finish` from its assertion on the state on. -/
def finishRest (s : Sched) (g : ℕ) : Option Sched :=
  match (s.thread g).state with
  | .queued =>
    if g ∈ s.runQueue then some { s with runQueue := s.runQueue.erase g, live := s.live.erase g } else none
  | .running => none
  | .sleeping => none
  | _ =>
    if s.unowned g then some { s with live := s.live.erase g }
    else if g ∈ s.outQueue then
      let c := (s.thread g).cid
      ({ s with outQueue := s.outQueue.erase g }.deschedule g c .blocked).bind fun s =>
        if c ∈ s.freeList then none
        else some { s with freeList := s.freeList ++ [c], live := s.live.erase g }
    else none

/-- `finish` until a RUNNING thread, also one in a fake leave, has left. -/
def finishLeave (s : Sched) (g : ℕ) (avail : List ℕ) : Option Sched :=
  let th := s.thread g
  if th.registered = true then
    if th.fakeLeave = true ∧ th.state ≠ .running then none
    else
      let s := s.setThread g { th with registered := false, fakeLeave := false }
      if th.state = .running then s.leave g th.cid avail else some s
  else none

end Calls

end Sched

/-- What happens to the scheduler. -/
inductive SchedOp where
  | start (g : ℕ) (mask : ℕ → Bool)
  | join (g : ℕ)
  | leave (g : ℕ) (avail : List ℕ)
  | syscallLeave (g : ℕ)
  | sync (g : ℕ) (avail : List ℕ)
  /-- The barrier wakes up a context. -/
  | release (c : ℕ)
  /-- `Barrier::join` returns. -/
  | joined (g : ℕ)
  /-- `Barrier::sync` returns. -/
  | resume (g : ℕ)
  | markForSleep (g wakeupPhase : ℕ)
  | notifySleepEnd (g : ℕ)
  /-- The watchdog drives time forward while nothing runs. -/
  | watchdog (avail : List ℕ)
  | finish (g : ℕ) (avail : List ℕ)
  | finishRest (g : ℕ)

open Sched

/-- One event; none where an assertion fails. -/
def step (s : Sched) : SchedOp → Option Sched
  | .start g mask => s.start g mask
  | .join g => s.join g
  | .leave g avail => s.leave g (s.thread g).cid avail
  | .syscallLeave g => s.syscallLeave g
  | .sync g avail => s.sync (s.thread g).cid avail
  | .release c => some (s.setBar c .running)
  | .joined g => some (s.setThread g { s.thread g with place := .user })
  | .resume g => s.resume g
  | .markForSleep g wakeupPhase => s.markForSleep g wakeupPhase
  | .notifySleepEnd g => s.notifySleepEnd g
  | .watchdog avail => s.callback avail
  | .finish g avail =>
    -- the lock is released after the thread has left
    (s.finishLeave g avail).bind fun s' =>
      if (s.thread g).state = .running then some s' else s'.finishRest g
  | .finishRest g => s.finishRest g

/-- The thread runs its program on its context. -/
def Executing (s : Sched) (g : ℕ) : Prop :=
  g ∈ s.live ∧ (s.thread g).registered = true ∧ (s.thread g).state = .running ∧
    (s.thread g).place = .user ∧ (s.thread g).fakeLeave = false

instance (s : Sched) (g : ℕ) : Decidable (Executing s g) := inferInstanceAs (Decidable (_ ∧ _))

/-- When a thread, the barrier or the watchdog causes the event. -/
def Enabled (s : Sched) : SchedOp → Prop
  | .start g mask => g ∉ s.live ∧ ∃ c < s.numCores, mask c = true
  | .join g => g ∈ s.live ∧ (s.thread g).registered = true ∧ (s.thread g).markedForSleep = false ∧
    ((s.thread g).fakeLeave = true ∨ (s.thread g).state = .started ∨ (s.thread g).state = .blocked ∨
      (s.thread g).state = .out ∨ (s.thread g).state = .sleeping)
  | .leave g avail => Executing s g ∧ avail.Perm (List.range s.numCores)
  | .syscallLeave g => Executing s g ∧ (s.thread g).markedForSleep = false
  | .sync g avail => Executing s g ∧ (s.thread g).markedForSleep = false ∧
    avail.Perm (List.range s.numCores)
  | .release c => c < s.numCores ∧ s.bar c = .ready
  | .joined g => g ∈ s.live ∧ (s.thread g).state = .running ∧ (s.thread g).place = .joining ∧
    s.bar (s.thread g).cid = .running
  | .resume g => g ∈ s.live ∧ (s.thread g).state = .running ∧ (s.thread g).place = .syncing ∧
    s.bar (s.thread g).cid = .running
  | .markForSleep g wakeupPhase => g ∈ s.live ∧ (s.thread g).registered = true ∧
    (s.thread g).markedForSleep = false ∧ s.curPhase < wakeupPhase ∧
    (Executing s g ∨ (s.thread g).state = .started ∨ (s.thread g).state = .blocked ∨
      (s.thread g).state = .out)
  | .notifySleepEnd g => g ∈ s.live ∧ (s.thread g).registered = true ∧
    (s.thread g).markedForSleep = false ∧
    ((s.thread g).state = .sleeping ∨ (s.thread g).state = .blocked)
  | .watchdog avail => s.scheduledThreads = s.outQueue.length ∧ s.sleepQueue ≠ [] ∧
    avail.Perm (List.range s.numCores)
  | .finish g avail => g ∈ s.live ∧ (s.thread g).registered = true ∧
    (s.thread g).state ≠ .sleeping ∧ avail.Perm (List.range s.numCores)
  | .finishRest g => g ∈ s.live ∧ (s.thread g).registered = false

instance (s : Sched) : (op : SchedOp) → Decidable (Enabled s op)
  | .start .. => inferInstanceAs (Decidable (_ ∧ _))
  | .join _ => inferInstanceAs (Decidable (_ ∧ _))
  | .leave .. => inferInstanceAs (Decidable (_ ∧ _))
  | .syscallLeave _ => inferInstanceAs (Decidable (_ ∧ _))
  | .sync .. => inferInstanceAs (Decidable (_ ∧ _))
  | .release _ => inferInstanceAs (Decidable (_ ∧ _))
  | .joined _ => inferInstanceAs (Decidable (_ ∧ _))
  | .resume _ => inferInstanceAs (Decidable (_ ∧ _))
  | .markForSleep .. => inferInstanceAs (Decidable (_ ∧ _))
  | .notifySleepEnd _ => inferInstanceAs (Decidable (_ ∧ _))
  | .watchdog _ => inferInstanceAs (Decidable (_ ∧ _))
  | .finish .. => inferInstanceAs (Decidable (_ ∧ _))
  | .finishRest _ => inferInstanceAs (Decidable (_ ∧ _))

/-- One event that can happen. -/
def perform (s : Sched) (op : SchedOp) : Option Sched := if Enabled s op then step s op else none

end Zsim.SchedQueues
