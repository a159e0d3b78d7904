import Zsim.MemChannel

/-!
# The controller of the detailed memory model

`MemControllerBase` serves an access when its event starts, or, with scheduler
queues, keeps reads and writes in the queues of their channels until a tick
picks them. `enqueue` answers the cycle at which the event is done, none if the
event is held. Cycles of the processor are 64-bit words where the source
subtracts from them.
-/

namespace Zsim.MemController

open WeakestPre Outcomes DetailedMemParams MemAddressMap MemChannel

/-- `MemAccessEventBase`, with the cycle at which it was started. -/
structure MemAccessEventBase where
  type : MemAccessType
  addr : UInt64
  startCycle : ℕ

/-- `MemSchedQueueElem`; only reads keep their event. -/
structure MemSchedQueueElem where
  ev : Option MemAccessEventBase
  addr : UInt64

/-- `MemSchedulerDefault`. -/
structure MemSchedulerDefault where
  prioritizedAccessType : MemAccessType
  wrQueueSize : ℕ
  wrQueueHighWatermark : ℕ
  wrQueueLowWatermark : ℕ
  rdQueue : List MemSchedQueueElem
  wrQueue : List MemSchedQueueElem
  wrDoneQueue : List MemSchedQueueElem

def MemSchedulerDefault.new (p : MemParam) : MemSchedulerDefault where
  prioritizedAccessType := .READ
  wrQueueSize := p.schedulerQueueCount.toNat
  wrQueueHighWatermark := (p.schedulerQueueCount * 2 / 3).toNat
  wrQueueLowWatermark := (p.schedulerQueueCount * 1 / 3).toNat
  rdQueue := []
  wrQueue := []
  wrDoneQueue := []

/-- `MemControllerBase`; `completed` is the history of the `done` calls, the
last one first, with the difference that each call computes. -/
structure MemControllerBase where
  chnls : ℕ → MemChannelBase
  sches : ℕ → MemSchedulerDefault
  lastPhaseCycle : ℕ
  completed : List (MemAccessEventBase × ℤ)

abbrev MemAct (α : Type) := Prog MemControllerBase MemFailure α

/-- The parameters and the two clocks. -/
structure MemConfig extends MemParam where
  sysFreqKHz : ℕ
  memFreqKHz : ℕ
  sysFreqKHz_pos : 0 < sysFreqKHz
  memFreqKHz_pos : 0 < memFreqKHz

/-- A 64-bit word. -/
def word64 (x : ℤ) : ℕ := (x % 2 ^ 64).toNat

section Config

variable (c : MemConfig)

def MemConfig.sysToMemCycle (sysCycle : ℕ) : ℕ := sysCycle * c.memFreqKHz / c.sysFreqKHz

def MemConfig.memToSysCycle (memCycle : ℕ) : ℕ := memCycle * c.sysFreqKHz / c.memFreqKHz

/-- `memMinLatency`, in 32 bits. -/
def MemConfig.memMinLatency (type : MemAccessType) : ℕ :=
  c.memToSysCycle (c.GetDataLatency type).toNat % 2 ^ 32

/-- `minLatency`, in 32 bits: with scheduler queues it is that of a queue hit. -/
def MemConfig.minLatency (type : MemAccessType) : ℕ :=
  let minLatency := if c.schedulerQueueCount = 0 then (c.GetDataLatency type).toNat else 1
  (c.memToSysCycle minLatency + c.controllerLatency.toNat) % 2 ^ 32

def MemConfig.preDelay (type : MemAccessType) : ℕ := c.minLatency type / 2

def MemConfig.postDelay (type : MemAccessType) : ℕ := c.minLatency type - c.preDelay type

/-- What `access` adds to the request cycle. -/
def MemConfig.respCycle (cycle : ℕ) (type : MemAccessType) : ℕ := cycle + c.minLatency type

end Config

/-- The constructor. -/
def MemControllerBase.new (c : MemConfig) : MemControllerBase where
  chnls := fun i => .new (.ofNat i)
  sches := fun _ => .new c.toMemParam
  lastPhaseCycle := 0
  completed := []

/-- Run an action on one channel. -/
def onChannel (channel : ℕ) {α : Type} (m : Act α) : MemAct α := fun s =>
  match m (s.chnls channel) with
  | .ok (a, d) => .ok (a, { s with chnls := Function.update s.chnls channel d })
  | .error e => .error e

theorem ends_onChannel {α : Type} {E : MemFailure → Prop} (channel : ℕ) (m : Act α)
    (Q : α → MemControllerBase → Prop) (s : MemControllerBase) : ends E (onChannel channel m) Q s ↔
      ends E m (fun a d => Q a { s with chnls := Function.update s.chnls channel d })
        (s.chnls channel) := by
  unfold ends onChannel
  cases m (s.chnls channel) <;> rfl

/-- Change one scheduler. -/
def modifySched (channel : ℕ) (f : MemSchedulerDefault → MemSchedulerDefault) : MemAct Unit :=
  change fun s => { s with sches := Function.update s.sches channel (f (s.sches channel)) }

section Scheduler

/-- The position of the first entry for the address. -/
def findAddr (addr : UInt64) (queue : List MemSchedQueueElem) : Option ℕ :=
  queue.findIdx? fun e => e.addr == addr

/-- `CheckSetEvent`: the scheduler afterwards, and whether there was a hit. -/
def MemSchedulerDefault.CheckSetEvent (q : MemSchedulerDefault) (ev : MemAccessEventBase) :
    MemSchedulerDefault × Bool :=
  match findAddr ev.addr q.wrQueue with
  | some i =>
    if ev.type = .WRITE then
      ({ q with wrQueue := q.wrQueue.eraseIdx i ++ [⟨none, ev.addr⟩] }, true)
    else (q, true)
  | none =>
    match findAddr ev.addr q.wrDoneQueue with
    | some i =>
      if ev.type = .READ then
        ({ q with wrDoneQueue := q.wrDoneQueue.eraseIdx i ++ [⟨none, ev.addr⟩] }, true)
      else
        ({ q with
          wrDoneQueue := q.wrDoneQueue.eraseIdx i
          wrQueue := q.wrQueue ++ [⟨none, ev.addr⟩] }, true)
    | none =>
      if ev.type = .READ then ({ q with rdQueue := q.rdQueue ++ [⟨some ev, ev.addr⟩] }, false)
      else
        let wrQueue := q.wrQueue ++ [⟨none, ev.addr⟩]
        -- an overflow drops the oldest write that is done; without one it is only reported
        let wrDoneQueue :=
          if wrQueue.length + q.wrDoneQueue.length = q.wrQueueSize then q.wrDoneQueue.tail
          else q.wrDoneQueue
        ({ q with wrQueue := wrQueue, wrDoneQueue := wrDoneQueue }, false)

variable (p : MemParam)

/-- `FindBestRequest`: the first row hit of the queue from `tmpIdx` on, else the
front of the queue. -/
def FindBestRequest : List MemSchedQueueElem → ℕ → Act ℕ
  | [], _ => pure 0
  | e :: queue, tmpIdx => do
    let loc ← locate p e.addr
    let s ← observe fun s => s
    if (s.ranks loc.rank.toNat).IsRowBufferHit loc.row.toNat loc.bank.toNat then pure tmpIdx
    else FindBestRequest queue (tmpIdx + 1)

/-- `prioritizedAccessType` after the look at the watermarks. -/
def MemSchedulerDefault.priority (q : MemSchedulerDefault) : MemAccessType :=
  if q.wrQueueHighWatermark ≤ q.wrQueue.length then .WRITE
  else if q.wrQueue.length ≤ q.wrQueueLowWatermark then .READ
  else q.prioritizedAccessType

/-- A request that `GetEvent` picked: its event, its address and its type. -/
abbrev Picked := Option MemAccessEventBase × UInt64 × MemAccessType

/-- The part of `GetEvent` that takes a read. -/
def pickRead (channel : ℕ) : MemAct (Option Picked) := do
  let q ← observe fun s => s.sches channel
  let idx ← onChannel channel (FindBestRequest p q.rdQueue 0)
  match q.rdQueue[idx]? with
  | some ⟨some ev, _⟩ =>
    modifySched channel fun q => { q with rdQueue := q.rdQueue.eraseIdx idx }
    pure (some (some ev, ev.addr, ev.type))
  | some ⟨none, _⟩ => abort .outside
  | none => pure none

/-- The part of `GetEvent` that takes a write. -/
def pickWrite (channel : ℕ) : MemAct (Option Picked) := do
  let q ← observe fun s => s.sches channel
  let idx ← onChannel channel (FindBestRequest p q.wrQueue 0)
  match q.wrQueue[idx]? with
  | some e =>
    modifySched channel fun q => { q with
      wrQueue := q.wrQueue.eraseIdx idx
      wrDoneQueue := q.wrDoneQueue ++ [⟨none, e.addr⟩] }
    pure (some (none, e.addr, .WRITE))
  | none => pure none

/-- `GetEvent`. -/
def GetEvent (channel : ℕ) : MemAct (Option Picked) := do
  modifySched channel fun q => { q with prioritizedAccessType := q.priority }
  let q ← observe fun s => s.sches channel
  let picked ← (if q.prioritizedAccessType = .READ then pickRead p channel else pure none)
  match picked with
  | some e => pure (some e)
  | none => pickWrite p channel

end Scheduler

section Controller

variable (c : MemConfig)

/-- `ReturnChannel`, with its panic. -/
def channelIdx (addr : UInt64) : MemAct ℕ := do
  match ReturnChannel c.toMemParam addr with
  | some channel => pure channel.toNat
  | none => abort .interleaveType

/-- `MemControllerBase::LatencySimulate`. -/
def LatencySimulate (lineAddr : UInt64) (sysCycle : ℕ) (type : MemAccessType) : MemAct ℕ := do
  let channel ← channelIdx c lineAddr
  ensure (channel < c.channelCount.toNat) .outside
  let s ← observe fun s => s
  let memLatency ← onChannel channel (MemChannel.LatencySimulate c.toMemParam lineAddr
    (c.sysToMemCycle sysCycle) (c.sysToMemCycle s.lastPhaseCycle) type)
  let sysLatency := c.memToSysCycle memLatency
  ensure (c.memMinLatency type ≤ sysLatency) .minLatency
  pure sysLatency

/-- `ev->done`. -/
def done (ev : MemAccessEventBase) (doneCycle : ℤ) : MemAct Unit :=
  change fun s => { s with completed := (ev, doneCycle) :: s.completed }

/-- `enqueue`, called when the event starts. -/
def enqueue (ev : MemAccessEventBase) : MemAct Unit := do
  let cycle : ℤ := ev.startCycle
  let controllerLatency : ℤ := c.controllerLatency.toNat
  if c.schedulerQueueCount = 0 then
    let startCycle := word64 (cycle - c.preDelay ev.type + controllerLatency)
    let latency ← LatencySimulate c ev.addr startCycle ev.type
    done ev (cycle + latency - c.minLatency ev.type + controllerLatency)
  else
    let channel ← channelIdx c ev.addr
    ensure (channel < c.channelCount.toNat) .outside
    let s ← observe fun s => s
    let (sched, hit) := (s.sches channel).CheckSetEvent ev
    modifySched channel fun _ => sched
    match ev.type with
    | .READ => if hit then done ev (cycle - c.minLatency .READ + controllerLatency)
    | .WRITE => done ev (cycle - c.minLatency .WRITE + controllerLatency)

/-- One channel of `TickScheduler`. -/
def tickChannel (sysCycle channel : ℕ) : MemAct Unit := do
  match ← GetEvent c.toMemParam channel with
  | none => pure ()
  | some (ev, addr, type) =>
    let latency ← LatencySimulate c addr sysCycle type
    match type, ev with
    | .READ, some ev => done ev ((sysCycle : ℤ) - c.minLatency .READ + latency)
    | .READ, none => abort .outside
    | .WRITE, _ => pure ()

/-- `tick`. -/
def tick (sysCycle : ℕ) : MemAct Unit :=
  if c.schedulerQueueCount ≠ 0 then
    (List.range c.channelCount.toNat).forM fun i => tickChannel c sysCycle i
  else pure ()

/-- What can happen to the controller. -/
inductive Input where
  | enqueue (ev : MemAccessEventBase)
  | tick (sysCycle : ℕ)

def perform : Input → MemAct Unit
  | .enqueue ev => enqueue c ev
  | .tick sysCycle => tick c sysCycle

end Controller

end Zsim.MemController
