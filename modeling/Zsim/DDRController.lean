import Mathlib.Algebra.Order.Ring.WithTop
import Mathlib.Order.Lattice.Nat
import Zsim.DDRChannel
import Zsim.GuardedRuns
import Zsim.Outcomes
import Zsim.WeaveLoops

/-!
# The DDR memory controller

Requests wait in a read queue and a write queue, with a list of its requests
for each bank, or in the overflow queue when one of the two is full. The
controller wakes itself up with a `SchedEvent`: an earlier wake-up annuls the
one that is pending, and events that have run are recycled. An input is the run
of an event of an access, the run of a pending `SchedEvent` or a refresh, at a
cycle no earlier than that of the last input.
-/

namespace Zsim.DDRController

open WeakestPre Outcomes WeaveLoops DDRChannel

/-- The assertions of the controller and its events. -/
inductive DDRFailure where
  /-- The input is not possible: its event is not queued or its cycle is in the past. -/
  | refused
  /-- `assert(l.rank < ranksPerChannel)`, `assert(l.bank < banksPerRank)`. -/
  | mapping
  /-- `assert(!full())`. -/
  | queueFull
  /-- `assert(!queue.empty())`. -/
  | queueEmpty
  /-- An assertion of `TimingEvent` on the state of an event. -/
  | eventState
  /-- An assertion of `SchedEvent` on its state. -/
  | schedState
  /-- An assertion of `recycleEvent`. -/
  | recycle
  /-- `assert_msg(memCycle == nextSchedCycle)`. -/
  | tickCycle
  /-- `assert(minSchedCycle >= memCycle)`. -/
  | schedBack
  /-- The event is enqueued before the cycle of its domain. -/
  | backInTime
  /-- `assert(buf[idx] <= actCycle)`. -/
  | actWindow
  /-- `assert(bank.lastCmdCycle < cmdCycle)`. -/
  | lastCmd
  /-- `assert(doneSysCycle >= sysCycle)`. -/
  | doneCycle
  /-- `assert(!ev->isWrite() && !r->write)`. -/
  | notRead
  /-- A write is queued without its event. -/
  | nullEvent
  /-- An assertion of `refresh`. -/
  | refresh
  deriving DecidableEq

/-- The states of a `SchedEvent`. -/
inductive SchedState where
  | idle
  | queued
  | running
  | annulled
  deriving DecidableEq

/-- A `RequestQueue`, and the lists of its requests that the banks keep: `rdReqs`
for `rdQueue`, `wrReqs` for `wrQueue`. Requests are named by their nodes. -/
structure ReqTable where
  elem : ℕ → Request
  reqList : List ℕ
  freeList : List ℕ
  bankReqs : ℕ × ℕ → List ℕ

/-- `DDRMemory` with its events. -/
structure DDRMemory where
  chan : Channel
  /-- `rdQueue` (false) and `wrQueue` (true). -/
  tables : Bool → ReqTable
  overflowQueue : List Request
  nextSchedEvent : Option ℕ
  /-- The top element is the source's `-1ul`. -/
  nextSchedCycle : WithTop ℕ
  eventFreelist : Option ℕ
  schedState : ℕ → SchedState
  schedEvState : ℕ → EventState
  schedNext : ℕ → Option ℕ
  /-- How many `SchedEvent`s have been allocated. -/
  schedCount : ℕ
  /-- The `SchedEvent`s in the queue of the domain, with their cycles. -/
  pending : List (ℕ × ℕ)
  accState : ℕ → EventState
  now : ℕ
  /-- The events of accesses that were enqueued, the last one first. -/
  accepted : List DDRMemoryAccEvent
  /-- Their `done` calls, with the cycle, the last one first. -/
  completed : List (DDRMemoryAccEvent × ℤ)
  /-- The origins of the requests that were issued, the last one first. -/
  served : List ℕ

abbrev Act (α : Type) := Prog DDRMemory DDRFailure α

def ReqTable.new (queueDepth : ℕ) : ReqTable where
  elem := fun _ => ⟨0, ⟨0, 0, 0, 0⟩, false, 0, 0, 0, none, 0⟩
  reqList := []
  freeList := List.range queueDepth
  bankReqs := fun _ => []

/-- The constructor; it does not set `lastCmdWasWrite`. -/
def DDRMemory.new (c : DDRConfig) (lastCmdWasWrite : Bool) : DDRMemory where
  chan := .new c lastCmdWasWrite
  tables := fun _ => .new c.queueDepth
  overflowQueue := []
  nextSchedEvent := none
  nextSchedCycle := ⊤
  eventFreelist := none
  schedState := fun _ => .idle
  schedEvState := fun _ => .none
  schedNext := fun _ => none
  schedCount := 0
  pending := []
  accState := fun _ => .none
  now := 0
  accepted := []
  completed := []
  served := []

section AccEvents

/-- The event of an access goes from one state to another. -/
def moveAcc (ev : DDRMemoryAccEvent) (source target : EventState) : Act Unit := do
  let state ← observe fun s => s.accState ev.id
  ensure (state = source) .eventState
  change fun s => { s with accState := Function.update s.accState ev.id target }

def hold (ev : DDRMemoryAccEvent) : Act Unit := moveAcc ev .running .held

def release (ev : DDRMemoryAccEvent) : Act Unit := moveAcc ev .held .running

/-- `done`; the cycle is the difference that the callers compute. -/
def done (ev : DDRMemoryAccEvent) (doneCycle : ℤ) : Act Unit := do
  moveAcc ev .running .done
  change fun s => { s with completed := (ev, doneCycle) :: s.completed }

end AccEvents

section SchedEvents

/-- `TimingEvent::requeue` of a `SchedEvent`. -/
def requeue (e cycle : ℕ) : Act Unit := do
  let s ← observe fun s => s
  ensure (s.schedEvState e = .running ∨ s.schedEvState e = .held) .eventState
  ensure (s.now ≤ cycle) .backInTime
  change fun s => { s with
    schedEvState := Function.update s.schedEvState e .queued
    pending := (e, cycle) :: s.pending }

/-- The `SchedEvent` takes a state. -/
def setSchedState (e : ℕ) (state : SchedState) : Act Unit :=
  change fun s => { s with schedState := Function.update s.schedState e state }

/-- `SchedEvent::enqueue`. -/
def schedEnqueue (e cycle : ℕ) : Act Unit := do
  let state ← observe fun s => s.schedState e
  ensure (state = .idle) .schedState
  setSchedState e .queued
  requeue e cycle

/-- `SchedEvent::annul`. -/
def annul (e : ℕ) : Act Unit := do
  let state ← observe fun s => s.schedState e
  ensure (state = .queued) .schedState
  setSchedState e .annulled

/-- `recycleEvent`. -/
def recycleEvent (e : ℕ) : Act Unit := do
  let s ← observe fun s => s
  ensure (s.nextSchedEvent ≠ some e ∧ s.schedNext e = none) .recycle
  change fun s => { s with
    schedNext := Function.update s.schedNext e s.eventFreelist
    eventFreelist := some e }

/-- A `SchedEvent` that is done goes to the free list. -/
def retire (e : ℕ) : Act Unit := do
  setSchedState e .idle
  let state ← observe fun s => s.schedEvState e
  ensure (state = .running) .eventState
  change fun s => { s with schedEvState := Function.update s.schedEvState e .held }
  recycleEvent e

/-- The `nextSchedEvent` of a new wake-up: from the free list, or a new one. -/
def takeSchedEvent : Act ℕ := do
  let s ← observe fun s => s
  match s.eventFreelist with
  | some e =>
    change fun s => { s with
      nextSchedEvent := some e
      eventFreelist := s.schedNext e
      schedNext := Function.update s.schedNext e none }
    pure e
  | none =>
    let e := s.schedCount
    change fun s => { s with
      nextSchedEvent := some e
      schedCount := e + 1
      schedState := Function.update s.schedState e .idle
      schedEvState := Function.update s.schedEvState e .held
      schedNext := Function.update s.schedNext e none }
    pure e

end SchedEvents

section Queues

/-- `prev` of an element of a linked list; none also outside the list. -/
def prevIn : List ℕ → ℕ → Option ℕ
  | a :: b :: xs, x => if b = x then some a else prevIn (b :: xs) x
  | _, _ => none

/-- `next` of an element of a linked list. -/
def nextIn : List ℕ → ℕ → Option ℕ
  | a :: xs, x => if a = x then xs.head? else nextIn xs x
  | [], _ => none

/-- `insertAfter`. -/
def insertAfter (m x : ℕ) : List ℕ → List ℕ
  | [] => []
  | a :: xs => if a = m then a :: x :: xs else a :: insertAfter m x xs

namespace ReqTable

variable (t : ReqTable) (id : ℕ)

/-- The list that the request is queued in. -/
def listOf : List ℕ := t.bankReqs (t.elem id).loc.bankId

/-- The request is the first of its bank: it has no `prev`. -/
def First : Prop := prevIn (t.listOf id) id = none

instance : Decidable (t.First id) := inferInstanceAs (Decidable (_ = _))

/-- The request after this one in the list of the bank is a row hit. -/
def hitFollows : Bool := ((nextIn (t.listOf id) id).map fun n => (t.elem n).rowHitSeq != 0).getD false

/-- Where `queue` puts a request in the list of its bank: the `rowHitSeq` it
gets, and the list afterwards. -/
def place (rowHitLimit : ℕ) (bank : Bank) (req : Request) : ℕ × List ℕ :=
  let q := t.bankReqs req.loc.bankId
  match q.reverse.find? fun m => (t.elem m).loc.row = req.loc.row with
  | some m =>
    -- after the last request for the row, or last to get some fairness
    if (t.elem m).rowHitSeq < rowHitLimit then ((t.elem m).rowHitSeq + 1, insertAfter m id q)
    else (0, q ++ [id])
  | none =>
    -- the row is open and nobody waits for the bank, or first come first served
    if bank.isOpen ∧ req.loc.row = bank.openRow ∧ bank.curRowHits < rowHitLimit ∧ q = [] then
      (bank.curRowHits + 1, id :: q)
    else (0, q ++ [id])

/-- `alloc`, of a queue that is not full. -/
def alloc : ReqTable :=
  { t with
    freeList := t.freeList.dropLast
    reqList := t.reqList ++ [id] }

/-- `remove`, and the `pop_front` of the list of the bank. -/
def remove : ReqTable :=
  { t with
    reqList := t.reqList.erase id
    freeList := t.freeList ++ [id]
    bankReqs := Function.update t.bankReqs (t.elem id).loc.bankId (t.listOf id).tail }

/-- Write a request to its node. -/
def store (req : Request) : ReqTable := { t with elem := Function.update t.elem id req }

/-- Link the request, as `queue` does. -/
def link (rowHitLimit : ℕ) (bank : Bank) (req : Request) : ReqTable :=
  let (rowHitSeq, q) := t.place id rowHitLimit bank req
  { t.store id { req with rowHitSeq := rowHitSeq } with
    bankReqs := Function.update t.bankReqs req.loc.bankId q }

end ReqTable

/-- Replace one of the tables. -/
def setTable (w : Bool) (t : ReqTable) : Act Unit :=
  change fun s => { s with tables := Function.update s.tables w t }

/-- `alloc` of a `RequestQueue`. -/
def alloc (w : Bool) : Act ℕ := do
  let t ← observe fun s => s.tables w
  match t.freeList.getLast? with
  | none => abort .queueFull
  | some id =>
    setTable w (t.alloc id)
    pure id

def DDRMemory.empty (s : DDRMemory) : Bool :=
  (s.tables false).reqList.isEmpty && (s.tables true).reqList.isEmpty

/-- `rdQueue.full() || wrQueue.full()`. -/
def DDRMemory.full (s : DDRMemory) : Bool :=
  (s.tables false).freeList.isEmpty || (s.tables true).freeList.isEmpty

variable (c : DDRConfig)

/-- A write is responded to when it is queued. -/
def respondWrite (req : Request) (memCycle : ℕ) : Act Unit := do
  match req.ev with
  | none => abort .nullEvent
  | some ev =>
    release ev
    let respCycle := c.memToSysCycle memCycle + c.minWrLatency
    done ev ((respCycle : ℤ) - c.preDelay - DDRConfig.postDelayWr)

/-- `queue`. -/
def queue (w : Bool) (id memCycle : ℕ) : Act Unit := do
  let req ← observe fun s => (s.tables w).elem id
  if req.write then respondWrite c req memCycle
  let req := { req with
    ev := if req.write then none else req.ev
    arrivalCycle := memCycle }
  let s ← observe fun s => s
  setTable w ((s.tables w).link id c.rowHitLimit (s.chan.bankOf req) req)

end Queues

section Controller

variable (c : DDRConfig)

/-- The first cycle at which a request that arrives could be served. -/
def DDRMemory.minSchedCycle (s : DDRMemory) (memCycle : ℕ) : ℕ :=
  max memCycle (s.chan.minRespCycle - c.tCL - c.tBL)

/-- A new wake-up at `minSchedCycle`, instead of the one that is pending. -/
def reschedule (minSchedCycle sysCycle : ℕ) : Act Unit := do
  let s ← observe fun s => s
  match s.nextSchedEvent with
  | some e => annul e
  | none => pure ()
  let e ← takeSchedEvent
  schedEnqueue e (max (c.matchingMemToSysCycle minSchedCycle) sysCycle)
  change fun s => { s with nextSchedCycle := minSchedCycle }

/-- The end of `enqueue`: schedule an event if the request is first in its bank. -/
def wakeUp (w : Bool) (id memCycle sysCycle : ℕ) : Act Unit := do
  let s ← observe fun s => s
  if (s.tables w).First id then
    let minSchedCycle := s.minSchedCycle c memCycle
    let minSchedCycle :=
      if minSchedCycle < s.nextSchedCycle then
        max minSchedCycle (s.chan.findMinCmdCycle c ((s.tables w).elem id))
      else minSchedCycle
    if minSchedCycle < s.nextSchedCycle then reschedule c minSchedCycle sysCycle

/-- The request that `enqueue` makes for an event. -/
def request (ev : DDRMemoryAccEvent) : Request where
  addr := ev.addr
  loc := c.mapLineAddr ev.addr
  write := ev.isWrite
  rowHitSeq := 0
  arrivalCycle := c.sysToMemCycle ev.startCycle
  startSysCycle := ev.startCycle
  ev := some ev
  origin := ev.id

/-- The queue of a request. -/
def useWrQueue (req : Request) : Bool := c.deferredWrites && req.write

/-- `enqueue`. -/
def enqueue (ev : DDRMemoryAccEvent) : Act Unit := do
  let memCycle := c.sysToMemCycle ev.startCycle
  let req := request c ev
  let s ← observe fun s => s
  ensure (req.loc.rank < c.ranksPerChannel ∧ req.loc.bank < c.banksPerRank) .mapping
  change fun s => { s with accepted := ev :: s.accepted }
  if s.full then
    hold ev
    change fun s => { s with overflowQueue := s.overflowQueue ++ [req] }
  else
    let w := useWrQueue c req
    let id ← alloc w
    let t ← observe fun s => s.tables w
    setTable w (t.store id req)
    hold ev
    queue c w id memCycle
    wakeUp c w id memCycle ev.startCycle

/-- The search of `trySchedule`: the first request of the queue that is first in
its bank and ready, and the minimum cycle of those that were looked at. -/
def findReady (ch : Channel) (t : ReqTable) (curCycle : ℕ) :
    List ℕ → WithTop ℕ → Option ℕ × WithTop ℕ
  | [], minSchedCycle => (none, minSchedCycle)
  | id :: ids, minSchedCycle =>
    if t.First id then
      let minCmdCycle := ch.findMinCmdCycle c (t.elem id)
      let minSchedCycle := min minSchedCycle minCmdCycle
      if minCmdCycle ≤ curCycle then (some id, minSchedCycle)
      else findReady ch t curCycle ids minSchedCycle
    else findReady ch t curCycle ids minSchedCycle

/-- The response to a read. Writes have been responded to. -/
def respondRead (r : Request) (sysCycle : ℕ) : Act Unit := do
  match r.ev with
  | none => pure ()
  | some ev =>
    ensure (ev.isWrite = false ∧ r.write = false) .notRead
    let minRespCycle ← observe fun s => s.chan.minRespCycle
    let doneSysCycle := c.memToSysCycle minRespCycle + c.controllerSysLatency
    ensure (sysCycle ≤ doneSysCycle) .doneCycle
    release ev
    done ev ((doneSysCycle : ℤ) - c.preDelay - c.postDelayRd)

/-- `trySchedule` from the request it found on. -/
def serve (w : Bool) (id curCycle sysCycle : ℕ) : Act (WithTop ℕ) := do
  let s ← observe fun s => s
  let t := s.tables w
  let r := t.elem id
  ensure (s.chan.RowHit r ∨ (s.chan.rankActWindows r.loc.rank).minActCycle ≤ s.chan.actCycle c r)
    .actWindow
  ensure ((s.chan.bankOf r).lastCmdCycle < s.chan.cmdCycle c r curCycle) .lastCmd
  let closes := c.closedPage && !t.hitFollows id
  change fun s => { s with chan := s.chan.issue c r curCycle closes }
  respondRead c r sysCycle
  setTable w (t.remove id)
  change fun s => { s with served := r.origin :: s.served }
  let s ← observe fun s => s
  pure (if s.empty then ⊤ else (s.chan.minRespCycle - c.tCL : ℕ))

/-- `isWriteQueue`; the product is one of 32 bits. -/
def DDRMemory.isWriteQueue (s : DDRMemory) : Bool :=
  let size := (s.tables true).reqList.length
  let prioWrites :=
    decide (3 * c.queueDepth % 2 ^ 32 / 4 < size) ||
      (s.chan.lastCmdWasWrite && decide (c.queueDepth / 4 < size))
  (s.tables false).reqList.isEmpty || prioWrites

/-- `trySchedule`. -/
def trySchedule (curCycle sysCycle : ℕ) : Act (WithTop ℕ) := do
  let s ← observe fun s => s
  if s.empty then pure ⊤
  else if curCycle + c.tCL < s.chan.minRespCycle then pure (s.chan.minRespCycle - c.tCL : ℕ)
  else
    let w := s.isWriteQueue c
    ensure ((s.tables w).reqList ≠ []) .queueEmpty
    match findReady c s.chan (s.tables w) curCycle (s.tables w).reqList ⊤ with
    | (none, minSchedCycle) => pure minSchedCycle
    | (some id, _) => serve c w id curCycle sysCycle

/-- A request of the overflow queue was queued: the cycle of the next wake-up.
The first assignment is to the cycle that `trySchedule` returned. -/
def lowerSchedCycle (w : Bool) (id memCycle : ℕ) (minSchedCycle : WithTop ℕ) : Act (WithTop ℕ) := do
  let s ← observe fun s => s
  if (s.tables w).First id then
    let minQueuedSchedCycle := s.minSchedCycle c memCycle
    let minSchedCycle : WithTop ℕ :=
      if minQueuedSchedCycle < minSchedCycle then
        (max minQueuedSchedCycle (s.chan.findMinCmdCycle c ((s.tables w).elem id)) : ℕ)
      else minSchedCycle
    pure (min minSchedCycle minQueuedSchedCycle)
  else pure minSchedCycle

/-- The part of `tick` that takes a request from the overflow queue. -/
def takeOverflow (memCycle : ℕ) (minSchedCycle : WithTop ℕ) : Act (WithTop ℕ) := do
  let s ← observe fun s => s
  match s.overflowQueue with
  | [] => pure minSchedCycle
  | req :: reqs =>
    if s.full then pure minSchedCycle
    else
      let w := useWrQueue c req
      let id ← alloc w
      let t ← observe fun s => s.tables w
      setTable w (t.store id req)
      change fun s => { s with overflowQueue := reqs }
      queue c w id memCycle
      lowerSchedCycle c w id memCycle minSchedCycle

/-- `tick`. -/
def tick (sysCycle : ℕ) : Act ℕ := do
  let memCycle := c.sysToMemCycle sysCycle
  let nextSchedCycle ← observe fun s => s.nextSchedCycle
  ensure (nextSchedCycle = memCycle) .tickCycle
  let minSchedCycle ← trySchedule c memCycle sysCycle
  ensure (memCycle ≤ minSchedCycle) .schedBack
  let minSchedCycle ← takeOverflow c memCycle minSchedCycle
  change fun s => { s with nextSchedCycle := minSchedCycle }
  match minSchedCycle with
  | none =>
    change fun s => { s with nextSchedEvent := none }
    pure 0
  | some cycle => pure (max (c.matchingMemToSysCycle cycle) sysCycle)

/-- `SchedEvent::simulate`. -/
def simulate (e startCycle : ℕ) : Act Unit := do
  let state ← observe fun s => s.schedState e
  if state = .queued then
    setSchedState e .running
    let nextCycle ← tick c startCycle
    if nextCycle ≠ 0 then
      requeue e nextCycle
      setSchedState e .queued
    else retire e
  else
    ensure (state = .annulled) .schedState
    retire e

/-- `refresh`, with its assertions. -/
def refresh (sysCycle : ℕ) : Act Unit := do
  let memCycle := c.sysToMemCycle sysCycle
  let chan ← observe fun s => s.chan
  ensure (memCycle ≤ chan.minRefreshCycle c memCycle ∧ c.tRP ≤ c.tRFC) .refresh
  change fun s => { s with chan := s.chan.refresh c memCycle }

/-- What the domain of the memory runs. -/
inductive Input where
  | access (ev : DDRMemoryAccEvent)
  | sched (e cycle : ℕ)
  | refresh (cycle : ℕ)

/-- The cycle at which the input runs. -/
def Input.cycle : Input → ℕ
  | .access ev => ev.startCycle
  | .sched _ cycle => cycle
  | .refresh cycle => cycle

/-- The run of an event; its cycle is the one of the domain. -/
def perform (x : Input) : Act Unit := do
  let s ← observe fun s => s
  ensure (s.now ≤ x.cycle) .refused
  change fun s => { s with now := x.cycle }
  match x with
  | .access ev =>
    ensure (s.accState ev.id = .none) .refused
    change fun s => { s with accState := Function.update s.accState ev.id .running }
    enqueue c ev
  | .sched e cycle =>
    ensure ((e, cycle) ∈ s.pending) .refused
    change fun s => { s with pending := s.pending.erase (e, cycle) }
    ensure (s.schedEvState e = .none ∨ s.schedEvState e = .queued) .eventState
    change fun s => { s with schedEvState := Function.update s.schedEvState e .running }
    simulate c e cycle
  | .refresh cycle => refresh c cycle

/-- The controller after an input; none if the input is refused or an assertion fails. -/
def step (s : DDRMemory) (x : Input) : Option DDRMemory :=
  ((perform c x s).map fun r => r.2).toOption

variable {c}

/-- What an input ends in holds after its step. -/
theorem of_step {E : DDRFailure → Prop} {s s' : DDRMemory} {x : Input} {Q : DDRMemory → Prop}
    (h : ends E (perform c x) (fun _ => Q) s) (hs : step c s x = some s') : Q s' := of_performed h hs

end Controller

end Zsim.DDRController
