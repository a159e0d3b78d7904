import Zsim.Loops
import Zsim.WeaveQueue
import Mathlib.Data.List.Range

/-!
# The two loops of the weave phase

A simulation thread has a range of domains. With one domain it simulates it in a
loop of its own, and with several it visits them in the order of the cycle each
has reached. Domains with crossing events may stall. What an event does when it
is simulated is a parameter: it changes the components of its domain and wakes,
requeues, holds, releases or finishes events of the domain.
-/

namespace Zsim.WeaveLoops

open WeakestPre Loops

/-- `PQ_BLOCKS`. -/
def pqBlocks : ℕ := 1024

/-- `EventState`. -/
inductive EventState where
  | invalid
  | none
  | queued
  | running
  | held
  | done
  deriving DecidableEq, Repr

/-- The assertions of the weave phase. -/
inductive WeaveFailure where
  | queue (failure : WeaveQueue.QueueFailure)
  /-- The event is not in a state the transition starts from. -/
  | state
  /-- `startCycle < minStartCycle` -/
  | early
  /-- Enqueued event before last limit! -/
  | beforeLast
  /-- Queued event too far into the future -/
  | tooFar
  /-- Queued event goes back in time -/
  | backInTime
  /-- `assert(cycle >= domCycle)`, `assert(newCycle >= domCycle)` -/
  | domainBack
  /-- `assert(limit >= lastLimit)` -/
  | limitBack
  /-- The loop does not end. -/
  | endless
  deriving DecidableEq, Repr

/-- What an event does to the events of its domain. -/
inductive Action (α : Type) where
  /-- The last parent of the event is done. -/
  | parentDone (ev : α) (cycle : ℕ)
  | requeue (ev : α) (cycle : ℕ)
  | hold (ev : α)
  | release (ev : α)
  | done (ev : α)
  /-- `setPrio`, which only crossing events call. -/
  | setPrio (prio : ℕ)

/-- The events of a simulation. `W` is the state of a domain's components. -/
structure Events (α W : Type) where
  simulate : α → ℕ → W → List (Action α) × W
  minStartCycle : α → ℕ

/-- `limit` and `lastLimit` during a phase, and `zinfo->phaseLength`. -/
structure Clock where
  lastLimit : ℕ
  limit : ℕ
  phaseLength : ℕ

/-- `DomainData`, the state of the domain's events and components, and what is
enqueued in the domain and run there. -/
structure Domain (α W : Type) where
  pq : WeaveQueue.PrioQueue α
  curCycle : ℕ
  prio : ℕ
  state : α → EventState
  world : W
  enqueued : List (ℕ × α)
  logVec : List (ℕ × α)

abbrev Act (α W β : Type) := Prog (Domain α W) WeaveFailure β

variable {α W : Type} [DecidableEq α]

section Domain

variable (E : Events α W) (c : Clock)

/-- A call of the domain's queue. -/
def onQueue {β : Type} (m : WeaveQueue.Act α β) : Act α W β := fun d =>
  match m d.pq with
  | .ok (b, pq) => .ok (b, { d with pq := pq })
  | .error e => .error (.queue e)

/-- The event goes to the state `to` from one of the states `from`. -/
def transition (ev : α) (sources : List EventState) (target : EventState) : Act α W Unit := do
  let st ← observe fun d => d.state ev
  ensure (st ∈ sources) .state
  change fun d => { d with state := Function.update d.state ev target }

/-- The domain's part of `enqueue` and `enqueueSynced`. -/
def insertEvent (ev : α) (cycle : ℕ) : Act α W Unit := do
  onQueue (WeaveQueue.enqueue pqBlocks ev cycle)
  change fun d => { d with enqueued := (cycle, ev) :: d.enqueued }

/-- The first cycle too far into the future. `phaseLength` has 32 bits. -/
def Clock.horizon (c : Clock) (slack : ℕ) : ℕ :=
  (c.lastLimit + 10 * c.phaseLength % 2 ^ 32 + slack) % 2 ^ 64

/-- `ContentionSim::enqueue`. -/
def enqueue (ev : α) (cycle : ℕ) : Act α W Unit := do
  let curCycle ← observe fun d => d.curCycle
  ensure (c.lastLimit ≤ cycle) .beforeLast
  ensure (cycle < c.horizon 1000000) .tooFar
  ensure (curCycle ≤ cycle) .backInTime
  insertEvent ev cycle

/-- `ContentionSim::enqueueSynced`. -/
def enqueueSynced (ev : α) (cycle : ℕ) : Act α W Unit := do
  ensure (c.lastLimit ≤ cycle) .beforeLast
  ensure (cycle < c.horizon 10000) .tooFar
  insertEvent ev cycle

/-- `TimingEvent::queue`, in the bound phase. -/
def queue (ev : α) (cycle : ℕ) : Act α W Unit := do
  transition ev [.none] .queued
  enqueueSynced c ev cycle

/-- One of the things an event does. -/
def act : Action α → Act α W Unit
  | .parentDone ev cycle => do
    transition ev [.none] .queued
    enqueue c ev cycle
  | .requeue ev cycle => do
    transition ev [.running, .held] .queued
    enqueue c ev cycle
  | .hold ev => transition ev [.running] .held
  | .release ev => transition ev [.held] .running
  | .done ev => transition ev [.running] .done
  | .setPrio prio => change fun d => { d with prio := prio }

/-- `te->simulate`. -/
def simulate (ev : α) (cycle : ℕ) : Act α W Unit := do
  let world ← observe fun d => d.world
  let effect := E.simulate ev cycle world
  change fun d => { d with world := effect.2, logVec := (cycle, ev) :: d.logVec }
  effect.1.forM (act c)

/-- `TimingEvent::run`. -/
def run (ev : α) (cycle : ℕ) : Act α W Unit := do
  transition ev [.none, .queued] .running
  ensure (E.minStartCycle ev ≤ cycle) .early
  simulate E c ev cycle

/-- The second loop over stalled domains does not call `run`. -/
def runStalled (ev : α) (cycle : ℕ) : Act α W Unit := do
  change fun d => { d with state := Function.update d.state ev .running }
  simulate E c ev cycle

/-- `pq.size()`, and `p` of `pq.firstCycle()`. -/
def firstMeets (p : ℕ → Bool) : Act α W Bool := do
  let size ← onQueue WeaveQueue.size
  if size = 0 then pure false
  else do
    let first ← onQueue (WeaveQueue.firstCycle pqBlocks)
    pure (p first)

/-- `pq.size()? pq.firstCycle() : limit`. -/
def nextCycle : Act α W ℕ := do
  let size ← onQueue WeaveQueue.size
  if size = 0 then pure c.limit else onQueue (WeaveQueue.firstCycle pqBlocks)

def setCurCycle (cycle : ℕ) : Act α W Unit := change fun d => { d with curCycle := cycle }

/-- A turn of the loop of a thread with one domain, and what follows the last. -/
def aloneTurn : Act α W Bool := do
  let due ← firstMeets fun first => first < c.limit
  if due then do
    let domCycle ← observe fun d => d.curCycle
    let (te, cycle) ← onQueue (WeaveQueue.dequeue pqBlocks)
    ensure (domCycle ≤ cycle) .domainBack
    setCurCycle cycle
    run E c te cycle
    let newCycle ← nextCycle c
    ensure (cycle ≤ newCycle) .domainBack
    setCurCycle newCycle
    pure true
  else do
    setCurCycle c.limit
    pure false

/-- A visit of a domain by a thread with several, which runs events as `start` says. -/
def visitTurn (start : α → ℕ → Act α W Unit) : Act α W Bool := do
  let due ← firstMeets fun first => ¬c.limit < first
  if due then do
    let (te, cycle) ← onQueue (WeaveQueue.dequeue pqBlocks)
    setCurCycle cycle
    start te cycle
    let newCycle ← nextCycle c
    setCurCycle newCycle
    pure true
  else do
    setCurCycle c.limit
    pure false

end Domain

/-- `ContentionSim`: `queuePrio` of each domain is used by the heap of domains only. -/
structure ContentionSim (α W : Type) where
  domains : ℕ → Domain α W
  queuePrio : ℕ → ℕ
  lastLimit : ℕ

/-- The variables of a thread with several domains. A stack's top is its head. -/
structure Thread (α W : Type) extends ContentionSim α W where
  domPq : List ℕ
  stalledQueue : List ℕ
  nextStalledQueue : List ℕ
  numFinished : ℕ

abbrev SimAct (α W β : Type) := Prog (ContentionSim α W) WeaveFailure β

abbrev ThreadAct (α W β : Type) := Prog (Thread α W) WeaveFailure β

section Threads

variable (E : Events α W) (c : Clock)

/-- A program of one domain. -/
def onDomain {β : Type} (i : ℕ) (m : Act α W β) : SimAct α W β := fun s =>
  match m (s.domains i) with
  | .ok (b, d) => .ok (b, { s with domains := Function.update s.domains i d })
  | .error e => .error e

/-- A program of the simulation, as a step of a thread. -/
def onSim {β : Type} (m : SimAct α W β) : ThreadAct α W β := fun t =>
  match m t.toContentionSim with
  | .ok (b, s) => .ok (b, { t with toContentionSim := s })
  | .error e => .error e

/-- Visit a domain, and put it back where it belongs. -/
def visit (i : ℕ) (start : α → ℕ → Act α W Unit) (stall : Thread α W → Thread α W) :
    ThreadAct α W Unit := do
  let again ← onSim (onDomain i (visitTurn c start))
  if again then do
    change fun t => { t with queuePrio := Function.update t.queuePrio i (t.domains i).curCycle }
    let prio ← observe fun t => (t.domains i).prio
    if prio = 0 then change fun t => { t with domPq := i :: t.domPq } else change stall
  else change fun t => { t with numFinished := t.numFinished + 1 }

/-- A turn of `while (domPq.size())`; `top` is `domPq.top()`. -/
def domPqTurn (top : Thread α W → ℕ) : ThreadAct α W Bool := do
  let t ← observe fun t => t
  if t.domPq = [] then pure false
  else do
    let i := top t
    change fun t => { t with domPq := t.domPq.erase i }
    visit c i (run E c) fun t => { t with stalledQueue := i :: t.stalledQueue }
    pure true

/-- A turn of `while (stalledQueue.size())`, which a domain that is ready ends. -/
def stalledTurn : ThreadAct α W Bool := do
  let t ← observe fun t => t
  match t.stalledQueue with
  | [] => pure false
  | i :: rest => do
    change fun t => { t with stalledQueue := rest }
    visit c i (runStalled E c) fun t => { t with nextStalledQueue := i :: t.nextStalledQueue }
    observe fun t => t.domPq.isEmpty

/-- A turn of `while (numFinished < thDomains)`. -/
def finishTurn (top : Thread α W → ℕ) (thDomains rounds : ℕ) : ThreadAct α W Bool := do
  let numFinished ← observe fun t => t.numFinished
  if numFinished < thDomains then do
    loop .endless (domPqTurn E c top) rounds
    loop .endless (stalledTurn E c) rounds
    change fun t => match t.stalledQueue with
      | [] => { t with stalledQueue := t.nextStalledQueue, nextStalledQueue := [] }
      | _ :: _ => t
    pure true
  else pure false

/-- `simulatePhaseThread`, for the domains from `firstDomain` to before `supDomain`. -/
def simulatePhaseThread (top : Thread α W → ℕ) (firstDomain supDomain rounds : ℕ) :
    SimAct α W Unit :=
  let thDomains := supDomain - firstDomain
  if thDomains = 1 then onDomain firstDomain (loop .endless (aloneTurn E c) rounds)
  else fun s =>
    match loop .endless (finishTurn E c top thDomains rounds) rounds
      ⟨s, List.range' firstDomain thDomains, [], [], 0⟩ with
    | .ok (_, t) => .ok ((), t.toContentionSim)
    | .error e => .error e

/-- What the bound phase queues in each domain, and the limit of the phase. -/
structure Phase (α : Type) where
  arrivals : ℕ → List (α × ℕ)
  limit : ℕ

/-- A phase of one thread's domains. -/
def simulatePhase (phaseLength : ℕ) (top : Thread α W → ℕ) (firstDomain supDomain rounds : ℕ)
    (p : Phase α) : SimAct α W Unit := do
  let lastLimit ← observe fun s => s.lastLimit
  let c : Clock := ⟨lastLimit, p.limit, phaseLength⟩
  (List.range' firstDomain (supDomain - firstDomain)).forM fun i =>
    onDomain i ((p.arrivals i).forM fun e => queue c e.1 e.2)
  ensure (lastLimit ≤ p.limit) .limitBack
  simulatePhaseThread E c top firstDomain supDomain rounds
  change fun s => { s with lastLimit := p.limit }

/-- A domain of a new simulation. -/
def Domain.new (world : W) : Domain α W :=
  ⟨WeaveQueue.PrioQueue.new, 0, 0, fun _ => .none, world, [], []⟩

/-- The constructor. -/
def ContentionSim.new (world : ℕ → W) : ContentionSim α W :=
  ⟨fun i => Domain.new (world i), fun _ => 0, 0⟩

end Threads

end Zsim.WeaveLoops
