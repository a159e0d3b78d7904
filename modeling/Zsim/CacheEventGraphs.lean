import Mathlib.Data.Nat.Log
import Mathlib.Data.UInt
import Zsim.TimedGraphs

/-!
# The events of an access to a timing cache

An access in the bound phase leaves a graph of events that repeats its latencies in the weave phase. What the
controllers have returned, and the graph of the events that the parents have left, are parameters of the model.
Cycles are natural numbers, the delays of events are 32 bits wide.
-/

namespace Zsim.CacheEventGraphs

open GuardedRuns TimedGraphs Relation

/-- The ways of a miss through the hierarchy, each with an optional record. -/
inductive Path where
  | get
  | eviction
  deriving DecidableEq

/-- `dUp`, `dDown` and `dEv` in `connect`. -/
inductive Leg where
  | up
  | down
  | whole
  deriving DecidableEq

/-- The classes of events, and which one it is where an access builds several of a class. -/
inductive Kind where
  | hit
  | missStart
  | missResponse
  | missWriteback
  | replAccess (turn : ℕ)
  | swapRead
  | swapWrite
  | delay (path : Path) (leg : Leg)
  deriving DecidableEq

/-- `TimingEvent`. Only a `ReplAccessEvent` has `accsLeft`, the others take one access. -/
structure TimingEvent where
  kind : Kind
  preDelay : UInt32
  postDelay : UInt32
  minStartCycle : ℕ
  accsLeft : UInt32
  deriving DecidableEq

def Kind.isDelay : Kind → Bool
  | .delay _ _ => true
  | _ => false

/-- An event of the access, or one that a parent has left. -/
inductive Node (ρ : Type) where
  | own (ev : TimingEvent)
  | above (ev : ρ)
  deriving DecidableEq

/-- The cycles of a `TimingRecord`. -/
structure Span where
  reqCycle : ℕ
  respCycle : ℕ
  req_le_resp : reqCycle ≤ respCycle

def Span.latency (r : Span) : ℕ := r.respCycle - r.reqCycle

/-- `TimingRecord`, without its address and type. -/
structure TimingRecord (ρ : Type) where
  reqCycle : ℕ
  respCycle : ℕ
  startEvent : Node ρ
  endEvent : Node ρ

/-- The fields of `TimingCache` that the events depend on. -/
structure TimingCache where
  accLat : UInt32
  tagLat : UInt32
  ways : UInt32
  cands : UInt32

/-- What an access has seen when it builds the events: the cycle of the request, those that the controllers have
returned, and the cycles of the records that were popped. -/
structure Outcome where
  reqCycle : ℕ
  evDoneCycle : ℕ
  getDoneCycle : ℕ
  respCycle : ℕ
  writebackRecord : Option Span
  accessRecord : Option Span

def Outcome.record (o : Outcome) : Path → Option Span
  | .get => o.accessRecord
  | .eviction => o.writebackRecord

/-- The events that the parents have left. A record starts with an event that nothing comes before, and nothing
comes before its end but what comes after its start. -/
structure Parents (ρ : Type) where
  graph : Graph ρ
  startEvent : Path → ρ
  endEvent : Path → ρ
  acyclic : graph.Acyclic
  start_ne : startEvent .get ≠ startEvent .eviction
  first : ∀ path x, ¬ graph.Edge x (startEvent path)
  reaches : ∀ path, ReflTransGen graph.Edge (startEvent path) (endEvent path)
  only : ∀ path x, ReflTransGen graph.Edge x (endEvent path) → (∀ y, ¬ graph.Edge y x) → x = startEvent path

/-- Events and the calls of `addChild`, with the child of one call as the parent of the next. -/
structure Built (ρ : Type) where
  events : List TimingEvent
  edges : List (Node ρ × Node ρ)

/-- The events that an access leaves, and the ends of the record that it pushes. -/
structure Recorded (ρ : Type) extends Built ρ where
  startEvent : TimingEvent
  endEvent : TimingEvent

section Model

variable {ρ : Type}

def Parents.record (up : Parents ρ) (path : Path) (r : Span) : TimingRecord ρ :=
  ⟨r.reqCycle, r.respCycle, .above (up.startEvent path), .above (up.endEvent path)⟩

def hitEvent (postDelay minStartCycle : ℕ) : TimingEvent := ⟨.hit, 0, .ofNat postDelay, minStartCycle, 1⟩

def missStartEvent (postDelay : UInt32) (minStartCycle : ℕ) : TimingEvent :=
  ⟨.missStart, 0, postDelay, minStartCycle, 1⟩

def missResponseEvent (minStartCycle : ℕ) : TimingEvent := ⟨.missResponse, 0, 0, minStartCycle, 1⟩

def missWritebackEvent (postDelay : UInt32) (minStartCycle : ℕ) : TimingEvent :=
  ⟨.missWriteback, 0, postDelay, minStartCycle, 1⟩

/-- `DelayEvent`, which takes 32 bits of a delay; none for no delay. -/
def delay (path : Path) (leg : Leg) (lat minStartCycle : ℕ) : List TimingEvent :=
  if lat = 0 then [] else [⟨.delay path leg, .ofNat lat, 0, minStartCycle, 1⟩]

/-- `connect`; none where an assertion fails. -/
def connect (path : Path) (r : Option (TimingRecord ρ)) (startEv endEv : TimingEvent) (startCycle endCycle : ℕ) :
    Option (Built ρ) :=
  if endCycle < startCycle then none
  else
    match r with
    | some r =>
      if r.reqCycle < startCycle ∨ endCycle < r.respCycle then none
      else
        let dUp := delay path .up (r.reqCycle - startCycle) startCycle
        let dDown := delay path .down (endCycle - r.respCycle) r.respCycle
        some {
          events := dUp ++ dDown
          edges := chain (.own startEv) (dUp.map .own ++ [r.startEvent]) ++
            chain r.endEvent (dDown.map .own ++ [.own endEv]) }
    | none =>
      let dEv := delay path .whole (endCycle - startCycle) startCycle
      some { events := dEv, edges := chain (.own startEv) (dEv.map .own ++ [.own endEv]) }

/-- A path that is built under a condition. -/
def builtIf (p : Prop) [Decidable p] (b : Option (Built ρ)) : Option (Built ρ) :=
  if p then b else some ⟨[], []⟩

variable (c : TimingCache)

/-- `replLookups`. -/
def TimingCache.replLookups : UInt32 := (c.cands + (c.ways - 1)) / c.ways - 1

/-- `postDelay` of a candidate lookup. -/
def TimingCache.lookupPostDelay (fringeAccs : UInt32) : UInt32 := c.tagLat - min (c.tagLat - 1) fringeAccs

/-- The candidate lookup events. Each turn that adds accesses adds at least one, and a turn that adds none is
followed by no other that does, so that the loop does not end if these turns do not end it. -/
def TimingCache.candidateLookups (minStartCycle : ℕ) : ℕ → ℕ → UInt32 → UInt32 → Option (List TimingEvent)
  | 0, _, _, _ => none
  | turns + 1, turn, accsSoFar, fringeAccs =>
    if accsSoFar < c.replLookups then
      let preDelay := if accsSoFar ≠ 0 then 0 else c.tagLat
      let accs := min fringeAccs (c.replLookups - accsSoFar)
      let raEv : TimingEvent :=
        ⟨.replAccess turn, preDelay, c.lookupPostDelay fringeAccs, minStartCycle, accs⟩
      (candidateLookups minStartCycle turns (turn + 1) (accsSoFar + accs) (fringeAccs * (c.ways - 1))).map
        (raEv :: ·)
    else some []

/-- The swap events. -/
def TimingCache.swaps (minStartCycle : ℕ) : List TimingEvent :=
  [⟨.swapRead, c.tagLat, c.tagLat, minStartCycle, 1⟩, ⟨.swapWrite, 0, 0, minStartCycle, 1⟩]

/-- The replacement path; none where its assertion fails or its loop does not end. -/
def TimingCache.replacement (mse mwe : TimingEvent) (minStartCycle : ℕ) : Option (Built ρ) :=
  if c.replLookups = 0 then none
  else
    (c.candidateLookups minStartCycle (c.replLookups.toNat + 1) 0 0 (c.ways - 1)).map fun lookups =>
      { events := lookups ++ c.swaps minStartCycle
        edges := chain (.own mse) ((lookups ++ c.swaps minStartCycle).map .own ++ [.own mwe]) }

/-- `TimingCache::access`, from the cycles that it has seen on; none where an assertion fails. -/
def TimingCache.access (o : Outcome) (up : Parents ρ) : Option (Recorded ρ) :=
  if o.getDoneCycle - o.reqCycle = c.accLat.toNat then
    if o.writebackRecord.isSome ∨ o.accessRecord.isSome then none
    else
      let ev := hitEvent (o.respCycle - o.reqCycle) o.reqCycle
      some { events := [ev], edges := [], startEvent := ev, endEvent := ev }
  else if o.getDoneCycle = o.respCycle then do
    let mse := missStartEvent c.accLat o.reqCycle
    let mre := missResponseEvent o.getDoneCycle
    let mwe := missWritebackEvent c.accLat (max o.evDoneCycle o.getDoneCycle)
    let lookupCycle := o.reqCycle + c.accLat.toNat
    let get ← connect .get (o.accessRecord.map (up.record .get)) mse mre lookupCycle o.getDoneCycle
    let eviction ← builtIf (o.evDoneCycle ≠ 0)
      (connect .eviction (o.writebackRecord.map (up.record .eviction)) mse mwe lookupCycle o.evDoneCycle)
    let repl ← builtIf (o.evDoneCycle ≠ 0 ∧ c.ways < c.cands) (c.replacement mse mwe o.reqCycle)
    some {
      events := [mse, mre, mwe] ++ get.events ++ eviction.events ++ repl.events
      edges := get.edges ++ [(.own mre, .own mwe)] ++ eviction.edges ++ repl.edges
      startEvent := mse
      endEvent := mre }
  else none

/-- The events of the access with those of its parents. A `ReplAccessEvent` takes a cycle for each access. -/
def Recorded.graph (b : Recorded ρ) (up : Parents ρ) : Graph (Node ρ) where
  edges := b.edges ++ up.graph.edges.map fun x => (.above x.1, .above x.2)
  pre
    | .own ev => ev.preDelay.toNat
    | .above x => up.graph.pre x
  work
    | .own ev => ev.accsLeft.toNat - 1
    | .above x => up.graph.work x
  post
    | .own ev => ev.postDelay.toNat
    | .above x => up.graph.post x
  instant
    | .own ev => ev.kind.isDelay
    | .above x => up.graph.instant x

end Model

end Zsim.CacheEventGraphs
