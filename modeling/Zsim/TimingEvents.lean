import Mathlib.Algebra.Order.Ring.Int
import Mathlib.Data.List.Flatten
import Mathlib.Data.List.OfFn
import Mathlib.Logic.Function.Basic
import Zsim.GuardedRuns

/-!
# Timing events

An event keeps its only child in a pointer and more children in linked blocks of three, which share a union. An event
that is done tells its children, and the last parent that tells a child queues it. A delay event is done as soon as its
last parent has told it, inside the call of that parent, and an event is freed once it has told its children. The calls
that are open form a stack, of which an action performs the topmost one. The events share one domain.
-/

namespace Zsim.TimingEvents

/-- `TimingEventBlock`; a block points to the one before it in a list. -/
structure TimingEventBlock (ν : Type) where
  events : Fin 3 → Option ν

/-- The union of `child` and `children`. -/
inductive ChildUnion (ν : Type) where
  | child (ev : Option ν)
  | children (blocks : List (TimingEventBlock ν))

/-- The union with `numChildren`. -/
structure ChildList (ν : Type) where
  numChildren : ℕ
  union : ChildUnion ν

section Children

variable {ν : Type}

def TimingEventBlock.empty : TimingEventBlock ν := ⟨fun _ => none⟩

def TimingEventBlock.set (b : TimingEventBlock ν) (idx : ℕ) (ev : ν) : TimingEventBlock ν :=
  ⟨fun i => if i.val = idx then some ev else b.events i⟩

/-- The events of a block up to its first null pointer. -/
def TimingEventBlock.visit (b : TimingEventBlock ν) : List ν :=
  match b.events 0, b.events 1, b.events 2 with
  | some x, some y, some z => [x, y, z]
  | some x, some y, none => [x, y]
  | some x, none, _ => [x]
  | none, _, _ => []

namespace ChildList

def empty : ChildList ν := ⟨0, .child none⟩

/-- `addChild`; none where it would take the wrong member of the union. -/
def add (l : ChildList ν) (ev : ν) : Option (ChildList ν) :=
  match l.numChildren, l.union with
  | 0, _ => some ⟨1, .child (some ev)⟩
  | 1, .child (some first) => some ⟨2, .children [(TimingEventBlock.empty.set 0 first).set 1 ev]⟩
  | n + 2, .children blocks =>
    let idx := (n + 2) % 3
    match if idx = 0 then TimingEventBlock.empty :: blocks else blocks with
    | b :: bs => some ⟨n + 3, .children (b.set idx ev :: bs)⟩
    | [] => none
  | _, _ => none

/-- `visitChildren`: the children in the order of the visit; none where its assertion fails. -/
def visit (l : ChildList ν) : Option (List ν) :=
  match l.numChildren, l.union with
  | 0, _ => some []
  | 1, .child (some ev) => some [ev]
  | n + 2, .children blocks =>
    let visited := blocks.flatMap TimingEventBlock.visit
    if visited.length = n + 2 then some visited else none
  | _, _ => none

end ChildList

section Blocks

variable {b : TimingEventBlock ν} {evs : List ν} {ev : ν}

/-- The places of a block, filled from the first one on. -/
def TimingEventBlock.Holds (b : TimingEventBlock ν) (evs : List ν) : Prop :=
  evs.length ≤ 3 ∧ ∀ i : Fin 3, b.events i = evs[i.val]?

theorem TimingEventBlock.holds_empty : (TimingEventBlock.empty : TimingEventBlock ν).Holds [] :=
  ⟨Nat.zero_le _, fun _ => List.getElem?_nil.symm⟩

/-- The next event goes to the place after the last one. -/
theorem TimingEventBlock.Holds.set (h : b.Holds evs) (ev : ν) (hfree : evs.length < 3) :
    (b.set evs.length ev).Holds (evs ++ [ev]) := by
  constructor
  · rw [List.length_append]
    exact hfree
  · intro i
    simp only [TimingEventBlock.set]
    split
    · next hi => rw [hi, List.getElem?_concat_length]
    · next hi =>
      rw [h.2 i]
      rcases Nat.lt_or_ge i.val evs.length with hlt | hge
      · rw [List.getElem?_append_left hlt]
      · rw [List.getElem?_eq_none hge, List.getElem?_eq_none]
        rw [List.length_append, List.length_singleton]
        omega

/-- A visit finds all events of a block. -/
theorem TimingEventBlock.Holds.visit_eq (h : b.Holds evs) : b.visit = evs := by
  have h0 := h.2 0
  have h1 := h.2 1
  have h2 := h.2 2
  have hlen := h.1
  rcases evs with _ | ⟨x, _ | ⟨y, _ | ⟨z, _ | ⟨w, evs⟩⟩⟩⟩
  · simp [TimingEventBlock.visit, h0]
  · simp [TimingEventBlock.visit, h0, h1]
  · simp [TimingEventBlock.visit, h0, h1, h2]
  · simp [TimingEventBlock.visit, h0, h1, h2]
  · simp only [List.length_cons] at hlen
    omega

end Blocks

section Lists

variable {l : ChildList ν} {evs : List ν} {ev : ν}

/-- The children in a list, in some order: the blocks behind the first one are full. -/
def ChildList.Holds (l : ChildList ν) (evs : List ν) : Prop :=
  l.numChildren = evs.length ∧
    match l.union with
    | .child first => evs = first.toList
    | .children [] => False
    | .children (b :: bs) =>
      2 ≤ evs.length ∧ ∃ first, first ≠ [] ∧ b.Holds first ∧ 3 ∣ (bs.flatMap TimingEventBlock.visit).length ∧
        (first ++ bs.flatMap TimingEventBlock.visit).Perm evs

theorem ChildList.holds_empty : (ChildList.empty : ChildList ν).Holds [] := ⟨rfl, rfl⟩

/-- A visit calls its function once on each child. -/
theorem ChildList.Holds.visit (h : l.Holds evs) : ∃ visited, l.visit = some visited ∧ visited.Perm evs := by
  obtain ⟨hcount, hunion⟩ := h
  rcases l with ⟨n, u⟩
  change n = evs.length at hcount
  cases u with
  | child first =>
    change evs = first.toList at hunion
    rw [hcount, hunion]
    cases first with
    | none => exact ⟨[], rfl, .refl _⟩
    | some x => exact ⟨[x], rfl, .refl _⟩
  | children blocks =>
    cases blocks with
    | nil => exact hunion.elim
    | cons b bs =>
      obtain ⟨htwo, first, -, hb, -, hperm⟩ := hunion
      obtain ⟨n, rfl⟩ := Nat.exists_eq_add_of_le' (hcount ▸ htwo)
      refine ⟨first ++ bs.flatMap TimingEventBlock.visit, ?_, hperm⟩
      simp only [ChildList.visit, List.flatMap_cons, hb.visit_eq, hperm.length_eq, hcount, if_true]

/-- A child can always be added. -/
theorem ChildList.Holds.add (h : l.Holds evs) (ev : ν) : ∃ l', l.add ev = some l' ∧ l'.Holds (evs ++ [ev]) := by
  obtain ⟨hcount, hunion⟩ := h
  rcases l with ⟨n, u⟩
  change n = evs.length at hcount
  cases u with
  | child first =>
    change evs = first.toList at hunion
    rw [hcount, hunion]
    cases first with
    | none => exact ⟨⟨1, .child (some ev)⟩, rfl, rfl, rfl⟩
    | some x =>
      have hboth := (TimingEventBlock.holds_empty.set x (Nat.zero_lt_succ 2)).set ev (Nat.lt_add_of_pos_right Nat.two_pos)
      exact ⟨⟨2, .children [(TimingEventBlock.empty.set 0 x).set 1 ev]⟩, rfl, rfl, le_rfl, [x, ev], by simp, hboth,
        by simp, by simp⟩
  | children blocks =>
    cases blocks with
    | nil => exact hunion.elim
    | cons b bs =>
      obtain ⟨htwo, first, hne, hb, hfull, hperm⟩ := hunion
      obtain ⟨n, rfl⟩ := Nat.exists_eq_add_of_le' (hcount ▸ htwo)
      have hlen := hperm.length_eq
      rw [List.length_append, ← hcount] at hlen
      have hpos := List.length_pos_iff.mpr hne
      have hle := hb.1
      simp only [ChildList.add]
      by_cases hidx : (n + 2) % 3 = 0
      · -- the first block is full
        rw [if_pos hidx]
        refine ⟨_, rfl, by simp [hcount], by rw [List.length_append]; omega, [ev], by simp, ?_, ?_, ?_⟩
        · rw [hidx]
          exact TimingEventBlock.holds_empty.set ev (Nat.zero_lt_succ 2)
        · rw [List.flatMap_cons, hb.visit_eq, List.length_append]
          omega
        · rw [List.flatMap_cons, hb.visit_eq]
          exact List.perm_append_comm.trans (hperm.append_right _)
      · rw [if_neg hidx]
        have hplace : (n + 2) % 3 = first.length := by omega
        refine ⟨_, rfl, by simp [hcount], by rw [List.length_append]; omega, first ++ [ev], by simp, ?_, hfull, ?_⟩
        · rw [hplace]
          exact hb.set ev (by omega)
        · rw [List.append_assoc]
          exact List.perm_middle.trans ((List.perm_append_singleton ev _).symm.trans (hperm.append_right _))

end Lists

end Children

inductive EventState where
  | none
  | queued
  | running
  | held
  | done
deriving DecidableEq

/-- `TimingEvent`, without its domain. -/
structure TimingEvent (ν : Type) where
  state : EventState
  cycle : ℕ
  minStartCycle : ℕ
  childList : ChildList ν
  numParents : ℕ
  preDelay : ℕ
  postDelay : ℕ
  /-- It is a `DelayEvent`. -/
  delays : Bool

/-- One more parent has told an event the cycle in which it completes. -/
def TimingEvent.told {ν : Type} (e : TimingEvent ν) (startCycle : ℕ) : TimingEvent ν :=
  { e with cycle := max e.cycle startCycle, numParents := e.numParents - 1 }

/-- What is left of the calls that are open. -/
inductive Call (ν : Type) where
  /-- `parentDone` of an event. -/
  | parentDone (ev : ν) (startCycle : ℕ)
  | freeEvent (ev : ν)
deriving DecidableEq

/-- The events, their cycles in the queue of the contention simulation, and the open calls. A run keeps the children
that were added, and for each event the cycle at which it was queued first, the cycle at which it was done, and how often
it was freed. -/
structure Sim (ν : Type) where
  event : ν → TimingEvent ν
  queued : ν → Option ℕ
  calls : List (Call ν)
  edges : List (ν × ν)
  start : ν → Option ℕ
  finish : ν → Option ℕ
  frees : ν → ℕ

inductive Action (ν : Type) where
  | addChild (p ev : ν)
  /-- `queue` of an event without parents. -/
  | queue (ev : ν) (cycle : ℕ)
  /-- The contention simulation takes an event from its queue, and calls `simulate`. -/
  | run (ev : ν)
  | done (ev : ν) (doneCycle : ℕ)
  | requeue (ev : ν) (cycle : ℕ)
  | hold (ev : ν)
  | release (ev : ν)
  /-- The topmost call goes on. -/
  | go

section Machine

variable {ν : Type} [DecidableEq ν]

namespace Sim

variable (s : Sim ν) (ev : ν)

def set (e : TimingEvent ν) : Sim ν := { s with event := Function.update s.event ev e }

def setState (state : EventState) : Sim ν := s.set ev { s.event ev with state := state }

/-- `ContentionSim::enqueue`. -/
def enqueue (cycle : ℕ) : Sim ν := { s.setState ev .queued with queued := Function.update s.queued ev (some cycle) }

/-- `addChild`. -/
def addChild (p : ν) : Option (Sim ν) :=
  if ((s.event p).state = .none ∨ (s.event p).state = .queued) ∧ (s.event ev).state = .none then
    ((s.event p).childList.add ev).map fun childList =>
      let s' := s.set p { s.event p with childList := childList }
      { s'.set ev { s'.event ev with numParents := (s'.event ev).numParents + 1 } with edges := s.edges ++ [(p, ev)] }
  else none

/-- `done`: the event tells its children, and is freed then. -/
def done (doneCycle : ℕ) : Option (Sim ν) :=
  if (s.event ev).state = .running then
    (s.event ev).childList.visit.map fun children =>
      { s.setState ev .done with
        calls := children.map (.parentDone · (doneCycle + (s.event ev).postDelay)) ++ .freeEvent ev :: s.calls
        finish := Function.update s.finish ev (some doneCycle) }
  else none

/-- The last parent of an event is done. -/
def lastParentDone : Option (Sim ν) :=
  let cycle := (s.event ev).cycle + (s.event ev).preDelay
  let s' := { s with start := Function.update s.start ev (some cycle) }
  if (s.event ev).delays = true then (s'.setState ev .running).done ev cycle
  else if (s.event ev).state = .none then some (s'.enqueue ev cycle)
  else none

/-- `parentDone`. It must find a parent that is missing: a `DelayEvent` does not check this, but its counter would wrap.
The event must not be freed memory. -/
def parentDone (startCycle : ℕ) : Option (Sim ν) :=
  let e := s.event ev
  if e.numParents = 0 ∨ s.frees ev ≠ 0 then none
  else
    let s' := s.set ev (e.told startCycle)
    if e.numParents = 1 then s'.lastParentDone ev else some s'

/-- The topmost call. -/
def go : Option (Sim ν) :=
  match s.calls with
  | [] => none
  | .parentDone ev startCycle :: calls => { s with calls := calls }.parentDone ev startCycle
  | .freeEvent ev :: calls => some { s with calls := calls, frees := Function.update s.frees ev (s.frees ev + 1) }

/-- A step; none where an assertion fails, or where calls are open that must return first. A `DelayEvent` is not queued,
as its `simulate` panics. -/
def step : Action ν → Option (Sim ν)
  | .go => s.go
  | .addChild p ev => if s.calls = [] then s.addChild ev p else none
  | .queue ev cycle =>
    if s.calls = [] ∧ (s.event ev).state = .none ∧ (s.event ev).numParents = 0 ∧ (s.event ev).delays = false then
      some { s.enqueue ev cycle with start := Function.update s.start ev (some cycle) }
    else none
  | .run ev =>
    match s.queued ev with
    | some cycle =>
      if s.calls = [] ∧ ((s.event ev).state = .none ∨ (s.event ev).state = .queued) ∧
          (s.event ev).minStartCycle ≤ cycle then
        some { s.setState ev .running with queued := Function.update s.queued ev none }
      else none
    | none => none
  | .done ev doneCycle => if s.calls = [] then s.done ev doneCycle else none
  | .requeue ev cycle =>
    if s.calls = [] ∧ (s.event ev).numParents = 0 ∧
        ((s.event ev).state = .running ∨ (s.event ev).state = .held) then some (s.enqueue ev cycle)
    else none
  | .hold ev => if s.calls = [] ∧ (s.event ev).state = .running then some (s.setState ev .held) else none
  | .release ev => if s.calls = [] ∧ (s.event ev).state = .held then some (s.setState ev .running) else none

end Sim

/-- The delays of an event and its earliest start. -/
structure Timing where
  minStartCycle : ℕ
  preDelay : ℕ
  postDelay : ℕ
  delays : Bool

/-- All events are new. -/
def Sim.init (timing : ν → Timing) : Sim ν where
  event ev := ⟨.none, 0, (timing ev).minStartCycle, .empty, 0, (timing ev).preDelay, (timing ev).postDelay,
    (timing ev).delays⟩
  queued _ := none
  calls := []
  edges := []
  start _ := none
  finish _ := none
  frees _ := 0

end Machine

end Zsim.TimingEvents
