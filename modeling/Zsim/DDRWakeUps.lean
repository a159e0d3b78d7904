import Zsim.DDRFrames
import Zsim.LinkedStacks
import Zsim.ClockRatios
import Mathlib.Data.List.Nodup

/-!
# The wake-ups of the DDR controller

A `SchedEvent` waits on the free list, waits in the queue of the domain or runs.
One of those in the queue at most is not annulled, and it is the one that the
controller knows as its next wake-up, at the cycle it knows. The clock
conversions meet the cycle that was asked for exactly.
-/

namespace Zsim.DDRWakeUps

open WeakestPre Outcomes WeaveLoops LinkedStacks DDRChannel DDRController DDRFrames

variable {c : DDRConfig}

section Clocks

variable {a b k sysCycle : ℕ}

/-- A wake-up comes in the memory cycle it was asked for. -/
theorem sysToMemCycle_wakeUp (hc : c.Accepted) (hk : c.sysToMemCycle sysCycle ≤ k) :
    c.sysToMemCycle (max (c.matchingMemToSysCycle k) sysCycle) = k :=
  ClockRatios.slowCycle_max_middle hc.memFreqKHz_pos hc.clocks hk

/-- A wake-up is not at cycle zero, which stands for none. -/
theorem matching_pos (hc : c.Accepted) (hk : 0 < k) : 0 < c.matchingMemToSysCycle k := by
  have hclocks := hc.clocks
  have hm := hc.memFreqKHz_pos
  have hone : 1 * c.sysFreqKHz ≤ (2 * k - 1) * c.sysFreqKHz := by
    refine Nat.mul_le_mul_right _ ?_
    omega
  have htwo : 2 ≤ (2 * k - 1) * c.sysFreqKHz / c.memFreqKHz := by
    rw [Nat.le_div_iff_mul_le hm]
    omega
  unfold DDRConfig.matchingMemToSysCycle
  omega

end Clocks

/-- The members that wake-ups are kept in. -/
structure SchedPart where
  nextSchedEvent : Option ℕ
  nextSchedCycle : WithTop ℕ
  eventFreelist : Option ℕ
  schedState : ℕ → SchedState
  schedEvState : ℕ → EventState
  schedNext : ℕ → Option ℕ
  schedCount : ℕ
  pending : List (ℕ × ℕ)

/-- Those of the controller. -/
abbrev schedOf (s : DDRMemory) : SchedPart where
  nextSchedEvent := s.nextSchedEvent
  nextSchedCycle := s.nextSchedCycle
  eventFreelist := s.eventFreelist
  schedState := s.schedState
  schedEvState := s.schedEvState
  schedNext := s.schedNext
  schedCount := s.schedCount
  pending := s.pending

theorem blind_sched : Blind schedOf := by
  constructor <;> exact fun _ => by intros; rfl

/-- The events in the queue of the domain. -/
def SchedPart.queuedEvents (v : SchedPart) : List ℕ := v.pending.map Prod.fst

/-- The event is neither free nor in the queue of the domain. -/
structure Spare (v : SchedPart) (frees : List ℕ) (e : ℕ) : Prop where
  free : e ∉ frees
  queued : e ∉ v.queuedEvents
  next : v.schedNext e = none
  count : e < v.schedCount

/-- The free events and those in the queue of the domain. -/
structure Events (v : SchedPart) (frees : List ℕ) : Prop where
  chain : Chain v.schedNext v.eventFreelist frees
  freesNodup : frees.Nodup
  free : ∀ e ∈ frees, v.schedState e = .idle ∧ v.schedEvState e = .held ∧ e < v.schedCount
  queuedNodup : v.queuedEvents.Nodup
  queued : ∀ e ∈ v.queuedEvents, (v.schedState e = .queued ∨ v.schedState e = .annulled) ∧
    v.schedEvState e = .queued ∧ v.schedNext e = none ∧ e < v.schedCount ∧ e ∉ frees

section Events

variable {v : SchedPart} {frees : List ℕ} {e cycle : ℕ} (h : Events v frees)
include h

/-- The next wake-up is not looked at. -/
theorem Events.next (nextSchedEvent : Option ℕ) (nextSchedCycle : WithTop ℕ) : Events { v with
    nextSchedEvent := nextSchedEvent
    nextSchedCycle := nextSchedCycle } frees :=
  ⟨h.chain, h.freesNodup, h.free, h.queuedNodup, h.queued⟩

/-- An event of the queue is annulled. -/
theorem Events.annul (he : e ∈ v.queuedEvents) :
    Events { v with schedState := Function.update v.schedState e .annulled } frees := by
  have hfree := (h.queued e he).2.2.2.2
  refine { h with free := fun f hf => ?_, queued := fun f hf => ?_ }
  · dsimp only
    rw [Function.update_of_ne (ne_of_mem_of_not_mem hf hfree)]
    exact h.free f hf
  · dsimp only
    by_cases heq : f = e
    · rw [heq, Function.update_self]
      exact ⟨.inr rfl, (h.queued e he).2⟩
    · rw [Function.update_of_ne heq]
      exact h.queued f hf

/-- What a spare event has in its states is not looked at. -/
theorem Events.spare (he : Spare v frees e) (state : SchedState) (evState : EventState) :
    Events { v with
      schedState := Function.update v.schedState e state
      schedEvState := Function.update v.schedEvState e evState } frees := by
  refine { h with free := fun f hf => ?_, queued := fun f hf => ?_ }
  · dsimp only
    have hne := ne_of_mem_of_not_mem hf he.free
    rw [Function.update_of_ne hne, Function.update_of_ne hne]
    exact h.free f hf
  · dsimp only
    have hne := ne_of_mem_of_not_mem hf he.queued
    rw [Function.update_of_ne hne, Function.update_of_ne hne]
    exact h.queued f hf

/-- The first free event is taken. -/
theorem Events.pop (hfree : v.eventFreelist = some e) : ∃ frees', Events { v with
      eventFreelist := v.schedNext e
      schedNext := Function.update v.schedNext e none } frees' ∧
    Spare { v with
      eventFreelist := v.schedNext e
      schedNext := Function.update v.schedNext e none } frees' e ∧
    v.schedState e = .idle ∧ v.schedEvState e = .held := by
  have hchain := h.chain
  rw [hfree] at hchain
  cases frees with
  | nil => cases hchain
  | cons f rest =>
    obtain ⟨heq, hrest⟩ := hchain
    cases heq
    obtain ⟨hnotin, hnodup⟩ := List.nodup_cons.mp h.freesNodup
    obtain ⟨hidle, hheld, hcount⟩ := h.free e List.mem_cons_self
    have hout : e ∉ v.queuedEvents := fun hq => (h.queued e hq).2.2.2.2 List.mem_cons_self
    refine ⟨rest, ?_, ⟨hnotin, hout, Function.update_self .., hcount⟩, hidle, hheld⟩
    constructor
    case chain => exact hrest.update hnotin none
    case freesNodup => exact hnodup
    case free => exact fun g hg => h.free g (List.mem_cons_of_mem e hg)
    case queuedNodup => exact h.queuedNodup
    case queued =>
      intro g hg
      obtain ⟨hstate, hev, hnext, hlt, hfrees⟩ := h.queued g hg
      dsimp only
      rw [Function.update_of_ne (ne_of_mem_of_not_mem hg hout)]
      exact ⟨hstate, hev, hnext, hlt, fun hmem => hfrees (List.mem_cons_of_mem e hmem)⟩

/-- A new event is allocated. -/
theorem Events.create : Events { v with
      schedCount := v.schedCount + 1
      schedState := Function.update v.schedState v.schedCount .idle
      schedEvState := Function.update v.schedEvState v.schedCount .held
      schedNext := Function.update v.schedNext v.schedCount none } frees ∧
    Spare { v with
      schedCount := v.schedCount + 1
      schedState := Function.update v.schedState v.schedCount .idle
      schedEvState := Function.update v.schedEvState v.schedCount .held
      schedNext := Function.update v.schedNext v.schedCount none } frees v.schedCount := by
  have hfrees : v.schedCount ∉ frees := fun hmem => (Nat.lt_irrefl _ (h.free _ hmem).2.2).elim
  have hqueue : v.schedCount ∉ v.queuedEvents := fun hmem =>
    (Nat.lt_irrefl _ (h.queued _ hmem).2.2.2.1).elim
  refine ⟨?_, hfrees, hqueue, Function.update_self .., Nat.lt_succ_self _⟩
  constructor
  case chain => exact h.chain.update hfrees none
  case freesNodup => exact h.freesNodup
  case free =>
    intro f hf
    have hne := ne_of_mem_of_not_mem hf hfrees
    dsimp only
    rw [Function.update_of_ne hne, Function.update_of_ne hne]
    obtain ⟨hidle, hheld, hlt⟩ := h.free f hf
    exact ⟨hidle, hheld, Nat.lt_succ_of_lt hlt⟩
  case queuedNodup => exact h.queuedNodup
  case queued =>
    intro f hf
    have hne := ne_of_mem_of_not_mem hf hqueue
    dsimp only
    rw [Function.update_of_ne hne, Function.update_of_ne hne, Function.update_of_ne hne]
    obtain ⟨hstate, hev, hnext, hlt, hout⟩ := h.queued f hf
    exact ⟨hstate, hev, hnext, Nat.lt_succ_of_lt hlt, hout⟩

/-- A spare event goes into the queue of the domain. -/
theorem Events.enqueue (he : Spare v frees e) (cycle : ℕ) : Events { v with
    schedState := Function.update v.schedState e .queued
    schedEvState := Function.update v.schedEvState e .queued
    pending := (e, cycle) :: v.pending } frees := by
  have hspare := h.spare he .queued .queued
  refine { hspare with queuedNodup := ?_, queued := fun f hf => ?_ }
  · exact List.nodup_cons.mpr ⟨he.queued, h.queuedNodup⟩
  · cases List.mem_cons.mp hf with
    | inl heq =>
      rw [heq]
      exact ⟨.inl (Function.update_self ..), Function.update_self .., he.next, he.count, he.free⟩
    | inr hmem => exact hspare.queued f hmem

/-- A spare event goes to the free list. -/
theorem Events.push (he : Spare v frees e) : Events { v with
    schedState := Function.update v.schedState e .idle
    schedEvState := Function.update v.schedEvState e .held
    schedNext := Function.update v.schedNext e v.eventFreelist
    eventFreelist := some e } (e :: frees) := by
  have hspare := h.spare he .idle .held
  constructor
  case chain => exact h.chain.push he.free
  case freesNodup => exact List.nodup_cons.mpr ⟨he.free, h.freesNodup⟩
  case free =>
    intro f hf
    cases List.mem_cons.mp hf with
    | inl heq =>
      rw [heq]
      exact ⟨Function.update_self .., Function.update_self .., he.count⟩
    | inr hmem => exact hspare.free f hmem
  case queuedNodup => exact h.queuedNodup
  case queued =>
    intro f hf
    have hne : f ≠ e := ne_of_mem_of_not_mem hf he.queued
    obtain ⟨hstate, hev, hnext, hlt, hout⟩ := hspare.queued f hf
    refine ⟨hstate, hev, ?_, hlt, ?_⟩
    · dsimp only
      rw [Function.update_of_ne hne]
      exact hnext
    · rw [List.mem_cons]
      exact fun hmem => hmem.elim hne hout

/-- The domain takes an event out of its queue. -/
theorem Events.dequeue (he : (e, cycle) ∈ v.pending) : Events { v with
      pending := v.pending.erase (e, cycle)
      schedEvState := Function.update v.schedEvState e .running } frees ∧
    Spare { v with
      pending := v.pending.erase (e, cycle)
      schedEvState := Function.update v.schedEvState e .running } frees e := by
  have hmem : e ∈ v.queuedEvents := List.mem_map_of_mem he
  have hperm : (e :: (v.pending.erase (e, cycle)).map Prod.fst).Perm v.queuedEvents :=
    (List.perm_cons_erase he).symm.map Prod.fst
  have hnodup := hperm.nodup_iff.mpr h.queuedNodup
  obtain ⟨hout, hrest⟩ := List.nodup_cons.mp hnodup
  obtain ⟨-, -, hnext, hlt, hfrees⟩ := h.queued e hmem
  refine ⟨?_, hfrees, hout, hnext, hlt⟩
  refine { h with free := fun f hf => ?_, queuedNodup := hrest, queued := fun f hf => ?_ }
  · dsimp only
    rw [Function.update_of_ne (ne_of_mem_of_not_mem hf hfrees)]
    exact h.free f hf
  · have hne : f ≠ e := ne_of_mem_of_not_mem hf hout
    dsimp only
    rw [Function.update_of_ne hne]
    exact h.queued f (hperm.mem_iff.mp (List.mem_cons_of_mem e hf))

end Events

/-- No event of the queue will wake the controller up. -/
def Quiet (v : SchedPart) : Prop := ∀ e ∈ v.queuedEvents, v.schedState e ≠ .queued

/-- The next wake-up. -/
structure WakeOk (c : DDRConfig) (v : SchedPart) : Prop where
  events : ∃ frees, Events v frees
  alive : ∀ e ∈ v.queuedEvents, v.schedState e = .queued ↔ v.nextSchedEvent = some e
  cycle : ∀ e, v.nextSchedEvent = some e →
    ∃ cycle, (e, cycle) ∈ v.pending ∧ v.nextSchedCycle = c.sysToMemCycle cycle
  top : v.nextSchedEvent = none → v.nextSchedCycle = ⊤

section Steps

variable {E : DDRFailure → Prop} {s : DDRMemory} {frees : List ℕ} {e k sysCycle : ℕ}

/-- An event that is queued and not annulled is the next wake-up. -/
theorem Events.wakeOk {v : SchedPart} (h : Events v frees) (he : Spare v frees e)
    (hquiet : Quiet v) {cycle : ℕ} (hnext : v.nextSchedEvent = some e)
    (hcycle : v.nextSchedCycle = c.sysToMemCycle cycle) : WakeOk c { v with
      schedState := Function.update v.schedState e .queued
      schedEvState := Function.update v.schedEvState e .queued
      pending := (e, cycle) :: v.pending } where
  events := ⟨frees, h.enqueue he cycle⟩
  alive := by
    intro f hf
    dsimp only
    rw [hnext]
    cases List.mem_cons.mp hf with
    | inl heq => rw [heq]; simp
    | inr hmem =>
      have hne : f ≠ e := ne_of_mem_of_not_mem hmem he.queued
      rw [Function.update_of_ne hne]
      exact ⟨fun hs => (hquiet f hmem hs).elim, fun hs => (hne (Option.some.inj hs).symm).elim⟩
  cycle := by
    intro f hf
    rw [hnext] at hf
    cases hf
    exact ⟨cycle, List.mem_cons_self, hcycle⟩
  top := fun hnone => nomatch hnext.symm.trans hnone

/-- `takeSchedEvent` returns an event that is idle. -/
theorem ends_takeSchedEvent (h : Events (schedOf s) frees) (hquiet : Quiet (schedOf s)) :
    ends E takeSchedEvent (fun e s' => (∃ frees', Events (schedOf s') frees' ∧
      Spare (schedOf s') frees' e) ∧ Quiet (schedOf s') ∧ s'.schedState e = .idle ∧
        s'.schedEvState e = .held ∧ s'.nextSchedEvent = some e ∧ s'.now = s.now) s := by
  unfold takeSchedEvent
  rw [ends_bind, ends_observe]
  split
  case h_1 e hfree =>
    obtain ⟨frees', hevents, hspare, hidle, hheld⟩ := h.pop hfree
    simp only [ends_bind, ends_change, ends_pure, and_true]
    refine ⟨⟨frees', ?_, ?_⟩, hquiet, hidle, hheld⟩
    · exact ⟨hevents.chain, hevents.freesNodup, hevents.free, hevents.queuedNodup, hevents.queued⟩
    · exact ⟨hspare.free, hspare.queued, hspare.next, hspare.count⟩
  case h_2 =>
    obtain ⟨hevents, hspare⟩ := h.create
    simp only [ends_bind, ends_change, ends_pure, and_true]
    refine ⟨⟨frees, ?_, ?_⟩, ?_, Function.update_self .., Function.update_self ..⟩
    · exact ⟨hevents.chain, hevents.freesNodup, hevents.free, hevents.queuedNodup, hevents.queued⟩
    · exact ⟨hspare.free, hspare.queued, hspare.next, hspare.count⟩
    · intro f hf
      have hne : f ≠ s.schedCount := ne_of_mem_of_not_mem hf hspare.queued
      dsimp only
      rw [Function.update_of_ne hne]
      exact hquiet f hf

/-- The new wake-up of `reschedule`, when none is left. -/
theorem ends_newWakeUp (hc : c.Accepted) (h : Events (schedOf s) frees)
    (hquiet : Quiet (schedOf s)) (hnow : s.now ≤ sysCycle) (hk : c.sysToMemCycle sysCycle ≤ k) :
    ends E (do
      let e ← takeSchedEvent
      schedEnqueue e (max (c.matchingMemToSysCycle k) sysCycle)
      change fun s => { s with nextSchedCycle := k } : Act Unit)
      (fun _ s' => WakeOk c (schedOf s') ∧ s'.nextSchedCycle = k) s := by
  rw [ends_bind]
  refine ends_mono (ends_takeSchedEvent h hquiet) fun e s' hs => ?_
  obtain ⟨⟨frees', hevents, hspare⟩, hquiet', hidle, hheld, hnext, hnow'⟩ := hs
  have hle : s'.now ≤ max (c.matchingMemToSysCycle k) sysCycle := by omega
  have hspare' : Spare { schedOf s' with nextSchedCycle := k } frees' e :=
    ⟨hspare.free, hspare.queued, hspare.next, hspare.count⟩
  have hcycle : (k : WithTop ℕ) = c.sysToMemCycle (max (c.matchingMemToSysCycle k) sysCycle) := by
    rw [sysToMemCycle_wakeUp hc hk]
  have hwake := (hevents.next (some e) k).wakeOk (hnext ▸ hspare') (hnext ▸ hquiet') rfl hcycle
  simp only [schedEnqueue, setSchedState, requeue, ends_bind, ends_observe, ends_ensure, ends_change,
    hidle, hheld, hle, not_true, false_implies, and_true, or_true, true_implies]
  rw [← hnext] at hwake
  exact hwake

theorem ends_annul (hstate : s.schedState e = .queued) : ends E (annul e) (fun _ s' =>
    s' = { s with schedState := Function.update s.schedState e .annulled }) s := by
  simp only [annul, setSchedState, ends_bind, ends_observe, ends_ensure, ends_change, hstate, not_true,
    false_implies, and_true, implies_true]

/-- `reschedule` moves the wake-up. -/
theorem ends_reschedule (hc : c.Accepted) (h : WakeOk c (schedOf s)) (hnow : s.now ≤ sysCycle)
    (hk : c.sysToMemCycle sysCycle ≤ k) : ends E (reschedule c k sysCycle)
      (fun _ s' => WakeOk c (schedOf s') ∧ s'.nextSchedCycle = k) s := by
  obtain ⟨frees, hevents⟩ := h.events
  unfold reschedule
  rw [ends_bind, ends_observe]
  split
  case h_1 e hnext =>
    obtain ⟨cycle, hpending, -⟩ := h.cycle e hnext
    have hqueued : e ∈ (schedOf s).queuedEvents := List.mem_map_of_mem hpending
    have hstate : s.schedState e = .queued := (h.alive e hqueued).mpr hnext
    have hquiet : Quiet (schedOf { s with schedState := Function.update s.schedState e .annulled }) := ?_
    · rw [ends_bind]
      refine ends_mono (ends_annul hstate) fun _ s' hs => ?_
      rw [hs]
      exact ends_newWakeUp hc (hevents.annul hqueued) hquiet hnow hk
    intro f hf
    dsimp only
    by_cases heq : f = e
    · rw [heq, Function.update_self]
      exact nofun
    · rw [Function.update_of_ne heq]
      intro hs
      have hnext' := (h.alive f hf).mp hs
      exact heq (Option.some.inj (hnext'.symm.trans hnext))
  case h_2 hnext =>
    refine ends_newWakeUp hc hevents (fun f hf hs => ?_) hnow hk
    have hnext' := (h.alive f hf).mp hs
    exact nomatch hnext'.symm.trans hnext

/-- `wakeUp` leaves a wake-up for a request that is first in its bank. -/
theorem ends_wakeUp (hc : c.Accepted) (h : WakeOk c (schedOf s)) (hnow : s.now ≤ sysCycle) (w : Bool)
    (id : ℕ) : ends E (wakeUp c w id (c.sysToMemCycle sysCycle) sysCycle) (fun _ s' =>
      WakeOk c (schedOf s') ∧
        ((s.tables w).First id ∨ s.nextSchedCycle ≠ ⊤ → s'.nextSchedCycle ≠ ⊤)) s := by
  unfold wakeUp
  rw [ends_bind, ends_observe, ends_ite]
  split
  case isFalse hfirst => exact ⟨h, fun hor => hor.resolve_left hfirst⟩
  case isTrue hfirst =>
    have hmin : c.sysToMemCycle sysCycle ≤ s.minSchedCycle c (c.sysToMemCycle sysCycle) :=
      le_max_left ..
    dsimp only
    generalize hk : (if ((s.minSchedCycle c (c.sysToMemCycle sysCycle) : ℕ) : WithTop ℕ) <
      s.nextSchedCycle then _ else _) = k
    have hle : c.sysToMemCycle sysCycle ≤ k := by
      rw [← hk]
      split <;> omega
    rw [ends_ite]
    split
    case isTrue =>
      refine ends_mono (ends_reschedule hc h hnow hle) fun _ s' hs => ⟨hs.1, fun _ => ?_⟩
      rw [hs.2]
      exact WithTop.coe_ne_top
    case isFalse hlate =>
      refine ⟨h, fun _ htop => hlate ?_⟩
      rw [htop]
      exact WithTop.coe_lt_top _

/-- An event that has run goes back into the queue: it is the next wake-up. -/
theorem ends_requeue (hc : c.Accepted) (h : Events (schedOf s) frees) (he : Spare (schedOf s) frees e)
    (hquiet : Quiet (schedOf s)) (hev : s.schedEvState e = .running)
    (hnext : s.nextSchedEvent = some e) (hk : c.sysToMemCycle sysCycle ≤ k)
    (hcycle : s.nextSchedCycle = k) (hnow : s.now ≤ sysCycle) :
    ends E (do
      requeue e (max (c.matchingMemToSysCycle k) sysCycle)
      setSchedState e .queued : Act Unit) (fun _ s' => WakeOk c (schedOf s')) s := by
  have hle : s.now ≤ max (c.matchingMemToSysCycle k) sysCycle := by omega
  have hcycle' : s.nextSchedCycle = c.sysToMemCycle (max (c.matchingMemToSysCycle k) sysCycle) := by
    rw [sysToMemCycle_wakeUp hc hk]
    exact hcycle
  have hwake := h.wakeOk he hquiet hnext hcycle'
  simp only [setSchedState, requeue, ends_bind, ends_observe, ends_ensure, ends_change, hev, hle,
    not_true, false_implies, and_true, true_or, true_implies]
  exact hwake

/-- An event that is done goes to the free list. -/
theorem ends_retire (h : Events (schedOf s) frees) (he : Spare (schedOf s) frees e)
    (hev : s.schedEvState e = .running) (hnext : s.nextSchedEvent ≠ some e)
    (halive : ∀ f ∈ (schedOf s).queuedEvents, s.schedState f = .queued ↔ s.nextSchedEvent = some f)
    (hcycle : ∀ f, s.nextSchedEvent = some f →
      ∃ cycle, (f, cycle) ∈ s.pending ∧ s.nextSchedCycle = c.sysToMemCycle cycle)
    (htop : s.nextSchedEvent = none → s.nextSchedCycle = ⊤) :
    ends E (retire e) (fun _ s' => WakeOk c (schedOf s')) s := by
  have hlink := he.next
  simp only [retire, recycleEvent, setSchedState, ends_bind, ends_observe, ends_ensure, ends_change,
    hev, not_true, false_implies, and_true, true_implies]
  refine ⟨fun _ => ⟨⟨e :: frees, h.push he⟩, fun f hf => ?_, hcycle, htop⟩, fun hno => ?_⟩
  · have hne : f ≠ e := ne_of_mem_of_not_mem hf he.queued
    dsimp only
    rw [Function.update_of_ne hne]
    exact halive f hf
  · exact (hno ⟨hnext, hlink⟩).elim

end Steps

end Zsim.DDRWakeUps
