import Zsim.CoreRecorders
import Zsim.Outcomes
import Zsim.GuardedRuns

/-!
# The unhalted cycles of a core

A reading of a core is its clock less the cycles it was halted. No later reading
can fall below the cycle from which a core has been halted, the clock of a
running core, or the first cycle in which the last event of a draining core can
still start. A draining core is read by its clock, which is brought up to the
end of each phase and then skewed, and may so be ahead of its last event.
-/

namespace Zsim.UnhaltedCycles

open WeakestPre Outcomes GuardedRuns CoreRecorders

section Account

variable {R A : Type}

/-- The first cycle in which events can still start. -/
def horizon (s : Core R) : ℕ :=
  if s.simulated = true then s.globPhaseCycles + s.phaseLength else s.globPhaseCycles

/-- The start of the last event without further contention. -/
def dueCycle (r : Recorder) : ℕ :=
  match r.events.getLast? with
  | none => 0
  | some ev => ev.zllStartCycle + r.gapCycles

/-- The cycle by which a core is read. -/
def readCycle (s : Core R) : ℕ := max s.curCycle s.globPhaseCycles

/-- The cycle below which the core cannot be found to be halted. -/
def floorCycle (s : Core R) : ℕ :=
  match s.cRec.state with
  | .halted => s.cRec.lastUnhaltedCycle
  | .running => readCycle s
  | .draining => max (horizon s) (dueCycle s.cRec)

/-- The invariant of a core. -/
structure Sound (s : Core R) : Prop where
  gap : s.cRec.gapCycles ≤ s.curCycle
  floor : floorCycle s ≤ readCycle s
  counted : s.cRec.totalHaltedCycles ≤ floorCycle s
  drains : s.cRec.state = .draining → s.cRec.events ≠ []

/-- A reading is computed without wrapping. -/
structure Unwrapped (s : Core R) : Prop where
  halted : s.cRec.state = .halted → s.cRec.lastUnhaltedCycle ≤ readCycle s
  total : s.cRec.totalHaltedCycles + (if s.cRec.state = .halted then
    readCycle s - s.cRec.lastUnhaltedCycle else 0) ≤ readCycle s

/-- The clock of a draining core is not ahead of its last event. -/
def Level (s : Core R) : Prop := s.cRec.state = .draining → readCycle s ≤ floorCycle s

/-- The floor, halted cycles taken off, does not fall. -/
structure Advances (s s' : Core R) : Prop where
  sound : Sound s'
  floor : floorCycle s + s'.cRec.totalHaltedCycles ≤ floorCycle s' + s.cRec.totalHaltedCycles
  core : s'.lastCoreCycles = s.lastCoreCycles

variable {s s' s₁ s₂ s₃ : Core R}

theorem diff64_of_le {x y : ℕ} (h : y ≤ x) : diff64 x y = x - y := if_pos h

theorem Sound.unwrapped (h : Sound s) : Unwrapped s := by
  have hfloor := h.floor
  have hcounted := h.counted
  constructor
  · intro hstate
    simp only [floorCycle, hstate] at hfloor
    exact hfloor
  · split
    · next hstate =>
      simp only [floorCycle, hstate] at hfloor hcounted
      omega
    · omega

/-- A reading is the clock less the halted cycles. -/
theorem Unwrapped.reading (h : Unwrapped s) : getUnhaltedCycles s = readCycle s -
    (s.cRec.totalHaltedCycles + if s.cRec.state = .halted then
      readCycle s - s.cRec.lastUnhaltedCycle else 0) := by
  have htotal := h.total
  have hterm : (if s.cRec.state = .halted then diff64 (readCycle s) s.cRec.lastUnhaltedCycle else 0) =
      if s.cRec.state = .halted then readCycle s - s.cRec.lastUnhaltedCycle else 0 := by
    split
    · next hstate => exact diff64_of_le (h.halted hstate)
    · rfl
  have hread : getUnhaltedCycles s = diff64 (readCycle s) (s.cRec.totalHaltedCycles +
      if s.cRec.state = .halted then diff64 (readCycle s) s.cRec.lastUnhaltedCycle else 0) := rfl
  rw [hread, hterm]
  exact diff64_of_le htotal

/-- A reading of a core whose clock is level is its floor. -/
theorem Sound.reading (h : Sound s) (hlevel : Level s) :
    getUnhaltedCycles s + s.cRec.totalHaltedCycles = floorCycle s := by
  have hfloor := h.floor
  have hcounted := h.counted
  rw [h.unwrapped.reading]
  cases hstate : s.cRec.state with
  | halted =>
    simp only [floorCycle, hstate] at hfloor hcounted ⊢
    rw [if_pos trivial]
    omega
  | running =>
    simp only [floorCycle, hstate] at hcounted ⊢
    rw [if_neg (by decide)]
    omega
  | draining =>
    have hle := hlevel hstate
    rw [if_neg (by decide)]
    omega

/-- What the weave phase of a core leaves alone. -/
structure SameAccount (s s' : Core R) : Prop where
  globPhaseCycles : s'.globPhaseCycles = s.globPhaseCycles
  phaseLength : s'.phaseLength = s.phaseLength
  simulated : s'.simulated = s.simulated
  lastCoreCycles : s'.lastCoreCycles = s.lastCoreCycles
  totalHaltedCycles : s'.cRec.totalHaltedCycles = s.cRec.totalHaltedCycles

theorem SameAccount.refl (s : Core R) : SameAccount s s := ⟨rfl, rfl, rfl, rfl, rfl⟩

theorem SameAccount.trans (h : SameAccount s s₁) (h' : SameAccount s₁ s₂) : SameAccount s s₂ :=
  ⟨h'.globPhaseCycles.trans h.globPhaseCycles, h'.phaseLength.trans h.phaseLength,
    h'.simulated.trans h.simulated, h'.lastCoreCycles.trans h.lastCoreCycles,
    h'.totalHaltedCycles.trans h.totalHaltedCycles⟩

/-- What does not change while events run. -/
structure SameClock (s s' : Core R) : Prop extends SameAccount s s' where
  curCycle : s'.curCycle = s.curCycle
  gapCycles : s'.cRec.gapCycles = s.cRec.gapCycles
  state : s'.cRec.state = s.cRec.state
  lastUnhaltedCycle : s'.cRec.lastUnhaltedCycle = s.cRec.lastUnhaltedCycle

theorem SameClock.refl (s : Core R) : SameClock s s := ⟨.refl s, rfl, rfl, rfl, rfl⟩

theorem SameClock.trans (h : SameClock s s₁) (h' : SameClock s₁ s₂) : SameClock s s₂ :=
  ⟨h.toSameAccount.trans h'.toSameAccount, h'.curCycle.trans h.curCycle, h'.gapCycles.trans h.gapCycles,
    h'.state.trans h.state, h'.lastUnhaltedCycle.trans h.lastUnhaltedCycle⟩

/-- The beginning of a weave phase: the clock of a draining core is brought up. -/
structure Started (s s' : Core R) : Prop extends SameAccount s s' where
  gapCycles : s'.cRec.gapCycles = s.cRec.gapCycles
  state : s'.cRec.state = s.cRec.state
  lastUnhaltedCycle : s'.cRec.lastUnhaltedCycle = s.cRec.lastUnhaltedCycle
  curCycle : s.curCycle ≤ s'.curCycle
  draining : s.cRec.state = .draining → s'.cRec.events = s.cRec.events ∧
    s.globPhaseCycles + s.phaseLength ≤ s'.curCycle

/-- An event has run. -/
structure Reported (ev : Event) (start : ℕ) (s s' : Core R) : Prop extends SameClock s s' where
  events : s'.cRec.events = s.cRec.events.tail
  zll : s'.cRec.lastEventSimulatedZllStartCycle = ev.zllStartCycle
  start : s'.cRec.lastEventSimulatedStartCycle = start

/-- Events have run. Those that have not are the last ones, and when there is none of
them the last event is the last one that has run. -/
structure Weaved (s s' : Core R) : Prop extends SameClock s s' where
  rest : s'.cRec.events ≠ [] → s'.cRec.events.getLast? = s.cRec.events.getLast?
  done : s'.cRec.events = [] → ∀ ev, s.cRec.events.getLast? = some ev →
    s'.cRec.lastEventSimulatedZllStartCycle = ev.zllStartCycle ∧
      s.globPhaseCycles ≤ s'.cRec.lastEventSimulatedStartCycle

/-- The last event of a draining core has run. -/
structure Halts (s s' : Core R) : Prop where
  draining : s.cRec.state = .draining
  events : s.cRec.events = []
  halted : s'.cRec.state = .halted
  lastUnhaltedCycle : s'.cRec.lastUnhaltedCycle = s.cRec.lastEventSimulatedStartCycle
  due : s.cRec.lastEventSimulatedZllStartCycle + s.cRec.gapCycles ≤ s.cRec.lastEventSimulatedStartCycle
  inside : s.cRec.lastEventSimulatedStartCycle ≤ s.curCycle

/-- The core goes on as it was. -/
structure GoesOn (s s' : Core R) : Prop where
  state : s'.cRec.state = s.cRec.state
  lastUnhaltedCycle : s'.cRec.lastUnhaltedCycle = s.cRec.lastUnhaltedCycle
  events : s.cRec.state = .draining → s.cRec.events ≠ []

/-- The end of a weave phase: the clock is skewed. -/
structure Ended (s s' : Core R) : Prop extends SameAccount s s' where
  events : s'.cRec.events = s.cRec.events
  skew : ∃ k, s'.curCycle = s.curCycle + k ∧ s'.cRec.gapCycles = s.cRec.gapCycles + k
  ends : GoesOn s s' ∨ Halts s s'

theorem floor_halted (h : s.cRec.state = .halted) : floorCycle s = s.cRec.lastUnhaltedCycle := by
  rw [floorCycle, h]

theorem floor_running (h : s.cRec.state = .running) : floorCycle s = readCycle s := by
  rw [floorCycle, h]

theorem floor_draining (h : s.cRec.state = .draining) :
    floorCycle s = max (horizon s) (dueCycle s.cRec) := by
  rw [floorCycle, h]

/-- A weave phase that halts the core. -/
theorem advances_of_halts (h : Sound s) (hbound : s.simulated = false) (h₁ : Started s s₁)
    (h₂ : Weaved s₁ s₂) (h₃ : Ended s₂ s₃) (hhalts : Halts s₂ s₃) :
    Advances s { s₃ with simulated := true } := by
  obtain ⟨k, hcur, hgap⟩ := h₃.skew
  have hstate : s.cRec.state = .draining := by
    rw [← h₁.state, ← h₂.state]
    exact hhalts.draining
  obtain ⟨hevents, -⟩ := h₁.draining hstate
  obtain ⟨ev, hlast⟩ := Option.isSome_iff_exists.mp (List.getLast?_isSome.mpr (h.drains hstate))
  have hlast₁ : s₁.cRec.events.getLast? = some ev := by rw [hevents, hlast]
  obtain ⟨hzll, hstart⟩ := h₂.done hhalts.events ev hlast₁
  have hdue := hhalts.due
  have hinside := hhalts.inside
  have hfloor := floor_draining hstate
  have hhorizon : horizon s = s.globPhaseCycles := if_neg (by rw [hbound]; decide)
  have hdues : dueCycle s.cRec = ev.zllStartCycle + s.cRec.gapCycles := by rw [dueCycle, hlast]
  have hfloor' : floorCycle { s₃ with simulated := true } = s₂.cRec.lastEventSimulatedStartCycle :=
    (@floor_halted _ { s₃ with simulated := true } hhalts.halted).trans hhalts.lastUnhaltedCycle
  have hgap₂ : s₂.cRec.gapCycles = s.cRec.gapCycles := h₂.gapCycles.trans h₁.gapCycles
  have hglob₁ : s₁.globPhaseCycles = s.globPhaseCycles := h₁.globPhaseCycles
  have hcounted := h.counted
  have htotal : s₃.cRec.totalHaltedCycles = s.cRec.totalHaltedCycles :=
    ((h₁.toSameAccount.trans h₂.toSameAccount).trans h₃.toSameAccount).totalHaltedCycles
  have hcur₂ : s₂.curCycle = s₁.curCycle := h₂.curCycle
  have hcur₁ := h₁.curCycle
  have hold := h.gap
  refine ⟨⟨?_, ?_, ?_, fun hdrain => ?_⟩, ?_, ?_⟩
  · change s₃.cRec.gapCycles ≤ s₃.curCycle
    omega
  · have hread : s₃.curCycle ≤ readCycle { s₃ with simulated := true } := Nat.le_max_left _ _
    omega
  · change s₃.cRec.totalHaltedCycles ≤ _
    omega
  · have hhalted : s₃.cRec.state = .draining := hdrain
    rw [hhalts.halted] at hhalted
    cases hhalted
  · change _ + s₃.cRec.totalHaltedCycles ≤ _
    omega
  · exact ((h₁.toSameAccount.trans h₂.toSameAccount).trans h₃.toSameAccount).lastCoreCycles

/-- A weave phase after which the core goes on. -/
theorem advances_of_goesOn (h : Sound s) (hbound : s.simulated = false) (h₁ : Started s s₁)
    (h₂ : Weaved s₁ s₂) (h₃ : Ended s₂ s₃) (hgoes : GoesOn s₂ s₃) :
    Advances s { s₃ with simulated := true } := by
  obtain ⟨k, hcur, hgap⟩ := h₃.skew
  have hsame := (h₁.toSameAccount.trans h₂.toSameAccount).trans h₃.toSameAccount
  have htotal := hsame.totalHaltedCycles
  have hglob := hsame.globPhaseCycles
  have hlength := hsame.phaseLength
  have hstate : s₃.cRec.state = s.cRec.state := hgoes.state.trans (h₂.state.trans h₁.state)
  have hunhalted : s₃.cRec.lastUnhaltedCycle = s.cRec.lastUnhaltedCycle :=
    hgoes.lastUnhaltedCycle.trans (h₂.lastUnhaltedCycle.trans h₁.lastUnhaltedCycle)
  have hgap₂ : s₂.cRec.gapCycles = s.cRec.gapCycles := h₂.gapCycles.trans h₁.gapCycles
  have hcur₂ : s₂.curCycle = s₁.curCycle := h₂.curCycle
  have hcur₁ := h₁.curCycle
  have hold := h.gap
  have hcounted := h.counted
  have hfloors := h.floor
  have hread : readCycle s = max s.curCycle s.globPhaseCycles := rfl
  have hread' : readCycle { s₃ with simulated := true } = max s₃.curCycle s₃.globPhaseCycles := rfl
  -- the floor rises, and stays below the clock
  have hgrows : floorCycle s ≤ floorCycle { s₃ with simulated := true } ∧
      floorCycle { s₃ with simulated := true } ≤ readCycle { s₃ with simulated := true } ∧
        (s₃.cRec.state = .draining → s₃.cRec.events ≠ []) := by
    cases hcase : s.cRec.state with
    | halted =>
      have hcase' : s₃.cRec.state = .halted := hstate.trans hcase
      have hfloor' : floorCycle { s₃ with simulated := true } = s₃.cRec.lastUnhaltedCycle := floor_halted hcase'
      rw [floor_halted hcase] at hfloors ⊢
      refine ⟨by omega, by omega, fun hdrain => ?_⟩
      rw [hcase'] at hdrain
      cases hdrain
    | running =>
      have hcase' : s₃.cRec.state = .running := hstate.trans hcase
      have hfloor' : floorCycle { s₃ with simulated := true } = readCycle { s₃ with simulated := true } :=
        floor_running hcase'
      rw [floor_running hcase]
      refine ⟨by omega, by omega, fun hdrain => ?_⟩
      rw [hcase'] at hdrain
      cases hdrain
    | draining =>
      have hcase' : s₃.cRec.state = .draining := hstate.trans hcase
      obtain ⟨hevents, hnext⟩ := h₁.draining hcase
      have hleft := hgoes.events (hgoes.state.symm.trans hcase')
      have hlast : s₃.cRec.events.getLast? = s.cRec.events.getLast? := by
        rw [h₃.events, h₂.rest hleft, hevents]
      have hdue : dueCycle s₃.cRec = dueCycle s.cRec + k := by
        obtain ⟨ev, hev⟩ := Option.isSome_iff_exists.mp (List.getLast?_isSome.mpr (h.drains hcase))
        rw [dueCycle, dueCycle, hlast, hev]
        dsimp only
        omega
      have hhorizon : horizon s = s.globPhaseCycles := if_neg (by rw [hbound]; decide)
      have hhorizon' : horizon { s₃ with simulated := true } = s₃.globPhaseCycles + s₃.phaseLength :=
        if_pos rfl
      have hfloor' : floorCycle { s₃ with simulated := true } =
          max (horizon { s₃ with simulated := true }) (dueCycle s₃.cRec) := floor_draining hcase'
      rw [floor_draining hcase] at hfloors ⊢
      refine ⟨by omega, by omega, fun _ => ?_⟩
      rw [h₃.events]
      exact hleft
  obtain ⟨hup, hbelow, hdrains⟩ := hgrows
  refine ⟨⟨?_, hbelow, ?_, hdrains⟩, ?_, hsame.lastCoreCycles⟩
  · change s₃.cRec.gapCycles ≤ s₃.curCycle
    omega
  · change s₃.cRec.totalHaltedCycles ≤ _
    omega
  · change _ + s₃.cRec.totalHaltedCycles ≤ _
    omega

/-- A weave phase. -/
theorem advances_of_phase (h : Sound s) (hbound : s.simulated = false) (h₁ : Started s s₁)
    (h₂ : Weaved s₁ s₂) (h₃ : Ended s₂ s₃) : Advances s { s₃ with simulated := true } := by
  cases h₃.ends with
  | inl hgoes => exact advances_of_goesOn h hbound h₁ h₂ h₃ hgoes
  | inr hhalts => exact advances_of_halts h hbound h₁ h₂ h₃ hhalts

end Account

/-- A failure of something else than a reading. -/
def Other (e : CoreFailure) : Prop := e ≠ .backwards

instance : DecidablePred Other := fun e => inferInstanceAs (Decidable (e ≠ .backwards))

section Common

variable {R A : Type} {s s' : Core R} {I : Recorder → R → Prop}

theorem weaved_refl (s : Core R) (h : s.cRec.events = []) : Weaved s s :=
  ⟨.refl s, fun _ => rfl, fun _ ev hev => by rw [h] at hev; cases hev⟩

/-- One event, and then others. -/
theorem Reported.weaved {ev : Event} {start : ℕ} {events : List Event} {s₁ s₂ : Core R}
    (h : Reported ev start s s₁) (hevents : s.cRec.events = ev :: events) (hne : events ≠ [])
    (h' : Weaved s₁ s₂) : Weaved s s₂ := by
  have hrest : s₁.cRec.events = events := by rw [h.events, hevents, List.tail_cons]
  have hlast : s₁.cRec.events.getLast? = s.cRec.events.getLast? := by
    rw [hrest, hevents, List.getLast?_cons_of_ne_nil hne]
  refine ⟨h.toSameClock.trans h'.toSameClock, fun hleft => (h'.rest hleft).trans hlast, fun hdone ev' hev' => ?_⟩
  obtain ⟨hzll, hstart⟩ := h'.done hdone ev' (hlast.trans hev')
  exact ⟨hzll, h.globPhaseCycles ▸ hstart⟩

/-- The last event. -/
theorem Reported.weaved_last {ev : Event} {start : ℕ} {s₁ : Core R} (h : Reported ev start s s₁)
    (hevents : s.cRec.events = [ev]) (hstart : s.globPhaseCycles ≤ start) : Weaved s s₁ := by
  have hrest : s₁.cRec.events = [] := by rw [h.events, hevents, List.tail_cons]
  refine ⟨h.toSameClock, fun hleft => absurd hrest hleft, fun _ ev' hev' => ?_⟩
  rw [hevents] at hev'
  cases hev'
  rw [h.zll, h.start]
  exact ⟨rfl, hstart⟩

/-- Running the events is running some of them from the first on. -/
theorem simulate_weaves {report : Event → ℕ → Act R Unit}
    (hreport : ∀ ev events start s, s.cRec.events = ev :: events → I s.cRec s.own →
      ends Other (report ev start) (fun _ s' => Reported ev start s s' ∧ I s'.cRec s'.own) s)
    {events : List Event} {contention : ℕ → ℕ} (hevents : s.cRec.events = events) (hI : I s.cRec s.own) :
    ends Other (simulate report events contention) (fun _ s' => Weaved s s' ∧ I s'.cRec s'.own) s := by
  induction events generalizing s contention with
  | nil => exact ⟨weaved_refl s hevents, hI⟩
  | cons ev events ih =>
    rw [simulate, ends_bind, ends_observe]
    dsimp only
    rw [ends_ite]
    split
    · rw [ends_bind]
      refine ends_mono (hreport ev events _ s hevents hI) fun _ s₁ h₁ => ?_
      obtain ⟨hreported, hI₁⟩ := h₁
      have hrest : s₁.cRec.events = events := by rw [hreported.events, hevents, List.tail_cons]
      cases hcase : events with
      | nil =>
        rw [hcase] at hevents
        refine ⟨hreported.weaved_last hevents ?_, hI₁⟩
        exact Nat.le_trans (Nat.le_max_left _ _) (Nat.le_add_right _ _)
      | cons ev' events' =>
        rw [← hcase]
        refine ends_mono (ih hrest hI₁) fun _ s₂ h₂ => ⟨hreported.weaved hevents ?_ h₂.1, h₂.2⟩
        rw [hcase]
        exact List.cons_ne_nil _ _
    · rw [ends_pure]
      exact ⟨⟨.refl s, fun _ => rfl, fun hnil => absurd (hevents.symm.trans hnil) (List.cons_ne_nil _ _)⟩, hI⟩

/-- The clock is skewed by how late the last event was. -/
theorem skewClock_ends (curCycle : ℕ) : ends Other (skewClock curCycle) (fun k s' =>
    s' = { s with cRec := { s.cRec with gapCycles := s.cRec.gapCycles + k } } ∧
      s.cRec.lastEventSimulatedZllStartCycle + s.cRec.gapCycles ≤ s.cRec.lastEventSimulatedStartCycle ∧
        s.cRec.lastEventSimulatedStartCycle ≤ curCycle) s := by
  simp only [skewClock, setRec, ends_bind, ends_observe, ends_ensure, ends_change, ends_pure]
  refine ⟨fun _ => ⟨fun hlate => ⟨fun hskew => ?_, fun _ => by decide⟩, fun _ => by decide⟩, fun _ => by decide⟩
  exact ⟨trivial, hskew, hlate⟩

/-- A halted core is counted as halted up to the beginning of the phase. -/
theorem unhalt_ends : ends Other unhalt (fun c s' => c = s.globPhaseCycles ∧
    s.cRec.lastUnhaltedCycle ≤ s.globPhaseCycles ∧ s' = { s with cRec := { s.cRec with
      totalGapCycles := s.cRec.totalGapCycles + s.cRec.gapCycles
      gapCycles := 0
      totalHaltedCycles := s.cRec.totalHaltedCycles +
        (s.globPhaseCycles - s.cRec.lastUnhaltedCycle) } }) s := by
  simp only [unhalt, setRec, ends_bind, ends_observe, ends_ensure, ends_change, ends_pure]
  refine ⟨fun hle => ⟨trivial, hle, ?_⟩, fun _ => by decide⟩
  rw [diff64_of_le hle]

theorem halt_ends : ends Other halt (fun _ s' => s.cRec.state = .draining ∧ s' = { s with cRec :=
    { s.cRec with
      lastUnhaltedCycle := s.cRec.lastEventSimulatedStartCycle
      state := .halted } }) s := by
  simp only [halt, setRec, ends_bind, ends_observe, ends_ensure, ends_change]
  exact ⟨fun hdrain => ⟨hdrain, trivial⟩, fun _ => by decide⟩

/-- A core that runs after a step. -/
theorem advances_running (hstate : s'.cRec.state = .running) (hgap : s'.cRec.gapCycles ≤ s'.curCycle)
    (hcounted : s'.cRec.totalHaltedCycles ≤ readCycle s')
    (hfloor : floorCycle s + s'.cRec.totalHaltedCycles ≤ readCycle s' + s.cRec.totalHaltedCycles)
    (hcore : s'.lastCoreCycles = s.lastCoreCycles) : Advances s s' := by
  have hfloor' := floor_running hstate
  refine ⟨⟨hgap, Nat.le_of_eq hfloor', by rwa [hfloor'], fun hdrain => ?_⟩, by rwa [hfloor'], hcore⟩
  rw [hstate] at hdrain
  cases hdrain

/-- A halted core joins. -/
theorem Sound.join_halted (h : Sound s) (hstate : s.cRec.state = .halted)
    (hle : s.cRec.lastUnhaltedCycle ≤ s.globPhaseCycles) (hrun : s'.cRec.state = .running)
    (hgap : s'.cRec.gapCycles = 0) (hcur : s.globPhaseCycles ≤ s'.curCycle)
    (htotal : s'.cRec.totalHaltedCycles = s.cRec.totalHaltedCycles +
      (s.globPhaseCycles - s.cRec.lastUnhaltedCycle))
    (hcore : s'.lastCoreCycles = s.lastCoreCycles) : Advances s s' := by
  have hcounted := h.counted
  have hread : s'.curCycle ≤ readCycle s' := Nat.le_max_left _ _
  rw [floor_halted hstate] at hcounted
  refine advances_running hrun (by omega) (by omega) ?_ hcore
  rw [floor_halted hstate]
  omega

/-- A draining core joins. -/
theorem Sound.join_draining (h : Sound s) (hrun : s'.cRec.state = .running)
    (hgap : s'.cRec.gapCycles = s.cRec.gapCycles) (hcur : s'.curCycle = s.curCycle)
    (hglob : s'.globPhaseCycles = s.globPhaseCycles)
    (htotal : s'.cRec.totalHaltedCycles = s.cRec.totalHaltedCycles)
    (hcore : s'.lastCoreCycles = s.lastCoreCycles) : Advances s s' := by
  have hfloor := h.floor
  have hcounted := h.counted
  have hgap' := h.gap
  have hread : readCycle s' = readCycle s := by rw [readCycle, readCycle, hcur, hglob]
  exact advances_running hrun (by omega) (by omega) (by omega) hcore

/-- A running core leaves, and its last event is due when it leaves. -/
theorem Sound.leaves (h : Sound s) (hbound : s.simulated = false) (hstate : s.cRec.state = .running)
    (hsame : SameAccount s s') (hcur : s'.curCycle = s.curCycle)
    (hgap : s'.cRec.gapCycles = s.cRec.gapCycles) (hdrain : s'.cRec.state = .draining) {ev : Event}
    (hlast : s'.cRec.events.getLast? = some ev)
    (hzll : ev.zllStartCycle = diff64 s.curCycle s.cRec.gapCycles) : Advances s s' := by
  have hgap' := h.gap
  have hcounted := h.counted
  have htotal := hsame.totalHaltedCycles
  have hdue : dueCycle s'.cRec = s.curCycle := by
    rw [dueCycle, hlast]
    dsimp only
    rw [hzll, diff64_of_le hgap', hgap]
    omega
  have hhorizon : horizon s' = s.globPhaseCycles := by
    rw [horizon, hsame.simulated, hbound, if_neg (by decide), hsame.globPhaseCycles]
  have hread : readCycle s' = readCycle s := by rw [readCycle, readCycle, hcur, hsame.globPhaseCycles]
  have hfloor' : floorCycle s' = readCycle s := by
    rw [floor_draining hdrain, hdue, hhorizon, readCycle, Nat.max_comm]
  rw [floor_running hstate] at hcounted
  refine ⟨⟨by omega, by omega, by omega, fun _ hnil => ?_⟩, ?_, hsame.lastCoreCycles⟩
  · rw [hnil] at hlast
    cases hlast
  · rw [floor_running hstate]
    omega

/-- What the work of a thread does to the account of its core. -/
structure Worked (s s' : Core R) : Prop extends SameAccount s s' where
  curCycle : s.curCycle ≤ s'.curCycle
  gapCycles : s'.cRec.gapCycles = s.cRec.gapCycles
  state : s'.cRec.state = s.cRec.state

theorem Worked.trans {s₁ s₂ : Core R} (h : Worked s s₁) (h' : Worked s₁ s₂) : Worked s s₂ :=
  ⟨h.toSameAccount.trans h'.toSameAccount, Nat.le_trans h.curCycle h'.curCycle,
    h'.gapCycles.trans h.gapCycles, h'.state.trans h.state⟩

theorem SameClock.worked (h : SameClock s s') : Worked s s' :=
  ⟨h.toSameAccount, Nat.le_of_eq h.curCycle.symm, h.gapCycles, h.state⟩

/-- A running core goes on. -/
theorem Worked.advances (h' : Worked s s') (h : Sound s) (hstate : s.cRec.state = .running) :
    Advances s s' := by
  have hgap := h.gap
  have hgap' := h'.gapCycles
  have hcur := h'.curCycle
  have hcounted := h.counted
  have htotal := h'.totalHaltedCycles
  have hglob := h'.globPhaseCycles
  have hread : readCycle s ≤ readCycle s' := by
    rw [readCycle, readCycle]
    omega
  rw [floor_running hstate] at hcounted
  refine advances_running (h'.state.trans hstate) (by omega) (by omega) ?_ h'.lastCoreCycles
  rw [floor_running hstate]
  omega

/-- The next phase begins. -/
theorem Sound.next (h : Sound s) (hsim : s.simulated = true) : Advances s { s with
    globPhaseCycles := s.globPhaseCycles + s.phaseLength
    simulated := false } := by
  have hfloor := h.floor
  have hcounted := h.counted
  have hread : readCycle s = max s.curCycle s.globPhaseCycles := rfl
  have hread' : readCycle { s with
      globPhaseCycles := s.globPhaseCycles + s.phaseLength
      simulated := false } = max s.curCycle (s.globPhaseCycles + s.phaseLength) := rfl
  have hhorizon : horizon { s with
      globPhaseCycles := s.globPhaseCycles + s.phaseLength
      simulated := false } = horizon s := by
    rw [horizon, horizon, hsim, if_pos rfl]
    exact if_neg Bool.false_ne_true
  have hgrows : floorCycle s ≤ floorCycle { s with
      globPhaseCycles := s.globPhaseCycles + s.phaseLength
      simulated := false } ∧ floorCycle { s with
      globPhaseCycles := s.globPhaseCycles + s.phaseLength
      simulated := false } ≤ readCycle { s with
      globPhaseCycles := s.globPhaseCycles + s.phaseLength
      simulated := false } := by
    unfold floorCycle at hfloor ⊢
    cases hcase : s.cRec.state with
    | halted =>
      rw [hcase] at hfloor
      dsimp only at hfloor ⊢
      omega
    | running =>
      dsimp only
      omega
    | draining =>
      rw [hcase] at hfloor
      dsimp only at hfloor ⊢
      rw [hhorizon]
      omega
  refine ⟨⟨h.gap, hgrows.2, ?_, h.drains⟩, ?_, rfl⟩
  · exact Nat.le_trans hcounted hgrows.1
  · exact Nat.add_le_add_right hgrows.1 _

end Common

/-- What a kind of core does, apart from the readings; `I` is an invariant of its recorder. -/
structure Respects {R A : Type} (M : CoreModel R A) (I : Recorder → R → Prop) : Prop where
  join : ∀ s, Sound s → ends Other M.join (fun _ s' => Advances s s' ∧ I s'.cRec s'.own) s
  leave : ∀ s, Sound s → s.simulated = false →
    ends Other M.leave (fun _ s' => Advances s s' ∧ I s'.cRec s'.own) s
  work : ∀ a s, Sound s → s.cRec.state = .running →
    ends Other (M.work a) (fun _ s' => Advances s s' ∧ I s'.cRec s'.own) s
  cSimStart : ∀ s, I s.cRec s.own → ends Other M.cSimStart (fun _ s' => Started s s' ∧ I s'.cRec s'.own) s
  report : ∀ ev events start s, s.cRec.events = ev :: events → I s.cRec s.own →
    ends Other (M.reportSimulated ev start) (fun _ s' => Reported ev start s s' ∧ I s'.cRec s'.own) s
  cSimEnd : ∀ s, I s.cRec s.own → ends Other M.cSimEnd (fun _ s' => Ended s s' ∧ I s'.cRec s'.own) s

section Timing

variable {s s' : Core CoreRecorder}

/-- While the core drains, the last event of its chain is an event of the core. -/
def Tapered (r : Recorder) (own : CoreRecorder) : Prop :=
  r.state = .draining → own.prevRespEvent = if r.events = [] then .null else .core

theorem tapered_of_ne {r : Recorder} {own : CoreRecorder} (h : r.state ≠ .draining) : Tapered r own :=
  fun hdrain => absurd hdrain h

/-- An event is added to the chain. -/
theorem addEvent_ends (delay : ℕ) : ends Other (CoreRecorder.addEvent delay) (fun _ s' =>
    s' = { s with
      cRec := s.cRec.push
        ⟨diff64 s.own.prevRespCycle s.cRec.gapCycles, .chained s.own.prevRespDelay⟩
      own := ⟨.core, s.own.prevRespCycle, delay32 delay⟩ }) s := by
  simp only [CoreRecorder.addEvent, setRec, ends_bind, ends_observe, ends_ensure, ends_change]
  exact ⟨fun _ => trivial, fun _ => by decide⟩

theorem timing_join (h : Sound s) :
    ends Other TimingCore.join (fun _ s' => Advances s s' ∧ Tapered s'.cRec s'.own) s := by
  simp only [TimingCore.join, CoreRecorder.notifyJoin, ends_bind, ends_observe]
  cases hstate : s.cRec.state with
  | halted =>
    simp only [ends_bind, ends_ensure]
    refine ⟨fun _ => ?_, fun _ => by decide⟩
    refine ends_mono unhalt_ends fun c s₁ h₁ => ?_
    obtain ⟨rfl, hle, rfl⟩ := h₁
    simp only [setRec, Recorder.push, ends_change, ends_pure]
    refine ⟨h.join_halted hstate hle rfl rfl (Nat.le_refl _) rfl rfl, tapered_of_ne ?_⟩
    dsimp only
    decide
  | running => exact (by decide : Other .invalidState)
  | draining =>
    simp only [setRec, ends_bind, ends_ensure, ends_change, ends_pure]
    refine ⟨fun _ => ⟨h.join_draining rfl rfl rfl rfl rfl rfl, tapered_of_ne ?_⟩, fun _ => by decide⟩
    dsimp only
    decide

theorem timing_leave (h : Sound s) (hbound : s.simulated = false) :
    ends Other TimingCore.leave (fun _ s' => Advances s s' ∧ Tapered s'.cRec s'.own) s := by
  simp only [TimingCore.leave, CoreRecorder.notifyLeave, setRec, ends_bind, ends_observe, ends_ensure,
    ends_change]
  refine ⟨fun hstate => ⟨fun _ => ?_, fun _ => by decide⟩, fun _ => by decide⟩
  refine ends_mono (addEvent_ends _) fun _ s₁ h₁ => ?_
  subst h₁
  refine ends_mono (addEvent_ends _) fun _ s₂ h₂ => ?_
  subst h₂
  refine ⟨h.leaves hbound hstate ⟨rfl, rfl, rfl, rfl, rfl⟩ rfl rfl rfl (List.getLast?_concat ..) rfl, fun _ => ?_⟩
  exact (if_neg (List.append_ne_nil_of_right_ne_nil _ (List.cons_ne_nil _ _))).symm

theorem recordAccess_ends (startCycle : ℕ) (tr : TimingRecord) :
    ends Other (CoreRecorder.recordAccess startCycle tr) (fun _ s' => SameClock s s') s := by
  simp only [CoreRecorder.recordAccess, ends_bind, ends_observe, ends_ensure]
  refine ⟨fun _ => ⟨fun _ => ?_, fun _ => by decide⟩, fun _ => by decide⟩
  rw [ends_ite]
  split
  · rw [ends_bind]
    refine ends_mono (addEvent_ends _) fun _ s₁ h₁ => ?_
    subst h₁
    exact ⟨⟨rfl, rfl, rfl, rfl, rfl⟩, rfl, rfl, rfl, rfl⟩
  · rw [ends_ensure]
    exact ⟨fun _ => .refl s, fun _ => by decide⟩

theorem loadAndRecord_ends (latency : ℕ) (tr : Option TimingRecord) :
    ends Other (TimingCore.loadAndRecord latency tr) (fun _ s' => Worked s s') s := by
  rw [TimingCore.loadAndRecord, ends_bind, ends_observe, ends_bind, ends_change]
  have hlater : Worked s { s with curCycle := s.curCycle + latency } :=
    ⟨⟨rfl, rfl, rfl, rfl, rfl⟩, Nat.le_add_right _ _, rfl, rfl⟩
  cases tr with
  | none => exact hlater
  | some tr => exact ends_mono (recordAccess_ends _ tr) fun _ s' h' => hlater.trans h'.worked

theorem timing_work (h : Sound s) (hstate : s.cRec.state = .running) (a : TimingCore.Work) :
    ends Other (TimingCore.work a) (fun _ s' => Advances s s' ∧ Tapered s'.cRec s'.own) s := by
  have hworked : ends Other (TimingCore.work a) (fun _ s' => Worked s s') s := by
    cases a with
    | access latency tr => exact loadAndRecord_ends latency tr
    | bbl instrs fetches =>
      rw [TimingCore.work, TimingCore.bblAndRecord, ends_bind, ends_change]
      refine ends_foldlM (fun _ _ s' => Worked s s') (fun fetch _ _ s' h' => ?_) ?_
      · exact ends_mono (loadAndRecord_ends _ _) fun _ s'' h'' => h'.trans h''
      · exact ⟨⟨rfl, rfl, rfl, rfl, rfl⟩, Nat.le_add_right _ _, rfl, rfl⟩
  refine ends_mono hworked fun _ s' h' => ?_
  refine ⟨h'.advances h hstate, tapered_of_ne ?_⟩
  rw [h'.state, hstate]
  decide

theorem timing_cSimStart (hI : Tapered s.cRec s.own) :
    ends Other TimingCore.cSimStart (fun _ s' => Started s s' ∧ Tapered s'.cRec s'.own) s := by
  simp only [TimingCore.cSimStart, CoreRecorder.cSimStart, ends_bind, ends_observe]
  cases hstate : s.cRec.state with
  | halted =>
    simp only [ends_pure, ends_change]
    refine ⟨⟨⟨rfl, rfl, rfl, rfl, rfl⟩, rfl, rfl, rfl, Nat.le_refl _, fun hdrain => ?_⟩, hI⟩
    rw [hstate] at hdrain
    cases hdrain
  | running =>
    simp only [ends_bind, ends_ensure]
    refine ⟨fun _ => ?_, fun _ => by decide⟩
    have htaper : ends Other (if s.own.prevRespCycle < s.curCycle then do
        CoreRecorder.addEvent (diff64 s.curCycle s.own.prevRespCycle)
        change fun s' => { s' with own := { s'.own with prevRespCycle := s.curCycle } }
      else pure ()) (fun _ s' => SameClock s s') s := by
      rw [ends_ite]
      split
      · rw [ends_bind]
        refine ends_mono (addEvent_ends _) fun _ s₁ h₁ => ?_
        subst h₁
        exact ⟨⟨rfl, rfl, rfl, rfl, rfl⟩, rfl, rfl, rfl, rfl⟩
      · exact .refl s
    refine ends_mono htaper fun _ s₁ h₁ => ?_
    refine ends_mono (addEvent_ends _) fun _ s₂ h₂ => ?_
    subst h₂
    rw [ends_pure, ends_change]
    have hrun : s₁.cRec.state = .running := h₁.state.trans hstate
    refine ⟨⟨⟨h₁.globPhaseCycles, h₁.phaseLength, h₁.simulated, h₁.lastCoreCycles, h₁.totalHaltedCycles⟩,
      h₁.gapCycles, h₁.state, h₁.lastUnhaltedCycle, Nat.le_refl _, fun hdrain => ?_⟩, tapered_of_ne ?_⟩
    · rw [hstate] at hdrain
      cases hdrain
    · change s₁.cRec.state ≠ .draining
      rw [hrun]
      decide
  | draining =>
    simp only [ends_pure, ends_change]
    exact ⟨⟨⟨rfl, rfl, rfl, rfl, rfl⟩, rfl, rfl, rfl, Nat.le_max_left _ _, fun _ =>
      ⟨rfl, Nat.le_max_right _ _⟩⟩, hI⟩

theorem timing_report {ev : Event} {events : List Event} {start : ℕ} (hevents : s.cRec.events = ev :: events)
    (hI : Tapered s.cRec s.own) : ends Other (CoreRecorder.reportEventSimulated ev start)
      (fun _ s' => Reported ev start s s' ∧ Tapered s'.cRec s'.own) s := by
  simp only [CoreRecorder.reportEventSimulated, setRec, ends_bind, ends_observe, ends_change]
  have htail : s.cRec.events.tail = events := by rw [hevents, List.tail_cons]
  rw [ends_ite]
  split
  · next hlast =>
    simp only [ends_bind, ends_ensure, ends_change]
    refine ⟨fun _ => ⟨⟨⟨⟨rfl, rfl, rfl, rfl, rfl⟩, rfl, rfl, rfl, rfl⟩, rfl, rfl, rfl⟩, fun _ => ?_⟩,
      fun _ => by decide⟩
    exact (if_pos hlast.1).symm
  · next hnot =>
    rw [ends_pure]
    refine ⟨⟨⟨⟨rfl, rfl, rfl, rfl, rfl⟩, rfl, rfl, rfl, rfl⟩, rfl, rfl, rfl⟩, fun hdrain => ?_⟩
    have hcore := hI hdrain
    rw [hevents, if_neg (List.cons_ne_nil _ _)] at hcore
    have hne : s.cRec.events.tail ≠ [] := fun hnil => hnot ⟨hnil, hcore⟩
    exact hcore.trans (if_neg hne).symm

theorem timing_cSimEnd (hI : Tapered s.cRec s.own) :
    ends Other TimingCore.cSimEnd (fun _ s' => Ended s s' ∧ Tapered s'.cRec s'.own) s := by
  simp only [TimingCore.cSimEnd, CoreRecorder.cSimEnd, ends_bind, ends_observe]
  rw [ends_ite]
  split
  · next hhalted =>
    rw [ends_pure, ends_change]
    refine ⟨⟨⟨rfl, rfl, rfl, rfl, rfl⟩, rfl, ⟨0, rfl, rfl⟩, Or.inl ⟨rfl, rfl, fun hdrain => ?_⟩⟩, hI⟩
    rw [hhalted] at hdrain
    cases hdrain
  · rw [ends_bind]
    refine ends_mono (skewClock_ends _) fun k s₁ h₁ => ?_
    obtain ⟨rfl, hdue, hinside⟩ := h₁
    simp only [ends_bind, ends_change]
    rw [ends_ite]
    split
    · next hnull =>
      refine ends_mono halt_ends fun _ s₂ h₂ => ?_
      obtain ⟨hdrain, rfl⟩ := h₂
      have hnil : s.cRec.events = [] := by
        by_contra hne
        have hcore := hI hdrain
        rw [if_neg hne, hnull] at hcore
        cases hcore
      rw [ends_pure]
      refine ⟨⟨⟨rfl, rfl, rfl, rfl, rfl⟩, rfl, ⟨k, rfl, rfl⟩, Or.inr ?_⟩, tapered_of_ne ?_⟩
      · exact ⟨hdrain, hnil, rfl, rfl, hdue, hinside⟩
      · dsimp only
        decide
    · next hlinked =>
      rw [ends_pure, ends_pure]
      refine ⟨⟨⟨rfl, rfl, rfl, rfl, rfl⟩, rfl, ⟨k, rfl, rfl⟩, Or.inl ⟨rfl, rfl, fun hdrain hnil => ?_⟩⟩, hI⟩
      exact hlinked ((hI hdrain).trans (if_pos hnil))

theorem timing_respects : Respects TimingCore.model Tapered :=
  ⟨fun _ h => timing_join h, fun _ h hbound => timing_leave h hbound,
    fun a _ h hstate => timing_work h hstate a, fun _ hI => timing_cSimStart hI,
    fun _ _ _ _ hevents hI => timing_report hevents hI, fun _ hI => timing_cSimEnd hI⟩

end Timing

section OOO

variable {s s' : Core OOOCoreRecorder}

/-- An issue event is added to the chain. -/
theorem addIssueEvent_ends (evCycle : ℕ) : ends Other (OOOCoreRecorder.addIssueEvent evCycle) (fun _ s' =>
    ∃ t, s' = { s with cRec := s.cRec.push ⟨diff64 evCycle s.cRec.gapCycles, t⟩ }) s := by
  rw [OOOCoreRecorder.addIssueEvent, ends_bind, ends_observe]
  cases s.cRec.events.getLast? with
  | none => exact (by decide : Other .noLastEvent)
  | some last =>
    simp only [setRec, ends_bind, ends_ensure, ends_change]
    exact ⟨fun _ => ⟨_, rfl⟩, fun _ => by decide⟩

theorem advance_ends (targetCycle : ℕ) : ends Other (OOOCore.advance targetCycle) (fun _ s' =>
    s' = { s with curCycle := max s.curCycle targetCycle }) s := by
  rw [OOOCore.advance, ends_bind, ends_observe, ends_ite]
  split
  · next hlt => rw [ends_change, Nat.max_eq_right (Nat.le_of_lt hlt)]
  · next hge => rw [ends_pure, Nat.max_eq_left (Nat.le_of_not_lt hge)]

theorem ooo_join (h : Sound s) : ends Other OOOCore.join (fun _ s' => Advances s s' ∧ True) s := by
  simp only [OOOCore.join, OOOCoreRecorder.notifyJoin, ends_bind, ends_observe]
  cases hstate : s.cRec.state with
  | halted =>
    simp only [ends_bind, ends_ensure]
    refine ⟨fun _ => ?_, fun _ => by decide⟩
    refine ends_mono unhalt_ends fun c s₁ h₁ => ?_
    obtain ⟨rfl, hle, rfl⟩ := h₁
    simp only [setRec, Recorder.push, ends_change, ends_pure]
    refine ends_mono (advance_ends _) fun _ s₂ h₂ => ?_
    subst h₂
    exact ⟨h.join_halted hstate hle rfl rfl (Nat.le_max_right _ _) rfl rfl, trivial⟩
  | running => exact (by decide : Other .invalidState)
  | draining =>
    simp only [setRec, ends_bind, ends_ensure]
    refine ⟨fun _ => ?_, fun _ => by decide⟩
    refine ends_mono (addIssueEvent_ends _) fun _ s₁ h₁ => ?_
    obtain ⟨t, rfl⟩ := h₁
    simp only [ends_change, ends_pure]
    refine ends_mono (advance_ends _) fun _ s₂ h₂ => ?_
    subst h₂
    exact ⟨h.join_draining rfl rfl (Nat.max_self _) rfl rfl rfl, trivial⟩

theorem ooo_leave (h : Sound s) (hbound : s.simulated = false) :
    ends Other OOOCore.leave (fun _ s' => Advances s s' ∧ True) s := by
  simp only [OOOCore.leave, OOOCoreRecorder.notifyLeave, setRec, ends_bind, ends_observe, ends_ensure,
    ends_change]
  refine ⟨fun hstate => ?_, fun _ => by decide⟩
  refine ends_mono (addIssueEvent_ends _) fun _ s₁ h₁ => ?_
  obtain ⟨t, rfl⟩ := h₁
  exact ⟨h.leaves hbound hstate ⟨rfl, rfl, rfl, rfl, rfl⟩ rfl rfl rfl (List.getLast?_concat ..) rfl, trivial⟩

theorem ooo_work (h : Sound s) (hstate : s.cRec.state = .running) (a : OOOCore.Work) :
    ends Other (OOOCore.work a) (fun _ s' => Advances s s' ∧ True) s := by
  have hworked : ends Other (OOOCore.work a) (fun _ s' => Worked s s') s := by
    cases a with
    | bbl cycles => exact ⟨⟨rfl, rfl, rfl, rfl, rfl⟩, Nat.le_add_right _ _, rfl, rfl⟩
    | record isGet =>
      rw [OOOCore.work, ends_bind, ends_observe, OOOCoreRecorder.recordAccess, ends_ite]
      split
      · refine ends_mono (addIssueEvent_ends _) fun _ s₁ h₁ => ?_
        obtain ⟨t, rfl⟩ := h₁
        exact ⟨⟨rfl, rfl, rfl, rfl, rfl⟩, Nat.le_refl _, rfl, rfl⟩
      · rw [ends_bind, ends_observe, ends_ensure]
        exact ⟨fun _ => (SameClock.refl s).worked, fun _ => by decide⟩
  exact ends_mono hworked fun _ s' h' => ⟨h'.advances h hstate, trivial⟩

theorem oooRecorder_cSimStart : ends Other (OOOCoreRecorder.cSimStart s.curCycle) (fun c s₁ =>
    SameClock s s₁ ∧ s.curCycle ≤ c ∧ (s.cRec.state = .draining →
      s₁.cRec.events = s.cRec.events ∧ s.globPhaseCycles + s.phaseLength ≤ c)) s := by
  rw [OOOCoreRecorder.cSimStart, ends_bind, ends_observe]
  cases hstate : s.cRec.state with
  | halted => exact ⟨.refl s, Nat.le_refl _, fun hdrain => nomatch hdrain⟩
  | running =>
    dsimp only
    rw [ends_bind, ends_ensure]
    refine ⟨fun _ => ?_, fun _ => by decide⟩
    cases s.cRec.events.getLast? with
    | none => exact (by decide : Other .noLastEvent)
    | some last =>
      dsimp only
      rw [ends_bind, ends_ensure]
      refine ⟨fun _ => ?_, fun _ => by decide⟩
      have htaper : ends Other (if last.zllStartCycle <
          diff64 (s.globPhaseCycles + s.phaseLength) s.cRec.gapCycles then
            OOOCoreRecorder.addIssueEvent (s.globPhaseCycles + s.phaseLength)
          else pure ()) (fun _ s' => SameClock s s') s := by
        rw [ends_ite]
        split
        · refine ends_mono (addIssueEvent_ends _) fun _ s₁ h₁ => ?_
          obtain ⟨t, rfl⟩ := h₁
          exact ⟨⟨rfl, rfl, rfl, rfl, rfl⟩, rfl, rfl, rfl, rfl⟩
        · exact .refl s
      rw [ends_bind]
      exact ends_mono htaper fun _ s₁ h₁ => ⟨h₁, Nat.le_refl _, fun hdrain => nomatch hdrain⟩
  | draining =>
    exact ⟨.refl s, Nat.le_max_left _ _, fun _ => ⟨rfl, Nat.le_max_right _ _⟩⟩

theorem ooo_cSimStart : ends Other OOOCore.cSimStart (fun _ s' => Started s s' ∧ True) s := by
  rw [OOOCore.cSimStart, ends_bind, ends_observe, ends_bind]
  refine ends_mono oooRecorder_cSimStart fun c s₁ h₁ => ?_
  obtain ⟨hsame, hle, hdrains⟩ := h₁
  rw [ends_bind, ends_ensure]
  refine ⟨fun _ => ends_mono (advance_ends c) fun _ s' h' => ?_, fun _ => by decide⟩
  subst h'
  have hcur : max s₁.curCycle c = c := by rw [hsame.curCycle, Nat.max_eq_right hle]
  rw [hcur]
  exact ⟨⟨⟨hsame.globPhaseCycles, hsame.phaseLength, hsame.simulated, hsame.lastCoreCycles,
    hsame.totalHaltedCycles⟩, hsame.gapCycles, hsame.state, hsame.lastUnhaltedCycle, hle, hdrains⟩, trivial⟩

theorem oooRecorder_cSimEnd : ends Other (OOOCoreRecorder.cSimEnd s.curCycle) (fun c s₁ =>
    s.curCycle ≤ c ∧ s₁.curCycle = s.curCycle ∧ Ended s { s₁ with curCycle := c }) s := by
  rw [OOOCoreRecorder.cSimEnd, ends_bind, ends_observe, ends_ite]
  split
  · next hhalted =>
    refine ⟨Nat.le_refl _, rfl, ⟨rfl, rfl, rfl, rfl, rfl⟩, rfl, ⟨0, rfl, rfl⟩, Or.inl ⟨rfl, rfl, fun hdrain => ?_⟩⟩
    rw [hhalted] at hdrain
    cases hdrain
  · rw [ends_bind]
    refine ends_mono (skewClock_ends _) fun k s₁ h₁ => ?_
    obtain ⟨rfl, hdue, hinside⟩ := h₁
    rw [ends_bind, ends_ite]
    split
    · next hnil =>
      refine ends_mono halt_ends fun _ s₂ h₂ => ?_
      obtain ⟨hdrain, rfl⟩ := h₂
      refine ⟨Nat.le_add_right _ _, rfl, ⟨rfl, rfl, rfl, rfl, rfl⟩, rfl, ⟨k, rfl, rfl⟩, Or.inr ?_⟩
      exact ⟨hdrain, hnil, rfl, rfl, hdue, hinside⟩
    · next hleft =>
      exact ⟨Nat.le_add_right _ _, rfl, ⟨rfl, rfl, rfl, rfl, rfl⟩, rfl, ⟨k, rfl, rfl⟩,
        Or.inl ⟨rfl, rfl, fun _ => hleft⟩⟩

theorem ooo_cSimEnd : ends Other OOOCore.cSimEnd (fun _ s' => Ended s s' ∧ True) s := by
  rw [OOOCore.cSimEnd, ends_bind, ends_observe, ends_bind]
  refine ends_mono oooRecorder_cSimEnd fun c s₁ h₁ => ?_
  obtain ⟨hle, hcur, hended⟩ := h₁
  rw [ends_bind, ends_ensure]
  refine ⟨fun _ => ends_mono (advance_ends c) fun _ s' h' => ?_, fun _ => by decide⟩
  subst h'
  rw [hcur, Nat.max_eq_right hle]
  exact ⟨hended, trivial⟩

theorem ooo_report {ev : Event} (start : ℕ) : ends Other (OOOCoreRecorder.reportIssueEventSimulated ev start)
    (fun _ s' => Reported ev start s s' ∧ True) s :=
  ⟨⟨⟨⟨rfl, rfl, rfl, rfl, rfl⟩, rfl, rfl, rfl, rfl⟩, rfl, rfl, rfl⟩, trivial⟩

theorem ooo_respects : Respects OOOCore.model fun _ _ => True :=
  ⟨fun _ h => ooo_join h, fun _ h hbound => ooo_leave h hbound, fun a _ h hstate => ooo_work h hstate a,
    fun _ _ => ooo_cSimStart, fun _ _ start _ _ _ => ooo_report start, fun _ _ => ooo_cSimEnd⟩

end OOO

section Runs

variable {R A : Type} {M : CoreModel R A} {I : Recorder → R → Prop} {s s' : Core R}

/-- A reading does not fall below the last one, and becomes the last one. -/
def Rises (r : Except CoreFailure (Core R)) (op : Op A) : Except CoreFailure (Core R) → Prop
  | .error e => e ≠ .backwards
  | .ok s' =>
    match r, op with
    | .ok s, .updateCore => s.lastCoreCycles ≤ getUnhaltedCycles s ∧ s'.lastCoreCycles = getUnhaltedCycles s
    | _, _ => True

/-- A reading is computed without wrapping. -/
def ReadsUnwrapped : Except CoreFailure (Core R) → Op A → Prop
  | .ok s, .updateCore => Unwrapped s
  | _, _ => True

/-- A draining core is read only while its clock is not ahead of its last event. -/
def ReadsLevel : Except CoreFailure (Core R) → Op A → Prop
  | .ok s, .updateCore => Level s
  | _, _ => True

/-- The last reading is not above the floor. -/
def Behind (s : Core R) : Prop := s.lastCoreCycles + s.cRec.totalHaltedCycles ≤ floorCycle s

theorem Advances.behind (h : Advances s s') (hb : Behind s) : Behind s' := by
  have hfloor := h.floor
  have hcore := h.core
  unfold Behind at hb ⊢
  omega

theorem Respects.simulatePhase (hM : Respects M I) (h : Sound s) (hI : I s.cRec s.own)
    (hbound : s.simulated = false) (contention : ℕ → ℕ) : ends Other (M.simulatePhase contention)
      (fun _ s' => Advances s s' ∧ I s'.cRec s'.own) s := by
  rw [CoreModel.simulatePhase, ends_bind]
  refine ends_mono (hM.cSimStart s hI) fun _ s₁ h₁ => ?_
  obtain ⟨hstarted, hI₁⟩ := h₁
  rw [ends_bind, ends_observe, ends_bind]
  refine ends_mono (simulate_weaves hM.report rfl hI₁) fun _ s₂ h₂ => ?_
  obtain ⟨hweaved, hI₂⟩ := h₂
  rw [ends_bind]
  refine ends_mono (hM.cSimEnd s₂ hI₂) fun _ s₃ h₃ => ?_
  obtain ⟨hended, hI₃⟩ := h₃
  exact ⟨advances_of_phase h hbound hstarted hweaved hended, hI₃⟩

/-- An update of the statistics. -/
theorem updateCore_ends : ends (fun e => e = .backwards ∧ getUnhaltedCycles s < s.lastCoreCycles) updateCore
    (fun _ s' => s.lastCoreCycles ≤ getUnhaltedCycles s ∧ s'.lastCoreCycles = getUnhaltedCycles s ∧
      s'.cRec = s.cRec ∧ s'.own = s.own ∧ (Sound s → Sound s') ∧ floorCycle s' = floorCycle s) s := by
  simp only [updateCore, ends_bind, ends_observe, ends_ensure, ends_change]
  refine ⟨fun hle => ⟨hle, trivial, trivial, trivial, fun h => ⟨h.gap, h.floor, h.counted, h.drains⟩, rfl⟩,
    fun hnot => ?_⟩
  exact ⟨trivial, Nat.lt_of_not_le hnot⟩

/-- Everything but a reading raises the floor. -/
theorem Respects.perform (hM : Respects M I) (h : Sound s) (hI : I s.cRec s.own) {op : Op A}
    (hop : op ≠ .updateCore) (hlegal : Legal s op) :
    ends Other (M.perform op) (fun _ s' => Advances s s' ∧ I s'.cRec s'.own) s := by
  cases op with
  | join => exact hM.join s h
  | leave => exact hM.leave s h hlegal
  | work a => exact hM.work a s h hlegal.2
  | simulatePhase contention => exact hM.simulatePhase h hI hlegal contention
  | nextPhase => exact ⟨h.next hlegal, hI⟩
  | updateCore => exact absurd rfl hop

/-- The invariant of a core and its recorder, up to a failure. -/
def SoundUntilFailure (I : Recorder → R → Prop) (r : Except CoreFailure (Core R)) : Prop :=
  ∀ s, r = .ok s → Sound s ∧ I s.cRec s.own

theorem step_legal {op : Op A} {r : Except CoreFailure (Core R)} (h : M.step (.ok s) op = some r) :
    Legal s op ∧ r = (M.perform op s).map fun x => x.2 := by
  simp only [CoreModel.step, Option.ite_none_right_eq_some, Option.some.injEq] at h
  exact ⟨h.1, h.2.symm⟩

/-- One step keeps the invariant, and advances the floor unless it is a reading. -/
theorem Respects.step (hM : Respects M I) {op : Op A} {r : Except CoreFailure (Core R)}
    (h : Sound s ∧ I s.cRec s.own) (hs : M.step (.ok s) op = some r) :
    SoundUntilFailure I r ∧ (op ≠ .updateCore → (∀ s', r = .ok s' → Advances s s') ∧ r ≠ .error .backwards) := by
  obtain ⟨hlegal, hr⟩ := step_legal hs
  by_cases hop : op = .updateCore
  · subst hop
    refine ⟨fun s' hs' => ?_, fun hne => absurd rfl hne⟩
    have hends := @updateCore_ends _ s
    unfold ends at hends
    rw [hs', CoreModel.perform] at hr
    cases hrun : updateCore s with
    | error e =>
      rw [hrun] at hr
      cases hr
    | ok x =>
      rw [hrun] at hr hends
      cases hr
      obtain ⟨-, -, hrec, hown, hsound, -⟩ := hends
      exact ⟨hsound h.1, hrec ▸ hown ▸ h.2⟩
  · have hends := hM.perform h.1 h.2 hop hlegal
    unfold ends at hends
    cases hrun : M.perform op s with
    | error e =>
      rw [hrun] at hr hends
      subst hr
      refine ⟨fun s' hs' => (nomatch hs'), fun _ => ⟨fun s' hs' => (nomatch hs'), fun hback => ?_⟩⟩
      exact hends (Except.error.inj hback)
    | ok x =>
      rw [hrun] at hr hends
      subst hr
      refine ⟨fun s' hs' => ?_, fun _ => ⟨fun s' hs' => ?_, fun hback => (nomatch hback)⟩⟩
      · exact Except.ok.inj hs' ▸ ⟨hends.1.sound, hends.2⟩
      · exact Except.ok.inj hs' ▸ hends.1

/-- One step whose readings are level: no reading falls below the one before it. -/
theorem Respects.rises (hM : Respects M I) {op : Op A} {r : Except CoreFailure (Core R)}
    (h : Sound s ∧ I s.cRec s.own) (hb : Behind s) (hs : M.step (.ok s) op = some r)
    (hlevel : ReadsLevel (.ok s) op) : (∀ s', r = .ok s' → Behind s') ∧ Rises (.ok s) op r := by
  by_cases hop : op = .updateCore
  · subst hop
    have hreading := h.1.reading hlevel
    have hends := @updateCore_ends _ s
    obtain ⟨-, hr⟩ := step_legal hs
    unfold ends at hends
    rw [CoreModel.perform] at hr
    unfold Behind at hb
    cases hrun : updateCore s with
    | error e =>
      rw [hrun] at hends
      have hlt := hends.2
      omega
    | ok x =>
      rw [hrun] at hr hends
      subst hr
      obtain ⟨hle, hread, hrec, -, -, hfloor⟩ := hends
      refine ⟨fun s' hs' => ?_, hle, hread⟩
      obtain rfl := Except.ok.inj hs'
      unfold Behind
      rw [hfloor, hread, hrec]
      omega
  · obtain ⟨hadvances, hfails⟩ := (hM.step h hs).2 hop
    refine ⟨fun s' hs' => (hadvances s' hs').behind hb, ?_⟩
    cases r with
    | error e =>
      have hne : e ≠ .backwards := fun heq => hfails (congrArg Except.error heq)
      exact hne
    | ok s' =>
      cases op with
      | updateCore => exact absurd rfl hop
      | _ => trivial

/-- Every run of a core: its readings do not wrap, and as long as a draining core is
read only while its clock is level, no reading falls below the one before it. -/
theorem Respects.runs (hM : Respects M I) (h : Sound s ∧ I s.cRec s.own) (hb : Behind s) (ops : List (Op A)) :
    EveryStep M.step (fun r op _ => ReadsUnwrapped r op) (.ok s) ops ∧
      (EveryStep M.step (fun r op _ => ReadsLevel r op) (.ok s) ops → EveryStep M.step Rises (.ok s) ops) := by
  constructor
  · refine @everyStep_of_invariant _ _ _ _ (SoundUntilFailure I) (fun r op r' hr hs => ?_) _ _
      fun s' hs' => Except.ok.inj hs' ▸ h
    cases r with
    | error e => cases hs
    | ok s₁ =>
      refine ⟨(hM.step (hr s₁ rfl) hs).1, ?_⟩
      cases op with
      | updateCore => exact (hr s₁ rfl).1.unwrapped
      | _ => trivial
  · intro hlevel
    refine @EveryStep.everyStep _ _ _ _ _
      (fun r => SoundUntilFailure I r ∧ ∀ s', r = .ok s' → Behind s') _ _ hlevel (fun r op r' hr hs hop => ?_)
      ⟨fun s' hs' => Except.ok.inj hs' ▸ h, fun s' hs' => Except.ok.inj hs' ▸ hb⟩
    cases r with
    | error e => cases hs
    | ok s₁ =>
      obtain ⟨hbehind, hrises⟩ := hM.rises (hr.1 s₁ rfl) (hr.2 s₁ rfl) hs hop
      exact ⟨⟨(hM.step (hr.1 s₁ rfl) hs).1, hbehind⟩, hrises⟩

theorem sound_new (own : R) (zll start phaseLength : ℕ) :
    Sound (Core.new own (Recorder.new zll start) phaseLength) ∧
      Behind (Core.new own (Recorder.new zll start) phaseLength) :=
  ⟨⟨Nat.le_refl 0, Nat.zero_le _, Nat.le_refl 0, fun hdrain => nomatch hdrain⟩, Nat.le_refl 0⟩

/-- In every run of a timing core or an out-of-order core the readings do not wrap, and
as long as a draining core is read only while its clock is not ahead of its last event,
no reading falls below the one before it. -/
theorem readings_rise (phaseLength : ℕ) :
    (∀ (prevRespCycle prevRespDelay zll start : ℕ) (ops : List (Op TimingCore.Work)),
      let s := Core.new ⟨.null, prevRespCycle, prevRespDelay⟩ (Recorder.new zll start) phaseLength
      EveryStep TimingCore.model.step (fun r op _ => ReadsUnwrapped r op) (.ok s) ops ∧
        (EveryStep TimingCore.model.step (fun r op _ => ReadsLevel r op) (.ok s) ops →
          EveryStep TimingCore.model.step Rises (.ok s) ops)) ∧
    ∀ ops : List (Op OOOCore.Work),
      let s := Core.new ⟨⟩ (Recorder.new 0 0) phaseLength
      EveryStep OOOCore.model.step (fun r op _ => ReadsUnwrapped r op) (.ok s) ops ∧
        (EveryStep OOOCore.model.step (fun r op _ => ReadsLevel r op) (.ok s) ops →
          EveryStep OOOCore.model.step Rises (.ok s) ops) := by
  constructor
  · intro prevRespCycle prevRespDelay zll start ops s
    obtain ⟨hsound, hbehind⟩ := @sound_new CoreRecorder ⟨.null, prevRespCycle, prevRespDelay⟩ zll start phaseLength
    exact timing_respects.runs ⟨hsound, tapered_of_ne State.noConfusion⟩ hbehind ops
  · intro ops s
    obtain ⟨hsound, hbehind⟩ := @sound_new OOOCoreRecorder ⟨⟩ 0 0 phaseLength
    exact ooo_respects.runs ⟨hsound, trivial⟩ hbehind ops

/-- A thread leaves at once, and the draining core is read. -/
theorem leaving_reads_rise :
    EveryStep TimingCore.model.step Rises
        (.ok (Core.new ⟨.null, 0, 0⟩ (Recorder.new 0 0) 10000)) [.join, .leave, .updateCore] ∧
      EveryStep OOOCore.model.step Rises
        (.ok (Core.new ⟨⟩ (Recorder.new 0 0) 10000)) [.join, .leave, .updateCore] := by
  refine ⟨((readings_rise 10000).1 0 0 0 0 _).2 ?_, ((readings_rise 10000).2 _).2 ?_⟩
  · exact .cons rfl trivial (.cons rfl trivial (.cons rfl (fun _ => Nat.le_refl 0) trivial))
  · exact .cons rfl trivial (.cons rfl trivial (.cons rfl (fun _ => Nat.le_refl 0) trivial))

def failureOf : Except CoreFailure (Core R) → Option CoreFailure
  | .ok _ => none
  | .error e => some e

theorem not_rises {r : Except CoreFailure (Core R)} {ops : List (Op A)} {op : Op A}
    (h : (run M.step r (ops ++ [op])).bind failureOf = some .backwards) :
    ¬ EveryStep M.step Rises r (ops ++ [op]) := by
  intro hrises
  obtain ⟨r₁, r₂, hstep, hlast, hfails⟩ := hrises.last h
  cases r₁ with
  | ok s₁ =>
    cases r₂ with
    | ok s₂ => cases hfails
    | error e =>
      cases hfails
      exact hlast rfl
  | error e => cases hstep

/-- The event after an access is delayed by 500 cycles, and the thread leaves. The core is
read at the end of the phase, and its last event runs in the next phase, 300 cycles before
the cycle it was read by. -/
theorem readings_fall :
    ¬ EveryStep TimingCore.model.step Rises (.ok (Core.new ⟨.null, 0, 0⟩ (Recorder.new 0 0) 10000))
        ([.join, .work (.bbl 9000 []), .work (.access 100 (some ⟨true, 9000, 9100⟩)), .work (.bbl 600 []),
          .leave, .simulatePhase fun i => if i = 2 then 500 else 0, .updateCore, .nextPhase,
          .simulatePhase fun _ => 0] ++ [.updateCore]) ∧
      ¬ EveryStep OOOCore.model.step Rises (.ok (Core.new ⟨⟩ (Recorder.new 0 0) 10000))
        ([.join, .work (.bbl 9000), .work (.record true), .work (.bbl 100), .work (.record true),
          .work (.bbl 600), .leave, .simulatePhase fun i => if i = 2 then 500 else 0, .updateCore, .nextPhase,
          .simulatePhase fun _ => 0] ++ [.updateCore]) := by
  constructor
  · refine not_rises ?_
    decide +kernel
  · refine not_rises ?_
    decide +kernel

end Runs
end Zsim.UnhaltedCycles
