import Zsim.AdaptiveEvents
import Mathlib.Data.List.Basic
import Mathlib.Data.Nat.Notation

/-!
# The event queue

Events wait in a map from phases to events; the end of a phase calls those that are due and
queues the periodic ones again. An event is queued during a phase whose end is still to come,
and its period is counted from this phase on, so that an adaptive event first looks a phase later
than its target can be reached. Phases and the count that the event reads are counted without bound.
-/

namespace Zsim.EventTicks

open AdaptiveEvents

section Model

inductive Event where
  /-- Any other event: a one-shot event has no period. -/
  | other (period : ℕ)
  | adaptive (ev : AdaptiveEvent)

inductive QueueFailure where
  /-- "First event should have ticked on phase" -/
  | late
  /-- `cur - target <= maxRate` -/
  | maxRate
  | endless
  deriving DecidableEq, Repr

/-- `evMap.insert`: behind the events of the same phase. -/
def insertAt (phase : ℕ) (ev : Event) : List (ℕ × Event) → List (ℕ × Event)
  | [] => [(phase, ev)]
  | e :: evMap => if e.1 ≤ phase then e :: insertAt phase ev evMap else (phase, ev) :: e :: evMap

/-- `callback`, and the queue after it; `fired` are the phases in which adaptive events have fired. -/
def call (curPhase cur : ℕ) (ev : Event) (evMap : List (ℕ × Event)) (fired : List ℕ) :
    Except QueueFailure (List (ℕ × Event) × List ℕ) :=
  match ev with
  | .other period =>
    .ok (if period ≠ 0 then insertAt (curPhase + period) (.other period) evMap else evMap, fired)
  | .adaptive ev =>
    match ev.callback curPhase cur with
    | none => .error .maxRate
    | some .fires => .ok (evMap, fired ++ [curPhase])
    | some (.waits ev) => .ok (insertAt (curPhase + ev.period) (.adaptive ev) evMap, fired)

/-- The loop of `tick`. -/
def loop (curPhase cur : ℕ) :
    ℕ → List (ℕ × Event) → List ℕ → Except QueueFailure (List (ℕ × Event) × List ℕ)
  | 0, _, _ => .error .endless
  | _ + 1, [], fired => .ok ([], fired)
  | rounds + 1, e :: evMap, fired =>
    if e.1 ≤ curPhase then
      if e.1 ≠ curPhase then .error .late
      else
        match call curPhase cur e.2 evMap fired with
        | .error e => .error e
        | .ok (evMap, fired) => loop curPhase cur rounds evMap fired
    else .ok (e :: evMap, fired)

/-- `EventQueue`, the phase, the count that adaptive events read and the phases in which they have
fired. -/
structure EventQueue where
  evMap : List (ℕ × Event)
  numPhases : ℕ
  count : ℕ
  fired : List ℕ

/-- `insert`; without a delay the event waits for its period. -/
def insert (q : EventQueue) (period : ℕ) (startDelay : Option ℕ) (ev : Event) : EventQueue :=
  { q with evMap := insertAt (q.numPhases + startDelay.getD period) ev q.evMap }

/-- `tick` at the end of a phase. Every round but the last calls an event. -/
def tick (q : EventQueue) (cur : ℕ) : Except QueueFailure EventQueue :=
  match loop q.numPhases cur (q.evMap.length + 1) q.evMap q.fired with
  | .error e => .error e
  | .ok (evMap, fired) => .ok { evMap, numPhases := q.numPhases + 1, count := cur, fired }

/-- What happens to a queue besides the insertion of an adaptive event: other events are inserted,
and phases end, with the count at their end. -/
inductive Act where
  | insert (period : ℕ) (startDelay : Option ℕ)
  | endPhase (cur : ℕ)

def step (q : EventQueue) : Act → Except QueueFailure EventQueue
  | .insert period startDelay => .ok (insert q period startDelay (.other period))
  | .endPhase cur => tick q cur

def run (q : EventQueue) (acts : List Act) : Except QueueFailure EventQueue := acts.foldlM step q

/-- A new queue. -/
def EventQueue.new (count : ℕ) : EventQueue := ⟨[], 0, count, []⟩

/-- Insert a new adaptive event, which starts at the count; none where `makeAdaptiveEvent` fails. -/
def insertAdaptive (q : EventQueue) (target maxRate : ℕ) : Option EventQueue :=
  (makeAdaptiveEvent q.count target maxRate q.numPhases).map fun ev => insert q ev.period none (.adaptive ev)

/-- The counts at the ends of the phases. -/
def counts (acts : List Act) : List ℕ :=
  acts.filterMap fun
    | .endPhase cur => some cur
    | .insert _ _ => none

/-- The count never falls, and grows at most by the rate in a phase. -/
def Grows (maxRate : ℕ) : ℕ → List ℕ → Prop
  | _, [] => True
  | count, cur :: curs => count ≤ cur ∧ cur ≤ count + maxRate ∧ Grows maxRate cur curs

end Model

section Map

variable {phase k : ℕ} {ev : Event} {e : ℕ × Event} {evMap : List (ℕ × Event)}

/-- The events are in the order of their phases. -/
def Sorted (evMap : List (ℕ × Event)) : Prop := evMap.Pairwise fun e e' => e.1 ≤ e'.1

/-- The adaptive events, with their phases. -/
def adaptives (evMap : List (ℕ × Event)) : List (ℕ × AdaptiveEvent) :=
  evMap.filterMap fun e =>
    match e.2 with
    | .adaptive ev => some (e.1, ev)
    | .other _ => none

theorem mem_insertAt : e ∈ insertAt phase ev evMap ↔ e = (phase, ev) ∨ e ∈ evMap := by
  induction evMap with
  | nil => simp [insertAt]
  | cons e' evMap ih =>
    rw [insertAt]
    split
    · rw [List.mem_cons, ih, List.mem_cons]
      tauto
    · rw [List.mem_cons]

theorem Sorted.insertAt (h : Sorted evMap) : Sorted (insertAt phase ev evMap) := by
  induction evMap with
  | nil => exact List.pairwise_singleton ..
  | cons e' evMap ih =>
    obtain ⟨hhead, hrest⟩ := List.pairwise_cons.mp h
    rw [EventTicks.insertAt]
    split
    · next hle =>
      refine List.pairwise_cons.mpr ⟨fun e he => ?_, ih hrest⟩
      cases mem_insertAt.mp he with
      | inl heq =>
        rw [heq]
        exact hle
      | inr he => exact hhead e he
    · next hlt =>
      refine List.pairwise_cons.mpr ⟨fun e he => ?_, h⟩
      change phase ≤ e.1
      cases List.mem_cons.mp he with
      | inl heq =>
        rw [heq]
        omega
      | inr he =>
        have hle := hhead e he
        omega

theorem adaptives_cons : adaptives (e :: evMap) =
    (match e.2 with
      | .adaptive ev => [(e.1, ev)]
      | .other _ => []) ++ adaptives evMap := by
  unfold adaptives
  obtain ⟨k, ev⟩ := e
  cases ev with
  | other period => rfl
  | adaptive ev => rfl

theorem adaptives_insertAt_other {period : ℕ} :
    adaptives (insertAt phase (.other period) evMap) = adaptives evMap := by
  induction evMap with
  | nil => rfl
  | cons e evMap ih =>
    rw [insertAt]
    split
    · rw [adaptives_cons, adaptives_cons, ih]
    · rw [adaptives_cons]
      rfl

theorem adaptives_insertAt {ev : AdaptiveEvent} (h : adaptives evMap = []) :
    adaptives (insertAt phase (.adaptive ev) evMap) = [(phase, ev)] := by
  induction evMap with
  | nil => rfl
  | cons e evMap ih =>
    rw [insertAt]
    split
    · rw [adaptives_cons] at h ⊢
      obtain ⟨hhead, hrest⟩ := List.append_eq_nil_iff.mp h
      rw [hhead, ih hrest]
      rfl
    · rw [adaptives_cons, h]
      rfl

theorem mem_of_adaptives {ev : AdaptiveEvent} (h : (k, ev) ∈ adaptives evMap) : (k, Event.adaptive ev) ∈ evMap := by
  obtain ⟨⟨k', ev'⟩, hmem, heq⟩ := List.mem_filterMap.mp h
  cases ev' with
  | other period => cases heq
  | adaptive ev' =>
    cases heq
    exact hmem

end Map

section Tick

variable {curPhase cur rounds : ℕ} {evMap : List (ℕ × Event)} {fired : List ℕ} {k : ℕ} {ev ev' : AdaptiveEvent}

/-- What the end of a phase makes of an adaptive event in the queue, and the phases in which it fires. -/
def look (curPhase cur k : ℕ) (ev : AdaptiveEvent) : Option (List (ℕ × AdaptiveEvent) × List ℕ) :=
  if k = curPhase then
    match ev.callback curPhase cur with
    | none => none
    | some .fires => some ([], [curPhase])
    | some (.waits ev) => some ([(curPhase + ev.period, ev)], [])
  else some ([(k, ev)], [])

/-- The same of the adaptive events in the queue, of which there is at most one. -/
def looks (curPhase cur : ℕ) : List (ℕ × AdaptiveEvent) → Option (List (ℕ × AdaptiveEvent) × List ℕ)
  | [(k, ev)] => look curPhase cur k ev
  | evs => some (evs, [])

/-- The events that are due. -/
def due (curPhase : ℕ) (evMap : List (ℕ × Event)) : ℕ := evMap.countP fun e => e.1 = curPhase

/-- The queue between the ends of phases. -/
structure Waiting (curPhase : ℕ) (evMap : List (ℕ × Event)) : Prop where
  sorted : Sorted evMap
  le : ∀ e ∈ evMap, curPhase ≤ e.1
  one : (adaptives evMap).length ≤ 1

/-- What the loop makes of a queue with these adaptive events. -/
def Loops (curPhase cur : ℕ) (evs : List (ℕ × AdaptiveEvent)) (fired : List ℕ) :
    Except QueueFailure (List (ℕ × Event) × List ℕ) → Prop
  | .error e => e = .maxRate ∧ looks curPhase cur evs = none
  | .ok (evMap', fired') => Waiting (curPhase + 1) evMap' ∧
    ∃ new, looks curPhase cur evs = some (adaptives evMap', new) ∧ fired' = fired ++ new

/-- A round that calls an adaptive event, and those that follow. -/
theorem Loops.round {evs evs' : List (ℕ × AdaptiveEvent)} {new : List ℕ}
    {r : Except QueueFailure (List (ℕ × Event) × List ℕ)} (h : looks curPhase cur evs = some (evs', new))
    (h' : looks curPhase cur evs' = some (evs', [])) (hr : Loops curPhase cur evs' (fired ++ new) r) :
    Loops curPhase cur evs fired r := by
  cases r with
  | error e =>
    have hnone := hr.2
    rw [h'] at hnone
    cases hnone
  | ok r =>
    obtain ⟨hwaiting, new', hlooks, hfired⟩ := hr
    rw [h'] at hlooks
    cases hlooks
    refine ⟨hwaiting, new, h, ?_⟩
    rw [hfired, List.append_nil]

theorem callback_period (h : ev.callback curPhase cur = some (.waits ev')) : 0 < ev'.period := by
  unfold AdaptiveEvent.callback at h
  split at h
  · split at h
    · cases h
    · cases h
  · cases h
    exact nextPeriod_pos _ _

theorem due_insertAt {phase : ℕ} {e : Event} (h : phase ≠ curPhase) :
    due curPhase (insertAt phase e evMap) = due curPhase evMap := by
  induction evMap with
  | nil => simp [insertAt, due, h]
  | cons e' evMap ih =>
    unfold due at ih ⊢
    rw [insertAt]
    split
    · rw [List.countP_cons, ih, List.countP_cons]
    · rw [List.countP_cons]
      simp [h]

/-- The queue after an event has been taken out, and put back for a later phase. -/
theorem Waiting.requeue {e : ℕ × Event} {phase : ℕ} {again : Event} (h : Waiting curPhase (e :: evMap))
    (hphase : curPhase ≤ phase) (hone : (adaptives (insertAt phase again evMap)).length ≤ 1) :
    Waiting curPhase (insertAt phase again evMap) := by
  obtain ⟨-, hsorted⟩ := List.pairwise_cons.mp h.sorted
  refine ⟨Sorted.insertAt hsorted, fun e' he' => ?_, hone⟩
  cases mem_insertAt.mp he' with
  | inl heq =>
    rw [heq]
    exact hphase
  | inr he' => exact h.le e' (List.mem_cons_of_mem _ he')

/-- Every event that is due is called once, and the loop ends. -/
theorem loop_loops (h : Waiting curPhase evMap) (hrounds : due curPhase evMap < rounds) :
    Loops curPhase cur (adaptives evMap) fired (loop curPhase cur rounds evMap fired) := by
  induction rounds generalizing evMap fired with
  | zero => omega
  | succ rounds ih =>
    cases evMap with
    | nil => exact ⟨⟨.nil, fun e he => (nomatch he), Nat.zero_le 1⟩, [], rfl, (List.append_nil fired).symm⟩
    | cons e evMap =>
      obtain ⟨hhead, hsorted⟩ := List.pairwise_cons.mp h.sorted
      obtain ⟨hle, hrest⟩ := List.forall_mem_cons.mp h.le
      have hone := h.one
      rw [loop]
      by_cases hdue : e.1 ≤ curPhase
      · have heq : e.1 = curPhase := Nat.le_antisymm hdue hle
        rw [if_pos hdue, if_neg (not_not.mpr heq)]
        obtain ⟨k, ev⟩ := e
        have hcount : due curPhase ((k, ev) :: evMap) = due curPhase evMap + 1 := by
          unfold due
          rw [List.countP_cons, if_pos (decide_eq_true heq)]
        rw [hcount] at hrounds
        change k = curPhase at heq
        cases ev with
        | other period =>
          have hadaptives : adaptives ((k, Event.other period) :: evMap) = adaptives evMap := adaptives_cons
          rw [hadaptives] at hone ⊢
          by_cases hperiod : period ≠ 0
          · have hne : curPhase + period ≠ curPhase := by omega
            rw [call, if_pos hperiod, ← @adaptives_insertAt_other (curPhase + period) evMap period]
            refine ih (h.requeue (Nat.le_add_right ..) ?_) ?_
            · rw [adaptives_insertAt_other]
              exact hone
            · rw [due_insertAt hne]
              omega
          · rw [call, if_neg hperiod]
            exact ih ⟨hsorted, hrest, hone⟩ (by omega)
        | adaptive ev =>
          have hadaptives : adaptives ((k, Event.adaptive ev) :: evMap) = (k, ev) :: adaptives evMap := adaptives_cons
          rw [hadaptives, List.length_cons] at hone
          have hnil : adaptives evMap = [] := List.length_eq_zero_iff.mp (by omega)
          rw [hadaptives, hnil, call]
          cases hcall : ev.callback curPhase cur with
          | none => exact ⟨rfl, by rw [looks, look, if_pos heq, hcall]⟩
          | some result =>
            cases result with
            | fires =>
              have hlook : looks curPhase cur [(k, ev)] = some ([], [curPhase]) := by
                rw [looks, look, if_pos heq, hcall]
              have hloop := @ih evMap (fired ++ [curPhase]) ⟨hsorted, hrest, by rw [hnil]; exact Nat.zero_le 1⟩ (by omega)
              rw [hnil] at hloop
              exact Loops.round hlook rfl hloop
            | waits ev' =>
              have hperiod := callback_period hcall
              have hne : curPhase + ev'.period ≠ curPhase := by omega
              have hlook : looks curPhase cur [(k, ev)] = some ([(curPhase + ev'.period, ev')], []) := by
                rw [looks, look, if_pos heq, hcall]
              have hagain : adaptives (insertAt (curPhase + ev'.period) (.adaptive ev') evMap) =
                  [(curPhase + ev'.period, ev')] := adaptives_insertAt hnil
              have hloop := @ih (insertAt (curPhase + ev'.period) (.adaptive ev') evMap) (fired ++ [])
                (h.requeue (Nat.le_add_right ..) (by rw [hagain]; exact Nat.le_refl 1)) (by rw [due_insertAt hne]; omega)
              rw [hagain] at hloop
              have hstays : looks curPhase cur [(curPhase + ev'.period, ev')] =
                  some ([(curPhase + ev'.period, ev')], []) := if_neg hne
              have hround := Loops.round hlook hstays hloop
              rw [List.append_nil] at hround
              exact hround
      · rw [if_neg hdue]
        have hlater : ∀ e' ∈ e :: evMap, curPhase < e'.1 :=
          List.forall_mem_cons.mpr ⟨Nat.lt_of_not_le hdue, fun e' he' => by
            have hle' := hhead e' he'
            omega⟩
        refine ⟨⟨h.sorted, hlater, hone⟩, [], ?_, (List.append_nil fired).symm⟩
        cases hadaptives : adaptives (e :: evMap) with
        | nil => rfl
        | cons a as =>
          cases as with
          | nil =>
            obtain ⟨k, ev⟩ := a
            have hmem := hlater _ (mem_of_adaptives (hadaptives ▸ List.mem_cons_self))
            exact if_neg (Nat.ne_of_gt hmem)
          | cons a' as =>
            rw [hadaptives] at hone
            exact absurd hone (by simp)

end Tick
section Runs

variable {q q' : EventQueue} {cur k phase target maxRate : ℕ} {ev : AdaptiveEvent} {acts before : List Act}

/-- What the end of a phase makes of a queue. -/
theorem tick_looks (h : Waiting q.numPhases q.evMap) :
    match tick q cur with
    | .error e => e = .maxRate ∧ looks q.numPhases cur (adaptives q.evMap) = none
    | .ok q' => Waiting q'.numPhases q'.evMap ∧ q'.numPhases = q.numPhases + 1 ∧ q'.count = cur ∧
      ∃ new, looks q.numPhases cur (adaptives q.evMap) = some (adaptives q'.evMap, new) ∧ q'.fired = q.fired ++ new := by
  have hrounds : due q.numPhases q.evMap < q.evMap.length + 1 := Nat.lt_succ_of_le List.countP_le_length
  have hloop := @loop_loops q.numPhases cur (q.evMap.length + 1) q.evMap q.fired h hrounds
  unfold tick
  cases hr : loop q.numPhases cur (q.evMap.length + 1) q.evMap q.fired with
  | error e =>
    rw [hr] at hloop
    exact hloop
  | ok r =>
    rw [hr] at hloop
    exact ⟨hloop.1, rfl, rfl, hloop.2⟩

theorem tick_ok {evs : List (ℕ × AdaptiveEvent)} {new : List ℕ} (h : Waiting q.numPhases q.evMap)
    (hlooks : looks q.numPhases cur (adaptives q.evMap) = some (evs, new)) :
    ∃ q', tick q cur = .ok q' ∧ Waiting q'.numPhases q'.evMap ∧ q'.numPhases = q.numPhases + 1 ∧ q'.count = cur ∧
      adaptives q'.evMap = evs ∧ q'.fired = q.fired ++ new := by
  have htick := @tick_looks q cur h
  cases hr : tick q cur with
  | error e =>
    rw [hr] at htick
    have hnone := htick.2
    rw [hlooks] at hnone
    cases hnone
  | ok q' =>
    rw [hr] at htick
    obtain ⟨hwaiting, hphase, hcount, new', hlooks', hfired⟩ := htick
    rw [hlooks] at hlooks'
    cases hlooks'
    exact ⟨q', rfl, hwaiting, hphase, hcount, rfl, hfired⟩

/-- Other events may be inserted at any time. -/
theorem Waiting.insert (h : Waiting q.numPhases q.evMap) (period : ℕ) (startDelay : Option ℕ) :
    Waiting q.numPhases (insert q period startDelay (.other period)).evMap ∧
      adaptives (insert q period startDelay (.other period)).evMap = adaptives q.evMap := by
  have hsame : adaptives (EventTicks.insert q period startDelay (.other period)).evMap = adaptives q.evMap :=
    adaptives_insertAt_other
  refine ⟨⟨Sorted.insertAt h.sorted, fun e he => ?_, ?_⟩, hsame⟩
  · cases mem_insertAt.mp he with
    | inl heq =>
      rw [heq]
      exact Nat.le_add_right ..
    | inr he => exact h.le e he
  · rw [hsame]
    exact h.one

theorem run_endPhase (h : tick q cur = .ok q') : run q (.endPhase cur :: acts) = run q' acts := by
  unfold run
  rw [List.foldlM_cons, step, h]
  rfl

/-- Without an adaptive event nothing fires, and nothing fails. -/
theorem run_quiet (h : Waiting q.numPhases q.evMap) (hnone : adaptives q.evMap = []) :
    ∃ q', run q acts = .ok q' ∧ Waiting q'.numPhases q'.evMap ∧ adaptives q'.evMap = [] ∧ q'.fired = q.fired := by
  induction acts generalizing q with
  | nil => exact ⟨q, rfl, h, hnone, rfl⟩
  | cons act acts ih =>
    cases act with
    | insert period startDelay =>
      obtain ⟨hwaiting, hsame⟩ := h.insert period startDelay
      exact ih hwaiting (hsame.trans hnone)
    | endPhase cur =>
      have hlooks : looks q.numPhases cur (adaptives q.evMap) = some ([], []) := by
        rw [hnone]
        rfl
      obtain ⟨q₁, htick, hwaiting, -, -, hadaptives, hfired⟩ := tick_ok h hlooks
      obtain ⟨q', hrun, hwaiting', hnone', hfired'⟩ := ih hwaiting hadaptives
      rw [List.append_nil] at hfired
      exact ⟨q', (run_endPhase htick).trans hrun, hwaiting', hnone', hfired'.trans hfired⟩

/-- How far the count gets. -/
theorem Grows.le {count i c : ℕ} {curs : List ℕ} (h : Grows maxRate count curs) (hc : curs[i]? = some c) :
    c ≤ count + (i + 1) * maxRate := by
  induction curs generalizing count i with
  | nil => cases hc
  | cons cur curs ih =>
    obtain ⟨-, hle, hrest⟩ := h
    cases i with
    | zero =>
      cases hc
      rw [Nat.zero_add, Nat.one_mul]
      exact hle
    | succ i =>
      have hlater := ih hrest hc
      have hmul : (i + 1 + 1) * maxRate = (i + 1) * maxRate + maxRate := Nat.succ_mul ..
      omega

/-- The count never falls. -/
theorem Grows.mono {count i j c d : ℕ} {curs : List ℕ} (h : Grows maxRate count curs) (hc : curs[i]? = some c)
    (hd : curs[j]? = some d) (hij : i ≤ j) : count ≤ c ∧ c ≤ d := by
  induction curs generalizing count i j c d with
  | nil => cases hc
  | cons cur curs ih =>
    obtain ⟨hle, -, hrest⟩ := h
    cases i with
    | zero =>
      cases hc
      cases j with
      | zero =>
        cases hd
        exact ⟨hle, Nat.le_refl _⟩
      | succ j =>
        have hd' : curs[j]? = some d := hd
        exact ⟨hle, (ih hrest hd' hd' (Nat.le_refl j)).1⟩
    | succ i =>
      cases j with
      | zero => omega
      | succ j =>
        have hrec := ih hrest hc hd (Nat.le_of_succ_le_succ hij)
        exact ⟨Nat.le_trans hle hrec.1, hrec.2⟩

/-- The phase at whose end the count first is at the target. -/
def reached (target phase : ℕ) (curs : List ℕ) : List ℕ :=
  ((curs.findIdx? fun cur => target ≤ cur).map fun i => phase + i).toList

theorem reached_cons {curs : List ℕ} : reached target phase (cur :: curs) =
    if target ≤ cur then [phase] else reached target (phase + 1) curs := by
  unfold reached
  rw [List.findIdx?_cons]
  by_cases h : target ≤ cur
  · simp [h]
  · rw [if_neg h]
    simp only [h, decide_false, Bool.false_eq_true, if_false, Option.map_map]
    congr 2
    funext i
    change phase + (i + 1) = phase + 1 + i
    omega

/-- An adaptive event in the queue that looks in time: the count is below the target until then. -/
structure Awaits (q : EventQueue) (k : ℕ) (ev : AdaptiveEvent) (curs : List ℕ) : Prop where
  waiting : Waiting q.numPhases q.evMap
  adaptives : adaptives q.evMap = [(k, ev)]
  below : k = q.numPhases → q.count < ev.target
  later : ∀ i c, curs[i]? = some c → q.numPhases + i < k → c < ev.target
  rate : 0 < ev.maxRate
  grows : Grows ev.maxRate q.count curs

theorem Awaits.le {curs : List ℕ} (h : Awaits q k ev curs) : q.numPhases ≤ k := by
  have hmem : (k, ev) ∈ EventTicks.adaptives q.evMap := by
    rw [h.adaptives]
    exact List.mem_cons_self
  exact h.waiting.le _ (mem_of_adaptives hmem)

/-- The event fires where the count is first at its target. -/
theorem Awaits.run (h : Awaits q k ev (counts acts)) :
    ∃ q', run q acts = .ok q' ∧ q'.fired = q.fired ++ reached ev.target q.numPhases (counts acts) := by
  induction acts generalizing q k ev with
  | nil => exact ⟨q, rfl, (List.append_nil _).symm⟩
  | cons act acts ih =>
    cases act with
    | insert period startDelay =>
      obtain ⟨hwaiting, hsame⟩ := h.waiting.insert period startDelay
      exact ih ⟨hwaiting, hsame.trans h.adaptives, h.below, h.later, h.rate, h.grows⟩
    | endPhase cur =>
      have hle := h.le
      obtain ⟨hcount, hrate, hgrows⟩ := h.grows
      have hcounts : counts (.endPhase cur :: acts) = cur :: counts acts := rfl
      rw [hcounts, reached_cons]
      have hlater := h.later
      rw [hcounts] at hlater
      by_cases hdue : k = q.numPhases
      · have hbelow := h.below hdue
        by_cases htarget : ev.target ≤ cur
        · have hlooks : looks q.numPhases cur (EventTicks.adaptives q.evMap) = some ([], [q.numPhases]) := by
            rw [h.adaptives, looks, look, if_pos hdue, AdaptiveEvent.callback, if_pos htarget, if_pos (by omega)]
          obtain ⟨q₁, htick, hwaiting, -, -, hnone, hfired⟩ := tick_ok h.waiting hlooks
          obtain ⟨q', hrun, -, -, hfired'⟩ := @run_quiet q₁ acts hwaiting hnone
          rw [if_pos htarget]
          exact ⟨q', (run_endPhase htick).trans hrun, hfired'.trans hfired⟩
        · have hlooks : looks q.numPhases cur (EventTicks.adaptives q.evMap) =
              some ([(q.numPhases + nextPeriod (ev.target - cur) ev.maxRate,
                { ev with
                  period := nextPeriod (ev.target - cur) ev.maxRate
                  phase := q.numPhases + nextPeriod (ev.target - cur) ev.maxRate })], []) := by
            rw [h.adaptives, looks, look, if_pos hdue, AdaptiveEvent.callback, if_neg htarget]
          obtain ⟨q₁, htick, hwaiting, hphase, hcount', hadaptives, hfired⟩ := tick_ok h.waiting hlooks
          have hahead : cur < ev.target := Nat.lt_of_not_le htarget
          have hperiod := @pred_nextPeriod_mul_lt (ev.target - cur) ev.maxRate (Nat.sub_pos_of_lt hahead)
          have hawaits : Awaits q₁ (q.numPhases + nextPeriod (ev.target - cur) ev.maxRate)
              { ev with
                period := nextPeriod (ev.target - cur) ev.maxRate
                phase := q.numPhases + nextPeriod (ev.target - cur) ev.maxRate } (counts acts) := by
            refine ⟨hwaiting, hadaptives, fun _ => hcount'.symm ▸ hahead, fun i c hc hi => ?_, h.rate, hcount'.symm ▸ hgrows⟩
            have hle' := hgrows.le hc
            have hmul : (i + 1) * ev.maxRate ≤ (nextPeriod (ev.target - cur) ev.maxRate - 1) * ev.maxRate :=
              Nat.mul_le_mul_right _ (by omega)
            change c < ev.target
            omega
          obtain ⟨q', hrun, hfired'⟩ := ih hawaits
          rw [if_neg htarget, ← hphase]
          rw [List.append_nil] at hfired
          exact ⟨q', (run_endPhase htick).trans hrun, hfired ▸ hfired'⟩
      · have hahead : cur < ev.target := hlater 0 cur rfl (by omega)
        have hlooks : looks q.numPhases cur (EventTicks.adaptives q.evMap) = some ([(k, ev)], []) := by
          rw [h.adaptives, looks, look, if_neg hdue]
        obtain ⟨q₁, htick, hwaiting, hphase, hcount', hadaptives, hfired⟩ := tick_ok h.waiting hlooks
        have hawaits : Awaits q₁ k ev (counts acts) := by
          refine ⟨hwaiting, hadaptives, fun _ => hcount'.symm ▸ hahead, fun i c hc hi => ?_, h.rate, hcount'.symm ▸ hgrows⟩
          exact hlater (i + 1) c hc (by omega)
        obtain ⟨q', hrun, hfired'⟩ := ih hawaits
        rw [if_neg (Nat.not_le.mpr hahead), ← hphase]
        rw [List.append_nil] at hfired
        exact ⟨q', (run_endPhase htick).trans hrun, hfired ▸ hfired'⟩

/-- The queue holds adaptive events for later phases only, and none has fired before. -/
structure NotBefore (q : EventQueue) (k : ℕ) : Prop where
  waiting : Waiting q.numPhases q.evMap
  adaptives : ∀ e ∈ adaptives q.evMap, k ≤ e.1
  fired : ∀ p ∈ q.fired, k ≤ p

theorem looks_notBefore {evs evs' : List (ℕ × AdaptiveEvent)} {new : List ℕ}
    (h : looks phase cur evs = some (evs', new)) (hk : ∀ e ∈ evs, k ≤ e.1) :
    (∀ e ∈ evs', k ≤ e.1) ∧ ∀ p ∈ new, k ≤ p := by
  have hsame : evs' = evs → new = [] → (∀ e ∈ evs', k ≤ e.1) ∧ ∀ p ∈ new, k ≤ p := by
    intro hevs hnew
    rw [hevs, hnew]
    exact ⟨hk, fun p hp => (nomatch hp)⟩
  unfold looks at h
  split at h
  · next k' ev =>
    have hk' : k ≤ k' := hk (k', ev) List.mem_cons_self
    unfold look at h
    split at h
    · next hdue =>
      split at h
      · cases h
      · cases h
        refine ⟨fun e he => (nomatch he), fun p hp => ?_⟩
        rw [List.mem_singleton.mp hp, ← hdue]
        exact hk'
      · cases h
        refine ⟨fun e he => ?_, fun p hp => (nomatch hp)⟩
        rw [List.mem_singleton.mp he]
        change k ≤ phase + _
        omega
    · cases h
      exact hsame rfl rfl
  · cases h
    exact hsame rfl rfl

/-- Nothing fires before the phase for which it is queued. -/
theorem NotBefore.run (h : NotBefore q k) (hrun : run q acts = .ok q') : ∀ p ∈ q'.fired, k ≤ p := by
  induction acts generalizing q with
  | nil =>
    cases hrun
    exact h.fired
  | cons act acts ih =>
    cases act with
    | insert period startDelay =>
      obtain ⟨hwaiting, hsame⟩ := h.waiting.insert period startDelay
      exact @ih (insert q period startDelay (.other period)) ⟨hwaiting, hsame ▸ h.adaptives, h.fired⟩ hrun
    | endPhase cur =>
      have htick := @tick_looks q cur h.waiting
      cases hr : tick q cur with
      | error e =>
        unfold EventTicks.run at hrun
        rw [List.foldlM_cons, step, hr] at hrun
        cases hrun
      | ok q₁ =>
        rw [hr] at htick
        obtain ⟨hwaiting, -, -, new, hlooks, hfired⟩ := htick
        obtain ⟨hadaptives, hnew⟩ := looks_notBefore hlooks h.adaptives
        rw [run_endPhase hr] at hrun
        refine ih ⟨hwaiting, hadaptives, ?_⟩ hrun
        rw [hfired]
        exact List.forall_mem_append.mpr ⟨h.fired, hnew⟩

/-- The event that is inserted, and the phase for which it is queued. -/
theorem insertAdaptive_eq (hrate : 0 < maxRate) (htarget : q.count ≤ target) :
    insertAdaptive q target maxRate = some (insert q (nextPeriod (target - q.count) maxRate) none
      (.adaptive ⟨target, maxRate, nextPeriod (target - q.count) maxRate,
        q.numPhases + nextPeriod (target - q.count) maxRate⟩)) := by
  rw [insertAdaptive, makeAdaptiveEvent, if_pos ⟨htarget, Nat.ne_of_gt hrate⟩]
  rfl

theorem reached_mem {curs : List ℕ} {j c : ℕ} (hc : curs[j]? = some c) (htarget : target ≤ c) :
    ∃ f ∈ reached target phase curs, f ≤ phase + j := by
  induction curs generalizing phase j with
  | nil => cases hc
  | cons cur curs ih =>
    rw [reached_cons]
    split
    · exact ⟨phase, List.mem_cons_self, Nat.le_add_right ..⟩
    · next hahead =>
      cases j with
      | zero =>
        cases hc
        exact absurd htarget hahead
      | succ j =>
        obtain ⟨f, hf, hle⟩ := @ih (phase + 1) j hc
        exact ⟨f, hf, by omega⟩

/-- A queue without adaptive events, however it has been used. -/
theorem reachable_quiet {count : ℕ} (hreach : run (.new count) before = .ok q) :
    Waiting q.numPhases q.evMap ∧ adaptives q.evMap = [] ∧ q.fired = [] := by
  have hnew : Waiting (EventQueue.new count).numPhases (EventQueue.new count).evMap :=
    ⟨.nil, fun e he => (nomatch he), Nat.zero_le 1⟩
  obtain ⟨q', hrun, hwaiting, hnone, hfired⟩ := @run_quiet (.new count) before hnew rfl
  rw [hreach] at hrun
  cases hrun
  exact ⟨hwaiting, hnone, hfired⟩

/-- The counts before the first look. -/
theorem Grows.below {count i c : ℕ} {curs : List ℕ} (h : Grows maxRate count curs)
    (hbelow : ∀ cur, curs[nextPeriod (target - count) maxRate - 1]? = some cur → cur < target)
    (hc : curs[i]? = some c) (hi : i < nextPeriod (target - count) maxRate) : c < target := by
  cases hlast : curs[nextPeriod (target - count) maxRate - 1]? with
  | some d => exact Nat.lt_of_le_of_lt (h.mono hc hlast (by omega)).2 (hbelow d hlast)
  | none =>
    have hlen := List.getElem?_eq_none_iff.mp hlast
    have hilen := (List.getElem?_eq_some_iff.mp hc).1
    have hle := h.le hc
    have hmul : (i + 1) * maxRate ≤ (nextPeriod (target - count) maxRate - 1) * maxRate :=
      Nat.mul_le_mul_right _ (by omega)
    by_cases hahead : 0 < target - count
    · have hperiod := @pred_nextPeriod_mul_lt (target - count) maxRate hahead
      omega
    · have hone : nextPeriod (target - count) maxRate = 1 := by
        rw [nextPeriod, Nat.eq_zero_of_not_pos hahead, Nat.zero_div, if_pos rfl]
      omega

/-- An adaptive event, whatever other events there are, fires exactly once where the count is first at its
target, and nothing fails, when the count is not there a phase before the first look. -/
theorem fires_on_time_iff {count : ℕ} (hreach : run (.new count) before = .ok q) (hrate : 0 < maxRate)
    (htarget : q.count ≤ target) (hgrows : Grows maxRate q.count (counts acts)) :
    (∃ q₀ q', insertAdaptive q target maxRate = some q₀ ∧ run q₀ acts = .ok q' ∧
      q'.fired = reached target q.numPhases (counts acts)) ↔
        ∀ cur, (counts acts)[nextPeriod (target - q.count) maxRate - 1]? = some cur → cur < target := by
  obtain ⟨hwaiting, hnone, hfired⟩ := reachable_quiet hreach
  have hpos := nextPeriod_pos (target - q.count) maxRate
  rw [insertAdaptive_eq hrate htarget]
  generalize hq₀ : insert q (nextPeriod (target - q.count) maxRate) none _ = q₀
  have hadaptives : adaptives q₀.evMap = [(q.numPhases + nextPeriod (target - q.count) maxRate,
      ⟨target, maxRate, nextPeriod (target - q.count) maxRate,
        q.numPhases + nextPeriod (target - q.count) maxRate⟩)] := by
    rw [← hq₀]
    exact adaptives_insertAt hnone
  have hwaiting₀ : Waiting q₀.numPhases q₀.evMap := by
    refine ⟨?_, fun e he => ?_, by rw [hadaptives]; exact Nat.le_refl 1⟩
    · rw [← hq₀]
      exact Sorted.insertAt hwaiting.sorted
    · rw [← hq₀] at he ⊢
      cases mem_insertAt.mp he with
      | inl heq =>
        rw [heq]
        exact Nat.le_add_right ..
      | inr he => exact hwaiting.le e he
  have hphase : q₀.numPhases = q.numPhases := by rw [← hq₀]; rfl
  have hcount : q₀.count = q.count := by rw [← hq₀]; rfl
  have hfired₀ : q₀.fired = [] := by rw [← hq₀]; exact hfired
  constructor
  · rintro ⟨q₁, q', hq₁, hrun, hreached⟩ cur hcur
    cases hq₁
    by_contra hge
    obtain ⟨f, hf, hle⟩ := @reached_mem q.numPhases target _ _ _ hcur (Nat.le_of_not_lt hge)
    have hnot : NotBefore q₀ (q.numPhases + nextPeriod (target - q.count) maxRate) := by
      refine ⟨hwaiting₀, fun e he => ?_, fun p hp => ?_⟩
      · rw [hadaptives, List.mem_singleton] at he
        exact Nat.le_of_eq (congrArg Prod.fst he).symm
      · rw [hfired₀] at hp
        cases hp
    have hlate := hnot.run hrun f (hreached ▸ hf)
    omega
  · intro hbelow
    have hawaits : Awaits q₀ (q.numPhases + nextPeriod (target - q.count) maxRate)
        ⟨target, maxRate, nextPeriod (target - q.count) maxRate,
          q.numPhases + nextPeriod (target - q.count) maxRate⟩ (counts acts) := by
      refine ⟨hwaiting₀, hadaptives, fun heq => by omega, fun i c hc hi => ?_, hrate, hcount.symm ▸ hgrows⟩
      change c < target
      exact hgrows.below hbelow hc (by omega)
    obtain ⟨q', hrun, hreached⟩ := hawaits.run
    rw [hfired₀, List.nil_append, hphase] at hreached
    exact ⟨q₀, q', rfl, hrun, hreached⟩

/-- Two one-shot events and one of every second phase; the count is at the target in the third phase. -/
theorem fires_on_time_iff_three :
    let acts := [Act.insert 0 none, .endPhase 2, .insert 2 (some 1), .endPhase 3, .endPhase 12, .endPhase 12]
    (∃ q₀ q', insertAdaptive (.new 0) 10 9 = some q₀ ∧ run q₀ acts = .ok q' ∧ q'.fired = reached 10 0 (counts acts)) ↔
      ∀ cur, (counts acts)[nextPeriod (10 - 0) 9 - 1]? = some cur → cur < 10 := by
  intro acts
  have hreach : run (.new 0) [] = .ok (.new 0) := rfl
  exact fires_on_time_iff hreach (by decide) (by decide) (by simp [acts, counts, Grows, EventQueue.new])

/-- A target that is reached already is looked at a phase too late. -/
theorem fires_late : ¬ ∀ (count target maxRate : ℕ) (before acts : List Act) (q : EventQueue),
    run (.new count) before = .ok q → 0 < maxRate → q.count ≤ target → Grows maxRate q.count (counts acts) →
      ∃ q₀ q', insertAdaptive q target maxRate = some q₀ ∧ run q₀ acts = .ok q' ∧
        q'.fired = reached target q.numPhases (counts acts) := by
  intro hall
  obtain ⟨q₀, q', hq₀, hrun, -⟩ := hall 0 0 4 [] [.endPhase 4, .endPhase 8] (.new 0) rfl (by decide) (by decide)
    (by simp [counts, Grows, EventQueue.new])
  cases hq₀
  cases hrun

end Runs
end Zsim.EventTicks
