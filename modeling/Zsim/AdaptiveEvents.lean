import Mathlib.Tactic.SplitIfs
import Mathlib.Order.Basic

/-!
# Adaptive events

An adaptive event watches a count that grows while phases end. It looks at the
count once in a while, at intervals that shrink as the count comes near the
target, and fires at the first look that finds the target reached. As long as
no phase adds more than the largest rate, the count is never at the target
before the event looks at it.
-/

namespace Zsim.AdaptiveEvents

/-- `AdaptiveEvent`, with its key in `evMap`. -/
structure AdaptiveEvent where
  target : ℕ
  maxRate : ℕ
  period : ℕ
  /-- The phase at whose end the event looks. -/
  phase : ℕ

/-- Phases that pass until the count can be at the target. -/
def nextPeriod (left maxRate : ℕ) : ℕ := if left / maxRate = 0 then 1 else left / maxRate

/-- `makeAdaptiveEvent`, inserted during a phase; none where the assertion fails
or the rate divides by zero. -/
def makeAdaptiveEvent (start target maxRate curPhase : ℕ) : Option AdaptiveEvent :=
  if start ≤ target ∧ maxRate ≠ 0 then
    let period := nextPeriod (target - start) maxRate
    some ⟨target, maxRate, period, curPhase + period⟩
  else none

/-- What the end of a phase makes of the event. -/
inductive Tick where
  | waits (ev : AdaptiveEvent)
  | fires

/-- `callback` with the count. -/
def AdaptiveEvent.callback (ev : AdaptiveEvent) (curPhase cur : ℕ) : Option Tick :=
  if ev.target ≤ cur then
    if cur - ev.target ≤ ev.maxRate then some .fires else none
  else
    let period := nextPeriod (ev.target - cur) ev.maxRate
    some (.waits { ev with period := period, phase := curPhase + period })

/-- `EventQueue::tick` at the end of a phase; none where an assertion fails. -/
def AdaptiveEvent.tick (ev : AdaptiveEvent) (curPhase cur : ℕ) : Option Tick :=
  if ev.phase ≤ curPhase then
    if ev.phase ≠ curPhase then none else ev.callback curPhase cur
  else some (.waits ev)

variable {ev ev' : AdaptiveEvent} {curPhase cur cur' : ℕ}

theorem nextPeriod_pos (left maxRate : ℕ) : 0 < nextPeriod left maxRate := by
  unfold nextPeriod
  split
  · exact Nat.one_pos
  · exact Nat.pos_of_ne_zero ‹_›

/-- Before the last phase of a period the count cannot be at the target. -/
theorem pred_nextPeriod_mul_lt {left maxRate : ℕ} (h : 0 < left) :
    (nextPeriod left maxRate - 1) * maxRate < left := by
  unfold nextPeriod
  split
  · simpa using h
  · have hle : left / maxRate * maxRate ≤ left := Nat.div_mul_le_self left maxRate
    have hrate : 0 < maxRate := by
      apply Nat.pos_of_ne_zero
      rintro rfl
      simp_all
    obtain ⟨d, hd⟩ := Nat.exists_eq_succ_of_ne_zero ‹left / maxRate ≠ 0›
    rw [hd, Nat.succ_mul] at hle
    rw [hd, Nat.succ_sub_one]
    omega

/-- A firing event is due, its target reached and not left far behind. -/
theorem tick_fires : ev.tick curPhase cur = some .fires ↔
    ev.phase = curPhase ∧ ev.target ≤ cur ∧ cur - ev.target ≤ ev.maxRate := by
  unfold AdaptiveEvent.tick AdaptiveEvent.callback
  grind

/-- A waiting event watches the same target and looks at a later phase. -/
theorem tick_waits (hphase : curPhase ≤ ev.phase) (h : ev.tick curPhase cur = some (.waits ev')) :
    ev'.target = ev.target ∧ ev'.maxRate = ev.maxRate ∧ curPhase < ev'.phase ∧
      (ev.phase = curPhase → cur < ev.target) := by
  unfold AdaptiveEvent.tick AdaptiveEvent.callback at h
  have hpos := nextPeriod_pos (ev.target - cur) ev.maxRate
  grind

/-- An event that is not due, or whose target is ahead, waits. -/
theorem tick_waits_of (hphase : curPhase ≤ ev.phase) (h : ev.phase = curPhase → cur < ev.target) :
    ∃ ev', ev.tick curPhase cur = some (.waits ev') := by
  unfold AdaptiveEvent.tick AdaptiveEvent.callback
  by_cases hdue : ev.phase = curPhase
  · have hcur := h hdue
    rw [if_pos (by omega), if_neg (by simp [hdue]), if_neg (by omega)]
    exact ⟨_, rfl⟩
  · rw [if_neg (by omega)]
    exact ⟨_, rfl⟩

end Zsim.AdaptiveEvents
