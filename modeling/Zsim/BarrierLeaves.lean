import Zsim.PhaseBarrier

/-!
# Threads that leave the barrier while they wait

A thread may be made to leave the barrier while it waits. Its note of its place on the list is then whatever the
last wakeup or exchange made it, which for a thread that has never been woken is nothing. Every run is followed by a
barrier whose threads do know their places when they leave; a thread with a correct note comes back as it would
there.
-/

namespace Zsim.BarrierLeaves

open GuardedRuns PhaseBarrier

/-- The calls that threads make, and leaves of threads that wait. -/
def Allowed (b : Barrier) : BarrierOp → Prop
  | .join tid _ => tid < MAX_THREADS ∧ (b.state tid = .offline ∨ b.state tid = .left)
  | .leave tid _ => b.state tid = .running ∨ b.state tid = .waiting
  | .sync tid _ => b.state tid = .running

instance (b : Barrier) : (op : BarrierOp) → Decidable (Allowed b op)
  | .join _ _ => inferInstanceAs (Decidable (_ ∧ _))
  | .leave _ _ => inferInstanceAs (Decidable (_ ∨ _))
  | .sync _ _ => inferInstanceAs (Decidable (_ = _))

/-- One call. -/
def step (b : Barrier) (op : BarrierOp) : Option Barrier :=
  if Allowed b op then perform b op else none

/-- The thread has a place on the list that has not been passed in this phase. -/
def Due (b : Barrier) (t : ℕ) : Prop := ∃ i, b.curThreadIdx ≤ i ∧ i < b.runListSize ∧ b.runList i = t

/-- The part of `join` that finds a place for the thread; none where the assertion fails. -/
def place (b : Barrier) (tid : ℕ) : Option Barrier :=
  match b.state tid with
  | .offline => some { b with
      runList := Function.update b.runList b.runListSize tid
      runListSize := b.runListSize + 1 }
  | .left => { b with leftThreads := b.leftThreads - 1 }.reschedule tid
  | _ => none

section Simulation

variable {b c : Barrier} {n i : ℕ} {rnd : ℕ → ℕ}

/-- Two barriers that do the same: they differ in what the threads note of their places, in the futex words of those
that do not wait, and in what is recorded of the past. -/
structure Alike (b c : Barrier) : Prop where
  parallel : b.parallelThreads = c.parallelThreads
  runList : b.runList = c.runList
  size : b.runListSize = c.runListSize
  cur : b.curThreadIdx = c.curThreadIdx
  running : b.runningThreads = c.runningThreads
  left : b.leftThreads = c.leftThreads
  phaseCount : b.phaseCount = c.phaseCount
  state : ∀ t, b.state t = c.state t
  futex : ∀ t, b.state t = .waiting → (b.threadList t).futexWord = (c.threadList t).futexWord

theorem Alike.refl (b : Barrier) : Alike b b :=
  ⟨rfl, rfl, rfl, rfl, rfl, rfl, rfl, fun _ => rfl, fun _ _ => rfl⟩

/-- Alike barriers stay alike when a thread is given the same state, with the same futex word if it waits. -/
theorem Alike.update {x y : ThreadSyncInfo} (h : Alike b c) (t : ℕ) (hstate : x.state = y.state)
    (hfutex : x.state = .waiting → x.futexWord = y.futexWord) :
    Alike { b with threadList := Function.update b.threadList t x }
      { c with threadList := Function.update c.threadList t y } := by
  refine ⟨h.parallel, h.runList, h.size, h.cur, h.running, h.left, h.phaseCount, fun t' => ?_, fun t' hwaiting => ?_⟩
  · by_cases ht : t' = t
    · simp only [Barrier.state, ht, Function.update_self, hstate]
    · simp only [Barrier.state, Function.update_of_ne ht]
      exact h.state t'
  · by_cases ht : t' = t
    · simp only [Barrier.state, ht, Function.update_self] at hwaiting ⊢
      exact hfutex hwaiting
    · simp only [Barrier.state, Function.update_of_ne ht] at hwaiting ⊢
      exact h.futex t' hwaiting

theorem Alike.setWaiting (h : Alike b c) (t : ℕ) : Alike (b.setWaiting t) (c.setWaiting t) :=
  h.update t rfl fun _ => rfl

theorem Alike.setState (h : Alike b c) (t : ℕ) {q : State} (hq : q ≠ .waiting) :
    Alike (b.setState t q) (c.setState t q) :=
  h.update t rfl fun hwaiting => absurd hwaiting hq

theorem Alike.setLastIdx (h : Alike b c) (t x y : ℕ) : Alike (b.setLastIdx t x) (c.setLastIdx t y) :=
  h.update t (h.state t) fun hwaiting => h.futex t hwaiting

theorem Alike.swapEntries (h : Alike b c) (i j : ℕ) : Alike (b.swapEntries i j) (c.swapEntries i j) := by
  unfold Barrier.swapEntries
  rw [h.runList]
  apply Alike.setLastIdx
  apply Alike.setLastIdx
  exact ⟨h.parallel, rfl, h.size, h.cur, h.running, h.left, h.phaseCount, h.state, h.futex⟩

/-- Both fail, or both give barriers that are alike. -/
theorem Alike.bind {x y : Option Barrier} {f g : Barrier → Option Barrier} (h : Option.Rel Alike x y)
    (hfg : ∀ {b c}, Alike b c → Option.Rel Alike (f b) (g c)) : Option.Rel Alike (x.bind f) (y.bind g) := by
  cases h with
  | some h => exact hfg h
  | none => exact .none

/-- A round without the next thread being woken. -/
def passCurrent (b : Barrier) : Barrier := { b with curThreadIdx := b.curThreadIdx + 1 }

theorem checkNext_eq (b : Barrier) : b.checkNext =
    if b.state (b.runList b.curThreadIdx) = .waiting then
      if (b.threadList (b.runList b.curThreadIdx)).futexWord = 1 then some (runCurrent b) else none
    else some (passCurrent b) := rfl

theorem Alike.passCurrent (h : Alike b c) : Alike (passCurrent b) (passCurrent c) :=
  ⟨h.parallel, h.runList, h.size, congrArg (· + 1) h.cur, h.running, h.left, h.phaseCount, h.state, h.futex⟩

theorem Alike.runCurrent (h : Alike b c) : Alike (runCurrent b) (runCurrent c) := by
  have hwoken := h.update (b.runList b.curThreadIdx) (x := ⟨.running, 0, b.curThreadIdx⟩)
    (y := ⟨.running, 0, c.curThreadIdx⟩) rfl fun h => nomatch h
  have hwtid : c.runList c.curThreadIdx = b.runList b.curThreadIdx := by rw [h.runList, h.cur]
  unfold PhaseBarrier.runCurrent
  rw [hwtid]
  exact ⟨h.parallel, h.runList, h.size, congrArg (· + 1) h.cur, congrArg (· + 1) h.running, h.left,
    h.phaseCount, hwoken.state, hwoken.futex⟩

theorem Alike.checkNext (h : Alike b c) : Option.Rel Alike b.checkNext c.checkNext := by
  have hwtid : b.runList b.curThreadIdx = c.runList c.curThreadIdx := by rw [h.runList, h.cur]
  rw [checkNext_eq, checkNext_eq, ← hwtid, ← h.state]
  by_cases hwaiting : b.state (b.runList b.curThreadIdx) = .waiting
  · rw [if_pos hwaiting, if_pos hwaiting, h.futex _ hwaiting]
    split
    · exact .some h.runCurrent
    · exact .none
  · rw [if_neg hwaiting, if_neg hwaiting]
    exact .some h.passCurrent

theorem Alike.checkRunListLoop (h : Alike b c) :
    Option.Rel Alike (Barrier.checkRunListLoop n b) (Barrier.checkRunListLoop n c) := by
  induction n generalizing b c with
  | zero => exact .some h
  | succ n ih =>
    unfold Barrier.checkRunListLoop
    rw [h.running, h.parallel, h.cur, h.size]
    split
    · exact Alike.bind h.checkNext ih
    · exact .some h

theorem Alike.checkRunList (h : Alike b c) : Option.Rel Alike b.checkRunList c.checkRunList := by
  unfold Barrier.checkRunList
  rw [h.size, h.cur]
  exact h.checkRunListLoop

theorem Alike.offlineEntry (h : Alike b c) (idx newSize : ℕ) :
    Alike (offlineEntry b idx newSize) (offlineEntry c idx newSize) := by
  have hoff : Alike (b.setState (b.runList idx) .offline) (c.setState (c.runList idx) .offline) := by
    rw [h.runList]
    exact h.setState _ (by decide)
  unfold PhaseBarrier.offlineEntry
  dsimp only
  rw [hoff.runList]
  apply Alike.setLastIdx
  exact ⟨h.parallel, rfl, h.size, h.cur, h.running, h.left, h.phaseCount, hoff.state, hoff.futex⟩

theorem Alike.cleanupLoop (h : Alike b c) :
    Alike (Barrier.cleanupLoop n i b).1 (Barrier.cleanupLoop n i c).1 ∧
      (Barrier.cleanupLoop n i b).2 = (Barrier.cleanupLoop n i c).2 := by
  induction n generalizing b c i with
  | zero => exact ⟨h, rfl⟩
  | succ n ih =>
    have hstate : b.state (b.runList i) = c.state (c.runList i) := by rw [h.runList, h.state]
    by_cases hleft : b.state (b.runList i) = .left
    · rw [cleanupLoop_left hleft, cleanupLoop_left (hstate ▸ hleft)]
      exact ih (h.offlineEntry i _)
    · rw [cleanupLoop_stay hleft, cleanupLoop_stay (hstate ▸ hleft)]
      exact ih h

theorem Alike.cleanup (h : Alike b c) : Option.Rel Alike b.cleanup c.cleanup := by
  obtain ⟨hloop, hsize⟩ := h.cleanupLoop (n := b.runListSize) (i := 0)
  unfold Barrier.cleanup
  rw [← h.size]
  dsimp only
  rw [← hsize, hloop.left]
  split
  · split
    · exact .some ⟨hloop.parallel, hloop.runList, rfl, hloop.cur, hloop.running, rfl, hloop.phaseCount, hloop.state,
        hloop.futex⟩
    · exact .none
  · exact .none

theorem Alike.shuffleLoop (h : Alike b c) : Alike (Barrier.shuffleLoop rnd n b) (Barrier.shuffleLoop rnd n c) := by
  induction n generalizing b c with
  | zero => exact h
  | succ n ih => exact ih (h.swapEntries _ _)

theorem Alike.endPhase (h : Alike b c) : Option.Rel Alike (b.endPhase rnd) (c.endPhase rnd) := by
  have hnew : Alike (newPhase b) (newPhase c) :=
    ⟨h.parallel, h.runList, h.size, rfl, h.running, h.left, congrArg (· + 1) h.phaseCount, h.state, h.futex⟩
  have hcleaned : Option.Rel Alike (if b.phaseCount % 32 = 0 then (newPhase b).cleanup else some (newPhase b))
      (if c.phaseCount % 32 = 0 then (newPhase c).cleanup else some (newPhase c)) := by
    rw [h.phaseCount]
    split
    · exact hnew.cleanup
    · exact .some hnew
  unfold Barrier.endPhase
  rw [Option.map_eq_bind, Option.map_eq_bind]
  refine Alike.bind hcleaned fun h => .some ?_
  dsimp only
  rw [h.parallel, h.size]
  split
  · exact h.shuffleLoop
  · exact h

theorem Alike.checkEndPhase (h : Alike b c) : Option.Rel Alike (b.checkEndPhase rnd) (c.checkEndPhase rnd) := by
  unfold Barrier.checkEndPhase
  rw [h.cur, h.size, h.running, h.left]
  split
  · split
    · exact .some h
    · exact h.endPhase
  · exact .some h

theorem Alike.tryWakeNext (h : Alike b c) : Option.Rel Alike (b.tryWakeNext rnd) (c.tryWakeNext rnd) :=
  Alike.bind h.checkRunList fun h => Alike.bind h.checkEndPhase Alike.checkRunList

end Simulation

section Invariant

variable {b b' c : Barrier} {tid : ℕ} {rnd : ℕ → ℕ} {op : BarrierOp}

/-- A thread that does not run changes to another state in which it does not run. -/
def change (c : Barrier) (tid : ℕ) (info : ThreadSyncInfo) (leftThreads : ℕ) (ran : ℕ → Bool) : Barrier := { c with
  threadList := Function.update c.threadList tid info
  leftThreads := leftThreads
  ran := ran }

section Change

variable {info : ThreadSyncInfo} {leftThreads : ℕ} {ran : ℕ → Bool}

theorem change_self : (change c tid info leftThreads ran).threadList tid = info := Function.update_self ..

theorem change_of_ne {t : ℕ} (ht : t ≠ tid) : (change c tid info leftThreads ran).threadList t = c.threadList t :=
  Function.update_of_ne ht ..

theorem change_state_of_ne {t : ℕ} (ht : t ≠ tid) : (change c tid info leftThreads ran).state t = c.state t :=
  congrArg ThreadSyncInfo.state (change_of_ne ht)

/-- A waiting thread that leaves with its place noted, and one that has left and waits as if it had run. -/
theorem inv_change (h : Inv c) (hold : c.state tid = .waiting ∨ c.state tid = .left)
    (hnew : info.state = .waiting ∨ info.state = .left) (hfutex : info.state = .waiting ↔ info.futexWord = 1)
    (hnote : info.lastIdx < c.runListSize ∧ c.runList info.lastIdx = tid)
    (hleft : leftThreads + (if c.state tid = .left then 1 else 0) =
      c.leftThreads + if info.state = .left then 1 else 0)
    (hran : ∀ t, c.ran t = true → ran t = true) (hwait : info.state = .waiting → ran tid = true) :
    Inv (change c tid info leftThreads ran) := by
  have hold' : c.state tid ≠ .offline ∧ c.state tid ≠ .running := by
    rcases hold with hold | hold <;> rw [hold] <;> decide
  have hnew' : info.state ≠ .offline ∧ info.state ≠ .running := by
    rcases hnew with hnew | hnew <;> rw [hnew] <;> decide
  have hself : (change c tid info leftThreads ran).state tid = info.state := congrArg _ change_self
  have hothers : ∀ t, t ≠ tid → (change c tid info leftThreads ran).state t = c.state t :=
    fun t ht => change_state_of_ne ht
  have hmove := threadsIn_move (h.listing.lt hold'.1) hothers
  rw [hself] at hmove
  constructor
  · have hstate : ∀ t, (change c tid info leftThreads ran).state t ≠ .offline ↔ c.state t ≠ .offline := by
      intro t
      by_cases ht : t = tid
      · rw [ht, hself]
        exact iff_of_true hnew'.1 hold'.1
      · rw [change_state_of_ne ht]
    exact h.listing.of_state rfl hstate
  · have hcount := hmove .running
    have hrunning := h.running
    rw [if_neg hold'.2, if_neg hnew'.2] at hcount
    show c.runningThreads = _
    omega
  · have hcount := hmove .left
    have hleft' := h.left
    show leftThreads = _
    omega
  · exact h.parallel
  · exact h.ends
  · exact h.cur_le
  · intro i hi hlt
    by_cases ht : c.runList i = tid
    · exact fun hrun => hnew'.2 (hself.symm.trans (ht ▸ hrun))
    · exact fun hrun => h.ahead i hi hlt ((change_state_of_ne ht).symm.trans hrun)
  · intro i hi hstate
    by_cases ht : c.runList i = tid
    · exact (congrArg ran ht).trans (hwait (hself.symm.trans (ht ▸ hstate)))
    · exact hran _ (h.passed i hi ((change_state_of_ne ht).symm.trans hstate))
  · intro t hrun
    by_cases ht : t = tid
    · exact absurd (hself.symm.trans (ht ▸ hrun)) hnew'.2
    · exact hran t (h.ran t ((change_state_of_ne ht).symm.trans hrun))
  · intro t hstate
    by_cases ht : t = tid
    · rw [ht, change_self]
      exact hnote
    · rw [change_state_of_ne ht] at hstate
      rw [change_of_ne ht]
      exact h.lastIdx t hstate
  · intro t
    by_cases ht : t = tid
    · rw [ht, hself, change_self]
      exact hfutex
    · rw [change_state_of_ne ht, change_of_ne ht]
      exact h.futex t

end Change

/-- There is a barrier that does the same, with a correct note of every thread that leaves. -/
def Followed (b : Barrier) : Prop := ∃ c, Inv c ∧ Alike b c ∧ 0 < c.parallelThreads

theorem Followed.tryWakeNext (h : Followed b) : ∃ b', b.tryWakeNext rnd = some b' ∧ Followed b' := by
  obtain ⟨c, hinv, halike, hparallel⟩ := h
  obtain ⟨c', hc', hinv', -, hsame⟩ := @Inv.tryWakeNext c rnd hinv hparallel
  have hrel : Option.Rel Alike (b.tryWakeNext rnd) (c.tryWakeNext rnd) := halike.tryWakeNext
  rw [hc'] at hrel
  generalize b.tryWakeNext rnd = x at hrel ⊢
  cases hrel with
  | some halike' => exact ⟨_, rfl, c', hinv', halike', hsame.symm ▸ hparallel⟩

/-- A runner that stops, to wait for its futex word or to leave. -/
theorem Followed.stop {q : State} {word left : ℕ} (h : Followed b) (ht : b.state tid = .running)
    (hinfo : q = .waiting ∧ word = 1 ∨ q = .left) (hleft : left = b.leftThreads + if q = .left then 1 else 0)
    (lastIdx : ℕ) : Followed (stop b tid ⟨q, word, lastIdx⟩ left) := by
  obtain ⟨c, hinv, halike, hparallel⟩ := h
  have hstate := (halike.state tid).symm.trans ht
  let word' := if q = .waiting then word else 0
  have hupdate := halike.update tid (x := ⟨q, word, lastIdx⟩) (y := ⟨q, word', (c.threadList tid).lastIdx⟩) rfl
    fun hwaiting => (if_pos hwaiting).symm
  refine ⟨PhaseBarrier.stop c tid ⟨q, word', (c.threadList tid).lastIdx⟩ left, ?_, ?_, hparallel⟩
  · refine hinv.stop hstate ?_ ?_ ?_
    · rcases hinfo with ⟨rfl, rfl⟩ | rfl
      · exact .inl ⟨rfl, rfl⟩
      · exact .inr ⟨rfl, Nat.zero_ne_one⟩
    · rfl
    · rw [hleft, halike.left]
  · exact ⟨halike.parallel, halike.runList, halike.size, halike.cur, congrArg (· - 1) halike.running, rfl,
      halike.phaseCount, hupdate.state, hupdate.futex⟩

/-- A waiting thread leaves, whatever its note is. -/
theorem Followed.leaveWaiting (h : Followed b) (ht : b.state tid = .waiting) :
    Followed { b.setState tid .left with leftThreads := b.leftThreads + 1 } := by
  obtain ⟨c, hinv, halike, hparallel⟩ := h
  have hstate := (halike.state tid).symm.trans ht
  obtain ⟨i, hi, hplace⟩ := (hinv.listing.listed tid).mp (by rw [hstate]; decide)
  refine ⟨change c tid ⟨.left, 0, i⟩ (c.leftThreads + 1) c.ran, ?_, ?_, hparallel⟩
  · refine inv_change hinv (.inl hstate) (.inr rfl) ?_ ⟨hi, hplace⟩ ?_ ?_ ?_
    · exact iff_of_false (fun h => nomatch h) (fun h => nomatch h)
    · rw [hstate]
      rfl
    · exact fun _ => id
    · exact fun h => nomatch h
  · have hupdate := halike.update tid (x := { b.threadList tid with state := .left }) (y := ⟨.left, 0, i⟩) rfl nofun
    exact ⟨halike.parallel, halike.runList, halike.size, halike.cur, halike.running, congrArg (· + 1) halike.left,
      halike.phaseCount, hupdate.state, hupdate.futex⟩

/-- A thread that has left waits at the place that it has. -/
theorem Followed.waitAgain (h : Followed b) (ht : b.state tid = .left) :
    Followed ({ b with leftThreads := b.leftThreads - 1 }.setWaiting tid) := by
  obtain ⟨c, hinv, halike, hparallel⟩ := h
  have hstate := (halike.state tid).symm.trans ht
  have hpos := hinv.listing.threadsIn_pos hstate (by decide)
  have hleft := hinv.left
  refine ⟨change c tid ⟨.waiting, 1, (c.threadList tid).lastIdx⟩ (c.leftThreads - 1)
    (Function.update c.ran tid true), ?_, ?_, hparallel⟩
  · refine inv_change hinv (.inr hstate) (.inl rfl) ?_ ?_ ?_ ?_ ?_
    · exact iff_of_true rfl rfl
    · exact hinv.lastIdx tid (.inl hstate)
    · rw [if_pos hstate, if_neg (fun h => nomatch h)]
      omega
    · intro t hran
      by_cases heq : t = tid
      · rw [heq, Function.update_self]
      · rw [Function.update_of_ne heq, hran]
    · exact fun _ => Function.update_self ..
  · have hupdate := halike.setWaiting tid
    exact ⟨halike.parallel, halike.runList, halike.size, halike.cur, halike.running, congrArg (· - 1) halike.left,
      halike.phaseCount, hupdate.state, hupdate.futex⟩

theorem Followed.listing (h : Followed b) : Listing b b.runListSize := by
  obtain ⟨c, hinv, halike, -⟩ := h
  rw [halike.size]
  exact hinv.listing.of_state halike.runList fun t => by rw [halike.state]

theorem Followed.cur_le (h : Followed b) : b.curThreadIdx ≤ b.runListSize := by
  obtain ⟨c, hinv, halike, -⟩ := h
  rw [halike.cur, halike.size]
  exact hinv.cur_le

end Invariant

section Places

variable {b b' b₁ : Barrier} {tid : ℕ} {rnd : ℕ → ℕ} {op : BarrierOp} {ops : List BarrierOp}

/-- A thread has been given a place in the phase that has not been passed, and the others keep theirs. -/
structure Placed (b b₁ : Barrier) (tid : ℕ) : Prop where
  due : Due b₁ tid
  others : ∀ t, t ≠ tid → (Due b₁ t ↔ Due b t)
  distinct : ∀ i < b₁.runListSize, ∀ j < b₁.runListSize, b₁.runList i = b₁.runList j → i = j
  listed : ∀ t, t ≠ tid → ((∃ i < b₁.runListSize, b₁.runList i = t) ↔ ∃ i < b.runListSize, b.runList i = t)
  state : b₁.state = b.state
  phaseEnds : b₁.phaseEnds = b.phaseEnds

/-- The list with a new thread at its end. -/
def appended (b : Barrier) (tid : ℕ) : Barrier := { b with
  runList := Function.update b.runList b.runListSize tid
  runListSize := b.runListSize + 1 }

theorem place_offline (ht : b.state tid = .offline) : place b tid = some (appended b tid) := by
  unfold place
  rw [ht]
  rfl

theorem place_left (ht : b.state tid = .left) :
    place b tid = { b with leftThreads := b.leftThreads - 1 }.reschedule tid := by
  unfold place
  rw [ht]

/-- A thread whose place has been passed, exchanged with the one that was passed last. -/
def exchanged (b : Barrier) (tid : ℕ) : Barrier :=
  { b with leftThreads := b.leftThreads - 1, curThreadIdx := b.curThreadIdx - 1 }.swapEntries
    (b.threadList tid).lastIdx (b.curThreadIdx - 1)

theorem place_passed (ht : b.state tid = .left) (hpassed : (b.threadList tid).lastIdx < b.curThreadIdx)
    (hplace : b.runList (b.threadList tid).lastIdx = tid) : place b tid = some (exchanged b tid) := by
  rw [place_left ht]
  unfold Barrier.reschedule
  dsimp only
  rw [if_pos hpassed, if_pos hplace]
  rfl

theorem place_ahead (ht : b.state tid = .left) (hahead : ¬(b.threadList tid).lastIdx < b.curThreadIdx) :
    place b tid = some { b with leftThreads := b.leftThreads - 1 } := by
  rw [place_left ht]
  exact if_neg hahead

theorem Followed.appended (h : Followed b) (htid : tid < MAX_THREADS) (ht : b.state tid = .offline) :
    Followed ((appended b tid).setWaiting tid) := by
  obtain ⟨c, hinv, halike, hparallel⟩ := h
  have hjoining := hinv.append htid ((halike.state tid).symm.trans ht)
  refine ⟨_, hjoining.setWaiting, Alike.setWaiting ?_ tid, hparallel⟩
  rw [← halike.runList, ← halike.size]
  exact ⟨halike.parallel, rfl, rfl, halike.cur, halike.running, halike.left, halike.phaseCount, halike.state,
    halike.futex⟩

theorem Followed.exchanged (h : Followed b) (ht : b.state tid = .left)
    (hpassed : (b.threadList tid).lastIdx < b.curThreadIdx)
    (hplace : b.runList (b.threadList tid).lastIdx = tid) : Followed ((exchanged b tid).setWaiting tid) := by
  have hcur := h.cur_le
  obtain ⟨c, hinv, halike, hparallel⟩ := h
  have hstate := (halike.state tid).symm.trans ht
  obtain ⟨hlt, hplace'⟩ := hinv.lastIdx tid (.inl hstate)
  have hsame : (c.threadList tid).lastIdx = (b.threadList tid).lastIdx := by
    apply hinv.listing.distinct _ hlt _ (by rw [← halike.size]; omega)
    rw [hplace', ← halike.runList, hplace]
  obtain ⟨c₁, hc₁, hjoining, hparallel₁⟩ := hinv.rejoin hstate
  have heq := place_passed hstate (by rw [hsame, ← halike.cur]; exact hpassed) hplace'
  rw [place_left hstate, hc₁] at heq
  cases heq
  refine ⟨_, hjoining.setWaiting, Alike.setWaiting ?_ tid, hparallel₁.symm ▸ hparallel⟩
  unfold BarrierLeaves.exchanged
  rw [hsame, ← halike.cur]
  apply Alike.swapEntries
  exact ⟨halike.parallel, halike.runList, halike.size, rfl, halike.running, congrArg (· - 1) halike.left,
    halike.phaseCount, halike.state, halike.futex⟩

/-- Wherever a joining thread is placed, the barrier goes on as one with correct notes. -/
theorem Followed.place (h : Followed b) (htid : tid < MAX_THREADS)
    (ht : b.state tid = .offline ∨ b.state tid = .left) (hb₁ : place b tid = some b₁) :
    Followed (b₁.setWaiting tid) := by
  rcases ht with ht | ht
  · rw [place_offline ht] at hb₁
    cases hb₁
    exact h.appended htid ht
  · by_cases hpassed : (b.threadList tid).lastIdx < b.curThreadIdx
    · by_cases hplace : b.runList (b.threadList tid).lastIdx = tid
      · rw [place_passed ht hpassed hplace] at hb₁
        cases hb₁
        exact h.exchanged ht hpassed hplace
      · have hnone : BarrierLeaves.place b tid = none := by
          rw [place_left ht]
          unfold Barrier.reschedule
          dsimp only
          rw [if_pos hpassed, if_neg hplace]
        rw [hnone] at hb₁
        cases hb₁
    · rw [place_ahead ht hpassed] at hb₁
      cases hb₁
      exact h.waitAgain ht

/-- Every call keeps the barrier followed. -/
theorem Followed.step (h : Followed b) (hstep : step b op = some b') : Followed b' := by
  unfold BarrierLeaves.step at hstep
  split_ifs at hstep with hallowed
  have hwake {b₀ : Barrier} {rnd : ℕ → ℕ} (h₀ : Followed b₀) (hb' : b₀.tryWakeNext rnd = some b') : Followed b' := by
    obtain ⟨b'', hb'', hfollowed⟩ := @Followed.tryWakeNext _ rnd h₀
    exact Option.some.inj (hb''.symm.trans hb') ▸ hfollowed
  cases op with
  | join tid rnd =>
    obtain ⟨b₁, hb₁, hb'⟩ := Option.bind_eq_some_iff.mp hstep
    exact hwake (h.place hallowed.1 hallowed.2 hb₁) hb'
  | leave tid rnd =>
    have hleave : b.leave tid rnd = some b' := hstep
    unfold Barrier.leave at hleave
    rcases hallowed with ht | ht
    · rw [ht] at hleave
      exact hwake (h.stop ht (.inr rfl) rfl _) hleave
    · rw [ht] at hleave
      cases hleave
      exact h.leaveWaiting ht
  | sync tid rnd =>
    have ht : b.state tid = .running := hallowed
    have hsync : b.sync tid rnd = some b' := hstep
    unfold Barrier.sync at hsync
    rw [if_pos ht] at hsync
    exact hwake (h.stop ht (.inl ⟨rfl, rfl⟩) rfl _) hsync

end Places

section Phase

variable {b b' b'' b₁ : Barrier} {n tid : ℕ} {rnd : ℕ → ℕ} {ops : List BarrierOp}

/-- What looking at the next threads on the list does: waiting threads that are passed are woken. -/
structure Passed (b b' : Barrier) : Prop where
  runList : b'.runList = b.runList
  size : b'.runListSize = b.runListSize
  phaseEnds : b'.phaseEnds = b.phaseEnds
  cur : b.curThreadIdx ≤ b'.curThreadIdx
  state : ∀ t, b'.state t = b.state t ∨ b.state t = .waiting ∧ b'.state t = .running
  woken : ∀ i, b.curThreadIdx ≤ i → i < b'.curThreadIdx → b'.state (b.runList i) ≠ .waiting

theorem Passed.refl (b : Barrier) : Passed b b :=
  ⟨rfl, rfl, rfl, le_rfl, fun _ => .inl rfl, fun _ hle hlt => absurd hle hlt.not_ge⟩

theorem Passed.trans (h : Passed b b') (h' : Passed b' b'') : Passed b b'' := by
  refine ⟨h'.runList.trans h.runList, h'.size.trans h.size, h'.phaseEnds.trans h.phaseEnds, h.cur.trans h'.cur,
    fun t => ?_, fun i hle hlt => ?_⟩
  · rcases h'.state t with hsame | ⟨hwaiting, hrunning⟩
    · rw [hsame]
      exact h.state t
    · rcases h.state t with hsame | ⟨-, hran⟩
      · exact .inr ⟨hsame.symm.trans hwaiting, hrunning⟩
      · rw [hran] at hwaiting
        cases hwaiting
  · by_cases hpassed : i < b'.curThreadIdx
    · have hne := h.woken i hle hpassed
      rcases h'.state (b.runList i) with hsame | ⟨hwaiting, -⟩
      · rwa [hsame]
      · exact absurd hwaiting hne
    · rw [← h.runList]
      exact h'.woken i (not_lt.mp hpassed) hlt

/-- A thread that joins runs or is still to come in this phase, and nobody else loses a place or is given another. -/
structure Joined (b b' : Barrier) (tid : ℕ) : Prop where
  phaseEnds : b'.phaseEnds = b.phaseEnds
  runs : b'.state tid = .running ∨ b'.state tid = .waiting ∧ Due b' tid
  kept : ∀ t, t ≠ tid → b.state t = .waiting → Due b t →
    b'.state t = .running ∨ b'.state t = .waiting ∧ Due b' t
  once : ∀ t, t ≠ tid → Due b' t → Due b t

theorem Passed.due (h : Passed b b') {t : ℕ} (hdue : Due b' t) : Due b t := by
  obtain ⟨i, hle, hi, hat⟩ := hdue
  exact ⟨i, h.cur.trans hle, h.size ▸ hi, h.runList ▸ hat⟩

/-- Whoever waits to come is woken or waits on. -/
theorem Passed.kept (h : Passed b b') {t : ℕ} (ht : b.state t = .waiting) (hdue : Due b t) :
    b'.state t = .running ∨ b'.state t = .waiting ∧ Due b' t := by
  obtain ⟨i, hle, hi, hat⟩ := hdue
  rcases h.state t with hsame | ⟨-, hrun⟩
  · have hwaiting := hsame.trans ht
    have hcur : b'.curThreadIdx ≤ i := by
      by_contra hlt
      exact h.woken i hle (not_le.mp hlt) (hat.symm ▸ hwaiting)
    exact .inr ⟨hwaiting, i, hcur, h.size.symm ▸ hi, h.runList.symm ▸ hat⟩
  · exact .inl hrun

theorem Placed.joined (h : Placed b b₁ tid) (hpassed : Passed (b₁.setWaiting tid) b') : Joined b b' tid := by
  have hdue {t : ℕ} : Due (b₁.setWaiting tid) t ↔ Due b₁ t := Iff.rfl
  refine ⟨hpassed.phaseEnds.trans h.phaseEnds, ?_, fun t hne ht htdue => ?_, fun t hne htdue => ?_⟩
  · exact hpassed.kept (by rw [setWaiting_state, if_pos rfl]) h.due
  · apply hpassed.kept _ ((h.others t hne).mpr htdue)
    rw [setWaiting_state, if_neg hne, h.state, ht]
  · exact (h.others t hne).mp (hpassed.due htdue)

end Phase

end Zsim.BarrierLeaves
