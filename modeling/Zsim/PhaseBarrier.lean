import Zsim.GuardedRuns
import Zsim.TableCounts

/-!
# The barrier between phases

The barrier keeps its threads on a list and lets them run in the order of the
list, so many at a time. A phase ends when the list has been passed and nobody
runs. Threads that rejoin in a phase swap places on the list, and at the end of
a phase the list is compacted from time to time and shuffled, so that only some
operations keep a thread's own note of its place.
-/

namespace Zsim.PhaseBarrier

open GuardedRuns TableCounts

inductive State where
  | offline
  | waiting
  | running
  | left
  deriving DecidableEq

structure ThreadSyncInfo where
  state : State
  futexWord : ℕ
  lastIdx : ℕ

/-- `MAX_THREADS`. -/
def MAX_THREADS : ℕ := 2048

/-- What a call of the scheduler's callback finds. -/
structure PhaseEnd where
  state : ℕ → State
  ran : ℕ → Bool

/-- `Barrier`. -/
structure Barrier where
  parallelThreads : ℕ
  threadList : ℕ → ThreadSyncInfo
  runList : ℕ → ℕ
  runListSize : ℕ
  curThreadIdx : ℕ
  runningThreads : ℕ
  leftThreads : ℕ
  phaseCount : ℕ
  /-- The threads that have run in this phase. -/
  ran : ℕ → Bool
  /-- The ends of phases so far, the last one first. -/
  phaseEnds : List PhaseEnd

namespace Barrier

/-- The constructor; `lastIdx` is left as the memory has it. -/
def init (parallelThreads : ℕ) (lastIdx : ℕ → ℕ) : Barrier where
  parallelThreads := parallelThreads
  threadList t := ⟨.offline, 0, lastIdx t⟩
  runList _ := 0
  runListSize := 0
  curThreadIdx := 0
  runningThreads := 0
  leftThreads := 0
  phaseCount := 0
  ran _ := false
  phaseEnds := []

def state (b : Barrier) (tid : ℕ) : State := (b.threadList tid).state

def setState (b : Barrier) (tid : ℕ) (state : State) : Barrier :=
  { b with threadList := Function.update b.threadList tid { b.threadList tid with state := state } }

/-- The thread waits for its futex word. -/
def setWaiting (b : Barrier) (tid : ℕ) : Barrier :=
  { b with threadList := Function.update b.threadList tid ⟨.waiting, 1, (b.threadList tid).lastIdx⟩ }

def setLastIdx (b : Barrier) (tid lastIdx : ℕ) : Barrier :=
  { b with threadList := Function.update b.threadList tid { b.threadList tid with lastIdx := lastIdx } }

/-- Two places of the list exchange their threads, which note their new places. -/
def swapEntries (b : Barrier) (i j : ℕ) : Barrier :=
  let itid := b.runList i
  let jtid := b.runList j
  let b := { b with runList := Function.update (Function.update b.runList i jtid) j itid }
  (b.setLastIdx itid j).setLastIdx jtid i

/-- One round of the loop of `checkRunList`; none where the wakeup panics. -/
def checkNext (b : Barrier) : Option Barrier :=
  let idx := b.curThreadIdx
  let b := { b with curThreadIdx := idx + 1 }
  let wtid := b.runList idx
  if b.state wtid = .waiting then
    if (b.threadList wtid).futexWord = 1 then
      some { b with
        threadList := Function.update b.threadList wtid ⟨.running, 0, idx⟩
        runningThreads := b.runningThreads + 1
        ran := Function.update b.ran wtid true }
    else none
  else some b

def checkRunListLoop : ℕ → Barrier → Option Barrier
  | 0, b => some b
  | n + 1, b =>
    if b.runningThreads < b.parallelThreads ∧ b.curThreadIdx < b.runListSize then
      b.checkNext.bind (checkRunListLoop n)
    else some b

/-- `checkRunList`. Every round moves `curThreadIdx`. -/
def checkRunList (b : Barrier) : Option Barrier :=
  checkRunListLoop (b.runListSize - b.curThreadIdx) b

/-- The loop of the cleanup pass, with the entries that are left to look at;
also the new size. -/
def cleanupLoop : ℕ → ℕ → Barrier → Barrier × ℕ
  | 0, idx, b => (b, idx)
  | n + 1, idx, b =>
    let newSize := idx + (n + 1)
    let wtid := b.runList idx
    if b.state wtid = .left then
      let b := b.setState wtid .offline
      let stid := b.runList (newSize - 1)
      let b := { b with runList := Function.update b.runList idx stid }
      cleanupLoop n idx (b.setLastIdx stid idx)
    else cleanupLoop n (idx + 1) b

/-- The cleanup pass; none where an assertion fails. -/
def cleanup (b : Barrier) : Option Barrier :=
  if 0 < b.runListSize then
    let (b', newSize) := cleanupLoop b.runListSize 0 b
    if b.runListSize - newSize = b'.leftThreads then
      some { b' with leftThreads := 0, runListSize := newSize }
    else none
  else none

/-- The Fisher-Yates shuffle from an index down, with the outcomes of `randInt`. -/
def shuffleLoop (rnd : ℕ → ℕ) : ℕ → Barrier → Barrier
  | 0, b => b
  | i + 1, b => shuffleLoop rnd i (b.swapEntries (i + 1) (rnd (i + 1) % (i + 2)))

/-- The end of a phase. -/
def endPhase (b : Barrier) (rnd : ℕ → ℕ) : Option Barrier :=
  let phaseCount := b.phaseCount
  let b := { b with
    phaseEnds := ⟨b.state, b.ran⟩ :: b.phaseEnds
    ran := fun _ => false
    curThreadIdx := 0
    phaseCount := phaseCount + 1 }
  (if phaseCount % 32 = 0 then b.cleanup else some b).map fun b =>
    if b.parallelThreads < b.runListSize then shuffleLoop rnd (b.runListSize - 1) b else b

/-- `checkEndPhase`. -/
def checkEndPhase (b : Barrier) (rnd : ℕ → ℕ) : Option Barrier :=
  if b.curThreadIdx = b.runListSize ∧ b.runningThreads = 0 then
    if b.leftThreads = b.runListSize then some b else b.endPhase rnd
  else some b

/-- `tryWakeNext`. -/
def tryWakeNext (b : Barrier) (rnd : ℕ → ℕ) : Option Barrier :=
  b.checkRunList.bind fun b => (b.checkEndPhase rnd).bind checkRunList

/-- A thread that has left rejoins in the same phase; none where the assertion fails. -/
def reschedule (b : Barrier) (tid : ℕ) : Option Barrier :=
  let lastIdx := (b.threadList tid).lastIdx
  if lastIdx < b.curThreadIdx then
    let b := { b with curThreadIdx := b.curThreadIdx - 1 }
    if b.runList lastIdx = tid then some (b.swapEntries lastIdx b.curThreadIdx) else none
  else some b

/-- `join` up to the unlock; none where an assertion fails. -/
def join (b : Barrier) (tid : ℕ) (rnd : ℕ → ℕ) : Option Barrier :=
  (match b.state tid with
    | .offline => some { b with
        runList := Function.update b.runList b.runListSize tid
        runListSize := b.runListSize + 1 }
    | .left => { b with leftThreads := b.leftThreads - 1 }.reschedule tid
    | _ => none).bind fun b => (b.setWaiting tid).tryWakeNext rnd

/-- `leave`. -/
def leave (b : Barrier) (tid : ℕ) (rnd : ℕ → ℕ) : Option Barrier :=
  match b.state tid with
  | .running => { b.setState tid .left with
      leftThreads := b.leftThreads + 1
      runningThreads := b.runningThreads - 1 }.tryWakeNext rnd
  | .waiting => some { b.setState tid .left with leftThreads := b.leftThreads + 1 }
  | _ => none

/-- `sync` up to the unlock. -/
def sync (b : Barrier) (tid : ℕ) (rnd : ℕ → ℕ) : Option Barrier :=
  if b.state tid = .running then
    { b.setWaiting tid with runningThreads := b.runningThreads - 1 }.tryWakeNext rnd
  else none

end Barrier

/-- A call of the barrier, with the outcomes of the shuffle if a phase ends. -/
inductive BarrierOp where
  | join (tid : ℕ) (rnd : ℕ → ℕ)
  | leave (tid : ℕ) (rnd : ℕ → ℕ)
  | sync (tid : ℕ) (rnd : ℕ → ℕ)

/-- The calls that threads make: those that are not on the barrier join it,
those that run leave or wait. -/
def Callable (b : Barrier) : BarrierOp → Prop
  | .join tid _ => tid < MAX_THREADS ∧ (b.state tid = .offline ∨ b.state tid = .left)
  | .leave tid _ => b.state tid = .running
  | .sync tid _ => b.state tid = .running

instance (b : Barrier) : (op : BarrierOp) → Decidable (Callable b op)
  | .join _ _ => inferInstanceAs (Decidable (_ ∧ _))
  | .leave _ _ => inferInstanceAs (Decidable (_ = _))
  | .sync _ _ => inferInstanceAs (Decidable (_ = _))

/-- Perform a call. -/
def perform (b : Barrier) : BarrierOp → Option Barrier
  | .join tid rnd => b.join tid rnd
  | .leave tid rnd => b.leave tid rnd
  | .sync tid rnd => b.sync tid rnd

/-- One call that a thread makes. -/
def step (b : Barrier) (op : BarrierOp) : Option Barrier :=
  if Callable b op then perform b op else none

section Correctness

/-- The number of threads in a state. -/
def threadsIn (b : Barrier) (q : State) : ℕ :=
  ((Finset.range MAX_THREADS).filter fun t => b.state t = q).card

/-- The first entries of the list are the threads that are not offline, once each. -/
structure Listing (b : Barrier) (size : ℕ) : Prop where
  distinct : ∀ i < size, ∀ j < size, b.runList i = b.runList j → i = j
  listed : ∀ t, b.state t ≠ .offline ↔ ∃ i < size, b.runList i = t
  bound : ∀ i < size, b.runList i < MAX_THREADS

/-- What the barrier promises between calls. -/
structure Correct (b : Barrier) : Prop where
  listing : Listing b b.runListSize
  running : b.runningThreads = threadsIn b .running
  left : b.leftThreads = threadsIn b .left
  parallel : b.runningThreads ≤ b.parallelThreads
  fits : b.runListSize ≤ MAX_THREADS
  /-- A phase ends when nobody runs and whoever waits has run. -/
  ends : ∀ v ∈ b.phaseEnds, ∀ t, v.state t ≠ .running ∧ (v.state t = .waiting → v.ran t = true)
  /-- A thread that blocks on its futex word is woken by becoming the runner. -/
  futex : ∀ t, b.state t = .waiting ↔ (b.threadList t).futexWord = 1
  progress : (∃ t, b.state t = .running) ∨ ∀ i < b.runListSize, b.state (b.runList i) = .left

/-- What holds also between the parts of a call. -/
structure Inv (b : Barrier) : Prop where
  listing : Listing b b.runListSize
  running : b.runningThreads = threadsIn b .running
  left : b.leftThreads = threadsIn b .left
  parallel : b.runningThreads ≤ b.parallelThreads
  ends : ∀ v ∈ b.phaseEnds, ∀ t, v.state t ≠ .running ∧ (v.state t = .waiting → v.ran t = true)
  cur_le : b.curThreadIdx ≤ b.runListSize
  ahead : ∀ i, b.curThreadIdx ≤ i → i < b.runListSize → b.state (b.runList i) ≠ .running
  passed : ∀ i < b.curThreadIdx, b.state (b.runList i) = .waiting → b.ran (b.runList i) = true
  ran : ∀ t, b.state t = .running → b.ran t = true
  /-- Whoever has left or runs knows the own place. -/
  lastIdx : ∀ t, b.state t = .left ∨ b.state t = .running →
    (b.threadList t).lastIdx < b.runListSize ∧ b.runList (b.threadList t).lastIdx = t
  futex : ∀ t, b.state t = .waiting ↔ (b.threadList t).futexWord = 1

end Correctness

section Swaps

variable {b b' : Barrier} {i j size : ℕ}

@[simp] theorem swapEntries_state (b : Barrier) (i j : ℕ) : (b.swapEntries i j).state = b.state := by
  funext t
  unfold Barrier.swapEntries Barrier.setLastIdx Barrier.state
  grind

theorem swapEntries_futexWord (b : Barrier) (i j t : ℕ) :
    ((b.swapEntries i j).threadList t).futexWord = (b.threadList t).futexWord := by
  unfold Barrier.swapEntries Barrier.setLastIdx
  grind

theorem swapEntries_runList (b : Barrier) (i j k : ℕ) : (b.swapEntries i j).runList k =
    if k = j then b.runList i else if k = i then b.runList j else b.runList k := by
  unfold Barrier.swapEntries Barrier.setLastIdx
  grind

theorem swapEntries_lastIdx (b : Barrier) (i j t : ℕ) : ((b.swapEntries i j).threadList t).lastIdx =
    if t = b.runList j then i else if t = b.runList i then j else (b.threadList t).lastIdx := by
  unfold Barrier.swapEntries Barrier.setLastIdx
  grind

theorem Listing.swapEntries (h : Listing b size) (hi : i < size) (hj : j < size) :
    Listing (b.swapEntries i j) size := by
  have hdistinct := h.distinct
  have hbound := h.bound
  constructor
  · intro k hk l hl heq
    rw [swapEntries_runList, swapEntries_runList] at heq
    grind
  · intro t
    rw [swapEntries_state, h.listed]
    constructor
    · rintro ⟨k, hk, rfl⟩
      by_cases hki : k = i
      · exact ⟨j, hj, by simp [swapEntries_runList, hki]⟩
      · by_cases hkj : k = j
        · exact ⟨i, hi, by grind [swapEntries_runList]⟩
        · exact ⟨k, hk, by simp [swapEntries_runList, hki, hkj]⟩
    · rintro ⟨k, hk, rfl⟩
      rw [swapEntries_runList]
      split
      · exact ⟨i, hi, rfl⟩
      · split
        · exact ⟨j, hj, rfl⟩
        · exact ⟨k, hk, rfl⟩
  · intro k hk
    rw [swapEntries_runList]
    grind

/-- Threads that know their places know them after an exchange. -/
theorem lastIdx_swapEntries {t : ℕ} (h : Listing b size) (hi : i < size) (hj : j < size)
    (ht : (b.threadList t).lastIdx < size ∧ b.runList (b.threadList t).lastIdx = t) :
    ((b.swapEntries i j).threadList t).lastIdx < size ∧
      (b.swapEntries i j).runList ((b.swapEntries i j).threadList t).lastIdx = t := by
  have hdistinct := h.distinct
  rw [swapEntries_lastIdx, swapEntries_runList]
  grind

end Swaps

section Counts

variable {b b' : Barrier} {size tid t : ℕ} {q : State}

/-- The counts when one thread changes its state. -/
theorem threadsIn_move (ht : tid < MAX_THREADS) (h : ∀ t, t ≠ tid → b'.state t = b.state t) (q : State) :
    threadsIn b' q + (if b.state tid = q then 1 else 0) =
      threadsIn b q + (if b'.state tid = q then 1 else 0) := by
  unfold threadsIn
  rw [Finset.card_filter, Finset.card_filter]
  exact @sum_move _ _ (fun t => if b.state t = q then 1 else 0) (fun t => if b'.state t = q then 1 else 0)
    ht fun t ht => by rw [h t ht]

theorem threadsIn_congr (h : b'.state = b.state) (q : State) : threadsIn b' q = threadsIn b q := by
  unfold threadsIn
  rw [h]

theorem Listing.lt (h : Listing b size) (ht : b.state t ≠ .offline) : t < MAX_THREADS := by
  obtain ⟨i, hi, rfl⟩ := (h.listed t).mp ht
  exact h.bound i hi

theorem Listing.threadsIn_pos (h : Listing b size) (ht : b.state t = q) (hq : q ≠ .offline) :
    0 < threadsIn b q :=
  Finset.card_pos.mpr ⟨t, Finset.mem_filter.mpr ⟨Finset.mem_range.mpr (h.lt (ht ▸ hq)), ht⟩⟩

/-- Threads in a state are on the list. -/
theorem Listing.threadsIn_subset (h : Listing b size) (hq : q ≠ .offline) :
    ((Finset.range MAX_THREADS).filter fun t => b.state t = q) ⊆ (Finset.range size).image b.runList := by
  intro t ht
  have hstate := (Finset.mem_filter.mp ht).2
  obtain ⟨i, hi, hit⟩ := (h.listed t).mp (hstate ▸ hq)
  exact Finset.mem_image.mpr ⟨i, Finset.mem_range.mpr hi, hit⟩

theorem Listing.card (h : Listing b size) : ((Finset.range size).image b.runList).card = size := by
  rw [Finset.card_image_of_injOn, Finset.card_range]
  intro i hi j hj heq
  exact h.distinct i (Finset.mem_range.mp hi) j (Finset.mem_range.mp hj) heq

theorem Listing.threadsIn_le (h : Listing b size) (hq : q ≠ .offline) : threadsIn b q ≤ size := by
  have hle := Finset.card_le_card (h.threadsIn_subset hq)
  rwa [h.card] at hle

/-- A state fills the list exactly when every thread on it is in that state. -/
theorem Listing.threadsIn_eq_iff (h : Listing b size) (hq : q ≠ .offline) :
    threadsIn b q = size ↔ ∀ i < size, b.state (b.runList i) = q := by
  constructor
  · intro hcount i hi
    have heq := Finset.eq_of_subset_of_card_le (h.threadsIn_subset hq) (by rw [h.card]; exact hcount.ge)
    have hmem : b.runList i ∈ (Finset.range size).image b.runList :=
      Finset.mem_image_of_mem _ (Finset.mem_range.mpr hi)
    rw [← heq] at hmem
    exact (Finset.mem_filter.mp hmem).2
  · intro hall
    apply (h.threadsIn_le hq).antisymm
    rw [← h.card]
    apply Finset.card_le_card
    intro t ht
    obtain ⟨i, hi, rfl⟩ := Finset.mem_image.mp ht
    have hi := Finset.mem_range.mp hi
    exact Finset.mem_filter.mpr ⟨Finset.mem_range.mpr (h.bound i hi), hall i hi⟩

theorem Listing.size_le (h : Listing b size) : size ≤ MAX_THREADS := by
  have hle : ((Finset.range size).image b.runList).card ≤ (Finset.range MAX_THREADS).card := by
    apply Finset.card_le_card
    intro t ht
    obtain ⟨i, hi, rfl⟩ := Finset.mem_image.mp ht
    exact Finset.mem_range.mpr (h.bound i (Finset.mem_range.mp hi))
  rwa [h.card, Finset.card_range] at hle

end Counts

section Waking

variable {b b' b'' : Barrier} {n : ℕ}

/-- What waking threads changes: more of them run, or nothing has happened to them. -/
structure Woken (b b' : Barrier) : Prop where
  parallel : b'.parallelThreads = b.parallelThreads
  size : b'.runListSize = b.runListSize
  running : b.runningThreads ≤ b'.runningThreads
  same : b'.runningThreads = b.runningThreads → b'.state = b.state ∧ b'.ran = b.ran

theorem Woken.refl (b : Barrier) : Woken b b := ⟨rfl, rfl, le_rfl, fun _ => ⟨rfl, rfl⟩⟩

theorem Woken.trans (h : Woken b b') (h' : Woken b' b'') : Woken b b'' := by
  constructor
  · exact h'.parallel.trans h.parallel
  · exact h'.size.trans h.size
  · exact h.running.trans h'.running
  · intro heq
    have hle := h.running
    have hle' := h'.running
    obtain ⟨hstate, hran⟩ := h.same (by omega)
    obtain ⟨hstate', hran'⟩ := h'.same (by omega)
    exact ⟨hstate'.trans hstate, hran'.trans hran⟩

/-- The thread at `curThreadIdx` after it has been woken. -/
def runCurrent (b : Barrier) : Barrier := { b with
  curThreadIdx := b.curThreadIdx + 1
  threadList := Function.update b.threadList (b.runList b.curThreadIdx) ⟨.running, 0, b.curThreadIdx⟩
  runningThreads := b.runningThreads + 1
  ran := Function.update b.ran (b.runList b.curThreadIdx) true }

theorem runCurrent_state (b : Barrier) (t : ℕ) : (runCurrent b).state t =
    if t = b.runList b.curThreadIdx then .running else b.state t := by
  unfold runCurrent Barrier.state
  grind

theorem Inv.runNext (h : Inv b) (hparallel : b.runningThreads < b.parallelThreads)
    (hcur : b.curThreadIdx < b.runListSize) (hwaiting : b.state (b.runList b.curThreadIdx) = .waiting) :
    Inv (runCurrent b) := by
  have hbound := h.listing.bound _ hcur
  have hdistinct := h.listing.distinct
  have hmove := @threadsIn_move b (runCurrent b) _ hbound
    fun t ht => by rw [runCurrent_state, if_neg ht]
  rw [runCurrent_state, if_pos rfl, hwaiting] at hmove
  constructor
  · constructor
    · exact h.listing.distinct
    · intro t
      rw [runCurrent_state]
      have hlisted := h.listing.listed
      unfold runCurrent
      grind
    · exact h.listing.bound
  · have hrunning := h.running
    have hcount := hmove .running
    unfold runCurrent at hcount ⊢
    grind
  · have hleft := h.left
    have hcount := hmove .left
    unfold runCurrent at hcount ⊢
    grind
  · exact hparallel
  · exact h.ends
  · exact hcur
  · intro i hi hlt
    have hahead := h.ahead i
    rw [runCurrent_state]
    unfold runCurrent at *
    grind
  · intro i hi
    have hpassed := h.passed i
    rw [runCurrent_state]
    unfold runCurrent at *
    grind
  · intro t
    have hran := h.ran t
    rw [runCurrent_state]
    unfold runCurrent
    grind
  · intro t
    have hlastIdx := h.lastIdx t
    rw [runCurrent_state]
    unfold runCurrent
    grind
  · intro t
    have hfutex := h.futex t
    rw [runCurrent_state]
    unfold runCurrent
    grind

/-- One round wakes the next thread on the list or passes it. -/
theorem Inv.checkNext (h : Inv b) (hparallel : b.runningThreads < b.parallelThreads)
    (hcur : b.curThreadIdx < b.runListSize) :
    ∃ b', b.checkNext = some b' ∧ Inv b' ∧ Woken b b' ∧ b'.curThreadIdx = b.curThreadIdx + 1 := by
  unfold Barrier.checkNext
  dsimp only
  by_cases hwaiting : b.state (b.runList b.curThreadIdx) = .waiting
  · refine ⟨runCurrent b, ?_, h.runNext hparallel hcur hwaiting, ?_, rfl⟩
    · rw [if_pos (by exact hwaiting), if_pos (by exact (h.futex _).mp hwaiting)]
      rfl
    · constructor
      · rfl
      · rfl
      · exact Nat.le_succ _
      · exact fun heq => absurd heq (Nat.succ_ne_self _)
  · refine ⟨{ b with curThreadIdx := b.curThreadIdx + 1 }, if_neg hwaiting, ?_, ?_, rfl⟩
    · have hahead := h.ahead
      have hpassed := h.passed
      exact { h with
        listing := ⟨h.listing.distinct, h.listing.listed, h.listing.bound⟩
        cur_le := hcur
        ahead := fun i hi => hahead i (Nat.le_of_succ_le hi)
        passed := by
          intro i hi hstate
          by_cases heq : i = b.curThreadIdx
          · exact absurd (heq ▸ hstate) hwaiting
          · exact hpassed i (by dsimp only at hi; omega) hstate }
    · exact ⟨rfl, rfl, le_rfl, fun _ => ⟨rfl, rfl⟩⟩

/-- The loop stops when enough threads run or the list has been passed. -/
theorem Inv.checkRunListLoop (h : Inv b) (hn : b.runListSize - b.curThreadIdx ≤ n) :
    ∃ b', Barrier.checkRunListLoop n b = some b' ∧ Inv b' ∧ Woken b b' ∧
      (b'.runningThreads = b'.parallelThreads ∨ b'.curThreadIdx = b'.runListSize) := by
  induction n generalizing b with
  | zero =>
    have hcur := h.cur_le
    exact ⟨b, rfl, h, .refl b, .inr (by omega)⟩
  | succ n ih =>
    unfold Barrier.checkRunListLoop
    by_cases hmore : b.runningThreads < b.parallelThreads ∧ b.curThreadIdx < b.runListSize
    · rw [if_pos hmore]
      obtain ⟨b₁, hb₁, hinv, hwoken, hcur⟩ := h.checkNext hmore.1 hmore.2
      have hsize := hwoken.size
      obtain ⟨b', hb', hinv', hwoken', hstop⟩ := ih hinv (by omega)
      rw [hb₁]
      exact ⟨b', hb', hinv', hwoken.trans hwoken', hstop⟩
    · rw [if_neg hmore]
      have hcur := h.cur_le
      have hparallel := h.parallel
      exact ⟨b, rfl, h, .refl b, by omega⟩

theorem Inv.checkRunList (h : Inv b) :
    ∃ b', b.checkRunList = some b' ∧ Inv b' ∧ Woken b b' ∧
      (b'.runningThreads = b'.parallelThreads ∨ b'.curThreadIdx = b'.runListSize) :=
  h.checkRunListLoop le_rfl

end Waking

section PhaseEnds

variable {b b' : Barrier} {n idx t : ℕ} {rnd : ℕ → ℕ}

/-- What the cleanup pass and the shuffle may change: the list, and whether a
thread that has left is still on it. -/
structure Rearranged (b b' : Barrier) : Prop where
  parallel : b'.parallelThreads = b.parallelThreads
  running : b'.runningThreads = b.runningThreads
  cur : b'.curThreadIdx = b.curThreadIdx
  ran : b'.ran = b.ran
  ends : b'.phaseEnds = b.phaseEnds
  waiting : ∀ t, b'.state t = .waiting ↔ b.state t = .waiting
  not_running : ∀ t, b'.state t = .running ↔ b.state t = .running
  futex : ∀ t, (b'.threadList t).futexWord = (b.threadList t).futexWord

theorem Rearranged.refl (b : Barrier) : Rearranged b b :=
  ⟨rfl, rfl, rfl, rfl, rfl, fun _ => Iff.rfl, fun _ => Iff.rfl, fun _ => rfl⟩

theorem Rearranged.trans {b'' : Barrier} (h : Rearranged b b') (h' : Rearranged b' b'') :
    Rearranged b b'' := by
  constructor
  · exact h'.parallel.trans h.parallel
  · exact h'.running.trans h.running
  · exact h'.cur.trans h.cur
  · exact h'.ran.trans h.ran
  · exact h'.ends.trans h.ends
  · exact fun t => (h'.waiting t).trans (h.waiting t)
  · exact fun t => (h'.not_running t).trans (h.not_running t)
  · exact fun t => (h'.futex t).trans (h.futex t)

/-- In the cleanup pass: the entries looked at have not left, and what has been
taken off the list is missing from those that have left. -/
structure Cleaning (b : Barrier) (idx newSize : ℕ) : Prop where
  listing : Listing b newSize
  looked : ∀ i < idx, b.state (b.runList i) ≠ .left
  idx_le : idx ≤ newSize

/-- One round of the cleanup pass takes an entry that has left off the list. -/
def offlineEntry (b : Barrier) (idx newSize : ℕ) : Barrier :=
  let b := b.setState (b.runList idx) .offline
  let stid := b.runList (newSize - 1)
  { b with runList := Function.update b.runList idx stid }.setLastIdx stid idx

theorem offlineEntry_state (b : Barrier) (idx newSize t : ℕ) : (offlineEntry b idx newSize).state t =
    if t = b.runList idx then .offline else b.state t := by
  unfold offlineEntry Barrier.setState Barrier.setLastIdx Barrier.state
  grind

theorem offlineEntry_runList (b : Barrier) (idx newSize i : ℕ) : (offlineEntry b idx newSize).runList i =
    if i = idx then b.runList (newSize - 1) else b.runList i := by
  unfold offlineEntry Barrier.setState Barrier.setLastIdx
  grind

theorem offlineEntry_futexWord (b : Barrier) (idx newSize t : ℕ) :
    ((offlineEntry b idx newSize).threadList t).futexWord = (b.threadList t).futexWord := by
  unfold offlineEntry Barrier.setState Barrier.setLastIdx
  grind

theorem Cleaning.offline (h : Cleaning b idx (n + 1)) (hidx : idx ≤ n) :
    Cleaning (offlineEntry b idx (n + 1)) idx n := by
  have hdistinct := h.listing.distinct
  have hbound := h.listing.bound
  have hlooked := h.looked
  constructor
  · constructor
    · intro i hi j hj heq
      rw [offlineEntry_runList, offlineEntry_runList] at heq
      grind
    · intro t
      rw [offlineEntry_state]
      constructor
      · intro hstate
        have hne : t ≠ b.runList idx := by grind
        rw [if_neg hne] at hstate
        obtain ⟨i, hi, rfl⟩ := (h.listing.listed t).mp hstate
        by_cases hlast : i = n
        · exact ⟨idx, by grind, by grind [offlineEntry_runList]⟩
        · exact ⟨i, by omega, by grind [offlineEntry_runList]⟩
      · rintro ⟨i, hi, rfl⟩
        have hmem : ∀ j < n + 1, b.state (b.runList j) ≠ .offline := fun j hj =>
          (h.listing.listed _).mpr ⟨j, hj, rfl⟩
        rw [offlineEntry_runList]
        grind
    · intro i hi
      rw [offlineEntry_runList]
      grind
  · intro i hi
    rw [offlineEntry_state, offlineEntry_runList]
    grind
  · exact hidx

theorem Rearranged.offline (hleft : b.state (b.runList idx) = .left) :
    Rearranged b (offlineEntry b idx n) := by
  constructor
  · rfl
  · rfl
  · rfl
  · rfl
  · rfl
  · intro t
    rw [offlineEntry_state]
    grind
  · intro t
    rw [offlineEntry_state]
    grind
  · exact offlineEntry_futexWord b idx n

theorem threadsIn_offlineEntry (hbound : b.runList idx < MAX_THREADS)
    (hleft : b.state (b.runList idx) = .left) :
    threadsIn (offlineEntry b idx n) .left + 1 = threadsIn b .left := by
  have hmove := @threadsIn_move b (offlineEntry b idx n) _ hbound
    (fun t ht => by rw [offlineEntry_state, if_neg ht]) .left
  rw [offlineEntry_state, if_pos rfl, hleft] at hmove
  simpa using hmove

theorem cleanupLoop_left (hleft : b.state (b.runList idx) = .left) :
    Barrier.cleanupLoop (n + 1) idx b = Barrier.cleanupLoop n idx (offlineEntry b idx (idx + n + 1)) := by
  rw [Barrier.cleanupLoop]
  exact if_pos hleft

theorem cleanupLoop_stay (hstay : b.state (b.runList idx) ≠ .left) :
    Barrier.cleanupLoop (n + 1) idx b = Barrier.cleanupLoop n (idx + 1) b := by
  rw [Barrier.cleanupLoop]
  exact if_neg hstay

/-- The pass leaves no entry that has left, and takes off as many as there were. -/
theorem Cleaning.loop (h : Cleaning b idx (idx + n)) :
    let r := Barrier.cleanupLoop n idx b
    Cleaning r.1 r.2 r.2 ∧ Rearranged b r.1 ∧ r.2 + threadsIn b .left = idx + n + threadsIn r.1 .left ∧
      r.1.leftThreads = b.leftThreads := by
  induction n generalizing b idx with
  | zero => exact ⟨h, .refl b, rfl, rfl⟩
  | succ n ih =>
    by_cases hleft : b.state (b.runList idx) = .left
    · have hcleaning : Cleaning (offlineEntry b idx (idx + n + 1)) idx (idx + n) :=
        h.offline (Nat.le_add_right idx n)
      have hmoved : Rearranged b (offlineEntry b idx (idx + n + 1)) := .offline hleft
      have hcount : threadsIn (offlineEntry b idx (idx + n + 1)) .left + 1 = threadsIn b .left :=
        threadsIn_offlineEntry (h.listing.bound idx (by omega)) hleft
      rw [cleanupLoop_left hleft]
      obtain ⟨hdone, hrest, hsize, hleftThreads⟩ := ih hcleaning
      exact ⟨hdone, hmoved.trans hrest, by omega, hleftThreads⟩
    · have hsize : idx + 1 + n = idx + (n + 1) := by omega
      have hlooked := h.looked
      have hcleaning : Cleaning b (idx + 1) (idx + 1 + n) := by
        constructor
        · exact hsize ▸ h.listing
        · grind
        · omega
      rw [cleanupLoop_stay hleft]
      obtain ⟨hdone, hrest, hcount, hleftThreads⟩ := ih hcleaning
      exact ⟨hdone, hrest, by omega, hleftThreads⟩

theorem Inv.nobody (h : Inv b) (hrunning : b.runningThreads = 0) (t : ℕ) : b.state t ≠ .running := by
  intro ht
  have hpos := h.listing.threadsIn_pos ht (by decide)
  have hcount := h.running
  omega

/-- Between phases, a rearrangement with exact counts keeps the invariant. -/
theorem Inv.rearranged (h : Inv b) (hmoved : Rearranged b b') (hrunning : b.runningThreads = 0)
    (hcur : b.curThreadIdx = 0) (hlisting : Listing b' b'.runListSize)
    (hleft : b'.leftThreads = threadsIn b' .left)
    (hplaces : ∀ t, b'.state t = .left →
      (b'.threadList t).lastIdx < b'.runListSize ∧ b'.runList (b'.threadList t).lastIdx = t) : Inv b' := by
  have hnobody : ∀ t, b'.state t ≠ .running := fun t ht =>
    h.nobody hrunning t ((hmoved.not_running t).mp ht)
  have hcur' : b'.curThreadIdx = 0 := hmoved.cur.trans hcur
  constructor
  · exact hlisting
  · have hnone : threadsIn b' .running = 0 := by
      rw [threadsIn, Finset.card_eq_zero, Finset.filter_eq_empty_iff]
      exact fun t _ => hnobody t
    rw [hnone, hmoved.running, hrunning]
  · exact hleft
  · rw [hmoved.running, hmoved.parallel]
    exact h.parallel
  · exact hmoved.ends ▸ h.ends
  · omega
  · exact fun i _ _ => hnobody _
  · intro i hi
    omega
  · exact fun t ht => absurd ht (hnobody t)
  · intro t ht
    obtain ht | ht := ht
    · exact hplaces t ht
    · exact absurd ht (hnobody t)
  · intro t
    rw [hmoved.waiting, hmoved.futex]
    exact h.futex t

/-- The count check of the cleanup pass does not fail. -/
theorem Inv.cleanup (h : Inv b) (hrunning : b.runningThreads = 0) (hcur : b.curThreadIdx = 0)
    (hsize : 0 < b.runListSize) : ∃ b', b.cleanup = some b' ∧ Inv b' ∧ Rearranged b b' := by
  have hcleaning : Cleaning b 0 (0 + b.runListSize) := by
    rw [Nat.zero_add]
    exact ⟨h.listing, fun i hi => absurd hi (Nat.not_lt_zero i), Nat.zero_le _⟩
  obtain ⟨hdone, hmoved, hcount, hleft⟩ := hcleaning.loop
  unfold Barrier.cleanup
  rw [if_pos hsize]
  generalize Barrier.cleanupLoop b.runListSize 0 b = r at *
  obtain ⟨b', newSize⟩ := r
  dsimp only at *
  have hnone : ∀ i < newSize, b'.state (b'.runList i) ≠ .left := hdone.looked
  have hnoLeft : ∀ t, b'.state t ≠ .left := by
    intro t ht
    obtain ⟨i, hi, rfl⟩ := (hdone.listing.listed t).mp (by rw [ht]; decide)
    exact hnone i hi ht
  have hzero : threadsIn b' .left = 0 := by
    rw [threadsIn, Finset.card_eq_zero, Finset.filter_eq_empty_iff]
    exact fun t _ => hnoLeft t
  have htaken : b.runListSize - newSize = b'.leftThreads := by
    rw [hleft, h.left]
    omega
  rw [if_pos htaken]
  refine ⟨_, rfl, ?_, ?_⟩
  · apply h.rearranged _ hrunning hcur
    · exact ⟨hdone.listing.distinct, hdone.listing.listed, hdone.listing.bound⟩
    · exact hzero.symm
    · exact fun t ht => absurd ht (hnoLeft t)
    · exact ⟨hmoved.parallel, hmoved.running, hmoved.cur, hmoved.ran, hmoved.ends, hmoved.waiting,
        hmoved.not_running, hmoved.futex⟩
  · exact ⟨hmoved.parallel, hmoved.running, hmoved.cur, hmoved.ran, hmoved.ends, hmoved.waiting,
      hmoved.not_running, hmoved.futex⟩

theorem Rearranged.swapEntries (b : Barrier) (i j : ℕ) : Rearranged b (b.swapEntries i j) := by
  constructor
  · rfl
  · rfl
  · rfl
  · rfl
  · rfl
  · exact fun t => by rw [swapEntries_state]
  · exact fun t => by rw [swapEntries_state]
  · exact swapEntries_futexWord b i j

/-- The shuffle exchanges places, and the threads know them. -/
theorem Inv.shuffleLoop {i : ℕ} (h : Inv b) (hrunning : b.runningThreads = 0) (hcur : b.curThreadIdx = 0)
    (hi : i < b.runListSize) :
    Inv (Barrier.shuffleLoop rnd i b) ∧ Rearranged b (Barrier.shuffleLoop rnd i b) := by
  induction i generalizing b with
  | zero => exact ⟨h, .refl b⟩
  | succ i ih =>
    have hj : rnd (i + 1) % (i + 2) < b.runListSize :=
      (Nat.lt_succ_iff.mp (Nat.mod_lt _ (Nat.succ_pos _))).trans_lt hi
    have hmoved := Rearranged.swapEntries b (i + 1) (rnd (i + 1) % (i + 2))
    have hinv : Inv (b.swapEntries (i + 1) (rnd (i + 1) % (i + 2))) := by
      apply h.rearranged hmoved hrunning hcur
      · exact h.listing.swapEntries hi hj
      · rw [threadsIn_congr (swapEntries_state b _ _)]
        exact h.left
      · intro t ht
        rw [swapEntries_state] at ht
        exact lastIdx_swapEntries h.listing hi hj (h.lastIdx t (.inl ht))
    obtain ⟨hdone, hrest⟩ := ih hinv (hmoved.running.trans hrunning) (hmoved.cur.trans hcur)
      (Nat.lt_of_succ_lt hi)
    exact ⟨hdone, hmoved.trans hrest⟩

/-- The state in which a new phase begins. -/
def newPhase (b : Barrier) : Barrier := { b with
  phaseEnds := ⟨b.state, b.ran⟩ :: b.phaseEnds
  ran := fun _ => false
  curThreadIdx := 0
  phaseCount := b.phaseCount + 1 }

/-- A phase ends with nobody running and everyone who waits having run. -/
theorem Inv.beginPhase (h : Inv b) (hcur : b.curThreadIdx = b.runListSize) (hrunning : b.runningThreads = 0) :
    Inv (newPhase b) := by
  have hnobody := h.nobody hrunning
  have hends : ∀ v ∈ (⟨b.state, b.ran⟩ :: b.phaseEnds : List PhaseEnd), ∀ t,
      v.state t ≠ .running ∧ (v.state t = .waiting → v.ran t = true) := by
    intro v hv t
    rcases List.mem_cons.mp hv with rfl | hv
    · constructor
      · exact hnobody t
      · intro ht
        obtain ⟨i, hi, rfl⟩ := (h.listing.listed t).mp (by rw [show b.state t = .waiting from ht]; decide)
        exact h.passed i (by omega) ht
    · exact h.ends v hv t
  exact { h with
    listing := ⟨h.listing.distinct, h.listing.listed, h.listing.bound⟩
    ends := hends
    cur_le := Nat.zero_le _
    ahead := fun i _ _ => hnobody _
    passed := fun i hi => absurd hi (Nat.not_lt_zero i)
    ran := fun t ht => absurd ht (hnobody t) }

/-- The end of a phase with someone on the list who has not left. -/
theorem Inv.endPhase (h : Inv b) (hcur : b.curThreadIdx = b.runListSize) (hrunning : b.runningThreads = 0)
    (hsize : 0 < b.runListSize) :
    ∃ b', b.endPhase rnd = some b' ∧ Inv b' ∧ Rearranged (newPhase b) b' := by
  have hnew := h.beginPhase hcur hrunning
  have hcleaned : ∃ b₁,
      (if b.phaseCount % 32 = 0 then (newPhase b).cleanup else some (newPhase b)) = some b₁ ∧
        Inv b₁ ∧ Rearranged (newPhase b) b₁ := by
    split
    · exact hnew.cleanup hrunning rfl hsize
    · exact ⟨newPhase b, rfl, hnew, .refl _⟩
  obtain ⟨b₁, hb₁, hinv, hmoved⟩ := hcleaned
  have hend : b.endPhase rnd = some (if b₁.parallelThreads < b₁.runListSize then
      Barrier.shuffleLoop rnd (b₁.runListSize - 1) b₁ else b₁) := by
    unfold Barrier.endPhase
    exact (congrArg (Option.map _) hb₁).trans rfl
  rw [hend]
  by_cases hmany : b₁.parallelThreads < b₁.runListSize
  · obtain ⟨hdone, hrest⟩ := @Inv.shuffleLoop b₁ rnd (b₁.runListSize - 1) hinv
      (hmoved.running.trans hrunning) hmoved.cur (by omega)
    rw [if_pos hmany]
    exact ⟨_, rfl, hdone, hmoved.trans hrest⟩
  · rw [if_neg hmany]
    exact ⟨_, rfl, hinv, hmoved⟩

/-- Someone runs, or everyone on the list has left. -/
def Progress (b : Barrier) : Prop :=
  (∃ t, b.state t = .running) ∨ ∀ i < b.runListSize, b.state (b.runList i) = .left

theorem Inv.progress_of_pos (h : Inv b) (hpos : 0 < b.runningThreads) : Progress b := by
  have hcount := h.running
  obtain ⟨t, ht⟩ := Finset.card_pos.mp (show 0 < threadsIn b .running by omega)
  exact .inl ⟨t, (Finset.mem_filter.mp ht).2⟩

/-- When nobody runs and not all have left, someone waits. -/
theorem Inv.exists_waiting (h : Inv b) (hrunning : b.runningThreads = 0)
    (hleft : b.leftThreads ≠ b.runListSize) : ∃ t, b.state t = .waiting := by
  by_contra hnone
  apply hleft
  rw [h.left]
  apply (h.listing.threadsIn_eq_iff (by decide)).mpr
  intro i hi
  have hlisted := (h.listing.listed (b.runList i)).mpr ⟨i, hi, rfl⟩
  have hnobody := h.nobody hrunning (b.runList i)
  cases hstate : b.state (b.runList i) with
  | offline => exact absurd hstate hlisted
  | waiting => exact absurd ⟨_, hstate⟩ hnone
  | running => exact absurd hstate hnobody
  | left => rfl

/-- After waking as many as may run, the phase ends if it has to, and then the
next one wakes someone. -/
theorem Inv.tryWakeNext (h : Inv b) (hparallel : 0 < b.parallelThreads) :
    ∃ b', b.tryWakeNext rnd = some b' ∧ Inv b' ∧ Progress b' ∧ b'.parallelThreads = b.parallelThreads := by
  obtain ⟨b₁, hb₁, hinv₁, hwoken₁, hstop₁⟩ := h.checkRunList
  have hparallel₁ := hwoken₁.parallel
  unfold Barrier.tryWakeNext
  rw [hb₁, Option.bind_some]
  unfold Barrier.checkEndPhase
  by_cases hend : b₁.curThreadIdx = b₁.runListSize ∧ b₁.runningThreads = 0
  · obtain ⟨hcur, hrunning⟩ := hend
    rw [if_pos ⟨hcur, hrunning⟩]
    by_cases hleft : b₁.leftThreads = b₁.runListSize
    · rw [if_pos hleft, Option.bind_some]
      have hidle : b₁.checkRunList = some b₁ := by
        unfold Barrier.checkRunList
        rw [hcur, Nat.sub_self]
        rfl
      rw [hinv₁.left] at hleft
      have hall := (hinv₁.listing.threadsIn_eq_iff (by decide)).mp hleft
      exact ⟨b₁, hidle, hinv₁, .inr hall, hparallel₁⟩
    · rw [if_neg hleft]
      obtain ⟨t, ht⟩ := hinv₁.exists_waiting hrunning hleft
      have hsize : 0 < b₁.runListSize := by
        obtain ⟨i, hi, -⟩ := (hinv₁.listing.listed t).mp (by rw [ht]; decide)
        exact Nat.zero_lt_of_lt hi
      obtain ⟨b₂, hb₂, hinv₂, hmoved⟩ := @Inv.endPhase b₁ rnd hinv₁ hcur hrunning hsize
      have hparallel₂ : b₂.parallelThreads = b₁.parallelThreads := hmoved.parallel
      have hrunning₂ : b₂.runningThreads = 0 := hmoved.running.trans hrunning
      rw [hb₂, Option.bind_some]
      obtain ⟨b₃, hb₃, hinv₃, hwoken₃, hstop₃⟩ := hinv₂.checkRunList
      have hparallel₃ := hwoken₃.parallel
      -- were nobody woken, the waiting thread would have been passed without running
      have hpos : 0 < b₃.runningThreads := by
        by_contra hzero
        obtain ⟨hstate, hran⟩ := hwoken₃.same (by omega)
        have hwaiting : b₃.state t = .waiting := by
          rw [hstate]
          exact (hmoved.waiting t).mpr ht
        obtain ⟨i, hi, rfl⟩ := (hinv₃.listing.listed t).mp (by rw [hwaiting]; decide)
        have hpassed := hinv₃.passed i (by omega) hwaiting
        rw [hran, hmoved.ran] at hpassed
        cases hpassed
      exact ⟨b₃, hb₃, hinv₃, hinv₃.progress_of_pos hpos, by omega⟩
  · rw [if_neg hend, Option.bind_some]
    obtain ⟨b₂, hb₂, hinv₂, hwoken₂, hstop₂⟩ := hinv₁.checkRunList
    have hrunning := hwoken₂.running
    refine ⟨b₂, hb₂, hinv₂, hinv₂.progress_of_pos (by omega), hwoken₂.parallel.trans hparallel₁⟩

end PhaseEnds

section Calls

variable {b b' : Barrier} {tid : ℕ} {rnd : ℕ → ℕ} {op : BarrierOp}

theorem setWaiting_state (b : Barrier) (tid t : ℕ) :
    (b.setWaiting tid).state t = if t = tid then .waiting else b.state t := by
  unfold Barrier.setWaiting Barrier.state
  grind

/-- Threads that stay on the list or off it keep the listing. -/
theorem Listing.of_state {size : ℕ} (h : Listing b size) (hlist : b'.runList = b.runList)
    (hstate : ∀ t, b'.state t ≠ .offline ↔ b.state t ≠ .offline) : Listing b' size := by
  constructor
  · rw [hlist]
    exact h.distinct
  · intro t
    rw [hstate, hlist]
    exact h.listed t
  · rw [hlist]
    exact h.bound

/-- A runner that stops. -/
def stop (b : Barrier) (tid : ℕ) (info : ThreadSyncInfo) (leftThreads : ℕ) : Barrier := { b with
  threadList := Function.update b.threadList tid info
  runningThreads := b.runningThreads - 1
  leftThreads := leftThreads }

theorem stop_state (b : Barrier) (tid : ℕ) (info : ThreadSyncInfo) (leftThreads t : ℕ) :
    (stop b tid info leftThreads).state t = if t = tid then info.state else b.state t := by
  unfold stop Barrier.state
  grind

theorem Inv.stop {info : ThreadSyncInfo} {leftThreads : ℕ} (h : Inv b) (ht : b.state tid = .running)
    (hinfo : info.state = .waiting ∧ info.futexWord = 1 ∨ info.state = .left ∧ info.futexWord ≠ 1)
    (hlast : info.lastIdx = (b.threadList tid).lastIdx)
    (hleft : leftThreads = b.leftThreads + if info.state = .left then 1 else 0) :
    Inv (stop b tid info leftThreads) := by
  have hmove := @threadsIn_move b (PhaseBarrier.stop b tid info leftThreads) tid
    (h.listing.lt (by rw [ht]; decide)) fun t hne => by rw [stop_state, if_neg hne]
  rw [stop_state, if_pos rfl, ht] at hmove
  constructor
  · have hstate : ∀ t, (PhaseBarrier.stop b tid info leftThreads).state t ≠ .offline ↔
        b.state t ≠ .offline := by
      intro t
      rw [stop_state]
      grind
    exact h.listing.of_state rfl hstate
  · have hrunning := h.running
    have hcount := hmove .running
    show b.runningThreads - 1 = _
    grind
  · have hcount := hmove .left
    have hleft' := h.left
    show leftThreads = _
    grind
  · exact (Nat.sub_le _ _).trans h.parallel
  · exact h.ends
  · exact h.cur_le
  · intro i hi hlt
    have hahead := h.ahead i hi hlt
    rw [stop_state]
    unfold PhaseBarrier.stop
    grind
  · intro i hi
    have hpassed := h.passed i hi
    have hran := h.ran tid ht
    rw [stop_state]
    unfold PhaseBarrier.stop
    grind
  · intro t
    have hran := h.ran t
    rw [stop_state]
    unfold PhaseBarrier.stop
    grind
  · intro t
    have hplace := h.lastIdx t
    rw [stop_state]
    unfold PhaseBarrier.stop
    grind
  · intro t
    have hfutex := h.futex t
    rw [stop_state]
    unfold PhaseBarrier.stop
    grind

/-- A thread that joins has a place on the list that has not been passed. -/
structure Joining (b : Barrier) (tid : ℕ) : Prop where
  distinct : ∀ i < b.runListSize, ∀ j < b.runListSize, b.runList i = b.runList j → i = j
  listed : ∀ t, t = tid ∨ b.state t ≠ .offline ↔ ∃ i < b.runListSize, b.runList i = t
  bound : ∀ i < b.runListSize, b.runList i < MAX_THREADS
  outside : b.state tid = .offline ∨ b.state tid = .left
  running : b.runningThreads = threadsIn b .running
  left : b.leftThreads + (if b.state tid = .left then 1 else 0) = threadsIn b .left
  parallel : b.runningThreads ≤ b.parallelThreads
  ends : ∀ v ∈ b.phaseEnds, ∀ t, v.state t ≠ .running ∧ (v.state t = .waiting → v.ran t = true)
  cur_le : b.curThreadIdx ≤ b.runListSize
  ahead : ∀ i, b.curThreadIdx ≤ i → i < b.runListSize → b.state (b.runList i) ≠ .running
  passed : ∀ i < b.curThreadIdx, b.runList i ≠ tid ∧
    (b.state (b.runList i) = .waiting → b.ran (b.runList i) = true)
  ran : ∀ t, b.state t = .running → b.ran t = true
  lastIdx : ∀ t, t ≠ tid → b.state t = .left ∨ b.state t = .running →
    (b.threadList t).lastIdx < b.runListSize ∧ b.runList (b.threadList t).lastIdx = t
  futex : ∀ t, b.state t = .waiting ↔ (b.threadList t).futexWord = 1

theorem Joining.setWaiting (h : Joining b tid) : Inv (b.setWaiting tid) := by
  have houtside := h.outside
  have hbound : tid < MAX_THREADS := by
    obtain ⟨i, hi, rfl⟩ := (h.listed tid).mp (.inl rfl)
    exact h.bound i hi
  have hmove := @threadsIn_move b (b.setWaiting tid) tid hbound
    fun t hne => by rw [setWaiting_state, if_neg hne]
  rw [setWaiting_state, if_pos rfl] at hmove
  constructor
  · constructor
    · exact h.distinct
    · intro t
      have hlisted := h.listed t
      rw [setWaiting_state]
      unfold Barrier.setWaiting
      grind
    · exact h.bound
  · have hrunning := h.running
    have hcount := hmove .running
    show b.runningThreads = _
    grind
  · have hleft := h.left
    have hcount := hmove .left
    show b.leftThreads = _
    grind
  · exact h.parallel
  · exact h.ends
  · exact h.cur_le
  · intro i hi hlt
    have hahead := h.ahead i hi hlt
    rw [setWaiting_state]
    unfold Barrier.setWaiting
    grind
  · intro i hi
    have hpassed := h.passed i hi
    rw [setWaiting_state]
    unfold Barrier.setWaiting
    grind
  · intro t
    have hran := h.ran t
    rw [setWaiting_state]
    unfold Barrier.setWaiting
    grind
  · intro t
    have hplace := h.lastIdx t
    rw [setWaiting_state]
    unfold Barrier.setWaiting
    grind
  · intro t
    have hfutex := h.futex t
    rw [setWaiting_state]
    unfold Barrier.setWaiting
    grind

/-- A new thread is put at the end of the list. -/
theorem Inv.append (h : Inv b) (htid : tid < MAX_THREADS) (ht : b.state tid = .offline) :
    Joining { b with
      runList := Function.update b.runList b.runListSize tid
      runListSize := b.runListSize + 1 } tid := by
  have hdistinct := h.listing.distinct
  have hlisted := h.listing.listed
  have hnew : ∀ i < b.runListSize, b.runList i ≠ tid := fun i hi heq =>
    (hlisted tid).mpr ⟨i, hi, heq⟩ ht
  have hcur := h.cur_le
  constructor
  · intro i hi j hj heq
    dsimp only at hi hj heq
    grind
  · intro t
    have ht' := hlisted t
    show t = tid ∨ b.state t ≠ .offline ↔
      ∃ i < b.runListSize + 1, Function.update b.runList b.runListSize tid i = t
    constructor
    · intro hor
      by_cases heq : t = tid
      · exact ⟨b.runListSize, Nat.lt_succ_self _, by rw [Function.update_self, heq]⟩
      · obtain ⟨i, hi, hit⟩ := ht'.mp (hor.resolve_left heq)
        exact ⟨i, Nat.lt_succ_of_lt hi, by rw [Function.update_of_ne (Nat.ne_of_lt hi), hit]⟩
    · rintro ⟨i, hi, hit⟩
      grind
  · intro i hi
    have hbound := h.listing.bound
    dsimp only at hi ⊢
    grind
  · exact .inl ht
  · exact h.running
  · show b.leftThreads + (if b.state tid = .left then 1 else 0) = threadsIn b .left
    rw [if_neg (by rw [ht]; decide)]
    exact h.left
  · exact h.parallel
  · exact h.ends
  · exact Nat.le_succ_of_le hcur
  · intro i hi hlt
    have hahead := h.ahead i hi
    show b.state (Function.update b.runList b.runListSize tid i) ≠ .running
    grind
  · intro i hi
    have hpassed := h.passed i hi
    have hlt : i < b.runListSize := Nat.lt_of_lt_of_le hi hcur
    show Function.update b.runList b.runListSize tid i ≠ tid ∧
      (b.state (Function.update b.runList b.runListSize tid i) = .waiting →
        b.ran (Function.update b.runList b.runListSize tid i) = true)
    rw [Function.update_of_ne (Nat.ne_of_lt hlt)]
    exact ⟨hnew i hlt, hpassed⟩
  · exact h.ran
  · intro t hne hstate
    obtain ⟨hlt, hplace⟩ := h.lastIdx t hstate
    show (b.threadList t).lastIdx < b.runListSize + 1 ∧
      Function.update b.runList b.runListSize tid (b.threadList t).lastIdx = t
    rw [Function.update_of_ne (Nat.ne_of_lt hlt)]
    exact ⟨Nat.lt_succ_of_lt hlt, hplace⟩
  · exact h.futex

/-- A thread that comes back to a place that has not been passed. -/
theorem Inv.joining (h : Inv b) (ht : b.state tid = .left)
    (hcur : b.curThreadIdx ≤ (b.threadList tid).lastIdx) :
    Joining { b with leftThreads := b.leftThreads - 1 } tid := by
  obtain ⟨hlt, hplace⟩ := h.lastIdx tid (.inl ht)
  have hle := h.cur_le
  have hlisted := h.listing.listed
  constructor
  · exact h.listing.distinct
  · intro t
    show t = tid ∨ b.state t ≠ .offline ↔ ∃ i < b.runListSize, b.runList i = t
    have ht' := hlisted t
    grind
  · exact h.listing.bound
  · exact .inr ht
  · exact h.running
  · have hpos := h.listing.threadsIn_pos ht (by decide)
    have hleft := h.left
    show b.leftThreads - 1 + (if b.state tid = .left then 1 else 0) = threadsIn b .left
    rw [if_pos ht]
    omega
  · exact h.parallel
  · exact h.ends
  · exact hle
  · exact h.ahead
  · intro i hi
    constructor
    · intro heq
      have hi' : i = (b.threadList tid).lastIdx :=
        h.listing.distinct i (Nat.lt_of_lt_of_le hi hle) _ hlt (heq.trans hplace.symm)
      dsimp only at hi
      omega
    · exact h.passed i hi
  · exact h.ran
  · exact fun t _ => h.lastIdx t
  · exact h.futex

/-- Two entries that have been passed may exchange their places. -/
theorem Inv.swapEntries {i j : ℕ} (h : Inv b) (hi : i < b.curThreadIdx) (hj : j < b.curThreadIdx) :
    Inv (b.swapEntries i j) := by
  have hle := h.cur_le
  have hi' := Nat.lt_of_lt_of_le hi hle
  have hj' := Nat.lt_of_lt_of_le hj hle
  have hstate := swapEntries_state b i j
  constructor
  · exact h.listing.swapEntries hi' hj'
  · rw [threadsIn_congr hstate]
    exact h.running
  · rw [threadsIn_congr hstate]
    exact h.left
  · exact h.parallel
  · exact h.ends
  · exact hle
  · intro k hk hlt
    have hahead := h.ahead k hk hlt
    have hk' : b.curThreadIdx ≤ k := hk
    rw [hstate, swapEntries_runList, if_neg (by omega), if_neg (by omega)]
    exact hahead
  · intro k hk
    have hpassed := h.passed
    rw [hstate, swapEntries_runList]
    show _ → b.ran _ = true
    split
    · exact hpassed i hi
    · split
      · exact hpassed j hj
      · exact hpassed k hk
  · rw [hstate]
    exact h.ran
  · intro t ht
    rw [hstate] at ht
    exact lastIdx_swapEntries h.listing hi' hj' (h.lastIdx t ht)
  · intro t
    rw [hstate, swapEntries_futexWord]
    exact h.futex t

/-- An entry that does not run may be looked at again. -/
theorem Inv.back (h : Inv b) (hentry : b.state (b.runList (b.curThreadIdx - 1)) ≠ .running) :
    Inv { b with curThreadIdx := b.curThreadIdx - 1 } := by
  have hahead := h.ahead
  have hpassed := h.passed
  exact { h with
    listing := ⟨h.listing.distinct, h.listing.listed, h.listing.bound⟩
    cur_le := (Nat.sub_le _ _).trans h.cur_le
    ahead := by
      intro i hi hlt
      by_cases heq : i = b.curThreadIdx - 1
      · exact heq ▸ hentry
      · exact hahead i (by dsimp only at hi; omega) hlt
    passed := fun i hi => hpassed i (Nat.lt_of_lt_of_le hi (Nat.sub_le _ _)) }

/-- A thread that comes back finds its place on the list, and waits to be woken
in this phase. -/
theorem Inv.rejoin (h : Inv b) (ht : b.state tid = .left) :
    ∃ b', { b with leftThreads := b.leftThreads - 1 }.reschedule tid = some b' ∧
      Joining b' tid ∧ b'.parallelThreads = b.parallelThreads := by
  obtain ⟨hlt, hplace⟩ := h.lastIdx tid (.inl ht)
  unfold Barrier.reschedule
  dsimp only
  by_cases hpassed : (b.threadList tid).lastIdx < b.curThreadIdx
  · rw [if_pos hpassed, if_pos hplace]
    refine ⟨_, rfl, ?_, rfl⟩
    have hswapped : Inv (b.swapEntries (b.threadList tid).lastIdx (b.curThreadIdx - 1)) :=
      h.swapEntries hpassed (by omega)
    have hentry : (b.swapEntries (b.threadList tid).lastIdx (b.curThreadIdx - 1)).runList
        (b.curThreadIdx - 1) = tid := by
      rw [swapEntries_runList, if_pos rfl, hplace]
    have hback := hswapped.back (by
      show (b.swapEntries _ _).state ((b.swapEntries _ _).runList (b.curThreadIdx - 1)) ≠ .running
      rw [hentry, swapEntries_state, ht]
      decide)
    have hplace' : ((b.swapEntries (b.threadList tid).lastIdx (b.curThreadIdx - 1)).threadList
        tid).lastIdx = b.curThreadIdx - 1 := by
      rw [swapEntries_lastIdx, hplace, if_pos rfl]
      split
      · rename_i heq
        exact h.listing.distinct _ hlt _ (by have hle := h.cur_le; omega) (hplace.trans heq)
      · rfl
    exact hback.joining (by
      show (b.swapEntries _ _).state tid = .left
      rw [swapEntries_state]
      exact ht) hplace'.ge
  · rw [if_neg hpassed]
    exact ⟨_, rfl, h.joining ht (Nat.le_of_not_lt hpassed), rfl⟩

theorem Inv.join (h : Inv b) (hparallel : 0 < b.parallelThreads) (hcall : Callable b (.join tid rnd)) :
    ∃ b', b.join tid rnd = some b' ∧ Inv b' ∧ Progress b' ∧ b'.parallelThreads = b.parallelThreads := by
  obtain ⟨htid, hstate⟩ := hcall
  unfold Barrier.join
  obtain hstate | hstate := hstate
  · rw [hstate]
    exact (h.append htid hstate).setWaiting.tryWakeNext hparallel
  · rw [hstate]
    obtain ⟨b₁, hb₁, hjoining, hsame⟩ := h.rejoin hstate
    dsimp only
    rw [hb₁, Option.bind_some]
    obtain ⟨b', hb', hinv, hprogress, hsame'⟩ :=
      @Inv.tryWakeNext _ rnd hjoining.setWaiting (hsame.symm ▸ hparallel)
    exact ⟨b', hb', hinv, hprogress, hsame'.trans hsame⟩

/-- Every call that threads make succeeds, and keeps the barrier correct. -/
theorem Inv.perform (h : Inv b) (hparallel : 0 < b.parallelThreads) (hcall : Callable b op) :
    ∃ b', perform b op = some b' ∧ Inv b' ∧ Progress b' ∧ b'.parallelThreads = b.parallelThreads := by
  cases op with
  | join tid rnd => exact h.join hparallel hcall
  | leave tid rnd =>
    have hstate : b.state tid = .running := hcall
    have hword : (b.threadList tid).futexWord ≠ 1 := fun hone => by
      have hwaiting := (h.futex tid).mpr hone
      rw [hstate] at hwaiting
      cases hwaiting
    have hstopped := @Inv.stop b tid { b.threadList tid with state := .left } _ h hstate
      (.inr ⟨rfl, hword⟩) rfl rfl
    show ∃ b', b.leave tid rnd = some b' ∧ _
    unfold Barrier.leave
    rw [hstate]
    exact hstopped.tryWakeNext hparallel
  | sync tid rnd =>
    have hstate : b.state tid = .running := hcall
    have hstopped := @Inv.stop b tid ⟨.waiting, 1, (b.threadList tid).lastIdx⟩ _ h hstate
      (.inl ⟨rfl, rfl⟩) rfl rfl
    show ∃ b', b.sync tid rnd = some b' ∧ _
    unfold Barrier.sync
    rw [if_pos hstate]
    exact hstopped.tryWakeNext hparallel

end Calls

section Runs

variable {b : Barrier} {parallelThreads : ℕ} {lastIdx : ℕ → ℕ} {ops : List BarrierOp}

theorem inv_init (parallelThreads : ℕ) (lastIdx : ℕ → ℕ) : Inv (.init parallelThreads lastIdx) := by
  have hnone : ∀ q, q ≠ .offline → threadsIn (.init parallelThreads lastIdx) q = 0 := by
    intro q hq
    rw [threadsIn, Finset.card_eq_zero, Finset.filter_eq_empty_iff]
    exact fun t _ ht => hq ht.symm
  constructor
  · constructor
    · exact fun i hi => absurd hi (Nat.not_lt_zero i)
    · intro t
      constructor
      · exact fun h => absurd rfl h
      · rintro ⟨i, hi, -⟩
        exact absurd hi (Nat.not_lt_zero i)
    · exact fun i hi => absurd hi (Nat.not_lt_zero i)
  · exact (hnone _ (by decide)).symm
  · exact (hnone _ (by decide)).symm
  · exact Nat.zero_le _
  · exact nofun
  · exact Nat.zero_le _
  · exact fun i _ hi => absurd hi (Nat.not_lt_zero i)
  · exact fun i hi => absurd hi (Nat.not_lt_zero i)
  · exact nofun
  · exact fun t ht => ht.elim nofun nofun
  · exact fun t => ⟨nofun, nofun⟩

theorem Inv.correct (h : Inv b) (hprogress : Progress b) : Correct b :=
  ⟨h.listing, h.running, h.left, h.parallel, h.listing.size_le, h.ends, h.futex, hprogress⟩

/-- From the start, after any calls that threads make and with any shuffles, the
barrier is correct, and every further call succeeds. -/
theorem barrier_correct (hparallel : 0 < parallelThreads)
    (hrun : run step (.init parallelThreads lastIdx) ops = some b) :
    Correct b ∧ ∀ op, Callable b op → (perform b op).isSome := by
  have hgood : Inv b ∧ Progress b ∧ 0 < b.parallelThreads := by
    apply @run_invariant _ _ _ (fun b => Inv b ∧ Progress b ∧ 0 < b.parallelThreads) _ _ _ _ _ hrun
    · rintro b op b' ⟨hinv, -, hpos⟩ hstep
      unfold step at hstep
      split at hstep
      · rename_i hcall
        obtain ⟨b₁, hb₁, hinv', hprogress, hsame⟩ := hinv.perform hpos hcall
        obtain rfl : b₁ = b' := Option.some.inj (hb₁.symm.trans hstep)
        exact ⟨hinv', hprogress, hsame.symm ▸ hpos⟩
      · cases hstep
    · exact ⟨inv_init parallelThreads lastIdx, .inr fun i hi => absurd hi (Nat.not_lt_zero i), hparallel⟩
  obtain ⟨hinv, hprogress, hpos⟩ := hgood
  constructor
  · exact hinv.correct hprogress
  · intro op hcall
    obtain ⟨b', hb', -⟩ := hinv.perform hpos hcall
    rw [hb']
    rfl

/-- Three threads on a barrier for one. The second leaves, the phase ends
without it, and it comes back. -/
def threeThreads : List BarrierOp :=
  [.join 0 id, .join 1 id, .join 2 id, .sync 0 id, .leave 1 id, .sync 2 id, .join 1 id, .sync 0 id]

theorem three_threads_correct : ∃ b, run step (.init 1 fun _ => 0) threeThreads = some b ∧ Correct b := by
  have hsome : (run step (.init 1 fun _ => 0) threeThreads).isSome = true := by decide
  obtain ⟨b, hb⟩ := Option.isSome_iff_exists.mp hsome
  exact ⟨b, hb, (barrier_correct (by decide) hb).1⟩

end Runs

end Zsim.PhaseBarrier
