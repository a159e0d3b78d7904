import Mathlib.Data.Set.Card
import Zsim.Outcomes
import Zsim.TagSlots
import Zsim.WeaveLoops

/-!
# The MSHRs of a timing cache

An event of the cache that finds all MSHRs busy is held outside the event queue, and all held events are put
back into the queue when a miss is written back. What each event is, and to which miss a response or a
writeback belongs, is a parameter of the model; events are numbers.
-/

namespace Zsim.CacheMSHRs

open WeakestPre Outcomes WeaveLoops GuardedRuns
open TagSlots (TagPort)

/-- The events of the cache. A response and a writeback keep the start of their miss. -/
inductive CacheEvent where
  | hit
  | missStart
  | missResponse (mse : ℕ)
  | missWriteback (mse : ℕ)
  deriving DecidableEq

/-- The assertions. -/
inductive CacheFailure where
  /-- An assertion on the state of an event. -/
  | state
  /-- The assertion of `highPrioAccess`. -/
  | port
  /-- `assert(activeMisses)`. -/
  | noMiss
  /-- The assertions of `transition` on the states. -/
  | occupancy
  /-- `assert(lastCycle <= cycle)`, in `transition`. -/
  | backInTime
  deriving DecidableEq

/-- `TimingCache`: the port, the MSHRs, the last transition of `profOccHist`, and the states of the events. How
often `requeue` and `done` have been called for each event is history that no function reads. -/
structure TimingCache where
  port : TagPort
  activeMisses : ℕ
  pendingQueue : List ℕ
  curState : ℕ
  lastCycle : ℕ
  state : ℕ → EventState
  requeues : ℕ → ℕ
  completions : ℕ → ℕ

def TimingCache.new : TimingCache :=
  ⟨.new, 0, [], 0, 0, fun _ => .none, fun _ => 0, fun _ => 0⟩

abbrev CacheAct (α : Type) := Prog TimingCache CacheFailure α

section Model

/-- The event goes to the state `target` from one of the states `sources`. -/
def moveTo (ev : ℕ) (sources : List EventState) (target : EventState) : CacheAct Unit := do
  let st ← observe fun s => s.state ev
  ensure (st ∈ sources) .state
  change fun s => { s with state := Function.update s.state ev target }

def hold (ev : ℕ) : CacheAct Unit := moveTo ev [.running] .held

def requeue (ev : ℕ) : CacheAct Unit := do
  moveTo ev [.running, .held] .queued
  change fun s => { s with requeues := Function.update s.requeues ev (s.requeues ev + 1) }

def done (ev : ℕ) : CacheAct Unit := do
  moveTo ev [.running] .done
  change fun s => { s with completions := Function.update s.completions ev (s.completions ev + 1) }

def highPrioAccess (cycle : ℕ) : CacheAct ℕ := fun s =>
  match s.port.highPrioAccess cycle with
  | some (lookupCycle, port) => .ok (lookupCycle, { s with port := port })
  | none => .error .port

def tryLowPrioAccess (cycle : ℕ) : CacheAct ℕ := fun s =>
  .ok ((s.port.tryLowPrioAccess cycle).1, { s with port := (s.port.tryLowPrioAccess cycle).2 })

variable (kind : ℕ → CacheEvent) (numMSHRs : ℕ)

/-- `profOccHist.transition`. -/
def transition (newState cycle : ℕ) : CacheAct Unit := do
  let s ← observe fun s => s
  ensure (s.curState < numMSHRs + 1 ∧ newState < numMSHRs + 1) .occupancy
  ensure (s.lastCycle ≤ cycle) .backInTime
  change fun s => { s with curState := newState, lastCycle := cycle }

/-- The event waits for an MSHR. -/
def wait (ev : ℕ) : CacheAct Unit := do
  hold ev
  change fun s => { s with pendingQueue := s.pendingQueue ++ [ev] }

def simulateHit (ev cycle : ℕ) : CacheAct Unit := do
  let activeMisses ← observe fun s => s.activeMisses
  if activeMisses < numMSHRs then do
    let _ ← highPrioAccess cycle
    done ev
  else wait ev

def simulateMissStart (ev cycle : ℕ) : CacheAct Unit := do
  let activeMisses ← observe fun s => s.activeMisses
  if activeMisses < numMSHRs then do
    change fun s => { s with activeMisses := s.activeMisses + 1 }
    transition numMSHRs (activeMisses + 1) cycle
    let _ ← highPrioAccess cycle
    done ev
  else wait ev

def simulateMissResponse (ev : ℕ) : CacheAct Unit := done ev

def simulateMissWriteback (ev cycle : ℕ) : CacheAct Unit := do
  let lookupCycle ← tryLowPrioAccess cycle
  if lookupCycle ≠ 0 then do
    let s ← observe fun s => s
    ensure (s.activeMisses ≠ 0) .noMiss
    change fun s => { s with activeMisses := s.activeMisses - 1 }
    transition numMSHRs (s.activeMisses - 1) lookupCycle
    s.pendingQueue.forM requeue
    change fun s => { s with pendingQueue := [] }
    done ev
  else requeue ev

/-- `simulate`. -/
def simulate (ev cycle : ℕ) : CacheAct Unit :=
  match kind ev with
  | .hit => simulateHit numMSHRs ev cycle
  | .missStart => simulateMissStart numMSHRs ev cycle
  | .missResponse _ => simulateMissResponse ev
  | .missWriteback _ => simulateMissWriteback numMSHRs ev cycle

/-- `run`. -/
def deliver (ev cycle : ℕ) : CacheAct Unit := do
  moveTo ev [.none, .queued] .running
  simulate kind numMSHRs ev cycle

/-- An event is delivered that is in the queue, or that comes into it after the start of its miss. -/
def Deliverable (s : TimingCache) (ev : ℕ) : Prop :=
  (s.state ev = .none ∨ s.state ev = .queued) ∧
    match kind ev with
    | .hit => True
    | .missStart => True
    | .missResponse mse => s.state mse = .done
    | .missWriteback mse => s.state mse = .done

instance (s : TimingCache) (ev : ℕ) : Decidable (Deliverable kind s ev) := by
  unfold Deliverable
  cases kind ev <;> infer_instance

/-- An event is delivered in some cycle; none where it is not to be, or where an assertion fails. -/
def step (s : TimingCache) (a : ℕ × ℕ) : Option TimingCache :=
  if Deliverable kind s a.1 then ((deliver kind numMSHRs a.1 a.2 s).map fun r => r.2).toOption else none

end Model

section Accounting

variable {kind : ℕ → CacheEvent} {numMSHRs ev cycle : ℕ} {s s' : TimingCache}

/-- A response and a writeback belong to a miss, and each miss has one writeback. -/
structure Misses (kind : ℕ → CacheEvent) : Prop where
  response : ∀ e mse, kind e = .missResponse mse → kind mse = .missStart
  writeback : ∀ e mse, kind e = .missWriteback mse → kind mse = .missStart
  one : ∀ e e' mse, kind e = .missWriteback mse → kind e' = .missWriteback mse → e = e'
  exists_writeback : ∀ mse, kind mse = .missStart → ∃ e, kind e = .missWriteback mse

/-- The misses that have started and are not written back. -/
def outstanding (kind : ℕ → CacheEvent) (s : TimingCache) : Set ℕ :=
  {mse | kind mse = .missStart ∧ s.state mse = .done ∧ ∀ e, kind e = .missWriteback mse → s.state e ≠ .done}

/-- The accounts of the MSHRs and the states of the events, between deliveries. -/
structure Accounted (kind : ℕ → CacheEvent) (numMSHRs : ℕ) (s : TimingCache) : Prop where
  between : ∀ e, s.state e = .none ∨ s.state e = .queued ∨ s.state e = .held ∨ s.state e = .done
  held : ∀ e, s.state e = .held ↔ e ∈ s.pendingQueue
  nodup : s.pendingQueue.Nodup
  completions : ∀ e, s.completions e = if s.state e = .done then 1 else 0
  active : (outstanding kind s).encard = s.activeMisses
  active_le : s.activeMisses ≤ numMSHRs
  /-- Events wait only while all MSHRs are busy. -/
  full : s.pendingQueue ≠ [] → s.activeMisses = numMSHRs
  holds : ∀ e, s.state e = .held → kind e = .hit ∨ kind e = .missStart
  started : ∀ e mse, kind e = .missWriteback mse → s.state e ≠ .none → s.state mse = .done
  curState : s.curState ≤ numMSHRs

/-- A delivery that frees an MSHR requeues the held events, once each, and all others leave them alone. -/
def Released (s s' : TimingCache) : Prop :=
  ∀ e, s.state e = .held →
    (s'.activeMisses < s.activeMisses → s'.state e = .queued ∧ s'.requeues e = s.requeues e + 1) ∧
      (s.activeMisses ≤ s'.activeMisses → s'.state e = .held ∧ s'.requeues e = s.requeues e)

theorem accounted_new (kind : ℕ → CacheEvent) (numMSHRs : ℕ) : Accounted kind numMSHRs .new where
  between _ := .inl rfl
  held _ := ⟨(fun h => by cases h), fun h => absurd h List.not_mem_nil⟩
  nodup := List.nodup_nil
  completions _ := rfl
  active := by
    have hnone : outstanding kind .new = ∅ := Set.eq_empty_of_forall_notMem fun _ h => by cases h.2.1
    rw [hnone, Set.encard_empty]
    rfl
  active_le := Nat.zero_le numMSHRs
  full h := absurd rfl h
  holds _ h := by cases h
  started _ _ _ h := absurd rfl h
  curState := Nat.zero_le numMSHRs

@[simp] theorem ends_moveTo {E : CacheFailure → Prop} (sources : List EventState) (target : EventState)
    (Q : Unit → TimingCache → Prop) : ends E (moveTo ev sources target) Q s ↔
      (s.state ev ∈ sources → Q () { s with state := Function.update s.state ev target }) ∧
        (s.state ev ∉ sources → E .state) := by
  simp only [moveTo, ends_bind, ends_observe, ends_ensure, ends_change]

@[simp] theorem ends_tryLowPrioAccess {E : CacheFailure → Prop} (Q : ℕ → TimingCache → Prop) :
    ends E (tryLowPrioAccess cycle) Q s ↔
      Q (s.port.tryLowPrioAccess cycle).1 { s with port := (s.port.tryLowPrioAccess cycle).2 } := Iff.rfl

/-- The port fails an access only where its own assertion does. -/
theorem ends_highPrioAccess {E : CacheFailure → Prop} {Q : ℕ → TimingCache → Prop}
    (hfail : cycle < s.port.lastFreeCycle → E .port)
    (h : ∀ slot port, s.port.highPrioAccess cycle = some (slot, port) → Q slot { s with port := port }) :
    ends E (highPrioAccess cycle) Q s := by
  unfold ends highPrioAccess
  cases haccess : s.port.highPrioAccess cycle with
  | none =>
    refine hfail (Nat.lt_of_not_le fun hle => ?_)
    rw [TagPort.highPrioAccess, if_pos hle] at haccess
    cases haccess
  | some r => exact h r.1 r.2 haccess

/-- The events of a list are requeued, once each. -/
theorem requeue_all {E : CacheFailure → Prop} {evs : List ℕ} (hheld : ∀ e ∈ evs, s.state e = .held)
    (hnodup : evs.Nodup) : ends E (evs.forM requeue) (fun _ s' => s' = { s with
      state := fun e => if e ∈ evs then .queued else s.state e
      requeues := fun e => if e ∈ evs then s.requeues e + 1 else s.requeues e }) s := by
  induction evs generalizing s with
  | nil => rfl
  | cons ev evs ih =>
    obtain ⟨hev, hevs⟩ := List.forall_mem_cons.mp hheld
    obtain ⟨hnot, hnodup⟩ := List.nodup_cons.mp hnodup
    change ends E (requeue ev >>= fun _ => evs.forM requeue) _ s
    simp only [requeue, ends_bind, ends_moveTo, ends_change]
    refine ⟨fun _ => ?_, fun hne => absurd (by rw [hev]; simp) hne⟩
    refine ends_mono (ih (fun e he => ?_) hnodup) ?_
    · dsimp only
      have hne : e ≠ ev := fun heq => hnot (heq ▸ he)
      rw [Function.update_of_ne hne]
      exact hevs e he
    · rintro _ s' rfl
      congr 1 <;> funext e <;> by_cases heq : e = ev <;> simp [heq, hnot]

/-- An event in the queue is parked while all MSHRs are busy. -/
theorem Accounted.park (h : Accounted kind numMSHRs s) (hev : s.state ev = .none ∨ s.state ev = .queued)
    (hkind : kind ev = .hit ∨ kind ev = .missStart) (hbusy : s.activeMisses = numMSHRs)
    (hstate : s'.state = Function.update s.state ev .held) (hpending : s'.pendingQueue = s.pendingQueue ++ [ev])
    (hsame : s'.completions = s.completions ∧ s'.activeMisses = s.activeMisses ∧ s'.curState = s.curState) :
    Accounted kind numMSHRs s' := by
  obtain ⟨hcompletions, hactive, hcur⟩ := hsame
  have hother : ∀ e ≠ ev, s'.state e = s.state e := fun e he => by rw [hstate, Function.update_of_ne he]
  have hself : s'.state ev = .held := by rw [hstate, Function.update_self]
  have hdone : ∀ e, s'.state e = .done ↔ s.state e = .done := by
    intro e
    by_cases he : e = ev
    · rw [he, hself]
      rcases hev with heq | heq <;> rw [heq] <;> exact ⟨by simp, by simp⟩
    · rw [hother e he]
  have hnew : ev ∉ s.pendingQueue := by
    rw [← h.held]
    rcases hev with heq | heq <;> rw [heq] <;> simp
  constructor
  · intro e
    by_cases he : e = ev
    · exact .inr (.inr (.inl (he ▸ hself)))
    · rw [hother e he]
      exact h.between e
  · intro e
    rw [hpending, List.mem_append, List.mem_singleton]
    by_cases he : e = ev
    · exact ⟨fun _ => .inr he, fun _ => he ▸ hself⟩
    · rw [hother e he, h.held]
      exact ⟨.inl, fun hor => hor.resolve_right he⟩
  · rw [hpending]
    exact List.nodup_append.mpr ⟨h.nodup, List.nodup_singleton ev, fun a ha b hb heq =>
      hnew (List.mem_singleton.mp hb ▸ heq ▸ ha)⟩
  · intro e
    rw [hcompletions, h.completions]
    exact if_congr (hdone e).symm rfl rfl
  · have hsets : outstanding kind s' = outstanding kind s := by
      unfold outstanding
      simp only [hdone, ne_eq]
    rw [hsets, hactive]
    exact h.active
  · rw [hactive]
    exact h.active_le
  · intro _
    rw [hactive, hbusy]
  · intro e he
    by_cases heq : e = ev
    · rwa [heq]
    · rw [hother e heq] at he
      exact h.holds e he
  · intro e mse hwb hne
    rw [hdone]
    by_cases heq : e = ev
    · rw [heq] at hwb
      rcases hkind with hk | hk <;> rw [hk] at hwb <;> cases hwb
    · rw [hother e heq] at hne
      exact h.started e mse hwb hne
  · rw [hcur]
    exact h.curState

/-- An event in the queue is done, and the number of misses is made to fit. -/
theorem Accounted.finish (h : Accounted kind numMSHRs s) (hev : s.state ev = .none ∨ s.state ev = .queued)
    (hmiss : ∀ mse, kind ev = .missWriteback mse → s.state mse = .done)
    (hstate : s'.state = Function.update s.state ev .done) (hpending : s'.pendingQueue = s.pendingQueue)
    (hcompletions : s'.completions = Function.update s.completions ev (s.completions ev + 1))
    (hactive : (outstanding kind s').encard = s'.activeMisses)
    (hle : s'.activeMisses ≤ numMSHRs) (hfull : s.pendingQueue ≠ [] → s'.activeMisses = numMSHRs)
    (hcur : s'.curState ≤ numMSHRs) : Accounted kind numMSHRs s' := by
  have hother : ∀ e ≠ ev, s'.state e = s.state e := fun e he => by rw [hstate, Function.update_of_ne he]
  have hself : s'.state ev = .done := by rw [hstate, Function.update_self]
  have hheld : ∀ e, s'.state e = .held ↔ s.state e = .held := by
    intro e
    by_cases he : e = ev
    · rw [he, hself]
      rcases hev with heq | heq <;> rw [heq] <;> exact ⟨by simp, by simp⟩
    · rw [hother e he]
  constructor
  · intro e
    by_cases he : e = ev
    · exact .inr (.inr (.inr (he ▸ hself)))
    · rw [hother e he]
      exact h.between e
  · intro e
    rw [hheld, hpending]
    exact h.held e
  · rw [hpending]
    exact h.nodup
  · intro e
    by_cases he : e = ev
    · have hzero := h.completions ev
      rw [if_neg (by rcases hev with heq | heq <;> rw [heq] <;> simp)] at hzero
      rw [hcompletions, he, Function.update_self, hself, hzero, if_pos rfl]
    · rw [hcompletions, Function.update_of_ne he, hother e he]
      exact h.completions e
  · exact hactive
  · exact hle
  · rw [hpending]
    exact hfull
  · intro e he
    exact h.holds e ((hheld e).mp he)
  · intro e mse hwb hne
    have hmse : s.state mse = .done := by
      by_cases he : e = ev
      · exact hmiss mse (he ▸ hwb)
      · rw [hother e he] at hne
        exact h.started e mse hwb hne
    by_cases heq : mse = ev
    · exact heq ▸ hself
    · rw [hother mse heq]
      exact hmse
  · exact hcur

/-- All held events are put back into the queue. -/
theorem Accounted.release (h : Accounted kind numMSHRs s)
    (hstate : s'.state = fun e => if e ∈ s.pendingQueue then .queued else s.state e) (hpending : s'.pendingQueue = [])
    (hsame : s'.completions = s.completions ∧ s'.activeMisses = s.activeMisses ∧ s'.curState = s.curState) :
    Accounted kind numMSHRs s' := by
  obtain ⟨hcompletions, hactive, hcur⟩ := hsame
  have hdone : ∀ e, s'.state e = .done ↔ s.state e = .done := by
    intro e
    rw [hstate]
    dsimp only
    split
    · next hmem =>
      rw [(h.held e).mpr hmem]
      exact ⟨by simp, by simp⟩
    · rfl
  have hnone : ∀ e, s'.state e ≠ .held := by
    intro e
    rw [hstate]
    dsimp only
    split
    · simp
    · next hmem => rwa [ne_eq, h.held]
  constructor
  · intro e
    rw [hstate]
    dsimp only
    split
    · exact .inr (.inl rfl)
    · exact h.between e
  · intro e
    rw [hpending]
    exact ⟨fun he => absurd he (hnone e), fun he => absurd he List.not_mem_nil⟩
  · rw [hpending]
    exact List.nodup_nil
  · intro e
    rw [hcompletions, h.completions]
    exact if_congr (hdone e).symm rfl rfl
  · have hsets : outstanding kind s' = outstanding kind s := by
      unfold outstanding
      simp only [hdone, ne_eq]
    rw [hsets, hactive]
    exact h.active
  · rw [hactive]
    exact h.active_le
  · exact fun hne => absurd hpending hne
  · exact fun e he => absurd he (hnone e)
  · intro e mse hwb hne
    rw [hdone]
    refine h.started e mse hwb fun heq => hne ?_
    have hmem : e ∉ s.pendingQueue := by
      rw [← h.held, heq]
      simp
    rw [hstate]
    dsimp only
    rw [if_neg hmem, heq]
  · rw [hcur]
    exact h.curState

/-- An event is put into the queue. -/
theorem Accounted.enqueue (h : Accounted kind numMSHRs s) (hev : s.state ev = .none ∨ s.state ev = .queued)
    (hmiss : ∀ mse, kind ev = .missWriteback mse → s.state mse = .done)
    (hstate : s'.state = Function.update s.state ev .queued) (hsame : s'.pendingQueue = s.pendingQueue ∧
      s'.completions = s.completions ∧ s'.activeMisses = s.activeMisses ∧ s'.curState = s.curState) :
    Accounted kind numMSHRs s' := by
  obtain ⟨hpending, hcompletions, hactive, hcur⟩ := hsame
  have hother : ∀ e ≠ ev, s'.state e = s.state e := fun e he => by rw [hstate, Function.update_of_ne he]
  have hself : s'.state ev = .queued := by rw [hstate, Function.update_self]
  have hkeeps : ∀ q, q = .done ∨ q = .held → ∀ e, s'.state e = q ↔ s.state e = q := by
    intro q hq e
    by_cases he : e = ev
    · rw [he, hself]
      have hold : s.state ev ≠ q := by
        rcases hq with rfl | rfl
        · rcases hev with heq | heq <;> rw [heq] <;> simp
        · rcases hev with heq | heq <;> rw [heq] <;> simp
      have hnew : EventState.queued ≠ q := by rcases hq with rfl | rfl <;> simp
      exact ⟨fun heq => absurd heq hnew, fun heq => absurd heq hold⟩
    · rw [hother e he]
  have hdone := hkeeps .done (.inl rfl)
  have hheld := hkeeps .held (.inr rfl)
  constructor
  · intro e
    by_cases he : e = ev
    · exact .inr (.inl (he ▸ hself))
    · rw [hother e he]
      exact h.between e
  · intro e
    rw [hheld, hpending]
    exact h.held e
  · rw [hpending]
    exact h.nodup
  · intro e
    rw [hcompletions, h.completions]
    exact if_congr (hdone e).symm rfl rfl
  · have hsets : outstanding kind s' = outstanding kind s := by
      unfold outstanding
      simp only [hdone, ne_eq]
    rw [hsets, hactive]
    exact h.active
  · rw [hactive]
    exact h.active_le
  · rw [hpending, hactive]
    exact h.full
  · exact fun e he => h.holds e ((hheld e).mp he)
  · intro e mse hwb hne
    rw [hdone]
    by_cases he : e = ev
    · exact hmiss mse (he ▸ hwb)
    · rw [hother e he] at hne
      exact h.started e mse hwb hne
  · rw [hcur]
    exact h.curState

end Accounting

section Outstanding

variable {kind : ℕ → CacheEvent} {numMSHRs ev mse cycle : ℕ} {s s' : TimingCache}

/-- Hits and responses leave the misses alone. -/
theorem outstanding_same (hstate : s'.state = Function.update s.state ev .done) (hstart : kind ev ≠ .missStart)
    (hwb : ∀ mse, kind ev ≠ .missWriteback mse) : outstanding kind s' = outstanding kind s := by
  ext mse
  unfold outstanding
  simp only [Set.mem_ofPred_eq, hstate]
  refine and_congr_right fun hk => ?_
  have hne : mse ≠ ev := fun heq => hstart (heq ▸ hk)
  rw [Function.update_of_ne hne]
  refine and_congr_right fun _ => forall_congr' fun e => imp_congr_right fun he => ?_
  have hne : e ≠ ev := fun heq => hwb mse (heq ▸ he)
  rw [Function.update_of_ne hne]

/-- A start adds its miss. -/
theorem Accounted.outstanding_start (h : Accounted kind numMSHRs s) (hev : s.state ev ≠ .done)
    (hstate : s'.state = Function.update s.state ev .done) (hstart : kind ev = .missStart) :
    ev ∉ outstanding kind s ∧ outstanding kind s' = insert ev (outstanding kind s) := by
  refine ⟨fun hmem => hev hmem.2.1, ?_⟩
  have hwb : ∀ e mse, kind e = .missWriteback mse → e ≠ ev := by
    intro e mse he heq
    rw [heq, hstart] at he
    cases he
  ext mse
  unfold outstanding
  simp only [Set.mem_insert_iff, Set.mem_ofPred_eq, hstate]
  by_cases hmse : mse = ev
  · refine iff_of_true ⟨hmse ▸ hstart, by rw [hmse, Function.update_self], fun e he hdone => hev ?_⟩ (.inl hmse)
    rw [Function.update_of_ne (hwb e mse he)] at hdone
    rw [← hmse]
    exact h.started e mse he (by rw [hdone]; simp)
  · rw [Function.update_of_ne hmse]
    constructor
    · rintro ⟨hk, hdone, hopen⟩
      refine .inr ⟨hk, hdone, fun e he => ?_⟩
      have hne := hopen e he
      rwa [Function.update_of_ne (hwb e mse he)] at hne
    · intro hor
      obtain ⟨hk, hdone, hopen⟩ := hor.resolve_left hmse
      refine ⟨hk, hdone, fun e he => ?_⟩
      rw [Function.update_of_ne (hwb e mse he)]
      exact hopen e he

/-- A writeback takes its miss away. -/
theorem outstanding_writeback (hkinds : Misses kind) (hev : s.state ev ≠ .done)
    (hstate : s'.state = Function.update s.state ev .done) (hwb : kind ev = .missWriteback mse)
    (hmse : s.state mse = .done) :
    mse ∈ outstanding kind s ∧ outstanding kind s' = outstanding kind s \ {mse} := by
  have hstart := hkinds.writeback ev mse hwb
  refine ⟨⟨hstart, hmse, fun e he => ?_⟩, ?_⟩
  · rwa [hkinds.one e ev mse he hwb]
  · ext m
    unfold outstanding
    simp only [Set.mem_sdiff, Set.mem_singleton_iff, Set.mem_ofPred_eq, hstate]
    by_cases hm : m = mse
    · refine iff_of_false (fun hmem => ?_) fun hmem => hmem.2 hm
      have hopen := hmem.2.2 ev (hm ▸ hwb)
      rw [Function.update_self] at hopen
      exact hopen rfl
    · have hother : ∀ e, kind e = .missWriteback m → e ≠ ev := by
        intro e he heq
        rw [heq, hwb] at he
        exact hm (CacheEvent.missWriteback.inj he).symm
      constructor
      · rintro ⟨hk, hdone, hopen⟩
        have hne : m ≠ ev := fun heq => by
          rw [heq, hwb] at hk
          cases hk
        rw [Function.update_of_ne hne] at hdone
        refine ⟨⟨hk, hdone, fun e he => ?_⟩, hm⟩
        have hnot := hopen e he
        rwa [Function.update_of_ne (hother e he)] at hnot
      · rintro ⟨⟨hk, hdone, hopen⟩, -⟩
        have hne : m ≠ ev := fun heq => by
          rw [heq, hwb] at hk
          cases hk
        rw [Function.update_of_ne hne]
        refine ⟨hk, hdone, fun e he => ?_⟩
        rw [Function.update_of_ne (hother e he)]
        exact hopen e he

end Outstanding

section Deliveries

variable {kind : ℕ → CacheEvent} {numMSHRs ev mse cycle : ℕ} {s s' : TimingCache}

/-- Assertions that fail only when a delivery is too early for what was delivered before. -/
def Late (s : TimingCache) (cycle : ℕ) (f : CacheFailure) : Prop :=
  f = .port ∧ cycle < s.port.lastFreeCycle ∨ f = .backInTime ∧ cycle < s.lastCycle

/-- Deliveries in the order of their cycles stay in order. -/
def InOrder (cycle : ℕ) (s : TimingCache) : Prop := TagSlots.Inv s.port cycle ∧ s.lastCycle ≤ cycle

/-- What a delivery makes of the cache. -/
def Delivered (kind : ℕ → CacheEvent) (numMSHRs cycle : ℕ) (s s' : TimingCache) : Prop :=
  Accounted kind numMSHRs s' ∧ Released s s' ∧ (2 ≤ cycle → InOrder cycle s → InOrder cycle s')

theorem released_of_le (hle : s.activeMisses ≤ s'.activeMisses) (hev : s.state ev = .none ∨ s.state ev = .queued)
    (hother : ∀ e ≠ ev, s'.state e = s.state e ∧ s'.requeues e = s.requeues e) : Released s s' := by
  intro e he
  have hne : e ≠ ev := fun heq => by
    rw [heq] at he
    rcases hev with hs | hs <;> rw [hs] at he <;> cases he
  refine ⟨fun hlt => absurd hle (Nat.not_le.mpr hlt), fun _ => ?_⟩
  rw [(hother e hne).1]
  exact ⟨he, (hother e hne).2⟩

/-- An event that runs. -/
abbrev running (s : TimingCache) (ev : ℕ) : TimingCache := { s with state := Function.update s.state ev .running }

theorem wait_ends {E : CacheFailure → Prop} (h : Accounted kind numMSHRs s)
    (hev : s.state ev = .none ∨ s.state ev = .queued) (hkind : kind ev = .hit ∨ kind ev = .missStart)
    (hbusy : ¬s.activeMisses < numMSHRs) :
    ends E (wait ev) (fun _ s' => Delivered kind numMSHRs cycle s s') (running s ev) := by
  simp only [wait, hold, running, ends_bind, ends_moveTo, ends_change, Function.update_self]
  refine ⟨fun _ => ⟨?_, ?_, fun _ horder => horder⟩, fun hne => absurd (List.mem_singleton.mpr rfl) hne⟩
  · refine h.park hev hkind (Nat.le_antisymm h.active_le (Nat.le_of_not_lt hbusy)) ?_ rfl ⟨rfl, rfl, rfl⟩
    rw [Function.update_idem]
  · refine released_of_le le_rfl hev fun e he => ⟨?_, rfl⟩
    dsimp only
    rw [Function.update_of_ne he, Function.update_of_ne he]

theorem done_ends {E : CacheFailure → Prop} {Q : Unit → TimingCache → Prop} (hev : s.state ev = .running)
    (h : Q () { s with
      state := Function.update s.state ev .done
      completions := Function.update s.completions ev (s.completions ev + 1) }) : ends E (done ev) Q s := by
  simp only [done, ends_bind, ends_moveTo, ends_change]
  exact ⟨fun _ => h, fun hne => absurd (by rw [hev]; exact List.mem_singleton.mpr rfl) hne⟩

/-- The port stays in order when a high-priority access is granted. -/
theorem inOrder_high {slot : ℕ} {port : TagPort} (haccess : s.port.highPrioAccess cycle = some (slot, port))
    (hcycle : 2 ≤ cycle) (hport : TagSlots.Inv s.port cycle) : TagSlots.Inv port cycle := by
  obtain ⟨slot', port', haccess', hinv, -⟩ := hport.highPrioAccess hcycle
  rw [haccess] at haccess'
  cases haccess'
  exact hinv

theorem simulateHit_ends (h : Accounted kind numMSHRs s) (hev : s.state ev = .none ∨ s.state ev = .queued)
    (hkind : kind ev = .hit) :
    ends (Late s cycle) (simulateHit numMSHRs ev cycle) (fun _ s' => Delivered kind numMSHRs cycle s s')
      (running s ev) := by
  rw [simulateHit, ends_bind, ends_observe, ends_ite]
  split
  · next hfree =>
    rw [ends_bind]
    refine ends_highPrioAccess (fun hlt => .inl ⟨rfl, hlt⟩) fun slot port haccess => ?_
    refine done_ends (Function.update_self ..) ⟨?_, ?_, fun hcycle horder => ⟨?_, horder.2⟩⟩
    · have hstate : Function.update (Function.update s.state ev .running) ev .done =
          Function.update s.state ev .done := Function.update_idem ..
      have hsets : outstanding kind { s with state := Function.update s.state ev .done } = outstanding kind s :=
        outstanding_same rfl (by rw [hkind]; simp) (by rw [hkind]; simp)
      refine h.finish hev (by rw [hkind]; simp) hstate rfl rfl ?_ h.active_le h.full h.curState
      unfold outstanding at hsets ⊢
      dsimp only [running] at hsets ⊢
      rw [hstate, hsets]
      exact h.active
    · refine released_of_le le_rfl hev fun e he => ⟨?_, rfl⟩
      dsimp only [running]
      rw [Function.update_of_ne he, Function.update_of_ne he]
    · exact inOrder_high haccess hcycle horder.1
  · next hbusy => exact wait_ends h hev (.inl hkind) hbusy

theorem simulateMissStart_ends (h : Accounted kind numMSHRs s) (hev : s.state ev = .none ∨ s.state ev = .queued)
    (hkind : kind ev = .missStart) :
    ends (Late s cycle) (simulateMissStart numMSHRs ev cycle) (fun _ s' => Delivered kind numMSHRs cycle s s')
      (running s ev) := by
  have hcur := h.curState
  rw [simulateMissStart, ends_bind, ends_observe, ends_ite]
  split
  · next hfree =>
    change s.activeMisses < numMSHRs at hfree
    simp only [transition, ends_bind, ends_observe, ends_ensure, ends_change]
    refine ⟨fun _ => ⟨fun htime => ?_, fun hlate => .inr ⟨rfl, Nat.lt_of_not_le hlate⟩⟩, fun hstates => ?_⟩
    · refine ends_highPrioAccess (fun hlt => .inl ⟨rfl, hlt⟩) fun slot port haccess => ?_
      refine done_ends (Function.update_self ..) ⟨?_, ?_, fun hcycle horder => ⟨?_, le_rfl⟩⟩
      · have hnot : s.state ev ≠ .done := by rcases hev with heq | heq <;> rw [heq] <;> simp
        have hstate : Function.update (Function.update s.state ev .running) ev .done =
            Function.update s.state ev .done := Function.update_idem ..
        obtain ⟨hnew, hsets⟩ := @Accounted.outstanding_start _ _ ev s
          { s with state := Function.update s.state ev .done } h hnot rfl hkind
        refine h.finish hev (by rw [hkind]; simp) hstate rfl rfl ?_ (Nat.succ_le_of_lt hfree)
          (fun hne => absurd (h.full hne) (Nat.ne_of_lt hfree)) (Nat.succ_le_of_lt hfree)
        unfold outstanding at hsets hnew ⊢
        dsimp only [running] at hsets ⊢
        rw [hstate, hsets, Set.encard_insert_of_notMem hnew]
        have hactive := h.active
        unfold outstanding at hactive
        rw [hactive]
        rfl
      · refine released_of_le (Nat.le_succ _) hev fun e he => ⟨?_, rfl⟩
        dsimp only [running]
        rw [Function.update_of_ne he, Function.update_of_ne he]
      · exact inOrder_high haccess hcycle horder.1
    · exact absurd ⟨Nat.lt_succ_of_le hcur, Nat.succ_lt_succ hfree⟩ hstates
  · next hbusy => exact wait_ends h hev (.inr hkind) hbusy

theorem simulateMissResponse_ends (h : Accounted kind numMSHRs s)
    (hev : s.state ev = .none ∨ s.state ev = .queued) (hkind : kind ev = .missResponse mse) :
    ends (Late s cycle) (simulateMissResponse ev) (fun _ s' => Delivered kind numMSHRs cycle s s')
      (running s ev) := by
  refine done_ends (Function.update_self ..) ⟨?_, ?_, fun _ horder => horder⟩
  · have hstate : Function.update (Function.update s.state ev .running) ev .done =
        Function.update s.state ev .done := Function.update_idem ..
    have hsets : outstanding kind { s with state := Function.update s.state ev .done } = outstanding kind s :=
      outstanding_same rfl (by rw [hkind]; simp) (by rw [hkind]; simp)
    refine h.finish hev (by rw [hkind]; simp) hstate rfl rfl ?_ h.active_le h.full h.curState
    unfold outstanding at hsets ⊢
    dsimp only [running] at hsets ⊢
    rw [hstate, hsets]
    exact h.active
  · refine released_of_le le_rfl hev fun e he => ⟨?_, rfl⟩
    dsimp only [running]
    rw [Function.update_of_ne he, Function.update_of_ne he]

theorem lookupCycle_eq {t : TagPort} (h : (t.tryLowPrioAccess cycle).1 ≠ 0) :
    (t.tryLowPrioAccess cycle).1 = cycle := by
  unfold TagPort.tryLowPrioAccess at h ⊢
  split
  · rfl
  · next hdenied =>
    rw [if_neg hdenied] at h
    exact absurd rfl h

theorem simulateMissWriteback_ends (hkinds : Misses kind) (h : Accounted kind numMSHRs s)
    (hev : s.state ev = .none ∨ s.state ev = .queued) (hkind : kind ev = .missWriteback mse)
    (hmse : s.state mse = .done) :
    ends (Late s cycle) (simulateMissWriteback numMSHRs ev cycle)
      (fun _ s' => Delivered kind numMSHRs cycle s s') (running s ev) := by
  have hcur := h.curState
  have hle := h.active_le
  have hnot : s.state ev ≠ .done := by rcases hev with heq | heq <;> rw [heq] <;> simp
  have hunheld : ev ∉ s.pendingQueue := by
    rw [← h.held]
    rcases hev with heq | heq <;> rw [heq] <;> simp
  have hmiss : ∀ m, kind ev = .missWriteback m → s.state m = .done := by
    intro m hm
    rw [hkind] at hm
    exact CacheEvent.missWriteback.inj hm ▸ hmse
  have hport : 2 ≤ cycle → InOrder cycle s → TagSlots.Inv (s.port.tryLowPrioAccess cycle).2 cycle :=
    fun hcycle horder => horder.1.tryLowPrioAccess hcycle
  rw [simulateMissWriteback, ends_bind, ends_tryLowPrioAccess, ends_ite]
  split
  · next hgranted =>
    have hlookup : (s.port.tryLowPrioAccess cycle).1 = cycle := lookupCycle_eq hgranted
    obtain ⟨hmem, -⟩ := @outstanding_writeback kind ev mse s { s with
      state := Function.update s.state ev .done } hkinds hnot rfl hkind hmse
    have hactive : s.activeMisses ≠ 0 := by
      intro hzero
      have hcard := h.active
      rw [hzero, Nat.cast_zero, Set.encard_eq_zero] at hcard
      exact Set.notMem_empty mse (hcard ▸ hmem)
    have hheld : ∀ e ∈ s.pendingQueue, Function.update s.state ev .running e = .held := by
      intro e he
      have hstate := (h.held e).mpr he
      have hne : e ≠ ev := fun heq => by
        rw [heq] at hstate
        rcases hev with hs | hs <;> rw [hs] at hstate <;> cases hstate
      rwa [Function.update_of_ne hne]
    obtain ⟨q, hq⟩ : ∃ q : ℕ → EventState, q = fun e => if e ∈ s.pendingQueue then .queued else s.state e := ⟨_, rfl⟩
    have hback : Accounted kind numMSHRs { s with state := q, pendingQueue := [] } := h.release hq rfl ⟨rfl, rfl, rfl⟩
    have hold : ∀ e ∉ s.pendingQueue, q e = s.state e := by
      intro e he
      rw [hq]
      exact if_neg he
    have hkept : ∀ m, s.state m = .done → q m = .done := by
      intro m hm
      rw [hold m (by rw [← h.held, hm]; simp), hm]
    simp only [transition, ends_bind, ends_observe, ends_ensure, ends_change]
    refine ⟨fun _ => ⟨fun _ => ⟨fun htime => ?_, fun hlate => ?_⟩, fun hstates => ?_⟩, fun hne => absurd hactive hne⟩
    · refine ends_mono (requeue_all hheld h.nodup) ?_
      rintro _ s₁ rfl
      have hstate : Function.update (fun e => if e ∈ s.pendingQueue then EventState.queued else
          Function.update s.state ev .running e) ev .done = Function.update q ev .done := by
        funext e
        by_cases he : e = ev
        · rw [he, Function.update_self, Function.update_self]
        · simp only [Function.update_of_ne he, hq]
      refine done_ends (by dsimp only; rw [if_neg hunheld, Function.update_self]) ⟨?_, ?_, ?_⟩
      · obtain ⟨hmem', hsets⟩ := @outstanding_writeback kind ev mse { s with state := q, pendingQueue := [] }
          { s with state := Function.update q ev .done } hkinds (by dsimp only; rwa [hold ev hunheld]) rfl hkind
          (hkept mse hmse)
        refine hback.finish (by dsimp only; rwa [hold ev hunheld]) (fun m hm => hkept m (hmiss m hm)) hstate rfl rfl
          ?_ ((Nat.sub_le _ _).trans hle) (fun hne => absurd rfl hne) ((Nat.sub_le _ _).trans hle)
        have hcard := hback.active
        rw [← Set.encard_sdiff_singleton_add_one hmem'] at hcard
        unfold outstanding at hsets hcard ⊢
        dsimp only at hsets hcard ⊢
        rw [hstate, hsets]
        obtain ⟨k, hk⟩ := Nat.exists_eq_succ_of_ne_zero hactive
        rw [hk, Nat.cast_succ] at hcard
        rw [hk, Nat.succ_sub_one]
        exact WithTop.add_right_cancel ENat.one_ne_top hcard
      · intro e he
        have hpending := (h.held e).mp he
        have hne : e ≠ ev := fun heq => hunheld (heq ▸ hpending)
        dsimp only
        rw [Function.update_of_ne hne, if_pos hpending, if_pos hpending]
        exact ⟨fun _ => ⟨rfl, rfl⟩, fun hle => absurd hle (by omega)⟩
      · exact fun hcycle horder => ⟨hport hcycle horder, hlookup.le⟩
    · exact .inr ⟨rfl, hlookup ▸ Nat.lt_of_not_le hlate⟩
    · change ¬(s.curState < numMSHRs + 1 ∧ s.activeMisses - 1 < numMSHRs + 1) at hstates
      exact absurd ⟨Nat.lt_succ_of_le hcur, by omega⟩ hstates
  · next hdenied =>
    simp only [requeue, ends_bind, ends_moveTo, ends_change, Function.update_self]
    refine ⟨fun _ => ⟨?_, ?_, fun hcycle horder => ⟨hport hcycle horder, horder.2⟩⟩,
      fun hne => absurd List.mem_cons_self hne⟩
    · exact h.enqueue hev hmiss (Function.update_idem ..) ⟨rfl, rfl, rfl, rfl⟩
    · refine released_of_le le_rfl hev fun e he => ?_
      dsimp only
      rw [Function.update_of_ne he, Function.update_of_ne he, Function.update_of_ne he]
      exact ⟨rfl, rfl⟩

/-- A delivery keeps the accounts, and an assertion fails only where deliveries are not in order. -/
theorem deliver_ends (hkinds : Misses kind) (h : Accounted kind numMSHRs s) (hdeliver : Deliverable kind s ev) :
    ends (Late s cycle) (deliver kind numMSHRs ev cycle) (fun _ s' => Delivered kind numMSHRs cycle s s') s := by
  obtain ⟨hev, hparent⟩ := hdeliver
  rw [deliver, ends_bind, ends_moveTo]
  constructor
  · intro _
    change ends _ (simulate kind numMSHRs ev cycle) _ (running s ev)
    unfold simulate
    cases hkind : kind ev with
    | hit => exact simulateHit_ends h hev hkind
    | missStart => exact simulateMissStart_ends h hev hkind
    | missResponse mse => exact simulateMissResponse_ends h hev hkind
    | missWriteback mse =>
      rw [hkind] at hparent
      exact simulateMissWriteback_ends hkinds h hev hkind hparent
  · intro hne
    refine absurd ?_ hne
    rcases hev with heq | heq <;> rw [heq] <;> simp

end Deliveries

section Runs

variable {kind : ℕ → CacheEvent} {numMSHRs : ℕ} {s s' : TimingCache} {a : ℕ × ℕ} {acts : List (ℕ × ℕ)}

theorem Accounted.delivered (h : Accounted kind numMSHRs s) (hkinds : Misses kind)
    (hstep : step kind numMSHRs s a = some s') : Delivered kind numMSHRs a.2 s s' := by
  unfold step at hstep
  split at hstep
  · next hdeliver => exact of_performed (deliver_ends hkinds h hdeliver) hstep
  · cases hstep

/-- An event that waits for an MSHR waits for a miss whose writeback is still to come. -/
theorem Accounted.not_stranded (h : Accounted kind numMSHRs s) (hkinds : Misses kind) (hpos : 0 < numMSHRs) {e : ℕ}
    (he : s.state e = .held) : ∃ mse ∈ outstanding kind s, ∃ ev, kind ev = .missWriteback mse ∧
      Deliverable kind s ev := by
  have hpending : s.pendingQueue ≠ [] := List.ne_nil_of_mem ((h.held e).mp he)
  have hcard := h.active
  rw [h.full hpending] at hcard
  have hsome : (outstanding kind s).Nonempty := by
    rw [← Set.encard_ne_zero, hcard]
    exact Nat.cast_ne_zero.mpr (Nat.ne_of_gt hpos)
  obtain ⟨mse, hmse⟩ := hsome
  obtain ⟨ev, hev⟩ := hkinds.exists_writeback mse hmse.1
  refine ⟨mse, hmse, ev, hev, ?_, ?_⟩
  · rcases h.between ev with hnone | hqueued | hheld | hdone
    · exact .inl hnone
    · exact .inr hqueued
    · rcases h.holds ev hheld with hk | hk <;> rw [hk] at hev <;> cases hev
    · exact absurd hdone (hmse.2.2 ev hev)
  · rw [hev]
    exact hmse.2.1

/-- A delivery in order does not fail. -/
theorem Accounted.step_isSome (h : Accounted kind numMSHRs s) (hkinds : Misses kind) (horder : InOrder a.2 s)
    (hdeliver : Deliverable kind s a.1) : (step kind numMSHRs s a).isSome := by
  have hends := @deliver_ends kind numMSHRs a.1 a.2 s hkinds h hdeliver
  unfold ends at hends
  unfold step
  rw [if_pos hdeliver]
  cases hrun : deliver kind numMSHRs a.1 a.2 s with
  | ok r => rfl
  | error f =>
    rw [hrun] at hends
    rcases hends with ⟨-, hlt⟩ | ⟨-, hlt⟩
    · exact absurd horder.1.lastFreeCycle_le (Nat.not_le.mpr hlt)
    · exact absurd horder.2 (Nat.not_le.mpr hlt)

/-- Deliveries in order do not fail. -/
theorem Accounted.attempts {now : ℕ} (h : Accounted kind numMSHRs s) (hkinds : Misses kind) (horder : InOrder now s)
    (hsorted : (acts.map Prod.snd).Pairwise (· ≤ ·)) (hcycles : ∀ a ∈ acts, now ≤ a.2 ∧ 2 ≤ a.2) :
    EveryAttempt (step kind numMSHRs) (fun s a => Deliverable kind s a.1 → (step kind numMSHRs s a).isSome) s
      acts := by
  induction acts generalizing s now with
  | nil => exact trivial
  | cons a acts ih =>
    obtain ⟨hlater, hsorted⟩ := List.pairwise_cons.mp hsorted
    obtain ⟨⟨hnow, hcycle⟩, hcycles⟩ := List.forall_mem_cons.mp hcycles
    have horder : InOrder a.2 s := ⟨horder.1.mono hnow, horder.2.trans hnow⟩
    refine ⟨h.step_isSome hkinds horder, fun s' hstep => ?_⟩
    obtain ⟨h', -, hkeeps⟩ := h.delivered hkinds hstep
    exact ih h' (hkeeps hcycle horder) hsorted fun b hb => ⟨hlater b.2 (List.mem_map_of_mem hb), (hcycles b hb).2⟩

/-- The MSHRs after any deliveries, in any order and cycles, are accounted for and strand no event, and no
delivery fails when the cycles do not decrease. -/
theorem mshrs_accounted (hkinds : Misses kind) (hpos : 0 < numMSHRs) :
    (∀ s, run (step kind numMSHRs) .new acts = some s → Accounted kind numMSHRs s ∧ ∀ e, s.state e = .held →
      ∃ mse ∈ outstanding kind s, ∃ ev, kind ev = .missWriteback mse ∧ Deliverable kind s ev) ∧
    EveryStep (step kind numMSHRs) (fun s _ s' => Released s s') .new acts ∧
    ((acts.map Prod.snd).Pairwise (· ≤ ·) → (∀ a ∈ acts, 2 ≤ a.2) →
      EveryAttempt (step kind numMSHRs) (fun s a => Deliverable kind s a.1 → (step kind numMSHRs s a).isSome) .new
        acts) := by
  refine ⟨fun s hrun => ?_, ?_, fun hsorted hcycles => ?_⟩
  · have haccounted : Accounted kind numMSHRs s :=
      run_invariant (fun s a s' h hstep => (h.delivered hkinds hstep).1) (accounted_new kind numMSHRs) hrun
    exact ⟨haccounted, fun e he => haccounted.not_stranded hkinds hpos he⟩
  · refine everyStep_of_invariant (fun s a s' h hstep => ?_) (accounted_new kind numMSHRs)
    have hdelivered := h.delivered hkinds hstep
    exact ⟨hdelivered.1, hdelivered.2.1⟩
  · exact (accounted_new kind numMSHRs).attempts hkinds ⟨TagSlots.inv_new, Nat.zero_le 1⟩ hsorted
      fun a ha => ⟨Nat.le_of_lt (hcycles a ha), hcycles a ha⟩

/-- Two misses on one MSHR, the second of which waits for the writeback of the first. -/
def twoMisses : ℕ → CacheEvent
  | 0 => .missStart
  | 1 => .missStart
  | 2 => .missResponse 0
  | 3 => .missWriteback 0
  | 4 => .missWriteback 1
  | _ => .hit

theorem misses_twoMisses : Misses twoMisses where
  response e mse h := by
    match e with
    | 0 | 1 | 3 | 4 => cases h
    | 2 => cases h; rfl
    | _ + 5 => cases h
  writeback e mse h := by
    match e with
    | 0 | 1 | 2 => cases h
    | 3 | 4 => cases h; rfl
    | _ + 5 => cases h
  one e e' mse h h' := by
    match e, e' with
    | 0, _ | 1, _ | 2, _ | _ + 5, _ => cases h
    | _, 0 | _, 1 | _, 2 | _, _ + 5 => cases h'
    | 3, 3 | 4, 4 => rfl
    | 3, 4 | 4, 3 => cases h.trans h'.symm
  exists_writeback mse h := by
    match mse with
    | 0 => exact ⟨3, rfl⟩
    | 1 => exact ⟨4, rfl⟩
    | 2 | 3 | 4 | _ + 5 => cases h

/-- Both misses get their MSHR. -/
theorem mshrs_accounted_twoMisses : ∃ s, run (step twoMisses 1) .new [(0, 2), (1, 3), (2, 5), (3, 5), (1, 6)] =
    some s ∧ Accounted twoMisses 1 s ∧ s.activeMisses = 1 ∧ s.completions 1 = 1 := by
  have hrun : ((run (step twoMisses 1) .new [(0, 2), (1, 3), (2, 5), (3, 5), (1, 6)]).map
      fun s => (s.activeMisses, s.completions 1)) = some (1, 1) := by decide
  obtain ⟨s, hs, heq⟩ := Option.map_eq_some_iff.mp hrun
  exact ⟨s, hs, ((mshrs_accounted misses_twoMisses Nat.one_pos).1 s hs).1, congrArg Prod.fst heq, congrArg Prod.snd heq⟩

end Runs

end Zsim.CacheMSHRs
