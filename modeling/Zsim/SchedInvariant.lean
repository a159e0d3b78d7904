import Zsim.SchedQueues
import Mathlib.Data.List.Sort

/-!
# The invariant of the scheduler

What holds of the queues, the contexts and the threads while nobody has the
lock, and the moves of a thread between them that keep it. Every call to the
scheduler is one of these moves, or two in a row.
-/

namespace Zsim.SchedQueues

open Sched

/-- The invariant; a thread `x` that is finishing may still be RUNNING. -/
structure Inv (s : Sched) (x : Option ℕ) : Prop where
  cid_lt : ∀ g ∈ s.live, (s.thread g).cid < s.numCores
  live_nodup : s.live.Nodup
  idle : ∀ c, (s.context c).state = .idle ↔ (s.context c).curThread = none
  /-- A RUNNING or OUT thread is on its context, which its mask allows. -/
  occupies : ∀ g ∈ s.live, (s.thread g).state = .running ∨ (s.thread g).state = .out →
    (s.context (s.thread g).cid).curThread = some g ∧ (s.thread g).mask (s.thread g).cid = true
  occupied : ∀ c g, (s.context c).curThread = some g → g ∈ s.live ∧
    ((s.thread g).state = .running ∨ (s.thread g).state = .out) ∧ (s.thread g).cid = c
  free : ∀ c, c ∈ s.freeList ↔ c < s.numCores ∧ (s.context c).curThread = none
  free_nodup : s.freeList.Nodup
  count : s.scheduledThreads + s.freeList.length = s.numCores
  out : ∀ g, g ∈ s.outQueue ↔ g ∈ s.live ∧ (s.thread g).state = .out
  out_nodup : s.outQueue.Nodup
  sleeping : ∀ g, g ∈ s.sleepQueue ↔ g ∈ s.live ∧ (s.thread g).state = .sleeping
  sleep_nodup : s.sleepQueue.Nodup
  ordered : s.sleepQueue.Pairwise fun g h => (s.thread g).wakeupPhase ≤ (s.thread h).wakeupPhase
  future : ∀ g ∈ s.sleepQueue, s.curPhase < (s.thread g).wakeupPhase
  queued : ∀ g ∈ s.runQueue, g ∈ s.live ∧ (s.thread g).state = .queued
  run_nodup : s.runQueue.Nodup
  /-- A hand-off is pending from the end of a phase until the victim's `sync` returns. -/
  handoff : ∀ v ∈ s.live, ∀ g, (s.thread v).handoffThread = some g →
    (s.thread v).state = .running ∧ (s.thread v).place = .syncing ∧ s.bar (s.thread v).cid ≠ .done ∧
    g ∈ s.live ∧ (s.thread g).state = .queued ∧ g ∉ s.runQueue ∧ (s.thread g).mask (s.thread v).cid = true
  one_victim : ∀ v ∈ s.live, ∀ w ∈ s.live, ∀ g, (s.thread v).handoffThread = some g →
    (s.thread w).handoffThread = some g → v = w
  placed : ∀ g ∈ s.live, (s.thread g).state = .queued →
    g ∈ s.runQueue ∨ ∃ v ∈ s.live, (s.thread v).handoffThread = some g
  /-- A context that a queued thread may use has a RUNNING thread. -/
  conserving : ∀ g ∈ s.runQueue, ∀ c < s.numCores, (s.thread g).mask c = true →
    ∃ h, (s.context c).curThread = some h ∧ (s.thread h).state = .running
  /-- The contexts of the RUNNING threads take part in the phase. -/
  bar : ∀ c < s.numCores, s.bar c ≠ .left ↔
    ∃ g, (s.context c).curThread = some g ∧ (s.thread g).state = .running
  user : ∀ g ∈ s.live, (s.thread g).state = .running → (s.thread g).place = .user →
    s.bar (s.thread g).cid = .running
  joining : ∀ g ∈ s.live, (s.thread g).state = .running → (s.thread g).place = .joining →
    s.bar (s.thread g).cid ≠ .done
  /-- A thread that is marked for sleep leaves before the phase ends. -/
  marked : ∀ g ∈ s.live, (s.thread g).markedForSleep = true → (s.thread g).state ≠ .sleeping ∧
    (s.thread g).state ≠ .queued ∧ ((s.thread g).state = .running →
      (s.thread g).place = .user ∧ s.curPhase < (s.thread g).wakeupPhase)
  fake : ∀ g ∈ s.live, (s.thread g).fakeLeave = true → (s.thread g).state = .running ∧
    (s.thread g).place = .user ∧ (s.thread g).markedForSleep = false
  finishing : ∀ g ∈ s.live, (s.thread g).registered = false →
    (s.thread g).state = .out ∨ (s.thread g).state = .blocked ∨ x = some g

theorem inv_init (numCores schedQuantum : ℕ) : Inv (.init numCores schedQuantum) none := by
  constructor <;> simp [Sched.init, List.nodup_range]

section Moves

variable {s : Sched} {x : Option ℕ} {g h c o dst : ℕ}

/-- The deadlines of the sleepers stay in order when another thread changes. -/
theorem Inv.ordered_update {th : ThreadInfo} (hinv : Inv s x)
    (hth : g ∉ s.sleepQueue ∨ th.wakeupPhase = (s.thread g).wakeupPhase) :
    s.sleepQueue.Pairwise fun a b => (Function.update s.thread g th a).wakeupPhase ≤
      (Function.update s.thread g th b).wakeupPhase := by
  refine hinv.ordered.imp_of_mem fun ha hb hle => ?_
  grind

/-- Only a RUNNING thread is a victim. -/
theorem Inv.no_handoff (hinv : Inv s x) (hg : g ∈ s.live) (hstate : (s.thread g).state ≠ .running) :
    (s.thread g).handoffThread = none := by
  cases hhandoff : (s.thread g).handoffThread with
  | none => rfl
  | some t => exact absurd (hinv.handoff g hg t hhandoff).1 hstate

/-- A context that is not in the list is counted. -/
theorem Inv.free_room (hinv : Inv s x) (hnot : c ∉ s.freeList) (hc : c < s.numCores) :
    0 < s.scheduledThreads := by
  have hsubset : s.freeList ⊆ (List.range s.numCores).erase c := by
    intro d hd
    have hlt := ((hinv.free d).mp hd).1
    have hne : d ≠ c := fun heq => hnot (heq ▸ hd)
    exact (List.mem_erase_of_ne hne).mpr (List.mem_range.mpr hlt)
  have hle := (List.subperm_of_subset hinv.free_nodup hsubset).length_le
  have hlength := List.length_erase_of_mem (List.mem_range.mpr hc)
  rw [List.length_range] at hlength
  have hcount := hinv.count
  omega

/-- A thread starts. -/
theorem Inv.start {mask : ℕ → Bool} (hinv : Inv s none) (hg : g ∉ s.live) (hcores : 0 < s.numCores) :
    Inv { s.setThread g (.new mask) with live := g :: s.live } none := by
  have hqueues : g ∉ s.outQueue ∧ g ∉ s.sleepQueue ∧ g ∉ s.runQueue := by
    have hout := hinv.out g
    have hsleep := hinv.sleeping g
    have hqueued := hinv.queued g
    grind
  unfold Sched.setThread ThreadInfo.new
  exact { hinv with
    cid_lt := by
      have hcid_lt := hinv.cid_lt
      grind
    live_nodup := List.nodup_cons.mpr ⟨hg, hinv.live_nodup⟩
    occupies := by
      have hoccupies := hinv.occupies
      grind
    occupied := by
      have hoccupied := hinv.occupied
      grind
    out := by
      have hout := hinv.out
      grind
    sleeping := by
      have hsleeping := hinv.sleeping
      grind
    ordered := hinv.ordered_update (.inl hqueues.2.1)
    future := by
      have hfuture := hinv.future
      grind
    queued := by
      have hqueued := hinv.queued
      grind
    handoff := by
      have hhandoff := hinv.handoff
      grind
    one_victim := by
      have hone_victim := hinv.one_victim
      grind
    placed := by
      have hplaced := hinv.placed
      grind
    conserving := by
      have hconserving := hinv.conserving
      have hoccupied := hinv.occupied
      grind
    bar := by
      have hbar := hinv.bar
      have hoccupied := hinv.occupied
      grind
    user := by
      have huser := hinv.user
      grind
    joining := by
      have hjoining := hinv.joining
      grind
    marked := by
      have hmarked := hinv.marked
      grind
    fake := by
      have hfake := hinv.fake
      grind
    finishing := by
      have hfinishing := hinv.finishing
      grind
  }

/-- A thread that is outside takes a context from the list. -/
theorem Inv.take (hinv : Inv s none) (hg : g ∈ s.live)
    (hstate : (s.thread g).state = .started ∨ (s.thread g).state = .blocked)
    (hmark : (s.thread g).markedForSleep = false) (hreg : (s.thread g).registered = true)
    (hc : c ∈ s.freeList) (hmask : (s.thread g).mask c = true) : Inv { s with
      thread := Function.update s.thread g { s.thread g with state := .running, cid := c, place := .joining }
      context := Function.update s.context c ⟨.used, some g⟩
      scheduledThreads := s.scheduledThreads + 1
      freeList := s.freeList.erase c
      bar := Function.update s.bar c .ready } none := by
  have hfree := (hinv.free c).mp hc
  have hlength := List.length_erase_of_mem hc
  have hpos := List.length_pos_of_mem hc
  exact { hinv with
    cid_lt := by
      have hcid_lt := hinv.cid_lt
      grind
    idle := by
      have hidle := hinv.idle
      grind
    occupies := by
      have hoccupies := hinv.occupies
      have hoccupied := hinv.occupied
      grind
    occupied := by
      have hoccupied := hinv.occupied
      have hoccupies := hinv.occupies
      grind
    free := by
      have hfree := hinv.free
      have hfree_nodup := hinv.free_nodup
      grind
    free_nodup := hinv.free_nodup.erase c
    count := by
      have hcount := hinv.count
      grind
    out := by
      have hout := hinv.out
      grind
    sleeping := by
      have hsleeping := hinv.sleeping
      grind
    ordered := hinv.ordered_update (.inr rfl)
    future := by
      have hfuture := hinv.future
      grind
    queued := by
      have hqueued := hinv.queued
      grind
    handoff := by
      have hhandoff := hinv.handoff
      have hoccupies := hinv.occupies
      grind
    one_victim := by
      have hone_victim := hinv.one_victim
      grind
    placed := by
      have hplaced := hinv.placed
      have hhandoff := hinv.handoff
      grind
    conserving := by
      have hconserving := hinv.conserving
      have hoccupied := hinv.occupied
      grind
    bar := by
      have hbar := hinv.bar
      have hoccupied := hinv.occupied
      grind
    user := by
      have huser := hinv.user
      have hoccupies := hinv.occupies
      grind
    joining := by
      have hjoining := hinv.joining
      have hoccupies := hinv.occupies
      grind
    marked := by
      have hmarked := hinv.marked
      grind
    fake := by
      have hfake := hinv.fake
      grind
    finishing := by
      have hfinishing := hinv.finishing
      grind
  }

/-- A thread that is outside takes the context of a thread that is OUT. -/
theorem Inv.steal (hinv : Inv s none) (hg : g ∈ s.live)
    (hstate : (s.thread g).state = .started ∨ (s.thread g).state = .blocked)
    (hmark : (s.thread g).markedForSleep = false) (hreg : (s.thread g).registered = true)
    (ho : o ∈ s.outQueue) (hc : (s.thread o).cid = c) (hmask : (s.thread g).mask c = true) : Inv { s with
      thread := Function.update (Function.update s.thread o { s.thread o with state := .blocked }) g
        { s.thread g with state := .running, cid := c, place := .joining }
      context := Function.update s.context c ⟨.used, some g⟩
      outQueue := s.outQueue.erase o
      bar := Function.update s.bar c .ready } none := by
  have hout := (hinv.out o).mp ho
  have hon := hinv.occupies o hout.1 (.inr hout.2)
  have hlt := hinv.cid_lt o hout.1
  rw [hc] at hon hlt
  exact { hinv with
    cid_lt := by
      have hcid_lt := hinv.cid_lt
      grind
    idle := by
      have hidle := hinv.idle
      grind
    occupies := by
      have hoccupies := hinv.occupies
      have hoccupied := hinv.occupied
      grind
    occupied := by
      have hoccupied := hinv.occupied
      have hoccupies := hinv.occupies
      grind
    free := by
      have hfree := hinv.free
      grind
    out := by
      have hout := hinv.out
      have hout_nodup := hinv.out_nodup
      grind
    out_nodup := hinv.out_nodup.erase o
    sleeping := by
      have hsleeping := hinv.sleeping
      grind
    ordered := by
      refine hinv.ordered.imp_of_mem fun ha hb hle => ?_
      grind
    future := by
      have hfuture := hinv.future
      grind
    queued := by
      have hqueued := hinv.queued
      grind
    handoff := by
      intro v hv t ht
      have hno := hinv.no_handoff hg
      have hno' := hinv.no_handoff hout.1
      have hvo : v ≠ o := by grind
      have hvg : v ≠ g := by grind
      have hhandoff := hinv.handoff v hv t
      have hoccupies := hinv.occupies v hv
      grind
    one_victim := by
      have hone_victim := hinv.one_victim
      grind
    placed := by
      have hplaced := hinv.placed
      have hhandoff := hinv.handoff
      grind
    conserving := by
      have hconserving := hinv.conserving
      have hoccupied := hinv.occupied
      grind
    bar := by
      have hbar := hinv.bar
      have hoccupied := hinv.occupied
      grind
    user := by
      have huser := hinv.user
      have hoccupies := hinv.occupies
      grind
    joining := by
      have hjoining := hinv.joining
      have hoccupies := hinv.occupies
      grind
    marked := by
      have hmarked := hinv.marked
      grind
    fake := by
      have hfake := hinv.fake
      grind
    finishing := by
      have hfinishing := hinv.finishing
      grind
  }

/-- A context that is in no list and that no OUT thread holds has a RUNNING thread. -/
theorem Inv.running_of_unavailable {mask : ℕ → Bool} (hinv : Inv s x)
    (hfree : ∀ c ∈ s.freeList, mask c = false) (hout : ∀ o ∈ s.outQueue, mask (s.thread o).cid = false)
    (hc : c < s.numCores) (hmask : mask c = true) :
    ∃ t, (s.context c).curThread = some t ∧ (s.thread t).state = .running := by
  cases ht : (s.context c).curThread with
  | none =>
    have hmem := (hinv.free c).mpr ⟨hc, ht⟩
    exact absurd hmask (by rw [hfree c hmem]; exact Bool.false_ne_true)
  | some t =>
    obtain ⟨hlive, hstate, hcid⟩ := hinv.occupied c t ht
    refine ⟨t, rfl, hstate.resolve_right fun hstate => ?_⟩
    have hmem := hout t ((hinv.out t).mpr ⟨hlive, hstate⟩)
    rw [hcid, hmask] at hmem
    exact Bool.false_ne_true hmem.symm

/-- A thread that is outside queues, as no context is there for it. -/
theorem Inv.enqueue (hinv : Inv s none) (hg : g ∈ s.live)
    (hstate : (s.thread g).state = .started ∨ (s.thread g).state = .blocked)
    (hmark : (s.thread g).markedForSleep = false) (hreg : (s.thread g).registered = true)
    (hfree : ∀ c ∈ s.freeList, (s.thread g).mask c = false)
    (hout : ∀ o ∈ s.outQueue, (s.thread g).mask (s.thread o).cid = false) : Inv { s with
      thread := Function.update s.thread g { s.thread g with state := .queued }
      runQueue := s.runQueue ++ [g] } none := by
  have hnot : g ∉ s.runQueue := by
    have hqueued := hinv.queued
    grind
  exact { hinv with
    cid_lt := by
      have hcid_lt := hinv.cid_lt
      grind
    occupies := by
      have hoccupies := hinv.occupies
      grind
    occupied := by
      have hoccupied := hinv.occupied
      grind
    out := by
      have hout := hinv.out
      grind
    sleeping := by
      have hsleeping := hinv.sleeping
      grind
    ordered := hinv.ordered_update (.inr rfl)
    future := by
      have hfuture := hinv.future
      grind
    queued := by
      have hqueued := hinv.queued
      grind
    run_nodup := by
      have hrun_nodup := hinv.run_nodup
      grind [List.nodup_append]
    handoff := by
      have hhandoff := hinv.handoff
      grind
    one_victim := by
      have hone_victim := hinv.one_victim
      grind
    placed := by
      have hplaced := hinv.placed
      grind
    conserving := by
      intro q hq d hd hmask
      have hqueued : q ∈ s.runQueue ∨ q = g := by grind
      have hmask' : (s.thread q).mask d = true := by grind
      have hrunning : ∃ t, (s.context d).curThread = some t ∧ (s.thread t).state = .running := by
        cases hqueued with
        | inl hq => exact hinv.conserving q hq d hd hmask'
        | inr hq =>
          rw [hq] at hmask'
          exact hinv.running_of_unavailable hfree hout hd hmask'
      obtain ⟨t, ht, hrun⟩ := hrunning
      exact ⟨t, ht, by grind⟩
    bar := by
      have hbar := hinv.bar
      have hoccupied := hinv.occupied
      grind
    user := by
      have huser := hinv.user
      grind
    joining := by
      have hjoining := hinv.joining
      grind
    marked := by
      have hmarked := hinv.marked
      grind
    fake := by
      have hfake := hinv.fake
      grind
    finishing := by
      have hfinishing := hinv.finishing
      grind
  }

/-- A thread that is OUT rejoins. -/
theorem Inv.rejoin (hinv : Inv s none) (hg : g ∈ s.outQueue) (hmark : (s.thread g).markedForSleep = false)
    (hreg : (s.thread g).registered = true) : Inv { s with
      thread := Function.update s.thread g { s.thread g with state := .running, place := .joining }
      outQueue := s.outQueue.erase g
      bar := Function.update s.bar (s.thread g).cid .ready } none := by
  have hout := (hinv.out g).mp hg
  have hon := hinv.occupies g hout.1 (.inr hout.2)
  exact { hinv with
    cid_lt := by
      have hcid_lt := hinv.cid_lt
      grind
    occupies := by
      have hoccupies := hinv.occupies
      grind
    occupied := by
      have hoccupied := hinv.occupied
      grind
    out := by
      have hout := hinv.out
      have hout_nodup := hinv.out_nodup
      grind
    out_nodup := hinv.out_nodup.erase g
    sleeping := by
      have hsleeping := hinv.sleeping
      grind
    ordered := hinv.ordered_update (.inr rfl)
    future := by
      have hfuture := hinv.future
      grind
    queued := by
      have hqueued := hinv.queued
      grind
    handoff := by
      have hhandoff := hinv.handoff
      have hoccupies := hinv.occupies
      grind
    one_victim := by
      have hone_victim := hinv.one_victim
      grind
    placed := by
      have hplaced := hinv.placed
      have hhandoff := hinv.handoff
      grind
    conserving := by
      have hconserving := hinv.conserving
      have hoccupied := hinv.occupied
      grind
    bar := by
      have hbar := hinv.bar
      have hoccupied := hinv.occupied
      grind
    user := by
      have huser := hinv.user
      have hoccupies := hinv.occupies
      grind
    joining := by
      have hjoining := hinv.joining
      have hoccupies := hinv.occupies
      grind
    marked := by
      have hmarked := hinv.marked
      grind
    fake := by
      have hfake := hinv.fake
      grind
    finishing := by
      have hfinishing := hinv.finishing
      grind
  }

/-- A RUNNING thread leaves and keeps its context, which no queued thread may use. -/
theorem Inv.toOut (hinv : Inv s x) (hx : x = none ∨ x = some g) (hg : g ∈ s.live)
    (hstate : (s.thread g).state = .running) (hhand : (s.thread g).handoffThread = none)
    (hfake : (s.thread g).fakeLeave = false)
    (hnobody : ∀ q ∈ s.runQueue, (s.thread q).mask (s.thread g).cid = false) : Inv { s with
      thread := Function.update s.thread g { s.thread g with state := .out }
      outQueue := s.outQueue ++ [g]
      bar := Function.update s.bar (s.thread g).cid .left } none := by
  have hon := hinv.occupies g hg (.inl hstate)
  have hnot : g ∉ s.outQueue := by
    have hout := hinv.out g
    grind
  exact { hinv with
    cid_lt := by
      have hcid_lt := hinv.cid_lt
      grind
    occupies := by
      have hoccupies := hinv.occupies
      grind
    occupied := by
      have hoccupied := hinv.occupied
      grind
    out := by
      have hout := hinv.out
      grind
    out_nodup := by
      have hout_nodup := hinv.out_nodup
      grind [List.nodup_append]
    sleeping := by
      have hsleeping := hinv.sleeping
      grind
    ordered := hinv.ordered_update (.inr rfl)
    future := by
      have hfuture := hinv.future
      grind
    queued := by
      have hqueued := hinv.queued
      grind
    handoff := by
      intro v hv t ht
      have hvg : v ≠ g := by grind
      have hhandoff := hinv.handoff v hv t
      have hoccupies := hinv.occupies v hv
      grind
    one_victim := by
      have hone_victim := hinv.one_victim
      grind
    placed := by
      have hplaced := hinv.placed
      grind
    conserving := by
      have hconserving := hinv.conserving
      have hoccupied := hinv.occupied
      grind
    bar := by
      have hbar := hinv.bar
      have hoccupied := hinv.occupied
      grind
    user := by
      have huser := hinv.user
      have hoccupies := hinv.occupies
      grind
    joining := by
      have hjoining := hinv.joining
      have hoccupies := hinv.occupies
      grind
    marked := by
      have hmarked := hinv.marked
      grind
    fake := by
      have hfake := hinv.fake
      grind
    finishing := by
      have hfinishing := hinv.finishing
      grind
  }

/-- A RUNNING thread leaves, and a queued thread takes its context over. -/
theorem Inv.swapOut (hinv : Inv s x) (hx : x = none ∨ x = some g) (hg : g ∈ s.live)
    (hstate : (s.thread g).state = .running) (hhand : (s.thread g).handoffThread = none)
    (hfake : (s.thread g).fakeLeave = false) (hc : (s.thread g).cid = c)
    (hdst : dst ∈ s.runQueue) (hmask : (s.thread dst).mask c = true) (hbar : s.bar c = .running) : Inv { s with
      thread := Function.update (Function.update s.thread g { s.thread g with state := .blocked }) dst
        { s.thread dst with state := .running, cid := c, place := .user }
      context := Function.update s.context c ⟨.used, some dst⟩
      runQueue := s.runQueue.erase dst } none := by
  have hon := hinv.occupies g hg (.inl hstate)
  have hqueued := hinv.queued dst hdst
  have hlt := hinv.cid_lt g hg
  rw [hc] at hon hlt
  have hno := hinv.no_handoff hqueued.1 (by rw [hqueued.2]; exact nofun)
  exact { hinv with
    cid_lt := by
      have hcid_lt := hinv.cid_lt
      grind
    idle := by
      have hidle := hinv.idle
      grind
    occupies := by
      have hoccupies := hinv.occupies
      have hoccupied := hinv.occupied
      grind
    occupied := by
      have hoccupied := hinv.occupied
      have hoccupies := hinv.occupies
      grind
    free := by
      have hfree := hinv.free
      grind
    out := by
      have hout := hinv.out
      grind
    sleeping := by
      have hsleeping := hinv.sleeping
      grind
    ordered := by
      refine hinv.ordered.imp_of_mem fun ha hb hle => ?_
      grind
    future := by
      have hfuture := hinv.future
      grind
    queued := by
      have hqueued := hinv.queued
      have hrun_nodup := hinv.run_nodup
      grind
    run_nodup := hinv.run_nodup.erase dst
    handoff := by
      intro v hv t ht
      have hvg : v ≠ g := by grind
      have hvd : v ≠ dst := by grind
      have hhandoff := hinv.handoff v hv t
      have hoccupies := hinv.occupies v hv
      grind
    one_victim := by
      have hone_victim := hinv.one_victim
      grind
    placed := by
      have hplaced := hinv.placed
      grind
    conserving := by
      have hconserving := hinv.conserving
      have hoccupied := hinv.occupied
      grind
    bar := by
      have hbar := hinv.bar
      have hoccupied := hinv.occupied
      grind
    user := by
      have huser := hinv.user
      have hoccupies := hinv.occupies
      grind
    joining := by
      have hjoining := hinv.joining
      have hoccupies := hinv.occupies
      grind
    marked := by
      have hmarked := hinv.marked
      grind
    fake := by
      have hfake := hinv.fake
      grind
    finishing := by
      have hfinishing := hinv.finishing
      grind
  }

/-- A RUNNING thread gives up its context, which no queued thread may use. -/
theorem Inv.idleOut (hinv : Inv s none) (hg : g ∈ s.live) (hstate : (s.thread g).state = .running)
    (hhand : (s.thread g).handoffThread = none) (hfake : (s.thread g).fakeLeave = false)
    (hc : (s.thread g).cid = c) (hnobody : ∀ q ∈ s.runQueue, (s.thread q).mask c = false) : Inv { s with
      thread := Function.update s.thread g { s.thread g with state := .blocked }
      context := Function.update s.context c ⟨.idle, none⟩
      scheduledThreads := s.scheduledThreads - 1
      freeList := s.freeList ++ [c]
      bar := Function.update s.bar c .left } none := by
  have hon := hinv.occupies g hg (.inl hstate)
  have hlt := hinv.cid_lt g hg
  rw [hc] at hon hlt
  have hnot : c ∉ s.freeList := by
    have hfree := hinv.free c
    grind
  have hroom := hinv.free_room hnot hlt
  exact { hinv with
    cid_lt := by
      have hcid_lt := hinv.cid_lt
      grind
    idle := by
      have hidle := hinv.idle
      grind
    occupies := by
      have hoccupies := hinv.occupies
      have hoccupied := hinv.occupied
      grind
    occupied := by
      have hoccupied := hinv.occupied
      have hoccupies := hinv.occupies
      grind
    free := by
      have hfree := hinv.free
      grind
    free_nodup := by
      have hfree_nodup := hinv.free_nodup
      grind [List.nodup_append]
    count := by
      have hcount := hinv.count
      grind
    out := by
      have hout := hinv.out
      grind
    sleeping := by
      have hsleeping := hinv.sleeping
      grind
    ordered := hinv.ordered_update (.inr rfl)
    future := by
      have hfuture := hinv.future
      grind
    queued := by
      have hqueued := hinv.queued
      grind
    handoff := by
      intro v hv t ht
      have hvg : v ≠ g := by grind
      have hhandoff := hinv.handoff v hv t
      have hoccupies := hinv.occupies v hv
      grind
    one_victim := by
      have hone_victim := hinv.one_victim
      grind
    placed := by
      have hplaced := hinv.placed
      grind
    conserving := by
      have hconserving := hinv.conserving
      have hoccupied := hinv.occupied
      grind
    bar := by
      have hbar := hinv.bar
      have hoccupied := hinv.occupied
      grind
    user := by
      have huser := hinv.user
      have hoccupies := hinv.occupies
      grind
    joining := by
      have hjoining := hinv.joining
      have hoccupies := hinv.occupies
      grind
    marked := by
      have hmarked := hinv.marked
      grind
    fake := by
      have hfake := hinv.fake
      grind
    finishing := by
      have hfinishing := hinv.finishing
      grind
  }

/-- An OUT thread loses its context. -/
theorem Inv.vacate (hinv : Inv s x) (hx : x = none ∨ x = some g) (hg : g ∈ s.outQueue) (hc : (s.thread g).cid = c) : Inv { s with
      thread := Function.update s.thread g { s.thread g with state := .blocked }
      context := Function.update s.context c ⟨.idle, none⟩
      scheduledThreads := s.scheduledThreads - 1
      outQueue := s.outQueue.erase g
      freeList := s.freeList ++ [c] } none := by
  have hout := (hinv.out g).mp hg
  have hon := hinv.occupies g hout.1 (.inr hout.2)
  have hlt := hinv.cid_lt g hout.1
  rw [hc] at hon hlt
  have hnot : c ∉ s.freeList := by
    have hfree := hinv.free c
    grind
  have hroom := hinv.free_room hnot hlt
  exact { hinv with
    cid_lt := by
      have hcid_lt := hinv.cid_lt
      grind
    idle := by
      have hidle := hinv.idle
      grind
    occupies := by
      have hoccupies := hinv.occupies
      have hoccupied := hinv.occupied
      grind
    occupied := by
      have hoccupied := hinv.occupied
      have hoccupies := hinv.occupies
      grind
    free := by
      have hfree := hinv.free
      grind
    free_nodup := by
      have hfree_nodup := hinv.free_nodup
      grind [List.nodup_append]
    count := by
      have hcount := hinv.count
      grind
    out := by
      have hout := hinv.out
      have hout_nodup := hinv.out_nodup
      grind
    out_nodup := hinv.out_nodup.erase g
    sleeping := by
      have hsleeping := hinv.sleeping
      grind
    ordered := hinv.ordered_update (.inr rfl)
    future := by
      have hfuture := hinv.future
      grind
    queued := by
      have hqueued := hinv.queued
      grind
    handoff := by
      intro v hv t ht
      have hno := hinv.no_handoff hout.1 (by rw [hout.2]; exact nofun)
      have hvg : v ≠ g := by grind
      have hhandoff := hinv.handoff v hv t
      have hoccupies := hinv.occupies v hv
      grind
    one_victim := by
      have hone_victim := hinv.one_victim
      grind
    placed := by
      have hplaced := hinv.placed
      grind
    conserving := by
      have hconserving := hinv.conserving
      have hoccupied := hinv.occupied
      grind
    bar := by
      have hbar := hinv.bar
      have hoccupied := hinv.occupied
      grind
    user := by
      have huser := hinv.user
      have hoccupies := hinv.occupies
      grind
    joining := by
      have hjoining := hinv.joining
      have hoccupies := hinv.occupies
      grind
    marked := by
      have hmarked := hinv.marked
      grind
    fake := by
      have hfake := hinv.fake
      grind
    finishing := by
      have hfinishing := hinv.finishing
      grind
  }

/-- A victim hands its context to the thread chosen for it. -/
theorem Inv.handOver (hinv : Inv s none) (hg : g ∈ s.live) (hc : (s.thread g).cid = c)
    (hhand : (s.thread g).handoffThread = some dst) (hbar : s.bar c = .running) : Inv { s with
      thread := Function.update (Function.update s.thread g
        { s.thread g with state := .blocked, handoffThread := none }) dst
        { s.thread dst with state := .running, cid := c, place := .user }
      context := Function.update s.context c ⟨.used, some dst⟩ } none := by
  obtain ⟨hstate, hplace, -, hdst, hqueued, hnot, hmask⟩ := hinv.handoff g hg dst hhand
  have hon := hinv.occupies g hg (.inl hstate)
  have hlt := hinv.cid_lt g hg
  rw [hc] at hon hlt hmask
  have hno := hinv.no_handoff hdst (by rw [hqueued]; exact nofun)
  exact { hinv with
    cid_lt := by
      have hcid_lt := hinv.cid_lt
      grind
    idle := by
      have hidle := hinv.idle
      grind
    occupies := by
      have hoccupies := hinv.occupies
      have hoccupied := hinv.occupied
      grind
    occupied := by
      have hoccupied := hinv.occupied
      have hoccupies := hinv.occupies
      grind
    free := by
      have hfree := hinv.free
      grind
    out := by
      have hout := hinv.out
      grind
    sleeping := by
      have hsleeping := hinv.sleeping
      grind
    ordered := by
      refine hinv.ordered.imp_of_mem fun ha hb hle => ?_
      grind
    future := by
      have hfuture := hinv.future
      grind
    queued := by
      have hqueued := hinv.queued
      grind
    handoff := by
      intro v hv t ht
      have hvg : v ≠ g := by grind
      have hvd : v ≠ dst := by grind
      have hhandoff := hinv.handoff v hv t
      have hoccupies := hinv.occupies v hv
      have hone := hinv.one_victim v hv g hg
      grind
    one_victim := by
      have hone_victim := hinv.one_victim
      grind
    placed := by
      have hplaced := hinv.placed
      grind
    conserving := by
      have hconserving := hinv.conserving
      have hoccupied := hinv.occupied
      grind
    bar := by
      have hbar := hinv.bar
      have hoccupied := hinv.occupied
      grind
    user := by
      have huser := hinv.user
      have hoccupies := hinv.occupies
      grind
    joining := by
      have hjoining := hinv.joining
      have hoccupies := hinv.occupies
      grind
    marked := by
      have hmarked := hinv.marked
      grind
    fake := by
      have hfake := hinv.fake
      grind
    finishing := by
      have hfinishing := hinv.finishing
      grind
  }

/-- A thread changes what the queues and the contexts do not depend on. -/
theorem Inv.touch {th : ThreadInfo} (hinv : Inv s none) (hg : g ∈ s.live)
    (hstate : th.state = (s.thread g).state) (hcid : th.cid = (s.thread g).cid)
    (hmask : th.mask = (s.thread g).mask) (hhand : th.handoffThread = (s.thread g).handoffThread)
    (hwake : g ∉ s.sleepQueue ∨ th.wakeupPhase = (s.thread g).wakeupPhase)
    (hplace : (s.thread g).handoffThread = none ∨ th.place = (s.thread g).place)
    (huser : th.state = .running → th.place = .user → s.bar th.cid = .running)
    (hjoining : th.state = .running → th.place = .joining → s.bar th.cid ≠ .done)
    (hmarked : th.markedForSleep = true → th.state ≠ .sleeping ∧ th.state ≠ .queued ∧
      (th.state = .running → th.place = .user ∧ s.curPhase < th.wakeupPhase))
    (hfake : th.fakeLeave = true → th.state = .running ∧ th.place = .user ∧ th.markedForSleep = false)
    (hfinishing : th.registered = false → th.state = .out ∨ th.state = .blocked ∨ x = some g) :
    Inv (s.setThread g th) x := by
  unfold Sched.setThread
  exact { hinv with
    cid_lt := by
      have hcid_lt := hinv.cid_lt
      grind
    occupies := by
      have hoccupies := hinv.occupies
      grind
    occupied := by
      have hoccupied := hinv.occupied
      grind
    out := by
      have hout := hinv.out
      grind
    sleeping := by
      have hsleeping := hinv.sleeping
      grind
    ordered := hinv.ordered_update hwake
    future := by
      have hfuture := hinv.future
      grind
    queued := by
      have hqueued := hinv.queued
      grind
    handoff := by
      intro v hv t ht
      have hhandoff := hinv.handoff v hv t
      grind
    one_victim := by
      have hone_victim := hinv.one_victim
      grind
    placed := by
      have hplaced := hinv.placed
      grind
    conserving := by
      have hconserving := hinv.conserving
      grind
    bar := by
      have hbar := hinv.bar
      grind
    user := by
      have huser := hinv.user
      grind
    joining := by
      have hjoining := hinv.joining
      grind
    marked := by
      have hmarked := hinv.marked
      grind
    fake := by
      have hfake := hinv.fake
      grind
    finishing := by
      have hfinishing := hinv.finishing
      grind
  }

/-- A context changes its state in the barrier. -/
theorem Inv.touchBar {b : BarState} (hinv : Inv s x) (hc : c < s.numCores) (hb : b ≠ .left)
    (hbar : s.bar c ≠ .left) (hdone : b = .done → ∀ g, (s.context c).curThread = some g →
      (s.thread g).place = .syncing ∧ (s.thread g).handoffThread = none)
    (hrunning : s.bar c = .running → ∀ g, (s.context c).curThread = some g →
      (s.thread g).place = .user → b = .running) : Inv (s.setBar c b) x := by
  have hoccupies := hinv.occupies
  unfold Sched.setBar
  exact { hinv with
    handoff := by
      have hhandoff := hinv.handoff
      grind
    bar := by
      have hbar := hinv.bar
      grind
    user := by
      have huser := hinv.user
      grind
    joining := by
      have hjoining := hinv.joining
      grind
  }

/-- The barrier starts the next phase. -/
theorem Inv.nextPhase (hinv : Inv s x) :
    Inv { s with bar := fun c => if s.bar c = .done then .ready else s.bar c } x :=
  { hinv with
    handoff := by
      have hhandoff := hinv.handoff
      grind
    bar := by
      have hbar := hinv.bar
      grind
    user := by
      have huser := hinv.user
      grind
    joining := by
      have hjoining := hinv.joining
      grind
  }

theorem insertSleeper_perm (wakeupPhase : ℕ → ℕ) (g : ℕ) (l : List ℕ) :
    (insertSleeper wakeupPhase g l).Perm (g :: l) := by
  induction l with
  | nil => exact List.Perm.refl _
  | cons cur l ih =>
    unfold insertSleeper
    split
    · exact List.Perm.refl _
    · exact (ih.cons cur).trans (List.Perm.swap g cur l)

theorem insertSleeper_ordered {wakeupPhase : ℕ → ℕ} {l : List ℕ}
    (h : l.Pairwise fun a b => wakeupPhase a ≤ wakeupPhase b) :
    (insertSleeper wakeupPhase g l).Pairwise fun a b => wakeupPhase a ≤ wakeupPhase b := by
  induction l with
  | nil => exact List.pairwise_singleton ..
  | cons cur l ih =>
    obtain ⟨hcur, hl⟩ := List.pairwise_cons.mp h
    unfold insertSleeper
    split
    · rename_i hlt
      refine List.pairwise_cons.mpr ⟨fun a ha => ?_, h⟩
      cases List.mem_cons.mp ha with
      | inl heq => exact heq ▸ hlt.le
      | inr hmem => exact hlt.le.trans (hcur a hmem)
    · rename_i hle
      refine List.pairwise_cons.mpr ⟨fun a ha => ?_, ih hl⟩
      cases List.mem_cons.mp ((insertSleeper_perm wakeupPhase g l).mem_iff.mp ha) with
      | inl heq => exact heq ▸ Nat.le_of_not_lt hle
      | inr hmem => exact hcur a hmem

/-- A thread that is outside goes to sleep. -/
theorem Inv.sleep (hinv : Inv s none) (hg : g ∈ s.live) (hstate : (s.thread g).state = .blocked)
    (hmark : (s.thread g).markedForSleep = false) (hreg : (s.thread g).registered = true)
    (hphase : s.curPhase < (s.thread g).wakeupPhase) : Inv { s with
      thread := Function.update s.thread g { s.thread g with state := .sleeping }
      sleepQueue := insertSleeper (fun t => (s.thread t).wakeupPhase) g s.sleepQueue } none := by
  have hperm := insertSleeper_perm (fun t => (s.thread t).wakeupPhase) g s.sleepQueue
  have hnot : g ∉ s.sleepQueue := by
    have hsleeping := hinv.sleeping g
    grind
  have hmem : ∀ t, t ∈ insertSleeper (fun t => (s.thread t).wakeupPhase) g s.sleepQueue ↔
      t = g ∨ t ∈ s.sleepQueue := fun t => hperm.mem_iff.trans List.mem_cons
  have hno := hinv.no_handoff hg (by rw [hstate]; exact nofun)
  exact { hinv with
    cid_lt := by
      have hcid_lt := hinv.cid_lt
      grind
    occupies := by
      have hoccupies := hinv.occupies
      grind
    occupied := by
      have hoccupied := hinv.occupied
      grind
    out := by
      have hout := hinv.out
      grind
    sleeping := by
      have hsleeping := hinv.sleeping
      grind
    sleep_nodup := hperm.nodup_iff.mpr (List.nodup_cons.mpr ⟨hnot, hinv.sleep_nodup⟩)
    ordered := by
      refine (insertSleeper_ordered hinv.ordered).imp fun hle => ?_
      grind
    future := by
      have hfuture := hinv.future
      grind
    queued := by
      have hqueued := hinv.queued
      grind
    handoff := by
      intro v hv t ht
      have hvg : v ≠ g := by grind
      have hhandoff := hinv.handoff v hv t
      grind
    one_victim := by
      have hone_victim := hinv.one_victim
      grind
    placed := by
      have hplaced := hinv.placed
      grind
    conserving := by
      have hconserving := hinv.conserving
      grind
    bar := by
      have hbar := hinv.bar
      grind
    user := by
      have huser := hinv.user
      grind
    joining := by
      have hjoining := hinv.joining
      grind
    marked := by
      have hmarked := hinv.marked
      grind
    fake := by
      have hfake := hinv.fake
      grind
    finishing := by
      have hfinishing := hinv.finishing
      grind
  }

/-- A sleeper wakes up. -/
theorem Inv.wake {place : Place} (hinv : Inv s none) (hg : g ∈ s.sleepQueue) : Inv { s with
      thread := Function.update s.thread g { s.thread g with state := .blocked, place := place }
      sleepQueue := s.sleepQueue.erase g } none := by
  obtain ⟨hlive, hstate⟩ := (hinv.sleeping g).mp hg
  have hno := hinv.no_handoff hlive (by rw [hstate]; exact nofun)
  exact { hinv with
    cid_lt := by
      have hcid_lt := hinv.cid_lt
      grind
    occupies := by
      have hoccupies := hinv.occupies
      grind
    occupied := by
      have hoccupied := hinv.occupied
      grind
    out := by
      have hout := hinv.out
      grind
    sleeping := by
      have hsleeping := hinv.sleeping
      have hsleep_nodup := hinv.sleep_nodup
      grind
    sleep_nodup := hinv.sleep_nodup.erase g
    ordered := by
      refine (hinv.ordered.sublist List.erase_sublist).imp fun hle => ?_
      grind
    future := by
      have hfuture := hinv.future
      grind
    queued := by
      have hqueued := hinv.queued
      grind
    handoff := by
      intro v hv t ht
      have hvg : v ≠ g := by grind
      have hhandoff := hinv.handoff v hv t
      grind
    one_victim := by
      have hone_victim := hinv.one_victim
      grind
    placed := by
      have hplaced := hinv.placed
      grind
    conserving := by
      have hconserving := hinv.conserving
      grind
    bar := by
      have hbar := hinv.bar
      grind
    user := by
      have huser := hinv.user
      grind
    joining := by
      have hjoining := hinv.joining
      grind
    marked := by
      have hmarked := hinv.marked
      grind
    fake := by
      have hfake := hinv.fake
      grind
    finishing := by
      have hfinishing := hinv.finishing
      grind
  }

/-- The tick chooses a queued thread for the context of a RUNNING thread. -/
theorem Inv.choose {v : ℕ} (hinv : Inv s none) (hg : g ∈ s.runQueue) (hv : v ∈ s.live)
    (hstate : (s.thread v).state = .running) (hplace : (s.thread v).place = .syncing)
    (hbar : s.bar (s.thread v).cid ≠ .done) (hno : (s.thread v).handoffThread = none)
    (hmask : (s.thread g).mask (s.thread v).cid = true) : Inv { s with
      thread := Function.update s.thread v { s.thread v with handoffThread := some g }
      runQueue := s.runQueue.erase g } none := by
  have hqueued := hinv.queued g hg
  exact { hinv with
    cid_lt := by
      have hcid_lt := hinv.cid_lt
      grind
    occupies := by
      have hoccupies := hinv.occupies
      grind
    occupied := by
      have hoccupied := hinv.occupied
      grind
    out := by
      have hout := hinv.out
      grind
    sleeping := by
      have hsleeping := hinv.sleeping
      grind
    ordered := hinv.ordered_update (.inr rfl)
    future := by
      have hfuture := hinv.future
      grind
    queued := by
      have hqueued := hinv.queued
      have hrun_nodup := hinv.run_nodup
      grind
    run_nodup := hinv.run_nodup.erase g
    handoff := by
      intro w hw t ht
      have hhandoff := hinv.handoff w hw t
      have hrun_nodup := hinv.run_nodup
      grind
    one_victim := by
      have hone_victim := hinv.one_victim
      have hhandoff := hinv.handoff
      grind
    placed := by
      have hplaced := hinv.placed
      grind
    conserving := by
      have hconserving := hinv.conserving
      grind
    bar := by
      have hbar := hinv.bar
      grind
    user := by
      have huser := hinv.user
      grind
    joining := by
      have hjoining := hinv.joining
      grind
    marked := by
      have hmarked := hinv.marked
      grind
    fake := by
      have hfake := hinv.fake
      grind
    finishing := by
      have hfinishing := hinv.finishing
      grind
  }

/-- A thread that is outside may count as BLOCKED. -/
theorem Inv.block (hinv : Inv s none) (hg : g ∈ s.live)
    (hstate : (s.thread g).state = .started ∨ (s.thread g).state = .blocked) :
    Inv (s.setThread g { s.thread g with state := .blocked }) none := by
  have hno := hinv.no_handoff hg (by grind)
  unfold Sched.setThread
  exact { hinv with
    cid_lt := by
      have hcid_lt := hinv.cid_lt
      grind
    occupies := by
      have hoccupies := hinv.occupies
      grind
    occupied := by
      have hoccupied := hinv.occupied
      grind
    out := by
      have hout := hinv.out
      grind
    sleeping := by
      have hsleeping := hinv.sleeping
      grind
    ordered := hinv.ordered_update (.inr rfl)
    future := by
      have hfuture := hinv.future
      grind
    queued := by
      have hqueued := hinv.queued
      grind
    handoff := by
      intro v hv t ht
      have hvg : v ≠ g := by grind
      have hhandoff := hinv.handoff v hv t
      grind
    one_victim := by
      have hone_victim := hinv.one_victim
      grind
    placed := by
      have hplaced := hinv.placed
      grind
    conserving := by
      have hconserving := hinv.conserving
      grind
    bar := by
      have hbar := hinv.bar
      grind
    user := by
      have huser := hinv.user
      grind
    joining := by
      have hjoining := hinv.joining
      grind
    marked := by
      have hmarked := hinv.marked
      grind
    fake := by
      have hfake := hinv.fake
      grind
    finishing := by
      have hfinishing := hinv.finishing
      grind
  }

/-- The context of an OUT thread does not take part in the phase. -/
theorem Inv.left_of_out (hinv : Inv s x) (hg : g ∈ s.live) (hstate : (s.thread g).state = .out) :
    s.bar (s.thread g).cid = .left := by
  refine not_not.mp fun hbar => ?_
  obtain ⟨t, ht, hrun⟩ := (hinv.bar _ (hinv.cid_lt g hg)).mp hbar
  have hon := (hinv.occupies g hg (.inr hstate)).1
  have heq : g = t := Option.some.inj (hon.symm.trans ht)
  rw [← heq, hstate] at hrun
  exact nomatch hrun

/-- A thread that is outside, or in the run queue, is deleted. -/
theorem Inv.delete (hinv : Inv s x) (hx : x = none ∨ x = some g) (hg : g ∈ s.live) (hstate : (s.thread g).state = .started ∨
      (s.thread g).state = .blocked ∨ (s.thread g).state = .queued ∧ g ∈ s.runQueue) :
    Inv { s with runQueue := s.runQueue.erase g, live := s.live.erase g } none := by
  have hno := hinv.no_handoff hg (by grind)
  have hlive := hinv.live_nodup
  exact { hinv with
    cid_lt := by
      have hcid_lt := hinv.cid_lt
      grind
    live_nodup := hlive.erase g
    occupies := by
      have hoccupies := hinv.occupies
      grind
    occupied := by
      have hoccupied := hinv.occupied
      grind
    out := by
      have hout := hinv.out
      grind
    sleeping := by
      have hsleeping := hinv.sleeping
      grind
    queued := by
      have hqueued := hinv.queued
      have hrun_nodup := hinv.run_nodup
      grind
    run_nodup := hinv.run_nodup.erase g
    handoff := by
      intro v hv t ht
      have hhandoff := hinv.handoff v (List.mem_of_mem_erase hv) t ht
      grind
    one_victim := by
      have hone_victim := hinv.one_victim
      grind
    placed := by
      have hplaced := hinv.placed
      grind
    conserving := by
      have hconserving := hinv.conserving
      grind
    user := by
      have huser := hinv.user
      grind
    joining := by
      have hjoining := hinv.joining
      grind
    marked := by
      have hmarked := hinv.marked
      grind
    fake := by
      have hfake := hinv.fake
      grind
    finishing := by
      have hfinishing := hinv.finishing
      grind
  }

end Moves

end Zsim.SchedQueues
