import Zsim.SchedCalls
import Zsim.GuardedRuns
import Mathlib.Data.Finset.Card

/-!
# Runs of the scheduler

No assertion of the scheduler fails in a run whose threads finish while no
hand-off names them, and the contexts and the queues account for every thread.
-/

namespace Zsim.SchedQueues

open Sched GuardedRuns

section Finishing

variable {s : Sched} {x : Option ℕ} {g : ℕ} {avail : List ℕ}

/-- A finishing thread is deleted. -/
theorem finishRest_spec (hinv : Inv s x) (hx : x = none ∨ x = some g) (hg : g ∈ s.live)
    (hstate : (s.thread g).state = .started ∨ (s.thread g).state = .blocked ∨ (s.thread g).state = .out ∨
      (s.thread g).state = .queued ∧ g ∈ s.runQueue) :
    ∃ s', s.finishRest g = some s' ∧ Inv s' none ∧ s'.live = s.live.erase g ∧
      ∀ t, t ≠ g → s'.thread t = s.thread t := by
  have hrun := hinv.queued g
  have hout := hinv.out g
  have hsleeping := hinv.sleeping g
  unfold Sched.finishRest
  have houtside : (s.thread g).state = .started ∨ (s.thread g).state = .blocked → s.unowned g ∧
      Inv { s with live := s.live.erase g } none := by
    intro houtside
    have hunowned : s.unowned g := by
      unfold Sched.unowned
      grind
    have hdelete := hinv.delete hx hg (houtside.imp_right .inl)
    rw [List.erase_of_not_mem hunowned.1] at hdelete
    exact ⟨hunowned, hdelete⟩
  cases hst : (s.thread g).state with
  | started =>
    obtain ⟨hunowned, hdelete⟩ := houtside (.inl hst)
    dsimp only
    rw [if_pos hunowned]
    exact ⟨_, rfl, hdelete, rfl, fun _ _ => rfl⟩
  | blocked =>
    obtain ⟨hunowned, hdelete⟩ := houtside (.inr hst)
    dsimp only
    rw [if_pos hunowned]
    exact ⟨_, rfl, hdelete, rfl, fun _ _ => rfl⟩
  | queued =>
    have hmem : g ∈ s.runQueue := by grind
    dsimp only
    rw [if_pos hmem]
    exact ⟨_, rfl, hinv.delete hx hg (.inr (.inr ⟨hst, hmem⟩)), rfl, fun _ _ => rfl⟩
  | running => grind
  | sleeping => grind
  | out =>
    have hmem : g ∈ s.outQueue := hout.mpr ⟨hg, hst⟩
    obtain ⟨hon, -⟩ := hinv.occupies g hg (.inr hst)
    have hused : (s.context (s.thread g).cid).state = .used := by
      cases hidle : (s.context (s.thread g).cid).state with
      | used => rfl
      | idle => exact absurd (hon.symm.trans ((hinv.idle _).mp hidle)) nofun
    have hnot : (s.thread g).cid ∉ s.freeList := by
      have hfree := hinv.free (s.thread g).cid
      grind
    have hgr : g ∉ s.runQueue := by grind
    have hvacate := hinv.vacate hx hmem rfl
    have hdelete := hvacate.delete (g := g) (.inl rfl) hg (.inr (.inl (by simp)))
    dsimp only at hdelete ⊢
    rw [if_neg (fun hunowned => hunowned.2.1 hmem), if_pos hmem]
    unfold Sched.deschedule
    dsimp only
    rw [if_pos ⟨.inr hst, hused, rfl, hon, .inl rfl⟩, Option.bind_some, if_neg (by exact hnot)]
    rw [List.erase_of_not_mem hgr] at hdelete
    refine ⟨_, rfl, hdelete, rfl, fun t ht => ?_⟩
    dsimp only
    rw [Function.update_of_ne ht]

/-- A thread may finish: no hand-off names it, and if it is RUNNING, it is not
about to sleep, and the barrier runs its context or nobody waits for that. -/
def CanFinish (s : Sched) (g : ℕ) : Prop :=
  (s.thread g).handoffThread = none ∧ (∀ v ∈ s.live, (s.thread v).handoffThread ≠ some g) ∧
    ((s.thread g).state = .running → (s.thread g).markedForSleep = false ∧
      (s.bar (s.thread g).cid = .running ∨ ∀ q ∈ s.runQueue, (s.thread q).mask (s.thread g).cid = false))

/-- A thread that may finish leaves first. -/
theorem finishLeave_spec (hinv : Inv s none) (hg : g ∈ s.live) (hreg : (s.thread g).registered = true)
    (hcan : CanFinish s g) (havail : avail.Perm (List.range s.numCores)) :
    ∃ s', s.finishLeave g avail = some s' ∧ s'.live = s.live ∧ (s'.thread g).registered = false ∧
      (∀ t, t ≠ g → Carries s s' t) ∧
      ((s.thread g).state = .running → Inv s' none ∧ ((s'.thread g).state = .out ∨ (s'.thread g).state = .blocked)) ∧
      ((s.thread g).state ≠ .running → Inv s' (some g) ∧ (s'.thread g).state = (s.thread g).state ∧
        s'.runQueue = s.runQueue) := by
  obtain ⟨hhand, hnobody, hrunning⟩ := hcan
  obtain ⟨s₁, hs₁⟩ : ∃ s₁, s₁ = s.setThread g { s.thread g with registered := false, fakeLeave := false } := ⟨_, rfl⟩
  have hinv₁ : Inv s₁ (some g) := hs₁ ▸ hinv.touch hg rfl rfl rfl rfl (.inr rfl) (.inl hhand) (hinv.user g hg)
    (hinv.joining g hg) (hinv.marked g hg) (fun htrue => nomatch htrue) (fun _ => .inr (.inr rfl))
  have hself : s₁.thread g = { s.thread g with registered := false, fakeLeave := false } :=
    hs₁ ▸ Function.update_self ..
  have hothers : ∀ t, t ≠ g → s₁.thread t = s.thread t := fun t ht => hs₁ ▸ Function.update_of_ne ht ..
  have hfake : ¬((s.thread g).fakeLeave = true ∧ (s.thread g).state ≠ .running) :=
    fun hboth => hboth.2 (hinv.fake g hg hboth.1).1
  unfold Sched.finishLeave
  dsimp only
  rw [if_pos hreg, if_neg hfake, ← hs₁]
  by_cases hstate : (s.thread g).state = .running
  · obtain ⟨hmark, hbar⟩ := hrunning hstate
    have hbar₁ : s₁.bar = s.bar := hs₁ ▸ rfl
    have hrun₁ : s₁.runQueue = s.runQueue := hs₁ ▸ rfl
    have hlive₁ : s₁.live = s.live := hs₁ ▸ rfl
    have hcores₁ : s₁.numCores = s.numCores := hs₁ ▸ rfl
    have hcid₁ : (s₁.thread g).cid = (s.thread g).cid := by rw [hself]
    have hfree₁ : s₁.bar (s₁.thread g).cid = .running ∨
        ∀ q ∈ s₁.runQueue, (s₁.thread q).mask (s₁.thread g).cid = false := by
      rw [hbar₁, hrun₁, hcid₁]
      refine hbar.imp_right fun hnone q hq => ?_
      have hne : q ≠ g := by
        intro heq
        have hqueued := (hinv.queued q hq).2
        rw [heq, hstate] at hqueued
        exact nomatch hqueued
      rw [hothers q hne]
      exact hnone q hq
    obtain ⟨s', hleave, hinv', hlive, hout, hreg', hcarries⟩ := leave_unmarked hinv₁ (.inr rfl) (hlive₁ ▸ hg)
      (by rw [hself]; exact hstate) (by rw [hself]; exact hhand) (by rw [hself]) (by rw [hself]; exact hmark) hfree₁
      (hcores₁ ▸ havail)
    rw [if_pos hstate]
    rw [hcid₁] at hleave
    refine ⟨s', hleave, hlive.trans hlive₁, by rw [hreg', hself], fun t ht => ?_, fun _ => ⟨hinv', hout⟩,
      fun hne => absurd hstate hne⟩
    have ht' := hcarries t ht
    unfold Carries at ht' ⊢
    rwa [hothers t ht] at ht'
  · rw [if_neg hstate]
    refine ⟨s₁, rfl, hs₁ ▸ rfl, by rw [hself], fun t ht => ?_, fun hrun => absurd hrun hstate,
      fun _ => ⟨hinv₁, by rw [hself], hs₁ ▸ rfl⟩⟩
    unfold Carries
    rw [hothers t ht]
    exact ⟨rfl, .inl rfl⟩

/-- While as many threads are scheduled as are OUT, none is RUNNING. -/
theorem Inv.not_running (hinv : Inv s x) (hout : s.scheduledThreads = s.outQueue.length) (hg : g ∈ s.live) :
    (s.thread g).state ≠ .running := by
  intro hstate
  have hon := (hinv.occupies g hg (.inl hstate)).1
  -- the contexts in the list, those of the OUT threads and that of the thread are distinct
  have hnodup : (s.outQueue.map fun o => (s.thread o).cid).Nodup := by
    refine List.Nodup.map_on (fun o ho o' ho' heq => ?_) hinv.out_nodup
    have hmem := (hinv.out o).mp ho
    have hmem' := (hinv.out o').mp ho'
    have hon₁ := (hinv.occupies o hmem.1 (.inr hmem.2)).1
    have hon₂ := (hinv.occupies o' hmem'.1 (.inr hmem'.2)).1
    rw [heq] at hon₁
    exact Option.some.inj (hon₁.symm.trans hon₂)
  have hdisjoint : ∀ c ∈ s.freeList, c ∉ s.outQueue.map fun o => (s.thread o).cid := by
    intro c hc hmem
    obtain ⟨o, ho, hcid⟩ := List.mem_map.mp hmem
    have hmem' := (hinv.out o).mp ho
    have hon₁ := (hinv.occupies o hmem'.1 (.inr hmem'.2)).1
    have hfree := ((hinv.free c).mp hc).2
    rw [← hcid] at hfree
    exact absurd (hfree.symm.trans hon₁) nofun
  have hall : (s.freeList ++ s.outQueue.map fun o => (s.thread o).cid).Nodup :=
    List.nodup_append.mpr ⟨hinv.free_nodup, hnodup, fun c hc d hd heq => hdisjoint c hc (heq ▸ hd)⟩
  have hnot : (s.thread g).cid ∉ s.freeList ++ s.outQueue.map fun o => (s.thread o).cid := by
    intro hmem
    cases List.mem_append.mp hmem with
    | inl hfree => exact absurd ((((hinv.free _).mp hfree).2).symm.trans hon) nofun
    | inr hmap =>
      obtain ⟨o, ho, hcid⟩ := List.mem_map.mp hmap
      have hmem' := (hinv.out o).mp ho
      have hon₁ := (hinv.occupies o hmem'.1 (.inr hmem'.2)).1
      rw [hcid] at hon₁
      have heq : o = g := Option.some.inj (hon₁.symm.trans hon)
      rw [heq, hstate] at hmem'
      exact nomatch hmem'.2
  have hsubset : (s.thread g).cid :: (s.freeList ++ s.outQueue.map fun o => (s.thread o).cid) ⊆
      List.range s.numCores := by
    intro c hc
    have hcid := hinv.cid_lt
    have hfree := hinv.free c
    have hmem := hinv.out
    rw [List.mem_range]
    cases List.mem_cons.mp hc with
    | inl heq => exact heq ▸ hcid g hg
    | inr hc =>
      cases List.mem_append.mp hc with
      | inl hc => exact (hfree.mp hc).1
      | inr hc =>
        obtain ⟨o, ho, hcid'⟩ := List.mem_map.mp hc
        exact hcid' ▸ hcid o ((hmem o).mp ho).1
  have hle := (List.subperm_of_subset (List.nodup_cons.mpr ⟨hnot, hall⟩) hsubset).length_le
  rw [List.length_cons, List.length_append, List.length_map, List.length_range] at hle
  have hcount := hinv.count
  omega

/-- The watchdog may end phases while no thread is RUNNING. -/
theorem watchdog_spec (hinv : Inv s none) (hop : Enabled s (.watchdog avail)) :
    ∃ s', s.callback avail = some s' ∧ Inv s' none := by
  obtain ⟨hout, -, havail⟩ := hop
  have hnone : ∀ v ∈ s.live, (s.thread v).state ≠ .running := fun v hv => hinv.not_running hout hv
  obtain ⟨s', hcall, hinv', -⟩ := callback_spec hinv (fun v hv hrun => absurd hrun (hnone v hv))
    (fun v hv => hinv.no_handoff hv (hnone v hv)) havail
  exact ⟨s', hcall, hinv'⟩

end Finishing

section Runs

variable {s : Sched} {op : SchedOp}

/-- A thread finishes while no hand-off names it. -/
def Finishes (s : Sched) : SchedOp → Prop
  | .finish g _ => CanFinish s g
  | _ => True

/-- No assertion fails in an event, which keeps the invariant. -/
theorem Inv.step (hinv : Inv s none) (hop : Enabled s op) (hfinish : Finishes s op) :
    ∃ s', SchedQueues.step s op = some s' ∧ Inv s' none := by
  cases op with
  | start g mask =>
    obtain ⟨hg, c, hc, hmask⟩ := hop
    exact ⟨_, if_pos ⟨hg, c, hc, hmask⟩, hinv.start hg (by omega)⟩
  | join g => exact join_spec hinv hop
  | leave g avail =>
    obtain ⟨⟨hg, hreg, hstate, hplace, hfake⟩, havail⟩ := hop
    cases hmark : (s.thread g).markedForSleep with
    | true => exact leave_marked hinv hg hstate hreg hmark havail
    | false =>
      have hhand := hinv.no_handoff_of_user hg hplace
      have hbar := hinv.user g hg hstate hplace
      obtain ⟨s', hleave, hinv', -⟩ := leave_unmarked hinv (.inl rfl) hg hstate hhand hfake hmark (.inl hbar) havail
      exact ⟨s', hleave, hinv'⟩
  | syscallLeave g => exact syscallLeave_spec hinv hop
  | sync g avail => exact sync_spec hinv hop
  | release c => exact ⟨_, rfl, release_spec hinv hop⟩
  | joined g => exact ⟨_, rfl, joined_spec hinv hop⟩
  | resume g => exact resume_spec hinv hop
  | markForSleep g wakeupPhase => exact markForSleep_spec hinv hop
  | notifySleepEnd g =>
    obtain ⟨hg, -, hmark, hstate⟩ := hop
    obtain ⟨s', hend, hinv', -⟩ := notifySleepEnd_spec hinv hg hmark hstate
    exact ⟨s', hend, hinv'⟩
  | watchdog avail => exact watchdog_spec hinv hop
  | finish g avail =>
    obtain ⟨hg, hreg, hawake, havail⟩ := hop
    obtain ⟨s₁, hleave, hlive, hreg₁, -, hrunning, hother⟩ := finishLeave_spec hinv hg hreg hfinish havail
    dsimp only [SchedQueues.step]
    rw [hleave, Option.bind_some]
    by_cases hstate : (s.thread g).state = .running
    · rw [if_pos hstate]
      exact ⟨s₁, rfl, (hrunning hstate).1⟩
    · rw [if_neg hstate]
      obtain ⟨hinv₁, hsame, hqueue⟩ := hother hstate
      have hplaced := hinv.placed g hg
      have hnobody := hfinish.2.1
      obtain ⟨s', hrest, hinv', -⟩ := finishRest_spec hinv₁ (.inr rfl) (hlive ▸ hg) (by
        rw [hsame, hqueue]
        cases hst : (s.thread g).state <;> grind)
      exact ⟨s', hrest, hinv'⟩
  | finishRest g =>
    obtain ⟨hg, hreg⟩ := hop
    have hstate := hinv.finishing g hg hreg
    obtain ⟨s', hrest, hinv', -⟩ := finishRest_spec hinv (.inl rfl) hg (by grind)
    exact ⟨s', hrest, hinv'⟩

theorem Inv.perform {s' : Sched} (hinv : Inv s none) (hstep : SchedQueues.perform s op = some s')
    (hfinish : Finishes s op) : Inv s' none := by
  obtain ⟨hop, hstep⟩ := Option.ite_none_right_eq_some.mp hstep
  obtain ⟨s₁, hstep₁, hinv₁⟩ := hinv.step hop hfinish
  exact Option.some.inj (hstep₁.symm.trans hstep) ▸ hinv₁

/-- The contexts, the queues and the deadlines account for every thread. -/
structure ResourceInv (s : Sched) : Prop where
  free : ∀ c, c ∈ s.freeList ↔ c < s.numCores ∧ (s.context c).state = .idle
  used : ∀ c < s.numCores, (s.context c).state = .used → ∃! g, g ∈ s.live ∧
    ((s.thread g).state = .running ∨ (s.thread g).state = .out) ∧ (s.thread g).cid = c
  allowed : ∀ g ∈ s.live, (s.thread g).state = .running ∨ (s.thread g).state = .out →
    (s.thread g).cid < s.numCores ∧ (s.context (s.thread g).cid).curThread = some g ∧
      (s.thread g).mask (s.thread g).cid = true
  scheduled : s.scheduledThreads =
    ((Finset.range s.numCores).filter fun c => (s.context c).state = .used).card
  queued : ∀ g, g ∈ s.live ∧ (s.thread g).state = .queued ↔
    g ∈ s.runQueue ∨ ∃! v, v ∈ s.live ∧ (s.thread v).state = .running ∧ (s.thread v).handoffThread = some g
  once : ∀ v ∈ s.live, ∀ g ∈ s.runQueue, (s.thread v).handoffThread ≠ some g
  victims : ∀ v ∈ s.live, (s.thread v).handoffThread ≠ none → (s.thread v).state = .running
  conserving : ∀ g ∈ s.runQueue, ∀ c < s.numCores, (s.thread g).mask c = true →
    (s.context c).state = .used ∧ ∀ o ∈ s.live, (s.thread o).state = .out → (s.thread o).cid ≠ c
  ordered : s.sleepQueue.Pairwise fun g h => (s.thread g).wakeupPhase ≤ (s.thread h).wakeupPhase
  future : ∀ g ∈ s.sleepQueue, s.curPhase < (s.thread g).wakeupPhase

theorem Inv.used_iff (hinv : Inv s none) (c : ℕ) :
    (s.context c).state = .used ↔ ∃ g, (s.context c).curThread = some g := by
  have hidle := hinv.idle c
  cases hstate : (s.context c).state with
  | idle => simp [hidle.mp hstate]
  | used =>
    refine iff_of_true rfl (Option.ne_none_iff_exists'.mp fun hnone => ?_)
    exact absurd ((hidle.mpr hnone).symm.trans hstate) nofun

theorem Inv.resources (hinv : Inv s none) : ResourceInv s where
  free c := by rw [hinv.free, hinv.idle]
  used c hc hused := by
    obtain ⟨g, hg⟩ := (hinv.used_iff c).mp hused
    refine ⟨g, hinv.occupied c g hg, fun g' hg' => ?_⟩
    have hon := (hinv.occupies g' hg'.1 hg'.2.1).1
    rw [hg'.2.2] at hon
    exact Option.some.inj (hon.symm.trans hg)
  allowed g hg hstate := ⟨hinv.cid_lt g hg, hinv.occupies g hg hstate⟩
  scheduled := by
    have hsplit := Finset.card_filter_add_card_filter_not
      (s := Finset.range s.numCores) (fun c => (s.context c).state = .used)
    have hfree : ((Finset.range s.numCores).filter fun c => ¬(s.context c).state = .used) = s.freeList.toFinset := by
      ext c
      rw [Finset.mem_filter, Finset.mem_range, List.mem_toFinset, hinv.free, ← hinv.idle]
      cases (s.context c).state <;> simp
    rw [hfree, List.toFinset_card_of_nodup hinv.free_nodup, Finset.card_range] at hsplit
    have hcount := hinv.count
    omega
  queued g := by
    constructor
    · intro hg
      refine (hinv.placed g hg.1 hg.2).imp_right fun hvictim => ?_
      obtain ⟨v, hv, hhand⟩ := hvictim
      exact ⟨v, ⟨hv, (hinv.handoff v hv g hhand).1, hhand⟩,
        fun w hw => hinv.one_victim w hw.1 v hv g hw.2.2 hhand⟩
    · intro hg
      cases hg with
      | inl hg => exact hinv.queued g hg
      | inr hg =>
        obtain ⟨v, ⟨hv, -, hhand⟩, -⟩ := hg
        obtain ⟨-, -, -, hlive, hqueued, -⟩ := hinv.handoff v hv g hhand
        exact ⟨hlive, hqueued⟩
  once v hv g hg hhand := (hinv.handoff v hv g hhand).2.2.2.2.2.1 hg
  victims v hv hne := by
    obtain ⟨g, hhand⟩ := Option.ne_none_iff_exists'.mp hne
    exact (hinv.handoff v hv g hhand).1
  conserving g hg c hc hmask := by
    obtain ⟨h, hon, hrunning⟩ := hinv.conserving g hg c hc hmask
    refine ⟨(hinv.used_iff c).mpr ⟨h, hon⟩, fun o ho hout hcid => ?_⟩
    have hon' := (hinv.occupies o ho (.inr hout)).1
    rw [hcid] at hon'
    have heq : h = o := Option.some.inj (hon.symm.trans hon')
    rw [heq, hout] at hrunning
    exact nomatch hrunning
  ordered := hinv.ordered
  future := hinv.future

/-- `finish` is called by a thread that is STARTED, OUT or BLOCKED. -/
def FinishesOutside (s : Sched) : SchedOp → Prop
  | .finish g _ => (s.thread g).state = .started ∨ (s.thread g).state = .out ∨ (s.thread g).state = .blocked
  | _ => True

/-- No hand-off names a thread that is outside. -/
theorem Inv.finishes (hinv : Inv s none) (hop : Enabled s op) (houtside : FinishesOutside s op) : Finishes s op := by
  cases op with
  | finish g avail =>
    obtain ⟨hg, -⟩ := hop
    have hne : (s.thread g).state ≠ .running ∧ (s.thread g).state ≠ .queued := by
      obtain hst | hst | hst := houtside <;> rw [hst] <;> exact ⟨nofun, nofun⟩
    refine ⟨hinv.no_handoff hg hne.1, fun v hv hhand => ?_, fun hrunning => absurd hrunning hne.1⟩
    exact hne.2 (hinv.handoff v hv g hhand).2.2.2.2.1
  | _ => exact trivial

/-- In every run whose threads finish from outside, the scheduler accounts for
every thread, and no assertion fails in the next event. -/
theorem scheduler_accounts (numCores schedQuantum : ℕ) (ops : List SchedOp)
    (hops : EveryStep perform (fun s op _ => FinishesOutside s op) (.init numCores schedQuantum) ops) (s : Sched)
    (hrun : run perform (.init numCores schedQuantum) ops = some s) :
    ResourceInv s ∧ ∀ op, Enabled s op → FinishesOutside s op → (step s op).isSome := by
  have hstep : ∀ s op s', Inv s none → perform s op = some s' → FinishesOutside s op → Inv s' none := by
    intro s op s' hinv hstep houtside
    obtain ⟨hop, -⟩ := Option.ite_none_right_eq_some.mp hstep
    exact hinv.perform hstep (hinv.finishes hop houtside)
  have hinv : Inv s none := EveryStep.invariant hstep (inv_init numCores schedQuantum) hops hrun
  refine ⟨hinv.resources, fun op hop houtside => ?_⟩
  obtain ⟨s', hnext, -⟩ := hinv.step hop (hinv.finishes hop houtside)
  rw [hnext]
  rfl

/-- Two threads share a core; the first is marked for sleep and leaves. -/
def sleepAndQueue : List SchedOp :=
  [.start 0 fun _ => true, .join 0, .release 0, .joined 0, .start 1 fun _ => true, .join 1,
    .markForSleep 0 3, .leave 0 [0], .sync 1 [0], .release 0, .resume 1]

/-- The queued thread takes the core over, and the sleeper waits for its deadline. -/
theorem sleepAndQueue_accounts : ∃ s, run perform (.init 1 1) sleepAndQueue = some s ∧ s.sleepQueue = [0] ∧
    ResourceInv s := by
  have hrun : (run perform (.init 1 1) sleepAndQueue).map (fun s => s.sleepQueue) = some [0] := by decide
  obtain ⟨s, hs, hsleep⟩ := Option.map_eq_some_iff.mp hrun
  have hops : EveryStep perform (fun s op _ => FinishesOutside s op) (.init 1 1) sleepAndQueue := by
    repeat refine fun _ _ => ⟨trivial, ?_⟩
    exact trivial
  exact ⟨s, hs, hsleep, (scheduler_accounts 1 1 sleepAndQueue hops s hs).1⟩

end Runs

end Zsim.SchedQueues
