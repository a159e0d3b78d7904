import Zsim.SchedInvariant

/-!
# The calls to the scheduler

Every call is made of the moves of a thread and, where it may end a phase, of
the actions at the end of a phase. None of its assertions fails, and it keeps
the invariant.
-/

namespace Zsim.SchedQueues

open Sched

/-- What a call of another thread may do to a thread. -/
def Carries (s s' : Sched) (t : ℕ) : Prop :=
  (s'.thread t).registered = (s.thread t).registered ∧
    ((s'.thread t).state = (s.thread t).state ∨
      (s.thread t).state = .queued ∧ (s'.thread t).state = .running ∨
      (s.thread t).state = .sleeping ∧ (s'.thread t).state = .blocked)

theorem Carries.refl (s : Sched) (t : ℕ) : Carries s s t := ⟨rfl, .inl rfl⟩

theorem Carries.trans {s s' s'' : Sched} {t : ℕ} (h : Carries s s' t) (h' : Carries s' s'' t) :
    Carries s s'' t := by
  obtain ⟨hreg, hstate⟩ := h
  obtain ⟨hreg', hstate'⟩ := h'
  refine ⟨hreg'.trans hreg, ?_⟩
  grind

section Phases

variable {s : Sched} {l avail : List ℕ} {p : ℕ}

theorem wakeSleepers_bar (b : ℕ → BarState) : { s with bar := b }.wakeSleepers l =
    (s.wakeSleepers l).map fun s => { s with bar := b } := by
  induction l generalizing s with
  | nil => rfl
  | cons g l ih =>
    unfold Sched.wakeSleepers
    dsimp only
    split
    · split
      · exact @ih { s with
          thread := Function.update s.thread g { s.thread g with state := .blocked, place := .user }
          sleepQueue := s.sleepQueue.tail }
      · rfl
    · rfl

theorem schedTick_bar (b : ℕ → BarState) : { s with bar := b }.schedTick l avail =
    (s.schedTick l avail).map fun s => { s with bar := b } := by
  induction l generalizing s avail with
  | nil =>
    unfold Sched.schedTick
    rfl
  | cons g l ih =>
    cases avail with
    | nil =>
      unfold Sched.schedTick
      rfl
    | cons c avail =>
      unfold Sched.schedTick
      dsimp only
      split
      · exact ih
      · split
        · rfl
        · rename_i c' _ _ victimTh _
          exact @ih { s with
            thread := Function.update s.thread victimTh { s.thread victimTh with handoffThread := some g }
            runQueue := s.runQueue.erase g } ((c :: avail).erase c')

/-- The end of a phase does not depend on the barrier. -/
theorem callback_bar (b : ℕ → BarState) : { s with bar := b }.callback avail =
    (s.callback avail).map fun s => { s with bar := b } := by
  unfold Sched.callback
  dsimp only
  split
  · have hwake := @wakeSleepers_bar { s with curPhase := s.curPhase + 1 } s.sleepQueue b
    dsimp only at hwake
    rw [hwake, Option.map_bind, Option.bind_map]
    refine congrArg _ (funext fun s' => ?_)
    dsimp only [Function.comp]
    split
    · rfl
    · split
      · exact schedTick_bar b
      · rfl
  · rfl

/-- What the end of a phase leaves as it was. -/
structure SamePlaces (s s' : Sched) : Prop where
  numCores : s'.numCores = s.numCores
  live : s'.live = s.live
  context : s'.context = s.context
  bar : s'.bar = s.bar

/-- The sleepers that are due wake up, and no deadline has been missed. -/
theorem wakeSleepers_spec (hinv : Inv { s with curPhase := p } none) (hphase : s.curPhase = p + 1)
    (hl : s.sleepQueue = l) : ∃ s', s.wakeSleepers l = some s' ∧ Inv { s' with curPhase := p } none ∧
      SamePlaces s s' ∧ s'.curPhase = p + 1 ∧ s'.scheduledThreads = s.scheduledThreads ∧
      (∀ g ∈ s'.sleepQueue, p + 1 < (s'.thread g).wakeupPhase) ∧
      ∀ t, (s.thread t).state = .sleeping ∧ (s'.thread t).state = .blocked ∧
        (s'.thread t).registered = (s.thread t).registered ∨ s'.thread t = s.thread t := by
  induction l generalizing s with
  | nil => exact ⟨s, rfl, hinv, ⟨rfl, rfl, rfl, rfl⟩, hphase, rfl, by rw [hl]; exact nofun, fun _ => .inr rfl⟩
  | cons g l ih =>
    have hmem : g ∈ s.sleepQueue := hl ▸ List.mem_cons_self
    have hfuture : p < (s.thread g).wakeupPhase := hinv.future g hmem
    unfold Sched.wakeSleepers
    split
    · rename_i hle
      rw [hphase] at hle
      rw [if_pos (by omega)]
      have htail : s.sleepQueue.erase g = s.sleepQueue.tail := by
        rw [hl, List.erase_cons_head, List.tail_cons]
      have hwake := @Inv.wake _ g .user hinv hmem
      have hsleeping : (s.thread g).state = .sleeping := ((hinv.sleeping g).mp hmem).2
      dsimp only at hwake
      rw [htail] at hwake
      obtain ⟨s', hloop, hinv', hsame, hphase', hsched, hnext, hthreads⟩ := @ih { s with
        thread := Function.update s.thread g { s.thread g with state := .blocked, place := .user }
        sleepQueue := s.sleepQueue.tail } hwake hphase (by rw [hl]; rfl)
      refine ⟨s', hloop, hinv', ⟨hsame.numCores, hsame.live, hsame.context, hsame.bar⟩, hphase', hsched, hnext,
        fun t => ?_⟩
      have ht := hthreads t
      grind
    · rename_i hgt
      refine ⟨s, rfl, hinv, ⟨rfl, rfl, rfl, rfl⟩, hphase, rfl, fun t ht => ?_, fun _ => .inr rfl⟩
      have hordered := hinv.ordered
      dsimp only at hordered
      rw [hl] at ht hordered
      cases List.mem_cons.mp ht with
      | inl heq =>
        rw [heq]
        omega
      | inr ht =>
        have hle := (List.pairwise_cons.mp hordered).1 t ht
        omega

/-- The threads on the contexts wait for the next phase. -/
def AllDone (s : Sched) : Prop :=
  ∀ v ∈ s.live, (s.thread v).state = .running → (s.thread v).place = .syncing ∧ s.bar (s.thread v).cid ≠ .done

/-- Every context that a queued thread may use has a victim, which is RUNNING. -/
theorem schedTick_spec (hinv : Inv s none) (hdone : AllDone s) (hl : ∀ g ∈ l, g ∈ s.runQueue) (hnodup : l.Nodup)
    (havail : avail.Nodup) (hcores : ∀ c ∈ avail, c < s.numCores)
    (hno : ∀ c ∈ avail, ∀ v, (s.context c).curThread = some v → (s.thread v).handoffThread = none) :
    ∃ s', s.schedTick l avail = some s' ∧ Inv s' none ∧ SamePlaces s s' ∧ s'.curPhase = s.curPhase ∧
      ∀ t, (s'.thread t).state = (s.thread t).state ∧ (s'.thread t).registered = (s.thread t).registered := by
  induction l generalizing s avail with
  | nil =>
    unfold Sched.schedTick
    exact ⟨s, rfl, hinv, ⟨rfl, rfl, rfl, rfl⟩, rfl, fun _ => ⟨rfl, rfl⟩⟩
  | cons g l ih =>
    have hg : g ∈ s.runQueue := hl g List.mem_cons_self
    obtain ⟨hgl, hnodup⟩ := List.nodup_cons.mp hnodup
    cases havailable : avail with
    | nil =>
      unfold Sched.schedTick
      exact ⟨s, rfl, hinv, ⟨rfl, rfl, rfl, rfl⟩, rfl, fun _ => ⟨rfl, rfl⟩⟩
    | cons c₀ rest =>
      unfold Sched.schedTick
      rw [← havailable]
      dsimp only
      cases hfind : avail.find? (s.thread g).mask with
      | none =>
        exact ih hinv hdone (fun q hq => hl q (List.mem_cons_of_mem _ hq)) hnodup havail hcores hno
      | some c =>
        have hc := List.mem_of_find?_eq_some hfind
        have hmask : (s.thread g).mask c = true := List.find?_some hfind
        obtain ⟨v, hv, hrunning⟩ := hinv.conserving g hg c (hcores c hc) hmask
        obtain ⟨hlive, -, hcid⟩ := hinv.occupied c v hv
        obtain ⟨hplace, hbar⟩ := hdone v hlive hrunning
        have hnone := hno c hc v hv
        have hchoose := hinv.choose hg hlive hrunning hplace hbar hnone (hcid.symm ▸ hmask)
        dsimp only
        rw [hv]
        have hdone' : AllDone { s with
            thread := Function.update s.thread v { s.thread v with handoffThread := some g }
            runQueue := s.runQueue.erase g } := by
          unfold AllDone at hdone ⊢
          dsimp only
          grind
        have hl' : ∀ q ∈ l, q ∈ s.runQueue.erase g := by
          intro q hq
          have hne : q ≠ g := fun heq => hgl (heq ▸ hq)
          exact (List.mem_erase_of_ne hne).mpr (hl q (List.mem_cons_of_mem _ hq))
        obtain ⟨s', htick, hinv', hsame, hphase, hthreads⟩ := @ih { s with
          thread := Function.update s.thread v { s.thread v with handoffThread := some g }
          runQueue := s.runQueue.erase g } (avail.erase c) hchoose hdone' hl' hnodup (havail.erase c)
          (fun d hd => hcores d (List.mem_of_mem_erase hd))
          (by
            intro d hd w hw
            have hmem := List.mem_of_mem_erase hd
            have hdc : d ≠ c := fun heq => havail.not_mem_erase (heq ▸ hd)
            have hno' := hno d hmem w hw
            have hcid' := (hinv.occupied d w hw).2.2
            grind)
        refine ⟨s', htick, hinv', ⟨hsame.numCores, hsame.live, hsame.context, hsame.bar⟩, hphase, fun t => ?_⟩
        have ht := hthreads t
        grind

/-- No assertion fails at the end of a phase. -/
theorem callback_spec (hinv : Inv s none) (hdone : AllDone s)
    (hno : ∀ v ∈ s.live, (s.thread v).handoffThread = none) (havail : avail.Perm (List.range s.numCores)) :
    ∃ s', s.callback avail = some s' ∧ Inv s' none ∧ SamePlaces s s' ∧ ∀ t, Carries s s' t := by
  have hcount := hinv.count
  have hmarked := hinv.marked
  unfold Sched.callback
  rw [if_pos (by omega)]
  obtain ⟨s₁, hwake, hinv₁, hsame, hphase, -, hnext, hthreads⟩ :=
    @wakeSleepers_spec { s with curPhase := s.curPhase + 1 } s.sleepQueue s.curPhase hinv rfl rfl
  dsimp only
  rw [hwake, Option.bind_some]
  have hlive₁ : s₁.live = s.live := hsame.live
  have hinv₁' : Inv s₁ none := { hinv₁ with
    future := by
      rw [hphase]
      exact hnext
    marked := by
      intro g hg hmark
      have hold := hinv₁.marked g hg hmark
      refine ⟨hold.1, hold.2.1, fun hrun => ⟨(hold.2.2 hrun).1, ?_⟩⟩
      -- a RUNNING thread waits in `sync`, so that none is marked
      have hrun' : (s₁.thread g).state = .running := hrun
      have ht := hthreads g
      have hplace := hdone g (hlive₁ ▸ hg)
      have huser := (hold.2.2 hrun).1
      grind
    }
  have hcarries₁ : ∀ t, Carries s s₁ t := by
    intro t
    unfold Carries
    have ht := hthreads t
    grind
  have hsame₁ : SamePlaces s s₁ := ⟨hsame.numCores, hsame.live, hsame.context, hsame.bar⟩
  split
  · exact ⟨s₁, rfl, hinv₁', hsame₁, hcarries₁⟩
  · split
    · have hno₁ : ∀ v ∈ s₁.live, (s₁.thread v).handoffThread = none := by
        intro v hv
        have hv' := hno v (hlive₁ ▸ hv)
        have ht := hthreads v
        have hhandoff := hinv₁'.no_handoff hv
        grind
      have hdone₁ : AllDone s₁ := by
        intro v hv hrun
        have ht := hthreads v
        have hbar : s₁.bar = s.bar := hsame.bar
        have hv' := hdone v (hlive₁ ▸ hv)
        grind
      obtain ⟨s₂, htick, hinv₂, hsame₂, -, hthreads₂⟩ := schedTick_spec hinv₁' hdone₁ (fun _ hg => hg) hinv₁'.run_nodup
        (havail.nodup_iff.mpr List.nodup_range)
        (fun c hc => by
          rw [hsame₁.numCores]
          exact List.mem_range.mp (havail.mem_iff.mp hc))
        (fun c _ v hv => hno₁ v (hinv₁'.occupied c v hv).1)
      refine ⟨s₂, htick, hinv₂, ⟨hsame₂.numCores.trans hsame₁.numCores, hsame₂.live.trans hsame₁.live,
        hsame₂.context.trans hsame₁.context, hsame₂.bar.trans hsame₁.bar⟩, fun t => ?_⟩
      exact (hcarries₁ t).trans ⟨(hthreads₂ t).2, .inl (hthreads₂ t).1⟩
    · exact ⟨s₁, rfl, hinv₁', hsame₁, hcarries₁⟩

/-- A phase may end. -/
theorem tryEndPhase_spec (hinv : Inv s none) (havail : avail.Perm (List.range s.numCores)) :
    ∃ s', s.tryEndPhase avail = some s' ∧ Inv s' none ∧ s'.live = s.live ∧ ∀ t, Carries s s' t := by
  unfold Sched.tryEndPhase
  split
  · rename_i hover
    obtain ⟨b, hb⟩ : ∃ b : ℕ → BarState, b = fun c => if s.bar c = .done then .ready else s.bar c := ⟨_, rfl⟩
    have hnext : Inv { s with bar := b } none := hb ▸ hinv.nextPhase
    have hrunning : ∀ v ∈ s.live, (s.thread v).state = .running → s.bar (s.thread v).cid = .done := by
      intro v hv hrun
      have hlt := hinv.cid_lt v hv
      have hon := (hinv.occupies v hv (.inl hrun)).1
      have hbar := (hinv.bar _ hlt).mpr ⟨v, hon, hrun⟩
      exact (hover.1 _ hlt).resolve_left hbar
    have hdone : AllDone { s with bar := b } := by
      intro v hv hrun
      have hbar := hrunning v hv hrun
      have huser := hinv.user v hv hrun
      have hjoining := hinv.joining v hv hrun
      dsimp only at hrun ⊢
      cases hplace : (s.thread v).place with
      | user => exact absurd (hbar.symm.trans (huser hplace)) nofun
      | joining => exact absurd hbar (hjoining hplace)
      | syncing =>
        refine ⟨rfl, ?_⟩
        rw [hb]
        dsimp only
        rw [if_pos hbar]
        exact nofun
    have hno : ∀ v ∈ s.live, (s.thread v).handoffThread = none := by
      intro v hv
      cases hhand : (s.thread v).handoffThread with
      | none => rfl
      | some t =>
        obtain ⟨hrun, -, hbar, -⟩ := hinv.handoff v hv t hhand
        exact absurd (hrunning v hv hrun) hbar
    obtain ⟨s', hcall, hinv', hsame, hcarries⟩ := callback_spec hnext hdone hno havail
    rw [callback_bar] at hcall
    obtain ⟨s₁, hcall₁, hs'⟩ := Option.map_eq_some_iff.mp hcall
    have hbar₁ : s₁.bar = s.bar := by
      have hself := @callback_bar s avail s.bar
      rw [hcall₁] at hself
      have hsame₁ : s₁ = { s₁ with bar := s.bar } := Option.some.inj hself
      rw [hsame₁]
    refine ⟨s', ?_, hinv', hsame.live, hcarries⟩
    rw [hcall₁, Option.map_some, ← hs', hb, hbar₁]
  · exact ⟨s, rfl, hinv, rfl, Carries.refl s⟩

end Phases

section Leaving

variable {s : Sched} {x : Option ℕ} {g dst c : ℕ} {avail : List ℕ} {target : ThreadState}

/-- A context leaves the barrier, where it took part. -/
theorem barLeave_spec (hbar : s.bar c ≠ .left) (hinv : Inv (s.setBar c .left) none)
    (havail : avail.Perm (List.range s.numCores)) : ∃ s', s.barLeave c avail = some s' ∧ Inv s' none ∧
      s'.live = s.live ∧ ∀ t, Carries s s' t := by
  unfold Sched.barLeave
  cases hb : s.bar c with
  | left => exact absurd hb hbar
  | running => exact tryEndPhase_spec hinv havail
  | ready => exact ⟨_, rfl, hinv, rfl, Carries.refl s⟩
  | done => exact ⟨_, rfl, hinv, rfl, Carries.refl s⟩

/-- One thread is descheduled, and a queued one takes its context over. -/
theorem relay (hstate : (s.thread g).state = .running) (hused : (s.context c).state = .used)
    (hcid : c = (s.thread g).cid) (hon : (s.context c).curThread = some g)
    (htarget : target = .blocked ∨ target = .queued ∨ target = .sleeping)
    (hne : dst ≠ g) (hdst : (s.thread dst).state = .queued) (hroom : 0 < s.scheduledThreads) :
    ((s.deschedule g c target).bind fun s => (s.schedule dst c).map fun s => s.wakeup dst) = some { s with
      thread := Function.update (Function.update s.thread g { s.thread g with state := target }) dst
        { s.thread dst with state := .running, cid := c, place := .user }
      context := Function.update s.context c ⟨.used, some dst⟩ } := by
  unfold Sched.deschedule
  rw [if_pos ⟨.inl hstate, hused, hcid, hon, htarget⟩, Option.bind_some]
  unfold Sched.schedule
  dsimp only
  rw [Function.update_of_ne hne, if_pos ⟨.inr (.inr hdst), by rw [Function.update_self],
    by rw [Function.update_self]⟩, Option.map_some]
  unfold Sched.wakeup Sched.setThread
  dsimp only
  rw [Function.update_self, Function.update_idem, Function.update_idem, Nat.sub_add_cancel hroom]

theorem schedContext_none (hnobody : ∀ q ∈ s.runQueue, (s.thread q).mask c = false) :
    s.schedContext c = (none, s) := by
  unfold Sched.schedContext
  rw [List.find?_eq_none.mpr fun q hq => by rw [hnobody q hq]; exact Bool.false_ne_true]

theorem schedContext_some (hfind : s.runQueue.find? (fun q => (s.thread q).mask c) = some dst) :
    s.schedContext c = (some dst, { s with runQueue := s.runQueue.erase dst }) := by
  unfold Sched.schedContext
  rw [hfind]

/-- A RUNNING thread is in no queue. -/
theorem Inv.unowned_of_running (hinv : Inv s x) (hg : g ∈ s.live) (hstate : (s.thread g).state = .running) :
    s.unowned g := by
  have hqueued := hinv.queued g
  have hout := hinv.out g
  have hsleeping := hinv.sleeping g
  unfold Sched.unowned
  grind

theorem Inv.used_of_running (hinv : Inv s x) (hg : g ∈ s.live) (hstate : (s.thread g).state = .running) :
    (s.context (s.thread g).cid).state = .used := by
  obtain ⟨hon, -⟩ := hinv.occupies g hg (.inl hstate)
  cases hidle : (s.context (s.thread g).cid).state with
  | used => rfl
  | idle => exact absurd (hon.symm.trans ((hinv.idle _).mp hidle)) nofun

/-- A RUNNING thread that is not marked for sleep leaves. -/
theorem leave_unmarked (hinv : Inv s x) (hx : x = none ∨ x = some g) (hg : g ∈ s.live)
    (hstate : (s.thread g).state = .running) (hhand : (s.thread g).handoffThread = none)
    (hfake : (s.thread g).fakeLeave = false) (hmark : (s.thread g).markedForSleep = false)
    (hbar : s.bar (s.thread g).cid = .running ∨ ∀ q ∈ s.runQueue, (s.thread q).mask (s.thread g).cid = false)
    (havail : avail.Perm (List.range s.numCores)) :
    ∃ s', s.leave g (s.thread g).cid avail = some s' ∧ Inv s' none ∧ s'.live = s.live ∧
      ((s'.thread g).state = .out ∨ (s'.thread g).state = .blocked) ∧
      (s'.thread g).registered = (s.thread g).registered ∧ ∀ t, t ≠ g → Carries s s' t := by
  obtain ⟨hon, -⟩ := hinv.occupies g hg (.inl hstate)
  have hlt := hinv.cid_lt g hg
  have hjoined := (hinv.bar _ hlt).mpr ⟨g, hon, hstate⟩
  unfold Sched.leave
  rw [if_pos ⟨hon, hstate⟩, if_neg (by rw [hmark]; exact Bool.false_ne_true)]
  cases hfind : s.runQueue.find? (fun q => (s.thread q).mask (s.thread g).cid) with
  | none =>
    have hnobody : ∀ q ∈ s.runQueue, (s.thread q).mask (s.thread g).cid = false := fun q hq =>
      Bool.eq_false_iff.mpr (List.find?_eq_none.mp hfind q hq)
    rw [schedContext_none hnobody]
    dsimp only
    rw [if_pos (hinv.unowned_of_running hg hstate)]
    have hmove := hinv.toOut hx hg hstate hhand hfake hnobody
    obtain ⟨s', hleave, hinv', hlive, hcarries⟩ := @barLeave_spec
      { s.setThread g { s.thread g with state := .out } with outQueue := s.outQueue ++ [g] } (s.thread g).cid avail
      hjoined hmove havail
    have hself := hcarries g
    unfold Carries Sched.setThread at hself
    refine ⟨s', hleave, hinv', hlive, ?_, ?_, fun t ht => ?_⟩
    · grind
    · grind
    · have ht' := hcarries t
      unfold Carries Sched.setThread at ht'
      unfold Carries
      grind
  | some dst =>
    have hdst := List.mem_of_find?_eq_some hfind
    have hmask : (s.thread dst).mask (s.thread g).cid = true := @List.find?_some _
      (fun q => (s.thread q).mask (s.thread g).cid) _ _ hfind
    have hqueued := hinv.queued dst hdst
    have hbar' : s.bar (s.thread g).cid = .running := by
      refine hbar.resolve_right fun hnobody => ?_
      rw [hnobody dst hdst] at hmask
      exact Bool.false_ne_true hmask
    have hne : dst ≠ g := by
      intro heq
      rw [heq, hstate] at hqueued
      exact nomatch hqueued.2
    have hnot : (s.thread g).cid ∉ s.freeList := by
      have hfree := hinv.free (s.thread g).cid
      grind
    have hused := hinv.used_of_running hg hstate
    rw [schedContext_some hfind]
    dsimp only
    have hrelay := @relay { s with runQueue := s.runQueue.erase dst } g dst (s.thread g).cid .blocked hstate hused rfl
      hon (.inl rfl) hne hqueued.2 (hinv.free_room hnot hlt)
    rw [hrelay]
    refine ⟨_, rfl, hinv.swapOut hx hg hstate hhand hfake rfl hdst hmask hbar', rfl, ?_, ?_, fun t ht => ?_⟩
    · grind
    · grind
    · unfold Carries
      grind

/-- A context without a thread is passed on. -/
theorem passContext_spec (hctx : s.context c = ⟨.idle, none⟩) (hnot : c ∉ s.freeList) (hbar : s.bar c ≠ .left)
    (hqueued : ∀ q ∈ s.runQueue, (s.thread q).state = .queued)
    (hidle : (∀ q ∈ s.runQueue, (s.thread q).mask c = false) →
      Inv { s with freeList := s.freeList ++ [c], bar := Function.update s.bar c .left } none)
    (hswap : ∀ dst ∈ s.runQueue, (s.thread dst).mask c = true → Inv { s with
      thread := Function.update s.thread dst { s.thread dst with state := .running, cid := c, place := .user }
      context := Function.update s.context c ⟨.used, some dst⟩
      scheduledThreads := s.scheduledThreads + 1
      runQueue := s.runQueue.erase dst } none)
    (havail : avail.Perm (List.range s.numCores)) : ∃ s', s.passContext c avail = some s' ∧ Inv s' none := by
  unfold Sched.passContext
  cases hfind : s.runQueue.find? (fun q => (s.thread q).mask c) with
  | none =>
    have hnobody : ∀ q ∈ s.runQueue, (s.thread q).mask c = false := fun q hq =>
      Bool.eq_false_iff.mpr (List.find?_eq_none.mp hfind q hq)
    rw [schedContext_none hnobody]
    dsimp only
    rw [if_neg hnot]
    obtain ⟨s', hleave, hinv', -⟩ := @barLeave_spec { s with freeList := s.freeList ++ [c] } c avail hbar
      (hidle hnobody) havail
    exact ⟨s', hleave, hinv'⟩
  | some dst =>
    have hdst := List.mem_of_find?_eq_some hfind
    have hmask : (s.thread dst).mask c = true := @List.find?_some _ (fun q => (s.thread q).mask c) _ _ hfind
    rw [schedContext_some hfind]
    dsimp only
    unfold Sched.schedule
    dsimp only
    rw [if_pos ⟨.inr (.inr (hqueued dst hdst)), by rw [hctx], by rw [hctx]⟩]
    refine ⟨_, rfl, ?_⟩
    unfold Sched.wakeup Sched.setThread
    dsimp only
    rw [Function.update_self, Function.update_idem]
    exact hswap dst hdst hmask

/-- A thread that is marked for sleep leaves and goes to sleep. -/
theorem leave_marked (hinv : Inv s none) (hg : g ∈ s.live) (hstate : (s.thread g).state = .running)
    (hreg : (s.thread g).registered = true) (hmark : (s.thread g).markedForSleep = true)
    (havail : avail.Perm (List.range s.numCores)) :
    ∃ s', s.leave g (s.thread g).cid avail = some s' ∧ Inv s' none := by
  obtain ⟨hon, -⟩ := hinv.occupies g hg (.inl hstate)
  have hlt := hinv.cid_lt g hg
  obtain ⟨hplace, hphase⟩ := (hinv.marked g hg hmark).2.2 hstate
  have hbar := hinv.user g hg hstate hplace
  have hhand : (s.thread g).handoffThread = none := by
    cases hhand : (s.thread g).handoffThread with
    | none => rfl
    | some t => exact absurd (hplace.symm.trans (hinv.handoff g hg t hhand).2.1) nofun
  have hfake : (s.thread g).fakeLeave = false := by
    refine Bool.eq_false_iff.mpr fun hfake => ?_
    exact absurd ((hinv.fake g hg hfake).2.2.symm.trans hmark) Bool.false_ne_true
  have hnot : (s.thread g).cid ∉ s.freeList := by
    have hfree := hinv.free (s.thread g).cid
    grind
  have hroom := hinv.free_room hnot hlt
  -- the mark is taken off first
  have hinv₁ : Inv { s with
      thread := Function.update s.thread g { s.thread g with markedForSleep := false } } none :=
    hinv.touch hg rfl rfl rfl rfl (.inr rfl) (.inl hhand) (fun _ _ => hbar)
      (fun _ hjoining => absurd (hplace.symm.trans hjoining) nofun) (fun htrue => absurd htrue Bool.false_ne_true)
      (fun htrue => absurd (hfake.symm.trans htrue) Bool.false_ne_true)
      (fun hno => absurd (hreg.symm.trans hno) nofun)
  have hsleeps : s.fallAsleep g (s.thread g).cid = some { s with
      thread := Function.update s.thread g { s.thread g with markedForSleep := false, state := .sleeping }
      context := Function.update s.context (s.thread g).cid ⟨.idle, none⟩
      scheduledThreads := s.scheduledThreads - 1
      sleepQueue := insertSleeper (fun t => (s.thread t).wakeupPhase) g s.sleepQueue } := by
    unfold Sched.fallAsleep Sched.deschedule Sched.setThread
    dsimp only
    rw [Function.update_self, Function.update_idem, if_pos ⟨.inl hstate, hinv.used_of_running hg hstate, rfl, hon,
      .inr (.inr rfl)⟩, Option.bind_some, if_pos (by exact hinv.unowned_of_running hg hstate)]
    congr 2
    congr 1
    grind
  unfold Sched.leave
  rw [if_pos ⟨hon, hstate⟩, if_pos hmark, hsleeps, Option.bind_some]
  have hgr : g ∉ s.runQueue := (hinv.unowned_of_running hg hstate).1
  refine passContext_spec (Function.update_self ..) hnot ?_ (fun q hq => ?_) (fun hnobody => ?_) (fun dst hdst hmask => ?_)
    havail
  · exact fun hleft => absurd (hleft.symm.trans hbar) nofun
  · have hqueued := hinv.queued q hq
    grind
  · have hfree := hinv₁.idleOut (c := (s.thread g).cid) hg (by simp [hstate]) (by simp [hhand]) (by simp [hfake])
      (by simp) (fun q hq => ?_)
    · have hsleep := hfree.sleep hg (by simp) (by simp) (by simp [hreg]) (by simpa using hphase)
      refine Eq.mp (congrArg (fun t => Inv t none) ?_) hsleep
      congr 1
      · grind
      · congr 1
        grind
    · have hmask := hnobody q hq
      dsimp only at hmask ⊢
      grind
  · have hmask' : ((Function.update s.thread g { s.thread g with markedForSleep := false }) dst).mask
        (s.thread g).cid = true := by
      dsimp only at hmask
      grind
    have hne : dst ≠ g := fun heq => hgr (heq ▸ hdst)
    have hswap := hinv₁.swapOut (c := (s.thread g).cid) (.inl rfl) hg (by simp [hstate]) (by simp [hhand])
      (by simp [hfake]) (by simp) hdst hmask' hbar
    have hsleep := hswap.sleep hg (by simp [hne.symm]) (by simp [hne.symm]) (by simp [hne.symm, hreg])
      (by simpa [hne.symm] using hphase)
    refine Eq.mp (congrArg (fun t => Inv t none) ?_) hsleep
    congr 1
    · grind
    · grind
    · congr 1
      grind
    · dsimp only
      omega

end Leaving

section Joining

variable {s : Sched} {g c : ℕ}

/-- An idle context does not take part in the phase. -/
theorem Inv.left_of_idle {x : Option ℕ} (hinv : Inv s x) (hlt : c < s.numCores)
    (hidle : (s.context c).curThread = none) : s.bar c = .left := by
  refine not_not.mp fun hbar => ?_
  obtain ⟨t, ht, -⟩ := (hinv.bar c hlt).mp hbar
  exact absurd (hidle.symm.trans ht) nofun

/-- A thread gets a context from the list. -/
theorem take_spec (hinv : Inv (s.setThread g { s.thread g with state := .blocked }) none) (hg : g ∈ s.live)
    (hstate : (s.thread g).state = .started ∨ (s.thread g).state = .blocked ∨ (s.thread g).state = .queued)
    (hmark : (s.thread g).markedForSleep = false) (hreg : (s.thread g).registered = true)
    (hc : c ∈ s.freeList) (hmask : (s.thread g).mask c = true) :
    ∃ s', ({ s with freeList := s.freeList.erase c }.schedule g c).bind (fun s => s.enterBarrier g c) = some s' ∧
      Inv s' none := by
  obtain ⟨hlt, hidle⟩ := (hinv.free c).mp hc
  have hleft : s.bar c = .left := hinv.left_of_idle hlt hidle
  have hidle' : (s.context c).state = .idle := (hinv.idle c).mpr hidle
  unfold Sched.setThread at hinv
  have htake := hinv.take (c := c) hg (by simp) (by simpa using hmark) (by simpa using hreg) hc (by simpa using hmask)
  unfold Sched.schedule
  dsimp only
  rw [if_pos ⟨hstate, hidle', hidle⟩, Option.bind_some]
  unfold Sched.enterBarrier Sched.barJoin
  rw [if_pos (by exact hleft), Option.map_some]
  refine ⟨_, rfl, Eq.mp (congrArg (fun t => Inv t none) ?_) htake⟩
  unfold Sched.setBar Sched.setThread
  congr 1
  dsimp only
  rw [Function.update_self, Function.update_self, Function.update_idem, Function.update_idem]

/-- A thread gets the context of a thread that is OUT. -/
theorem steal_spec {o : ℕ} (hinv : Inv (s.setThread g { s.thread g with state := .blocked }) none) (hg : g ∈ s.live)
    (hstate : (s.thread g).state = .started ∨ (s.thread g).state = .blocked ∨ (s.thread g).state = .queued)
    (hmark : (s.thread g).markedForSleep = false) (hreg : (s.thread g).registered = true)
    (ho : o ∈ s.outQueue) (hc : (s.thread o).cid = c) (hmask : (s.thread g).mask c = true) :
    ∃ s', (({ s with outQueue := s.outQueue.erase o }.deschedule o c .blocked).bind fun s =>
      (s.schedule g c).bind fun s => s.enterBarrier g c) = some s' ∧ Inv s' none := by
  have hne : o ≠ g := by
    intro heq
    have hblocked := (hinv.out o).mp ho
    unfold Sched.setThread at hblocked
    dsimp only at hblocked
    rw [heq, Function.update_self] at hblocked
    exact absurd hblocked.2 nofun
  unfold Sched.setThread at hinv
  obtain ⟨hlive, hout⟩ := (hinv.out o).mp ho
  have hlt := hinv.cid_lt o hlive
  have hon := hinv.occupies o hlive (.inr hout)
  have hoccupied := hinv.occupied c
  dsimp only at hout hlt hon hoccupied
  rw [Function.update_of_ne hne] at hout hlt hon
  rw [hc] at hlt hon
  have hleft : s.bar c = .left := by
    refine not_not.mp fun hbar => ?_
    obtain ⟨t, ht, hrun⟩ := (hinv.bar c hlt).mp hbar
    grind
  have hused : (s.context c).state = .used := by
    cases hidle : (s.context c).state with
    | used => rfl
    | idle => exact absurd (hon.1.symm.trans ((hinv.idle c).mp hidle)) nofun
  have hnot : c ∉ s.freeList := by
    have hfree := hinv.free c
    grind
  have hroom := hinv.free_room hnot hlt
  have hsteal := hinv.steal (o := o) (c := c) hg (by simp) (by simpa using hmark) (by simpa using hreg) ho
    (by simpa [hne] using hc) (by simpa using hmask)
  unfold Sched.deschedule
  dsimp only
  rw [if_pos ⟨.inr hout, hused, hc.symm, hon.1, .inl rfl⟩, Option.bind_some]
  unfold Sched.schedule
  dsimp only
  rw [if_pos ⟨by rw [Function.update_of_ne hne.symm]; exact hstate, by rw [Function.update_self],
    by rw [Function.update_self]⟩, Option.bind_some]
  unfold Sched.enterBarrier Sched.barJoin
  rw [if_pos (by exact hleft), Option.map_some]
  refine ⟨_, rfl, Eq.mp (congrArg (fun t => Inv t none) ?_) hsteal⟩
  unfold Sched.setBar Sched.setThread
  congr 1
  · grind
  · dsimp only
    rw [Function.update_idem]
  · dsimp only at hroom ⊢
    omega

/-- A thread that is on no context gets one or queues. -/
theorem findContext_spec (hinv : Inv (s.setThread g { s.thread g with state := .blocked }) none) (hg : g ∈ s.live)
    (hstate : (s.thread g).state = .started ∨ (s.thread g).state = .blocked ∨ (s.thread g).state = .queued)
    (hmark : (s.thread g).markedForSleep = false) (hreg : (s.thread g).registered = true) :
    ∃ s', s.findContext g = some s' ∧ Inv s' none := by
  have hlt : (s.thread g).cid < s.numCores := by
    have hcid := hinv.cid_lt g hg
    unfold Sched.setThread at hcid
    dsimp only at hcid
    rwa [Function.update_self] at hcid
  unfold Sched.findContext Sched.schedThread
  dsimp only
  rw [if_pos hlt]
  by_cases hlast : (s.context (s.thread g).cid).state = .idle ∧ (s.thread g).mask (s.thread g).cid = true
  · have hfree : (s.thread g).cid ∈ s.freeList := (hinv.free _).mpr ⟨hlt, (hinv.idle _).mp hlast.1⟩
    rw [if_pos hlast, if_pos hfree, Option.bind_some]
    exact take_spec hinv hg hstate hmark hreg hfree hlast.2
  · rw [if_neg hlast]
    cases hfind : s.freeList.find? (s.thread g).mask with
    | some c =>
      dsimp only
      rw [Option.bind_some]
      exact take_spec hinv hg hstate hmark hreg (List.mem_of_find?_eq_some hfind) (List.find?_some hfind)
    | none =>
      dsimp only
      cases hout : s.outQueue.find? (fun outTh => (s.thread g).mask (s.thread outTh).cid) with
      | some o =>
        have hmask : (s.thread g).mask (s.thread o).cid = true := @List.find?_some _
          (fun outTh => (s.thread g).mask (s.thread outTh).cid) _ _ hout
        dsimp only
        rw [Option.bind_map]
        exact steal_spec hinv hg hstate hmark hreg (List.mem_of_find?_eq_some hout) rfl hmask
      | none =>
        have hunowned : s.unowned g := by
          have hqueued := hinv.queued g
          have hout' := hinv.out g
          have hsleeping := hinv.sleeping g
          unfold Sched.setThread at hqueued hout' hsleeping
          unfold Sched.unowned
          grind
        have hfree : ∀ c ∈ s.freeList, (s.thread g).mask c = false := fun c hc =>
          Bool.eq_false_iff.mpr (List.find?_eq_none.mp hfind c hc)
        have hnone : ∀ o ∈ s.outQueue, (s.thread g).mask (s.thread o).cid = false := fun o ho =>
          Bool.eq_false_iff.mpr (List.find?_eq_none.mp hout o ho)
        dsimp only
        rw [Option.bind_some]
        dsimp only
        rw [if_pos hunowned]
        unfold Sched.setThread at hinv
        have henqueue := hinv.enqueue (g := g) hg (by simp) (by simpa using hmark) (by simpa using hreg)
          (by simpa using hfree) (fun o ho => by have ho' := hnone o ho; grind)
        refine ⟨_, rfl, Eq.mp (congrArg (fun t => Inv t none) ?_) henqueue⟩
        unfold Sched.setThread
        dsimp only
        rw [Function.update_self, Function.update_idem]

/-- No assertion of `join` fails. -/
theorem join_spec (hinv : Inv s none) (hop : Enabled s (.join g)) : ∃ s', s.join g = some s' ∧ Inv s' none := by
  obtain ⟨hg, hreg, hmark, hstate⟩ := hop
  unfold Sched.join
  dsimp only
  by_cases hfake : (s.thread g).fakeLeave = true
  · obtain ⟨hrun, hplace, -⟩ := hinv.fake g hg hfake
    rw [if_pos hfake, if_pos hrun]
    refine ⟨_, rfl, hinv.touch hg rfl rfl rfl rfl (.inr rfl) (.inr rfl) (hinv.user g hg) (hinv.joining g hg)
      (fun htrue => absurd (hmark.symm.trans htrue) nofun) (fun htrue => absurd htrue nofun)
      (fun hno => absurd (hreg.symm.trans hno) nofun)⟩
  · rw [if_neg hfake, if_neg (by rw [hmark]; exact Bool.false_ne_true)]
    have hoff := Bool.eq_false_iff.mpr hfake
    -- a thread that is outside may count as BLOCKED
    have houtside : (s.thread g).state = .started ∨ (s.thread g).state = .blocked →
        ∃ s', s.findContext g = some s' ∧ Inv s' none := by
      intro houtside
      have hno := hinv.no_handoff hg (by grind)
      have hblocked : Inv (s.setThread g { s.thread g with state := .blocked }) none := hinv.block hg houtside
      exact findContext_spec hblocked hg (by grind) hmark hreg
    cases hst : (s.thread g).state with
    | started => exact houtside (.inl hst)
    | blocked => exact houtside (.inr hst)
    | running => grind
    | queued => grind
    | out =>
      have hmem : g ∈ s.outQueue := (hinv.out g).mpr ⟨hg, hst⟩
      have hleft := hinv.left_of_out hg hst
      dsimp only
      rw [if_pos hmem]
      unfold Sched.enterBarrier Sched.barJoin
      rw [if_pos (by exact hleft), Option.map_some]
      refine ⟨_, rfl, Eq.mp (congrArg (fun t => Inv t none) ?_) (hinv.rejoin hmem hmark hreg)⟩
      unfold Sched.setBar Sched.setThread
      dsimp only
      rw [Function.update_self, Function.update_idem]
    | sleeping =>
      have hmem : g ∈ s.sleepQueue := (hinv.sleeping g).mpr ⟨hg, hst⟩
      dsimp only
      rw [if_pos hmem]
      have hwake := @Inv.wake s g (s.thread g).place hinv hmem
      refine findContext_spec ?_ hg ?_ ?_ ?_
      · refine Eq.mp (congrArg (fun t => Inv t none) ?_) hwake
        unfold Sched.setThread
        dsimp only
        rw [Function.update_self, Function.update_idem]
      · unfold Sched.setThread
        dsimp only
        rw [Function.update_self]
        exact .inr (.inl rfl)
      · unfold Sched.setThread
        dsimp only
        rw [Function.update_self]
        exact hmark
      · unfold Sched.setThread
        dsimp only
        rw [Function.update_self]
        exact hreg

end Joining

section Syncing

variable {s : Sched} {x : Option ℕ} {g c : ℕ} {avail : List ℕ}

/-- A thread that runs its program is pending no hand-off. -/
theorem Inv.no_handoff_of_user (hinv : Inv s x) (hg : g ∈ s.live) (hplace : (s.thread g).place = .user) :
    (s.thread g).handoffThread = none := by
  cases hhand : (s.thread g).handoffThread with
  | none => rfl
  | some t => exact absurd (hplace.symm.trans (hinv.handoff g hg t hhand).2.1) nofun

/-- No assertion of `sync` fails before it waits. -/
theorem sync_spec (hinv : Inv s none) (hop : Enabled s (.sync g avail)) :
    ∃ s', s.sync (s.thread g).cid avail = some s' ∧ Inv s' none := by
  obtain ⟨⟨hg, hreg, hstate, hplace, hfake⟩, hmark, havail⟩ := hop
  obtain ⟨hon, -⟩ := hinv.occupies g hg (.inl hstate)
  have hlt := hinv.cid_lt g hg
  have hbar := hinv.user g hg hstate hplace
  have hhand := hinv.no_handoff_of_user hg hplace
  unfold Sched.sync
  rw [hon]
  dsimp only
  rw [if_neg (by rw [hmark]; exact Bool.false_ne_true)]
  unfold Sched.barSync
  rw [if_pos (by exact hbar)]
  have hwaits : Inv (s.setThread g { s.thread g with place := .syncing }) none :=
    hinv.touch hg rfl rfl rfl rfl (.inr rfl) (.inl hhand) (fun _ huser => nomatch huser)
      (fun _ hjoining => nomatch hjoining) (fun htrue => absurd (hmark.symm.trans htrue) nofun)
      (fun htrue => absurd (hfake.symm.trans htrue) nofun) (fun hno => absurd (hreg.symm.trans hno) nofun)
  have hdone : Inv ((s.setThread g { s.thread g with place := .syncing }).setBar (s.thread g).cid .done) none := by
    have hself : ∀ t, (s.context (s.thread g).cid).curThread = some t →
        (s.setThread g { s.thread g with place := .syncing }).thread t = { s.thread g with place := .syncing } := by
      intro t ht
      rw [← Option.some.inj (hon.symm.trans ht)]
      exact Function.update_self ..
    refine hwaits.touchBar hlt nofun (fun hleft => absurd (hleft.symm.trans hbar) nofun) (fun _ t ht => ?_)
      (fun _ t ht huser => ?_)
    · rw [hself t ht]
      exact ⟨rfl, hhand⟩
    · rw [hself t ht] at huser
      exact nomatch huser
  obtain ⟨s', hend, hinv', -⟩ := tryEndPhase_spec hdone havail
  exact ⟨s', hend, hinv'⟩

/-- No assertion of `sync` fails after it has waited. -/
theorem resume_spec (hinv : Inv s none) (hop : Enabled s (.resume g)) : ∃ s', s.resume g = some s' ∧ Inv s' none := by
  obtain ⟨hg, hstate, hplace, hbar⟩ := hop
  obtain ⟨hon, -⟩ := hinv.occupies g hg (.inl hstate)
  have hlt := hinv.cid_lt g hg
  have hmark : (s.thread g).markedForSleep = false := by
    refine Bool.eq_false_iff.mpr fun htrue => ?_
    exact absurd (hplace.symm.trans ((hinv.marked g hg htrue).2.2 hstate).1) nofun
  have hfake : (s.thread g).fakeLeave = false := by
    refine Bool.eq_false_iff.mpr fun htrue => ?_
    exact absurd (hplace.symm.trans (hinv.fake g hg htrue).2.1) nofun
  have hreg : (s.thread g).registered = true := by
    refine Bool.not_eq_false _ ▸ fun hno => ?_
    have hfinishing := hinv.finishing g hg hno
    grind
  unfold Sched.resume
  cases hhand : (s.thread g).handoffThread with
  | none =>
    exact ⟨_, rfl, hinv.touch hg rfl rfl rfl rfl (.inr rfl) (.inl hhand) (fun _ _ => hbar)
      (fun _ hjoining => nomatch hjoining) (fun htrue => absurd (hmark.symm.trans htrue) nofun)
      (fun htrue => absurd (hfake.symm.trans htrue) nofun) (fun hno => absurd (hreg.symm.trans hno) nofun)⟩
  | some dst =>
    obtain ⟨-, -, -, hdst, hqueued, -, hmask⟩ := hinv.handoff g hg dst hhand
    have hne : dst ≠ g := by
      intro heq
      rw [heq, hstate] at hqueued
      exact nomatch hqueued
    have hnot : (s.thread g).cid ∉ s.freeList := by
      have hfree := hinv.free (s.thread g).cid
      grind
    have hself : (s.setThread g { s.thread g with handoffThread := none }).thread g =
        { s.thread g with handoffThread := none } := Function.update_self ..
    have hrelay := @relay (s.setThread g { s.thread g with handoffThread := none }) g dst (s.thread g).cid .queued
      (by rw [hself]; exact hstate) (hinv.used_of_running hg hstate) (by rw [hself]) hon (.inr (.inl rfl)) hne
      (by unfold Sched.setThread; dsimp only; rw [Function.update_of_ne hne]; exact hqueued) (hinv.free_room hnot hlt)
    dsimp only
    rw [hrelay, Option.bind_some]
    have hover := hinv.handOver hg rfl hhand hbar
    refine findContext_spec ?_ hg ?_ ?_ ?_
    · refine Eq.mp (congrArg (fun t => Inv t none) ?_) hover
      unfold Sched.setThread
      congr 1
      grind
    · exact .inr (.inr (by unfold Sched.setThread; dsimp only; grind))
    · unfold Sched.setThread
      grind
    · unfold Sched.setThread
      grind

/-- The barrier wakes up a context. -/
theorem release_spec (hinv : Inv s none) (hop : Enabled s (.release c)) : Inv (s.setBar c .running) none := by
  obtain ⟨hlt, hready⟩ := hop
  exact hinv.touchBar hlt nofun (fun hleft => absurd (hleft.symm.trans hready) nofun) (fun hdone => nomatch hdone)
    (fun _ _ _ _ => rfl)

/-- A thread goes on after `Barrier::join`. -/
theorem joined_spec (hinv : Inv s none) (hop : Enabled s (.joined g)) :
    Inv (s.setThread g { s.thread g with place := .user }) none := by
  obtain ⟨hg, hstate, hplace, hbar⟩ := hop
  have hhand : (s.thread g).handoffThread = none := by
    cases hhand : (s.thread g).handoffThread with
    | none => rfl
    | some t => exact absurd (hplace.symm.trans (hinv.handoff g hg t hhand).2.1) nofun
  refine hinv.touch hg rfl rfl rfl rfl (.inr rfl) (.inl hhand) (fun _ _ => hbar) (fun _ hjoining => nomatch hjoining)
    (fun htrue => ?_) (fun htrue => ?_) (hinv.finishing g hg)
  · exact absurd (hplace.symm.trans ((hinv.marked g hg htrue).2.2 hstate).1) nofun
  · exact absurd (hplace.symm.trans (hinv.fake g hg htrue).2.1) nofun

/-- A thread is marked for a deadline to come. -/
theorem markForSleep_spec {wakeupPhase : ℕ} (hinv : Inv s none) (hop : Enabled s (.markForSleep g wakeupPhase)) :
    ∃ s', s.markForSleep g wakeupPhase = some s' ∧ Inv s' none := by
  obtain ⟨hg, hreg, hmark, hphase, hstate⟩ := hop
  have hfake : (s.thread g).fakeLeave = false := by
    refine Bool.eq_false_iff.mpr fun htrue => ?_
    have hrun := hinv.fake g hg htrue
    unfold Executing at hstate
    grind
  have hsleeping := hinv.sleeping g
  unfold Sched.markForSleep
  rw [if_neg (by rw [hmark]; exact Bool.false_ne_true)]
  unfold Executing at hstate
  refine ⟨_, rfl, hinv.touch hg rfl rfl rfl rfl (.inl (by grind)) (.inr rfl) (hinv.user g hg) (hinv.joining g hg)
    (fun _ => ?_) (fun htrue => absurd (hfake.symm.trans htrue) nofun) (fun hno => absurd (hreg.symm.trans hno) nofun)⟩
  dsimp only
  grind

/-- A thread goes on with its fake leave. -/
theorem syscallLeave_spec (hinv : Inv s none) (hop : Enabled s (.syscallLeave g)) :
    ∃ s', s.syscallLeave g = some s' ∧ Inv s' none := by
  obtain ⟨⟨hg, hreg, hstate, hplace, hfake⟩, hmark⟩ := hop
  obtain ⟨hon, -⟩ := hinv.occupies g hg (.inl hstate)
  unfold Sched.syscallLeave
  dsimp only
  rw [if_pos ⟨hon, hstate, hfake⟩]
  exact ⟨_, rfl, hinv.touch hg rfl rfl rfl rfl (.inr rfl) (.inr rfl) (hinv.user g hg) (hinv.joining g hg)
    (fun htrue => absurd (hmark.symm.trans htrue) nofun) (fun _ => ⟨hstate, hplace, hmark⟩)
    (fun hno => absurd (hreg.symm.trans hno) nofun)⟩

/-- A sleeper is woken up from outside. -/
theorem notifySleepEnd_spec (hinv : Inv s none) (hg : g ∈ s.live) (hmark : (s.thread g).markedForSleep = false)
    (hstate : (s.thread g).state = .sleeping ∨ (s.thread g).state = .blocked) :
    ∃ s', s.notifySleepEnd g = some s' ∧ Inv s' none ∧ s'.live = s.live ∧ s'.numCores = s.numCores ∧
      (s'.thread g).state = .blocked ∧ (s'.thread g).registered = (s.thread g).registered ∧ ∀ t, t ≠ g → s'.thread t = s.thread t := by
  unfold Sched.notifySleepEnd
  dsimp only
  rw [if_neg (by rw [hmark]; exact Bool.false_ne_true)]
  cases hstate with
  | inr hblocked =>
    rw [hblocked]
    exact ⟨s, rfl, hinv, rfl, rfl, hblocked, rfl, fun _ _ => rfl⟩
  | inl hsleeping =>
    have hmem : g ∈ s.sleepQueue := (hinv.sleeping g).mpr ⟨hg, hsleeping⟩
    rw [hsleeping]
    dsimp only
    rw [if_pos hmem]
    refine ⟨_, rfl, @Inv.wake s g (s.thread g).place hinv hmem, rfl, rfl, ?_, ?_, fun t ht => ?_⟩
    · unfold Sched.setThread
      grind
    · unfold Sched.setThread
      grind
    · unfold Sched.setThread
      grind

end Syncing

end Zsim.SchedQueues
