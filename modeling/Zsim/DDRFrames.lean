import Zsim.DDRController
import Zsim.Frames

/-!
# What the parts of the DDR controller leave as it is

The functions on the events of accesses change nothing else, nor do those on
the `SchedEvent`s. An input changes the channel only in the request that
`trySchedule` finds or in a refresh.
-/

namespace Zsim.DDRFrames

open WeakestPre Outcomes Frames DDRChannel DDRController

/-- The state without the states of the events of accesses. -/
def outsideAcc (s : DDRMemory) : DDRMemory :=
  { s with
    accState := fun _ => .none
    completed := [] }

/-- The state without the `SchedEvent`s. -/
def outsideSched (s : DDRMemory) : DDRMemory :=
  { s with
    nextSchedEvent := none
    nextSchedCycle := ⊤
    eventFreelist := none
    schedState := fun _ => .idle
    schedEvState := fun _ => .none
    schedNext := fun _ => none
    schedCount := 0
    pending := [] }

variable {c : DDRConfig}

section Acc

variable (ev : DDRMemoryAccEvent)

theorem keeps_moveAcc (source target : WeaveLoops.EventState) :
    Keeps outsideAcc (moveAcc ev source target) := by
  unfold moveAcc
  exact .bind (.observe _) fun _ => .bind (.ensure _) fun _ => .change fun _ => rfl

theorem keeps_release : Keeps outsideAcc (release ev) := keeps_moveAcc ev _ _

theorem keeps_hold : Keeps outsideAcc (hold ev) := keeps_moveAcc ev _ _

theorem keeps_done (doneCycle : ℤ) : Keeps outsideAcc (done ev doneCycle) := by
  unfold done
  exact .bind (keeps_moveAcc ev _ _) fun _ => .change fun _ => rfl

theorem keeps_respondWrite (req : Request) (memCycle : ℕ) :
    Keeps outsideAcc (respondWrite c req memCycle) := by
  unfold respondWrite
  split
  · exact .abort _
  · exact .bind (keeps_release _) fun _ => keeps_done _ _

theorem keeps_respondRead (r : Request) (sysCycle : ℕ) :
    Keeps outsideAcc (respondRead c r sysCycle) := by
  unfold respondRead
  split
  · exact .pure _
  · exact .bind (.ensure _) fun _ => .bind (.observe _) fun _ => .bind (.ensure _) fun _ =>
      .bind (keeps_release _) fun _ => keeps_done _ _

end Acc

section Sched

variable (e cycle : ℕ)

theorem keeps_requeue : Keeps outsideSched (requeue e cycle) := by
  unfold requeue
  exact .bind (.observe _) fun _ => .bind (.ensure _) fun _ => .bind (.ensure _) fun _ =>
    .change fun _ => rfl

theorem keeps_setSchedState (state : SchedState) : Keeps outsideSched (setSchedState e state) :=
  .change fun _ => rfl

theorem keeps_schedEnqueue : Keeps outsideSched (schedEnqueue e cycle) := by
  unfold schedEnqueue
  exact .bind (.observe _) fun _ => .bind (.ensure _) fun _ => .bind (keeps_setSchedState e _)
    fun _ => keeps_requeue e cycle

theorem keeps_annul : Keeps outsideSched (annul e) := by
  unfold annul
  exact .bind (.observe _) fun _ => .bind (.ensure _) fun _ => keeps_setSchedState e _

theorem keeps_retire : Keeps outsideSched (retire e) := by
  unfold retire recycleEvent
  exact .bind (keeps_setSchedState e _) fun _ => .bind (.observe _) fun _ => .bind (.ensure _)
    fun _ => .bind (.change fun _ => rfl) fun _ => .bind (.observe _) fun _ => .bind (.ensure _)
      fun _ => .change fun _ => rfl

theorem keeps_takeSchedEvent : Keeps outsideSched takeSchedEvent := by
  unfold takeSchedEvent
  refine .bind (.observe _) fun s => ?_
  split
  · exact .bind (.change fun _ => rfl) fun _ => .pure _
  · exact .bind (.change fun _ => rfl) fun _ => .pure _

theorem keeps_reschedule (minSchedCycle sysCycle : ℕ) :
    Keeps outsideSched (reschedule c minSchedCycle sysCycle) := by
  have hrest : Keeps outsideSched (do
      let e ← takeSchedEvent
      schedEnqueue e (max (c.matchingMemToSysCycle minSchedCycle) sysCycle)
      change fun s => { s with nextSchedCycle := minSchedCycle } : Act Unit) :=
    .bind keeps_takeSchedEvent fun _ => .bind (keeps_schedEnqueue _ _) fun _ => .change fun _ => rfl
  unfold reschedule
  refine .bind (.observe _) fun s => ?_
  split
  · exact .bind (keeps_annul _) fun _ => hrest
  · exact hrest

theorem keeps_wakeUp (w : Bool) (id memCycle sysCycle : ℕ) :
    Keeps outsideSched (wakeUp c w id memCycle sysCycle) := by
  unfold wakeUp
  exact .bind (.observe _) fun s => .ite (.ite (keeps_reschedule _ _) (.pure _)) (.pure _)

end Sched

section Channel

/-- What does not touch a view outside the events of accesses. -/
theorem keeps_of_outsideAcc {α τ : Type} {m : Act α} (h : Keeps outsideAcc m) (view : DDRMemory → τ)
    (hview : ∀ s, view (outsideAcc s) = view s) : Keeps view m := by
  intro s a s' hs
  rw [← hview s', h s a s' hs, hview]

theorem keeps_of_outsideSched {α τ : Type} {m : Act α} (h : Keeps outsideSched m)
    (view : DDRMemory → τ) (hview : ∀ s, view (outsideSched s) = view s) : Keeps view m := by
  intro s a s' hs
  rw [← hview s', h s a s' hs, hview]

/-- The channel of the controller. -/
abbrev chanOf (s : DDRMemory) : Channel := s.chan

/-- The view sees neither the events of accesses nor the waiting requests. -/
structure Blind {τ : Type} (view : DDRMemory → τ) : Prop where
  acc : ∀ s, view (outsideAcc s) = view s
  tables : ∀ s tables, view { s with tables := tables } = view s
  overflowQueue : ∀ s reqs, view { s with overflowQueue := reqs } = view s
  accepted : ∀ s accepted, view { s with accepted := accepted } = view s

theorem blind_chan : Blind chanOf := by
  constructor <;> exact fun _ => by intros; rfl

variable (w : Bool) (id memCycle sysCycle : ℕ)

section Blind

variable {τ : Type} {view : DDRMemory → τ} (hv : Blind view)
include hv

theorem keeps_setTable (t : ReqTable) : Keeps view (setTable w t) := .change fun s => hv.tables s _

theorem keeps_alloc : Keeps view (alloc w) := by
  unfold alloc
  refine .bind (.observe _) fun t => ?_
  split
  · exact .abort _
  · exact .bind (keeps_setTable w hv _) fun _ => .pure _

theorem keeps_queue : Keeps view (queue c w id memCycle) := by
  have hwrite := fun req => keeps_of_outsideAcc (@keeps_respondWrite c req memCycle) view hv.acc
  unfold queue
  exact .bind (.observe _) fun req => .ite
    (.bind (hwrite req) fun _ => .bind (.observe _) fun _ => keeps_setTable w hv _)
    (.bind (.observe _) fun _ => keeps_setTable w hv _)

theorem keeps_enqueue (hsched : ∀ s, view (outsideSched s) = view s) (ev : DDRMemoryAccEvent) :
    Keeps view (enqueue c ev) := by
  have hhold := keeps_of_outsideAcc (keeps_hold ev) view hv.acc
  have hwake := fun w id memCycle => keeps_of_outsideSched
    (@keeps_wakeUp c w id memCycle ev.startCycle) view hsched
  unfold enqueue
  refine .bind (.observe _) fun s => .bind (.ensure _) fun _ => .bind (.change fun s => hv.accepted s _)
    fun _ => .ite ?_ ?_
  · exact .bind hhold fun _ => .change fun s => hv.overflowQueue s _
  · exact .bind (keeps_alloc _ hv) fun id => .bind (.observe _) fun t =>
      .bind (keeps_setTable _ hv _) fun _ => .bind hhold fun _ =>
        .bind (keeps_queue _ _ _ hv) fun _ => hwake _ _ _

end Blind

section Serving

variable {τ : Type} {view : DDRMemory → τ} (hv : Blind view)
  (hchan : ∀ s chan, view { s with chan := chan } = view s)
  (hserved : ∀ s served, view { s with served := served } = view s)
include hv hchan hserved

theorem keeps_serve (curCycle : ℕ) : Keeps view (serve c w id curCycle sysCycle) := by
  have hread := fun r => keeps_of_outsideAcc (@keeps_respondRead c r sysCycle) view hv.acc
  unfold serve
  exact .bind (.observe _) fun s => .bind (.ensure _) fun _ => .bind (.ensure _) fun _ =>
    .bind (.change fun s => hchan s _) fun _ => .bind (hread _) fun _ =>
      .bind (keeps_setTable _ hv _) fun _ => .bind (.change fun s => hserved s _) fun _ =>
        .bind (.observe _) fun _ => .pure _

theorem keeps_trySchedule (curCycle : ℕ) : Keeps view (trySchedule c curCycle sysCycle) := by
  unfold trySchedule
  refine .bind (.observe _) fun s => .ite (.pure _) (.ite (.pure _) (.bind (.ensure _) fun _ => ?_))
  split
  · exact .pure _
  · exact keeps_serve _ _ _ hv hchan hserved _

end Serving

/-- `lowerSchedCycle` only reads. -/
theorem keeps_lowerSchedCycle {τ : Type} (minSchedCycle : WithTop ℕ) (view : DDRMemory → τ) :
    Keeps view (lowerSchedCycle c w id memCycle minSchedCycle) := by
  unfold lowerSchedCycle
  exact .bind (.observe _) fun _ => .ite (.pure _) (.pure _)

theorem keeps_takeOverflow {τ : Type} {view : DDRMemory → τ} (hv : Blind view)
    (minSchedCycle : WithTop ℕ) : Keeps view (takeOverflow c memCycle minSchedCycle) := by
  unfold takeOverflow
  refine .bind (.observe _) fun s => ?_
  split
  · exact .pure _
  · exact .ite (.pure _) (.bind (keeps_alloc _ hv) fun id => .bind (.observe _) fun t =>
      .bind (keeps_setTable _ hv _) fun _ => .bind (.change fun s => hv.overflowQueue s _) fun _ =>
        .bind (keeps_queue _ _ _ hv) fun _ => keeps_lowerSchedCycle _ _ _ minSchedCycle view)

/-- The request that `trySchedule` serves: its queue and its node. -/
def picked (c : DDRConfig) (s : DDRMemory) (curCycle : ℕ) : Option (Bool × ℕ) :=
  if s.empty ∨ curCycle + c.tCL < s.chan.minRespCycle then none
  else
    let t := s.tables (s.isWriteQueue c)
    (findReady c s.chan t curCycle t.reqList ⊤).1.map fun id => (s.isWriteQueue c, id)

theorem findReady_mem {ch : Channel} {t : ReqTable} {curCycle id : ℕ} {ids : List ℕ}
    {minSchedCycle : WithTop ℕ} (h : (findReady c ch t curCycle ids minSchedCycle).1 = some id) :
    id ∈ ids := by
  induction ids generalizing minSchedCycle with
  | nil => cases h
  | cons x ids ih =>
    unfold findReady at h
    dsimp only at h
    split at h
    · split at h
      · cases h
        exact List.mem_cons_self
      · exact List.mem_cons_of_mem x (ih h)
    · exact List.mem_cons_of_mem x (ih h)

/-- The request that is served waits in its queue. -/
theorem picked_mem {s : DDRMemory} {curCycle id : ℕ} {w : Bool}
    (h : picked c s curCycle = some (w, id)) : id ∈ (s.tables w).reqList := by
  unfold picked at h
  split at h
  · cases h
  · obtain ⟨id', hfind, heq⟩ := Option.map_eq_some_iff.mp h
    cases heq
    exact findReady_mem hfind

/-- The channel after `trySchedule`. -/
def scheduled (c : DDRConfig) (s : DDRMemory) (curCycle : ℕ) : Channel :=
  match picked c s curCycle with
  | none => s.chan
  | some (w, id) =>
    let t := s.tables w
    s.chan.issue c (t.elem id) curCycle (c.closedPage && !t.hitFollows id)

theorem chan_serve (s : DDRMemory) (curCycle : ℕ) :
    ends (fun _ => True) (serve c w id curCycle sysCycle) (fun _ s' =>
      s'.chan = s.chan.issue c ((s.tables w).elem id) curCycle
        (c.closedPage && !(s.tables w).hitFollows id)) s := by
  have hread := fun r => keeps_of_outsideAcc (@keeps_respondRead c r sysCycle) chanOf fun _ => rfl
  unfold serve
  simp only [ends_bind, ends_observe, ends_ensure, ends_change, implies_true, and_true]
  intro _ _
  exact ends_mono (hread _).after fun _ s' hs => hs

/-- `trySchedule` changes the channel by the request it serves. -/
theorem chan_trySchedule (s : DDRMemory) (curCycle : ℕ) :
    ends (fun _ => True) (trySchedule c curCycle sysCycle)
      (fun _ s' => s'.chan = scheduled c s curCycle) s := by
  unfold trySchedule
  rw [ends_bind, ends_observe, ends_ite]
  by_cases hempty : s.empty = true
  · rw [if_pos hempty, scheduled, picked, if_pos (.inl hempty)]
    rfl
  rw [if_neg hempty, ends_ite]
  by_cases hahead : curCycle + c.tCL < s.chan.minRespCycle
  · rw [if_pos hahead, scheduled, picked, if_pos (.inr hahead)]
    rfl
  rw [if_neg hahead, scheduled, picked, if_neg (by tauto), ends_bind, ends_ensure]
  refine ⟨fun _ => ?_, fun _ => trivial⟩
  dsimp only
  split
  case h_1 minSchedCycle hfind =>
    rw [hfind]
    rfl
  case h_2 id minSchedCycle hfind =>
    rw [hfind]
    exact chan_serve ..

/-- The channel after an input. -/
def nextChannel (c : DDRConfig) (s : DDRMemory) : Input → Channel
  | .access _ => s.chan
  | .sched e cycle =>
    if s.schedState e = .queued then scheduled c s (c.sysToMemCycle cycle) else s.chan
  | .refresh cycle => s.chan.refresh c (c.sysToMemCycle cycle)

theorem chan_tick (s : DDRMemory) : ends (fun _ => True) (tick c sysCycle)
    (fun _ s' => s'.chan = scheduled c s (c.sysToMemCycle sysCycle)) s := by
  unfold tick
  simp only [ends_bind, ends_observe, ends_ensure, implies_true, and_true]
  intro _
  refine ends_mono (chan_trySchedule sysCycle s _) fun minSchedCycle s' hs _ => ?_
  refine ends_mono (keeps_takeOverflow _ blind_chan minSchedCycle).after fun next s'' hs' => ?_
  rw [ends_change]
  have hchan : s''.chan = scheduled c s (c.sysToMemCycle sysCycle) := hs'.trans hs
  split
  · exact hchan
  · exact hchan

theorem chan_simulate (s : DDRMemory) (e startCycle : ℕ) :
    ends (fun _ => True) (simulate c e startCycle) (fun _ s' => s'.chan =
      if s.schedState e = .queued then scheduled c s (c.sysToMemCycle startCycle) else s.chan) s := by
  have hretire := keeps_of_outsideSched (keeps_retire e) chanOf fun _ => rfl
  have hrequeue := fun cycle => keeps_of_outsideSched (keeps_requeue e cycle) chanOf fun _ => rfl
  unfold simulate
  simp only [ends_bind, ends_observe]
  split
  · -- running the event changes nothing that `trySchedule` reads
    rw [setSchedState, ends_bind, ends_change, ends_bind]
    refine ends_mono (chan_tick startCycle _) fun next s' hs => ?_
    rw [ends_ite]
    split
    · rw [ends_bind]
      exact ends_mono (hrequeue next).after fun _ s'' hs' => hs'.trans hs
    · exact ends_mono hretire.after fun _ s'' hs' => hs'.trans hs
  · rw [ends_bind, ends_ensure]
    refine ⟨fun _ => ?_, fun _ => trivial⟩
    exact ends_mono hretire.after fun _ s' hs => hs

/-- An input changes the channel in the request that is served or in a refresh. -/
theorem chan_perform (s : DDRMemory) (x : Input) :
    ends (fun _ => True) (perform c x) (fun _ s' => s'.chan = nextChannel c s x) s := by
  unfold perform
  simp only [ends_bind, ends_observe, ends_ensure, ends_change, implies_true, and_true]
  intro _
  cases x with
  | access ev =>
    simp only [ends_bind, ends_ensure, ends_change, implies_true, and_true]
    intro _
    exact ends_mono (keeps_enqueue blind_chan (fun _ => rfl) ev).after fun _ s' hs => hs
  | sched e cycle =>
    simp only [ends_bind, ends_ensure, ends_change, implies_true, and_true]
    intro _ _
    exact ends_mono (chan_simulate _ e cycle) fun _ s' hs => hs
  | refresh cycle =>
    simp only [DDRController.refresh, ends_bind, ends_observe, ends_ensure, ends_change,
      implies_true, and_true]
    intro _
    rfl

end Channel

section Now

/-- The clock of the domain. -/
abbrev nowOf (s : DDRMemory) : ℕ := s.now

theorem blind_now : Blind nowOf := by
  constructor <;> exact fun _ => by intros; rfl

theorem keeps_now_tick (sysCycle : ℕ) : Keeps nowOf (tick c sysCycle) := by
  have htry := fun curCycle => @keeps_trySchedule c sysCycle _ nowOf blind_now (fun _ _ => rfl)
    (fun _ _ => rfl) curCycle
  unfold tick
  refine .bind (.observe _) fun next => .bind (.ensure _) fun _ => .bind (htry _) fun minSched =>
    .bind (.ensure _) fun _ => .bind (keeps_takeOverflow _ blind_now _) fun cycle =>
      .bind (.change fun _ => rfl) fun _ => ?_
  split
  · exact .bind (.change fun _ => rfl) fun _ => .pure _
  · exact .pure _

theorem keeps_now_simulate (e startCycle : ℕ) : Keeps nowOf (simulate c e startCycle) := by
  have hretire := keeps_of_outsideSched (keeps_retire e) nowOf fun _ => rfl
  have hrequeue := fun cycle =>
    keeps_of_outsideSched (keeps_requeue e cycle) nowOf fun _ => rfl
  have hset := fun state => keeps_of_outsideSched (keeps_setSchedState e state) nowOf fun _ => rfl
  unfold simulate
  exact .bind (.observe _) fun state => .ite
    (.bind (hset _) fun _ => .bind (keeps_now_tick _) fun next => .ite
      (.bind (hrequeue _) fun _ => hset _) hretire)
    (.bind (.ensure _) fun _ => hretire)

/-- The clock of the domain is that of the last input. -/
theorem now_perform (s : DDRMemory) (x : Input) :
    ends (fun _ => True) (perform c x) (fun _ s' => s.now ≤ x.cycle ∧ s'.now = x.cycle) s := by
  unfold perform
  simp only [ends_bind, ends_observe, ends_ensure, ends_change, implies_true, and_true]
  intro hle
  cases x with
  | access ev =>
    simp only [ends_bind, ends_ensure, ends_change, implies_true, and_true]
    intro _
    exact ends_mono (keeps_enqueue blind_now (fun _ => rfl) ev).after fun _ s' hs => ⟨hle, hs⟩
  | sched e cycle =>
    simp only [ends_bind, ends_ensure, ends_change, implies_true, and_true]
    intro _ _
    exact ends_mono (keeps_now_simulate e cycle).after fun _ s' hs => ⟨hle, hs⟩
  | refresh cycle =>
    simp only [DDRController.refresh, ends_bind, ends_observe, ends_ensure, ends_change,
      implies_true, and_true]
    intro _
    exact hle

end Now

section Requests

/-- A request as it is when it waits in a queue. -/
def queuedAt (req : Request) (memCycle : ℕ) : Request :=
  { req with
    ev := if req.write then none else req.ev
    arrivalCycle := memCycle }

/-- A table after a request was allocated and queued. -/
def inserted (t : ReqTable) (id rowHitLimit : ℕ) (bank : Bank) (req : Request) (memCycle : ℕ) :
    ReqTable :=
  ((t.alloc id).store id req).link id rowHitLimit bank (queuedAt req memCycle)

/-- The queues of the controller. -/
abbrev queuesOf (s : DDRMemory) : (Bool → ReqTable) × List Request := (s.tables, s.overflowQueue)

variable (w : Bool) (id memCycle sysCycle : ℕ)

/-- `queue` links the request in its table. -/
theorem queues_queue (s : DDRMemory) : ends (fun _ => True) (queue c w id memCycle) (fun _ s' =>
    queuesOf s' = (Function.update s.tables w ((s.tables w).link id c.rowHitLimit
      (s.chan.bankOf ((s.tables w).elem id)) (queuedAt ((s.tables w).elem id) memCycle)),
        s.overflowQueue)) s := by
  have hwrite := fun req => keeps_of_outsideAcc (@keeps_respondWrite c req memCycle)
    (fun s => (queuesOf s, chanOf s)) fun _ => rfl
  have hset : ∀ s' : DDRMemory, (queuesOf s', chanOf s') = (queuesOf s, chanOf s) →
      queuesOf { s' with tables := Function.update s'.tables w ((s'.tables w).link id c.rowHitLimit
        (s'.chan.bankOf (queuedAt ((s.tables w).elem id) memCycle))
        (queuedAt ((s.tables w).elem id) memCycle)) } =
      (Function.update s.tables w ((s.tables w).link id c.rowHitLimit
        (s.chan.bankOf ((s.tables w).elem id)) (queuedAt ((s.tables w).elem id) memCycle)),
          s.overflowQueue) := by
    intro s' hs
    obtain ⟨hqueues, hchan⟩ := Prod.mk.inj hs
    obtain ⟨htables, hover⟩ := Prod.mk.inj hqueues
    change s'.chan = s.chan at hchan
    change (Function.update s'.tables w _, s'.overflowQueue) = _
    rw [htables, hover, hchan]
    rfl
  unfold queue
  rw [ends_bind, ends_observe, ends_ite]
  by_cases hw : ((s.tables w).elem id).write = true
  · rw [if_pos hw, ends_bind]
    refine ends_mono (hwrite _).after fun _ s' hs => ?_
    rw [ends_bind, ends_observe]
    exact hset s' hs
  · rw [if_neg hw, ends_bind, ends_observe]
    exact hset s rfl

/-- What `enqueue` does to the queues. -/
theorem queues_enqueue (s : DDRMemory) (ev : DDRMemoryAccEvent) :
    ends (fun _ => True) (enqueue c ev) (fun _ s' => (request c ev).loc.bankId ∈ c.bankIds ∧
      (queuesOf s' = (s.tables, s.overflowQueue ++ [request c ev]) ∨
        ∃ w id, (s.tables w).freeList.getLast? = some id ∧
          queuesOf s' = (Function.update s.tables w (inserted (s.tables w) id c.rowHitLimit
            (s.chan.bankOf (request c ev)) (request c ev) (c.sysToMemCycle ev.startCycle)),
              s.overflowQueue))) s := by
  have hhold := keeps_of_outsideAcc (keeps_hold ev) (fun s => (queuesOf s, chanOf s)) fun _ => rfl
  have hwake := fun w id memCycle => keeps_of_outsideSched
    (@keeps_wakeUp c w id memCycle ev.startCycle) queuesOf fun _ => rfl
  unfold enqueue
  simp only [ends_bind, ends_observe, ends_ensure, ends_change, ends_ite, implies_true, and_true]
  intro hmap
  have hin : (request c ev).loc.bankId ∈ c.bankIds :=
    List.mem_product.mpr ⟨List.mem_range.mpr hmap.1, List.mem_range.mpr hmap.2⟩
  split
  · refine ends_mono hhold.after fun _ s' hs => ⟨hin, .inl ?_⟩
    obtain ⟨hqueues, -⟩ := Prod.mk.inj hs
    obtain ⟨htables, hover⟩ := Prod.mk.inj hqueues
    change (s'.tables, s'.overflowQueue ++ [request c ev]) = _
    rw [htables, hover]
  · unfold alloc
    simp only [ends_bind, ends_observe]
    split
    · trivial
    case h_2 id hid =>
      simp only [setTable, ends_bind, ends_change, ends_pure]
      refine ends_mono hhold.after fun _ s₁ hs₁ => ?_
      refine ends_mono (queues_queue (useWrQueue c (request c ev)) id _ s₁) fun _ s₂ hs₂ => ?_
      refine ends_mono (hwake _ _ _).after fun _ s₃ hs₃ => ⟨hin, .inr ⟨useWrQueue c (request c ev), id, hid, ?_⟩⟩
      obtain ⟨hqueues, hchan⟩ := Prod.mk.inj hs₁
      obtain ⟨htables, hover⟩ := Prod.mk.inj hqueues
      change s₁.chan = s.chan at hchan
      rw [hs₃, hs₂, htables, hover, hchan]
      simp [inserted, ReqTable.store]

/-- What `takeOverflow` does to the queues. -/
theorem queues_takeOverflow (s : DDRMemory) (minSchedCycle : WithTop ℕ) :
    ends (fun _ => True) (takeOverflow c memCycle minSchedCycle) (fun _ s' => queuesOf s' = queuesOf s ∨
      ∃ req reqs w id, s.overflowQueue = req :: reqs ∧ (s.tables w).freeList.getLast? = some id ∧
        queuesOf s' = (Function.update s.tables w (inserted (s.tables w) id c.rowHitLimit
          (s.chan.bankOf req) req memCycle), reqs)) s := by
  unfold takeOverflow
  rw [ends_bind, ends_observe]
  split
  · exact .inl rfl
  case h_2 req reqs hover =>
    rw [ends_ite]
    split
    · exact .inl rfl
    · unfold alloc
      simp only [ends_bind, ends_observe]
      split
      · trivial
      case h_2 id hid =>
        simp only [setTable, ends_bind, ends_change, ends_pure]
        refine ends_mono (queues_queue (useWrQueue c req) id memCycle _) fun _ s' hs => ?_
        refine ends_mono (keeps_lowerSchedCycle _ _ _ minSchedCycle queuesOf).after fun _ s'' hs' =>
          .inr ⟨req, reqs, useWrQueue c req, id, hover, hid, ?_⟩
        rw [hs', hs]
        simp [inserted, ReqTable.store]

/-- `serve` removes the request from its table. -/
theorem queues_serve (s : DDRMemory) (curCycle : ℕ) :
    ends (fun _ => True) (serve c w id curCycle sysCycle) (fun _ s' =>
      queuesOf s' = (Function.update s.tables w ((s.tables w).remove id), s.overflowQueue)) s := by
  have hread := fun r => keeps_of_outsideAcc (@keeps_respondRead c r sysCycle) queuesOf fun _ => rfl
  unfold serve
  simp only [ends_bind, ends_observe, ends_ensure, ends_change, setTable, ends_pure, implies_true,
    and_true]
  intro _ _
  refine ends_mono (hread _).after fun _ s' hs => ?_
  obtain ⟨htables, hover⟩ := Prod.mk.inj hs
  change (Function.update s'.tables w _, s'.overflowQueue) = _
  rw [htables, hover]

section Preserved

variable {V : (Bool → ReqTable) × List Request → Prop} {s : DDRMemory}

/-- What `trySchedule` and `takeOverflow` keep of the queues, `tick` keeps. -/
theorem queues_tick (htry : ∀ s curCycle, V (queuesOf s) →
      ends (fun _ => True) (trySchedule c curCycle sysCycle) (fun _ s' => V (queuesOf s')) s)
    (htake : ∀ s memCycle minSchedCycle, V (queuesOf s) →
      ends (fun _ => True) (takeOverflow c memCycle minSchedCycle) (fun _ s' => V (queuesOf s')) s)
    (h : V (queuesOf s)) : ends (fun _ => True) (tick c sysCycle) (fun _ s' => V (queuesOf s')) s := by
  unfold tick
  simp only [ends_bind, ends_observe, ends_ensure, implies_true, and_true]
  intro _
  refine ends_mono (htry s _ h) fun minSchedCycle s' hs _ => ?_
  refine ends_mono (htake s' _ minSchedCycle hs) fun next s'' hs' => ?_
  rw [ends_change]
  split
  · exact hs'
  · exact hs'

/-- What `enqueue` keeps as well, every input keeps. -/
theorem queues_perform {x : Input} (henqueue : ∀ s ev, x = .access ev → V (queuesOf s) →
      ends (fun _ => True) (enqueue c ev) (fun _ s' => V (queuesOf s')) s)
    (htry : ∀ s sysCycle curCycle, V (queuesOf s) →
      ends (fun _ => True) (trySchedule c curCycle sysCycle) (fun _ s' => V (queuesOf s')) s)
    (htake : ∀ s memCycle minSchedCycle, V (queuesOf s) →
      ends (fun _ => True) (takeOverflow c memCycle minSchedCycle) (fun _ s' => V (queuesOf s')) s)
    (h : V (queuesOf s)) : ends (fun _ => True) (perform c x) (fun _ s' => V (queuesOf s')) s := by
  unfold perform
  simp only [ends_bind, ends_observe, ends_ensure, ends_change, implies_true, and_true]
  intro _
  cases x with
  | access ev =>
    simp only [ends_bind, ends_ensure, ends_change, implies_true, and_true]
    intro _
    exact henqueue _ ev rfl h
  | sched e cycle =>
    have hretire := keeps_of_outsideSched (keeps_retire e) queuesOf fun _ => rfl
    have hrequeue := fun cycle => keeps_of_outsideSched (keeps_requeue e cycle) queuesOf fun _ => rfl
    have hend : ∀ s', V (queuesOf s') →
        ends (fun _ => True) (retire e) (fun _ s'' => V (queuesOf s'')) s' := by
      intro s' hs
      refine ends_mono hretire.after fun _ s'' hs' => ?_
      rw [hs']
      exact hs
    simp only [ends_bind, ends_ensure, ends_change, implies_true, and_true, simulate, ends_observe,
      setSchedState]
    intro _ _
    rw [ends_ite]
    split
    · rw [ends_bind, ends_change, ends_bind]
      refine ends_mono (queues_tick cycle (htry · cycle) htake h) fun next s' hs => ?_
      rw [ends_ite]
      split
      · rw [ends_bind]
        refine ends_mono (hrequeue next).after fun _ s'' hs' => ?_
        rw [ends_change]
        change V (queuesOf s'')
        rw [hs']
        exact hs
      · exact hend s' hs
    · rw [ends_bind, ends_ensure]
      exact ⟨fun _ => hend _ h, fun _ => trivial⟩
  | refresh cycle =>
    simp only [DDRController.refresh, ends_bind, ends_observe, ends_ensure, ends_change,
      implies_true, and_true]
    intro _
    exact h

end Preserved

section AllReqs

variable {P : Request → Prop}

/-- All waiting requests have the property. -/
def AllReqs (P : Request → Prop) (queues : (Bool → ReqTable) × List Request) : Prop :=
  (∀ w, ∀ id ∈ (queues.1 w).reqList, P ((queues.1 w).elem id)) ∧ ∀ r ∈ queues.2, P r

/-- The property does not depend on what `queue` changes. -/
def Stable (P : Request → Prop) : Prop :=
  ∀ r rowHitSeq memCycle, P r → P { queuedAt r memCycle with rowHitSeq := rowHitSeq }

theorem allReqs_update {tables : Bool → ReqTable} {waiting : List Request} {t : ReqTable}
    (h : AllReqs P (tables, waiting)) (ht : ∀ id ∈ t.reqList, P (t.elem id)) :
    AllReqs P (Function.update tables w t, waiting) := by
  refine ⟨fun w' i hi => ?_, h.2⟩
  by_cases hw : w' = w
  · subst hw
    dsimp only at hi ⊢
    rw [Function.update_self] at hi ⊢
    exact ht i hi
  · dsimp only at hi ⊢
    rw [Function.update_of_ne hw] at hi ⊢
    exact h.1 w' i hi

theorem allReqs_inserted (hP : Stable P) {tables : Bool → ReqTable} {waiting : List Request}
    {req : Request} (h : AllReqs P (tables, waiting)) (hreq : P req) (rowHitLimit : ℕ) (bank : Bank) :
    AllReqs P (Function.update tables w (inserted (tables w) id rowHitLimit bank req memCycle),
      waiting) := by
  refine allReqs_update w h fun i hi => ?_
  unfold inserted ReqTable.link ReqTable.store
  dsimp only
  by_cases hid : i = id
  · rw [hid, Function.update_self]
    exact hP _ _ _ hreq
  · rw [Function.update_of_ne hid, Function.update_of_ne hid]
    cases List.mem_append.mp hi with
    | inl hold => exact h.1 w i hold
    | inr hnew => exact (hid (List.mem_singleton.mp hnew)).elim

theorem allReqs_serve {s : DDRMemory} (curCycle : ℕ) (h : AllReqs P (queuesOf s)) :
    ends (fun _ => True) (serve c w id curCycle sysCycle) (fun _ s' => AllReqs P (queuesOf s')) s := by
  refine ends_mono (queues_serve w id sysCycle s curCycle) fun _ s' hs => ?_
  rw [hs]
  exact allReqs_update w h fun i hi => h.1 w i (List.mem_of_mem_erase hi)

theorem allReqs_trySchedule {s : DDRMemory} (curCycle : ℕ) (h : AllReqs P (queuesOf s)) :
    ends (fun _ => True) (trySchedule c curCycle sysCycle)
      (fun _ s' => AllReqs P (queuesOf s')) s := by
  unfold trySchedule
  rw [ends_bind, ends_observe, ends_ite]
  split
  · exact h
  · rw [ends_ite]
    split
    · exact h
    · rw [ends_bind, ends_ensure]
      refine ⟨fun _ => ?_, fun _ => trivial⟩
      split
      · exact h
      · exact allReqs_serve _ _ _ _ h

theorem allReqs_enqueue (hP : Stable P) {s : DDRMemory} {ev : DDRMemoryAccEvent}
    (hnew : (request c ev).loc.bankId ∈ c.bankIds → P (request c ev)) (h : AllReqs P (queuesOf s)) :
    ends (fun _ => True) (enqueue c ev) (fun _ s' => AllReqs P (queuesOf s')) s := by
  refine ends_mono (queues_enqueue s ev) fun _ s' hs => ?_
  obtain ⟨hin, hs | ⟨w, id, -, hs⟩⟩ := hs
  · rw [hs]
    refine ⟨h.1, fun r hr => ?_⟩
    cases List.mem_append.mp hr with
    | inl hold => exact h.2 r hold
    | inr hnew' =>
      rw [List.mem_singleton.mp hnew']
      exact hnew hin
  · rw [hs]
    exact allReqs_inserted w id _ hP h (hnew hin) _ _

theorem allReqs_takeOverflow (hP : Stable P) {s : DDRMemory} (minSchedCycle : WithTop ℕ)
    (h : AllReqs P (queuesOf s)) : ends (fun _ => True) (takeOverflow c memCycle minSchedCycle)
      (fun _ s' => AllReqs P (queuesOf s')) s := by
  refine ends_mono (queues_takeOverflow memCycle s minSchedCycle) fun _ s' hs => ?_
  cases hs with
  | inl hsame =>
    rw [hsame]
    exact h
  | inr hnext =>
    obtain ⟨req, reqs, w, id, hover, -, hs⟩ := hnext
    have hall : ∀ r ∈ req :: reqs, P r := by
      rw [← hover]
      exact h.2
    have hrest : AllReqs P (s.tables, reqs) := ⟨h.1, fun r hr => hall r (List.mem_cons_of_mem req hr)⟩
    rw [hs]
    exact allReqs_inserted w id memCycle hP hrest (hall req List.mem_cons_self) c.rowHitLimit (s.chan.bankOf req)

/-- What every request has when it arrives, all waiting requests have. -/
theorem allReqs_perform (hP : Stable P) {s : DDRMemory} {x : Input}
    (hnew : ∀ ev, x = .access ev → (request c ev).loc.bankId ∈ c.bankIds → P (request c ev))
    (h : AllReqs P (queuesOf s)) :
    ends (fun _ => True) (perform c x) (fun _ s' => AllReqs P (queuesOf s')) s :=
  queues_perform (fun _ ev hx => allReqs_enqueue hP (hnew ev hx)) (fun _ sysCycle => allReqs_trySchedule sysCycle)
    (fun _ memCycle => allReqs_takeOverflow memCycle hP) h

end AllReqs

end Requests

end Zsim.DDRFrames
