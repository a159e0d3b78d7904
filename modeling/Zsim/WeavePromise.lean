import Zsim.DDRFrames
import Zsim.MemRouting

/-!
# The latency promised in the bound phase

`access` answers a request with a minimum latency, and the weave phase finishes
its event at some cycle. The children of the event must not be given a cycle
before the one that was promised. `DDRMemory` keeps the promise in every run.
`MemControllerBase` keeps it for what it serves when the event starts; with
scheduler queues, writes and reads that hit the write queue are finished one
memory cycle too early.
-/

namespace Zsim.WeavePromise

open WeakestPre Outcomes Frames GuardedRuns

section DDR

open DDRChannel DDRController DDRFrames

variable {c : DDRConfig}

/-- The done cycle of an event does not wrap, and its children are given no
cycle before the promised one. -/
def Kept (c : DDRConfig) (ev : DDRMemoryAccEvent) (doneCycle : ℤ) : Prop :=
  0 ≤ doneCycle ∧ ∀ reqCycle : ℕ, reqCycle + c.preDelay ≤ ev.startCycle →
    (ev.startCycle : ℤ) - c.preDelay + ((c.respCycle reqCycle ev.isWrite : ℕ) - reqCycle) ≤
      doneCycle + c.postDelay ev.isWrite

section Arithmetic

variable {start sysCycle k memCycle : ℕ}

/-- The clock conversions lose less than what they add. -/
theorem le_memToSysCycle (hc : c.Accepted) (hstart : start ≤ sysCycle)
    (hk : c.sysToMemCycle sysCycle + k ≤ memCycle) :
    start + k * c.sysFreqKHz / c.memFreqKHz ≤ c.memToSysCycle memCycle := by
  have hm := hc.memFreqKHz_pos
  have hS : 0 < c.sysFreqKHz := by
    have hclocks := hc.clocks
    omega
  unfold DDRConfig.sysToMemCycle at hk
  unfold DDRConfig.memToSysCycle
  have hfloor := Nat.lt_mul_div_succ (start * c.memFreqKHz) hS
  have hmono : start * c.memFreqKHz / c.sysFreqKHz ≤ sysCycle * c.memFreqKHz / c.sysFreqKHz :=
    Nat.div_le_div_right (Nat.mul_le_mul_right _ hstart)
  have hcycles : start * c.memFreqKHz / c.sysFreqKHz + 1 + k ≤ memCycle + 1 := by omega
  have hmul := Nat.mul_le_mul_right c.sysFreqKHz hcycles
  have hsum : start * c.memFreqKHz + k * c.sysFreqKHz ≤ (memCycle + 1) * c.sysFreqKHz := by
    rw [Nat.add_mul] at hmul
    rw [Nat.mul_comm c.sysFreqKHz] at hfloor
    omega
  have hdiv := Nat.div_le_div_right (c := c.memFreqKHz) hsum
  rw [Nat.add_comm (start * _), Nat.add_mul_div_right _ _ hm] at hdiv
  omega

/-- `postDelayRd` is the latency of the column access, in 32 bits. -/
theorem postDelayRd_eq (hc : c.Accepted) :
    c.postDelayRd = c.memToSysCycle (c.tCL + c.tBL - 1) % 2 ^ 32 := by
  have hlat := hc.controllerSysLatency
  unfold DDRConfig.postDelayRd DDRConfig.minRdLatency DDRConfig.preDelay
  omega

end Arithmetic

/-- The response to a read keeps its promise. -/
theorem kept_read (hc : c.Accepted) {ev : DDRMemoryAccEvent} (hev : ev.isWrite = false)
    {sysCycle minRespCycle : ℕ} (hstart : ev.startCycle ≤ sysCycle)
    (hresp : c.sysToMemCycle sysCycle + (c.tCL + c.tBL) ≤ minRespCycle) :
    Kept c ev ((c.memToSysCycle minRespCycle + c.controllerSysLatency : ℕ) - c.preDelay
      - c.postDelayRd) := by
  have hle := le_memToSysCycle hc hstart hresp
  have hpost := postDelayRd_eq hc
  have hcol : c.memToSysCycle (c.tCL + c.tBL - 1) =
      (c.tCL + c.tBL) * c.sysFreqKHz / c.memFreqKHz := by
    have hsucc : c.tCL + c.tBL - 1 + 1 = c.tCL + c.tBL := by
      have hCL := hc.tCL
      omega
    rw [DDRConfig.memToSysCycle, hsucc]
  have hmod := Nat.mod_le (c.memToSysCycle (c.tCL + c.tBL - 1)) (2 ^ 32)
  unfold Kept DDRConfig.respCycle DDRConfig.postDelay
  rw [hev]
  simp only [Bool.false_eq_true, if_false, DDRConfig.preDelay]
  constructor
  · omega
  · intro reqCycle _
    have hlat : c.minRdLatency ≤ c.controllerSysLatency + c.memToSysCycle (c.tCL + c.tBL - 1) :=
      Nat.mod_le ..
    omega

/-- The response to a write keeps its promise. -/
theorem kept_write (hc : c.Accepted) {ev : DDRMemoryAccEvent} (hev : ev.isWrite = true)
    {sysCycle : ℕ} (hstart : ev.startCycle ≤ sysCycle) :
    Kept c ev ((c.memToSysCycle (c.sysToMemCycle sysCycle) + c.minWrLatency : ℕ) - c.preDelay
      - DDRConfig.postDelayWr) := by
  have hle := @le_memToSysCycle c _ _ 0 _ hc hstart le_rfl
  rw [Nat.zero_mul, Nat.zero_div, Nat.add_zero, Nat.add_zero] at hle
  unfold Kept DDRConfig.respCycle DDRConfig.postDelay DDRConfig.minWrLatency DDRConfig.postDelayWr
    DDRConfig.preDelay
  rw [hev]
  simp only [if_true]
  constructor
  · omega
  · intro reqCycle _
    omega

section Runs

variable {n sysCycle : ℕ}

/-- The event of a waiting request was started by the given cycle. -/
def Started (n : ℕ) (r : Request) : Prop :=
  ∀ ev, r.ev = some ev → ev.startCycle ≤ n ∧ ev.isWrite = r.write

theorem stable_started : Stable (Started n) := by
  intro r rowHitSeq memCycle h ev hev
  unfold queuedAt at hev
  dsimp only at hev
  split at hev
  · cases hev
  · exact h ev hev

theorem Started.mono {m : ℕ} {r : Request} (h : Started n r) (hle : n ≤ m) : Started m r :=
  fun ev hev => ⟨(h ev hev).1.trans hle, (h ev hev).2⟩

/-- All `done` calls so far kept the promise. -/
def AllKept (c : DDRConfig) (completed : List (DDRMemoryAccEvent × ℤ)) : Prop :=
  ∀ e ∈ completed, Kept c e.1 e.2

/-- The history of the `done` calls. -/
abbrev completedOf (s : DDRMemory) : List (DDRMemoryAccEvent × ℤ) := s.completed

theorem AllKept.cons {completed : List (DDRMemoryAccEvent × ℤ)} (h : AllKept c completed)
    {ev : DDRMemoryAccEvent} {doneCycle : ℤ} (hev : Kept c ev doneCycle) :
    AllKept c ((ev, doneCycle) :: completed) := by
  intro e he
  cases List.mem_cons.mp he with
  | inl heq =>
    rw [heq]
    exact hev
  | inr hmem => exact h e hmem

theorem keeps_completed_moveAcc (ev : DDRMemoryAccEvent) (source target : WeaveLoops.EventState) :
    Keeps completedOf (moveAcc ev source target) := by
  unfold moveAcc
  exact .bind (.observe _) fun _ => .bind (.ensure _) fun _ => .change fun _ => rfl

/-- A `done` call that keeps the promise. -/
theorem allKept_done {s : DDRMemory} (h : AllKept c s.completed) {ev : DDRMemoryAccEvent}
    {doneCycle : ℤ} (hev : Kept c ev doneCycle) : ends (fun _ => True)
      (do release ev; done ev doneCycle : Act Unit) (fun _ s' => AllKept c s'.completed) s := by
  unfold done release
  rw [ends_bind]
  refine ends_mono (keeps_completed_moveAcc ev _ _).after fun _ s₁ hs₁ => ?_
  rw [ends_bind]
  refine ends_mono (keeps_completed_moveAcc ev _ _).after fun _ s₂ hs₂ => ?_
  have hsame : s₂.completed = s.completed := hs₂.trans hs₁
  rw [ends_change]
  dsimp only
  rw [hsame]
  exact h.cons hev

variable (w : Bool) (id : ℕ)

/-- `queue` keeps the promise to the writes. -/
theorem allKept_queue (hc : c.Accepted) {s : DDRMemory} (h : AllKept c s.completed)
    (hreq : Started sysCycle ((s.tables w).elem id)) :
    ends (fun _ => True) (queue c w id (c.sysToMemCycle sysCycle))
      (fun _ s' => AllKept c s'.completed) s := by
  unfold queue
  rw [ends_bind, ends_observe, ends_ite]
  by_cases hw : ((s.tables w).elem id).write = true
  · rw [if_pos hw, ends_bind]
    unfold respondWrite
    split
    · trivial
    case h_2 ev hev =>
      obtain ⟨hstart, hwrite⟩ := hreq ev hev
      refine ends_mono (allKept_done h (kept_write hc (hwrite.trans hw) hstart)) fun _ s₁ hs₁ => ?_
      rw [ends_bind, ends_observe]
      exact hs₁
  · rw [if_neg hw, ends_bind, ends_observe]
    exact h

/-- `enqueue` keeps the promise. -/
theorem allKept_enqueue (hc : c.Accepted) {s : DDRMemory} (h : AllKept c s.completed)
    (ev : DDRMemoryAccEvent) :
    ends (fun _ => True) (enqueue c ev) (fun _ s' => AllKept c s'.completed) s := by
  have hhold := keeps_of_outsideAcc (keeps_hold ev) queuesOf fun _ => rfl
  have hcomp := keeps_completed_moveAcc ev .running .held
  have hwake := fun w id memCycle => keeps_of_outsideSched
    (@keeps_wakeUp c w id memCycle ev.startCycle) completedOf fun _ => rfl
  have hstarted : Started ev.startCycle (request c ev) := by
    intro ev' hev'
    cases hev'
    exact ⟨le_rfl, rfl⟩
  unfold enqueue alloc
  simp only [ends_bind, ends_observe, ends_ensure, ends_change, ends_ite, implies_true, and_true]
  intro _
  split
  · refine ends_mono hcomp.after fun _ s₁ hs₁ => ?_
    rw [show s₁.completed = s.completed from hs₁]
    exact h
  · split
    · trivial
    case h_2 id hid =>
      simp only [setTable, ends_bind, ends_change, ends_pure]
      refine ends_mono (hhold.ends hcomp.after) fun _ s₁ hs₁ => ?_
      obtain ⟨hcompleted, htables⟩ := hs₁
      have hreq : Started ev.startCycle ((s₁.tables (useWrQueue c (request c ev))).elem id) := by
        rw [(Prod.mk.inj htables).1]
        simpa [ReqTable.store] using hstarted
      have hkept : AllKept c s₁.completed := by
        rw [show s₁.completed = s.completed from hcompleted]
        exact h
      refine ends_mono (allKept_queue _ id hc hkept hreq) fun _ s₂ hs₂ => ?_
      refine ends_mono (hwake _ _ _).after fun _ s₃ hs₃ => ?_
      rw [show s₃.completed = s₂.completed from hs₃]
      exact hs₂

/-- The column command issues no earlier than the tick. -/
theorem curCycle_le_cmdCycle (ch : Channel) (r : Request) (curCycle : ℕ) :
    curCycle ≤ ch.cmdCycle c r curCycle := by
  have hbus : curCycle ≤ ch.minBusCycle c r curCycle := by
    unfold Channel.minBusCycle
    dsimp only
    split <;> omega
  unfold Channel.cmdCycle
  dsimp only
  split <;> omega

/-- `trySchedule` keeps the promise to the read it serves. -/
theorem allKept_serve (hc : c.Accepted) {s : DDRMemory} (h : AllKept c s.completed)
    (hreq : Started sysCycle ((s.tables w).elem id)) :
    ends (fun _ => True) (serve c w id (c.sysToMemCycle sysCycle) sysCycle)
      (fun _ s' => AllKept c s'.completed) s := by
  have hcmd := @curCycle_le_cmdCycle c s.chan ((s.tables w).elem id) (c.sysToMemCycle sysCycle)
  unfold serve
  simp only [ends_bind, ends_observe, ends_ensure, ends_change, setTable, ends_pure, implies_true,
    and_true]
  intro _ _
  unfold respondRead
  split
  · exact h
  case h_2 ev hev =>
    obtain ⟨hstart, -⟩ := hreq ev hev
    simp only [ends_bind, ends_observe, ends_ensure, implies_true, and_true]
    intro hread _
    refine (ends_bind ..).mp (ends_mono (allKept_done ?_ (kept_read hc hread.1 hstart ?_))
      fun _ s₁ hs₁ => hs₁)
    · exact h
    -- the response is `tCL + tBL` after the command
    change _ ≤ s.chan.cmdCycle c ((s.tables w).elem id) (c.sysToMemCycle sysCycle) + c.tCL + c.tBL
    omega

theorem allKept_trySchedule (hc : c.Accepted) {s : DDRMemory} (h : AllKept c s.completed)
    (hreqs : AllReqs (Started sysCycle) (queuesOf s)) :
    ends (fun _ => True) (trySchedule c (c.sysToMemCycle sysCycle) sysCycle)
      (fun _ s' => AllKept c s'.completed) s := by
  unfold trySchedule
  rw [ends_bind, ends_observe, ends_ite]
  split
  · exact h
  · rw [ends_ite]
    split
    · exact h
    · rw [ends_bind, ends_ensure]
      refine ⟨fun _ => ?_, fun _ => trivial⟩
      split
      · exact h
      case h_2 id minSchedCycle hfind =>
        exact allKept_serve _ id hc h (hreqs.1 _ id (findReady_mem (congrArg Prod.fst hfind)))

/-- A request of the overflow queue keeps its promise when it is queued. -/
theorem allKept_takeOverflow (hc : c.Accepted) {s : DDRMemory} (h : AllKept c s.completed)
    (hreqs : AllReqs (Started sysCycle) (queuesOf s)) (minSchedCycle : WithTop ℕ) :
    ends (fun _ => True) (takeOverflow c (c.sysToMemCycle sysCycle) minSchedCycle)
      (fun _ s' => AllKept c s'.completed) s := by
  unfold takeOverflow
  rw [ends_bind, ends_observe]
  split
  · exact h
  case h_2 req reqs hover =>
    have hreq : ∀ r ∈ req :: reqs, Started sysCycle r := by
      rw [← hover]
      exact hreqs.2
    rw [ends_ite]
    split
    · exact h
    · unfold alloc
      simp only [ends_bind, ends_observe]
      split
      · trivial
      case h_2 id hid =>
        simp only [setTable, ends_bind, ends_change, ends_pure]
        refine ends_mono (allKept_queue (useWrQueue c req) id hc h ?_) fun _ s₁ hs₁ => ?_
        · have hself := hreq req List.mem_cons_self
          simpa [ReqTable.store] using hself
        · refine ends_mono (keeps_lowerSchedCycle _ _ _ minSchedCycle completedOf).after fun _ s₂ hs₂ => ?_
          rw [show s₂.completed = s₁.completed from hs₂]
          exact hs₁

theorem allKept_tick (hc : c.Accepted) {s : DDRMemory} (h : AllKept c s.completed)
    (hreqs : AllReqs (Started sysCycle) (queuesOf s)) :
    ends (fun _ => True) (tick c sysCycle) (fun _ s' => AllKept c s'.completed) s := by
  unfold tick
  simp only [ends_bind, ends_observe, ends_ensure, implies_true, and_true]
  intro _
  refine ends_mono (ends_and (allKept_trySchedule hc h hreqs)
    (allReqs_trySchedule sysCycle _ hreqs)) fun minSchedCycle s₁ hs₁ _ => ?_
  refine ends_mono (allKept_takeOverflow hc hs₁.1 hs₁.2 minSchedCycle) fun next s₂ hs₂ => ?_
  rw [ends_change]
  split
  · exact hs₂
  · exact hs₂

theorem allKept_perform (hc : c.Accepted) {s : DDRMemory} (h : AllKept c s.completed) (x : Input)
    (hreqs : AllReqs (Started x.cycle) (queuesOf s)) :
    ends (fun _ => True) (perform c x) (fun _ s' => AllKept c s'.completed) s := by
  unfold perform
  simp only [ends_bind, ends_observe, ends_ensure, ends_change, implies_true, and_true]
  intro _
  cases x with
  | access ev =>
    simp only [ends_bind, ends_ensure, ends_change, implies_true, and_true]
    intro _
    refine allKept_enqueue hc ?_ ev
    exact h
  | sched e cycle =>
    have hretire := keeps_of_outsideSched (keeps_retire e) completedOf fun _ => rfl
    have hrequeue := fun cycle => keeps_of_outsideSched (keeps_requeue e cycle) completedOf fun _ => rfl
    have hend : ∀ s₁ : DDRMemory, AllKept c s₁.completed →
        ends (fun _ => True) (retire e) (fun _ s' => AllKept c s'.completed) s₁ := by
      intro s₁ hs₁
      refine ends_mono hretire.after fun _ s₂ hs₂ => ?_
      rw [show s₂.completed = s₁.completed from hs₂]
      exact hs₁
    simp only [ends_bind, ends_ensure, ends_change, implies_true, and_true, simulate, ends_observe,
      setSchedState]
    intro _ _
    rw [ends_ite]
    split
    · rw [ends_bind, ends_change, ends_bind]
      refine ends_mono (allKept_tick hc h hreqs) fun next s₁ hs₁ => ?_
      rw [ends_ite]
      split
      · rw [ends_bind]
        refine ends_mono (hrequeue next).after fun _ s₂ hs₂ => ?_
        rw [ends_change]
        dsimp only
        rw [show s₂.completed = s₁.completed from hs₂]
        exact hs₁
      · exact hend s₁ hs₁
    · rw [ends_bind, ends_ensure]
      exact ⟨fun _ => hend _ h, fun _ => trivial⟩
  | refresh cycle =>
    simp only [DDRController.refresh, ends_bind, ends_observe, ends_ensure, ends_change,
      implies_true, and_true]
    intro _
    exact h

/-- The promise to the finished events, and the start of the waiting ones. -/
structure Promised (c : DDRConfig) (s : DDRMemory) : Prop where
  kept : AllKept c s.completed
  started : AllReqs (Started s.now) (queuesOf s)

theorem Promised.step (hc : c.Accepted) {s s' : DDRMemory} {x : Input} (h : Promised c s)
    (hs : step c s x = some s') : Promised c s' := by
  obtain ⟨hle, hnow⟩ := of_step (now_perform s x) hs
  have hreqs : AllReqs (Started x.cycle) (queuesOf s) :=
    ⟨fun w id hid => (h.started.1 w id hid).mono hle, fun r hr => (h.started.2 r hr).mono hle⟩
  refine ⟨of_step (allKept_perform hc h.kept x hreqs) hs, ?_⟩
  rw [hnow]
  refine of_step (allReqs_perform stable_started (fun ev hx _ => ?_) hreqs) hs
  rw [hx]
  intro ev' hev'
  cases hev'
  exact ⟨le_rfl, rfl⟩

end Runs

end DDR

section Detailed

open DetailedMemParams MemAddressMap MemChannel MemController

variable {c : MemConfig}

/-- The done cycle of an event does not wrap, and its children are given no
cycle before the promised one. -/
def MemKept (c : MemConfig) (ev : MemAccessEventBase) (doneCycle : ℤ) : Prop :=
  0 ≤ doneCycle ∧ ∀ reqCycle : ℕ, reqCycle + c.preDelay ev.type ≤ ev.startCycle →
    (ev.startCycle : ℤ) - c.preDelay ev.type + ((c.respCycle reqCycle ev.type : ℕ) - reqCycle) ≤
      doneCycle + c.postDelay ev.type

/-- The delays of an event add up to its promised latency. -/
theorem memKept_of_le {ev : MemAccessEventBase} {doneCycle : ℤ} (h : (ev.startCycle : ℤ) ≤ doneCycle) :
    MemKept c ev doneCycle := by
  have hpre : c.preDelay ev.type ≤ c.minLatency ev.type := Nat.div_le_self ..
  unfold MemKept MemConfig.respCycle MemConfig.postDelay
  constructor
  · omega
  · intro reqCycle _
    omega

/-- All `done` calls so far kept the promise. -/
def AllMemKept (c : MemConfig) (s : MemControllerBase) : Prop :=
  ∀ e ∈ s.completed, MemKept c e.1 e.2

theorem AllMemKept.done {s : MemControllerBase} (h : AllMemKept c s) {ev : MemAccessEventBase}
    {doneCycle : ℤ} (hev : (ev.startCycle : ℤ) ≤ doneCycle) :
    AllMemKept c { s with completed := (ev, doneCycle) :: s.completed } := by
  intro e he
  cases List.mem_cons.mp he with
  | inl heq =>
    rw [heq]
    exact memKept_of_le hev
  | inr hmem => exact h e hmem

end Detailed

end Zsim.WeavePromise
