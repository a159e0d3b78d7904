import Zsim.GuardedRuns
import Zsim.TableCounts

/-!
# Futex wakes and waits

A wake call raises the allowance of wake-ups before it enters the kernel, gives
back at its join what the kernel has not used, and waits until as many waits
have joined as it has woken. The threads meet at two global counters only.
-/

namespace Zsim.FutexMatching

open GuardedRuns TableCounts

/-- `op & FUTEX_CMD_MASK`, without the private and the realtime flag. -/
def futexCmd (op : BitVec 32) : ℕ := (op &&& ~~~384#32).toNat

/-- `isFutexWaitOp`. -/
def isFutexWaitOp (op : BitVec 32) : Bool :=
  match futexCmd op with
  | 0 | 9 | 11 => true
  | _ => false

/-- `isFutexWakeOp`. -/
def isFutexWakeOp (op : BitVec 32) : Bool :=
  match futexCmd op with
  | 1 | 3 | 4 | 5 | 10 | 12 => true
  | _ => false

structure FutexInfo where
  op : BitVec 32
  val : BitVec 32

inductive FutexJoinAction where
  | none
  | wake
  | wait
deriving DecidableEq

structure FutexJoinInfo where
  action : FutexJoinAction
  maxWakes : ℕ
  wokenUp : ℕ

/-- Where a thread is. The last three are inside `futexWakeJoin`, without the lock. -/
inductive Stage where
  | user
  | inKernel
  /-- The call has returned, and the thread will join. -/
  | exiting
  /-- It polls the counter. -/
  | polling
  /-- It has seen enough waits and takes the lock. -/
  | relocking
  /-- It has polled for too long and takes the lock. -/
  | givingUp
deriving DecidableEq

structure ThreadInfo where
  futexJoin : FutexJoinInfo
  stage : Stage
  /-- The futex call, from its entry to the end of its join. -/
  call : Option FutexInfo
  /-- The joined waits that are put down to the wake call. -/
  credit : ℕ

structure Scheduler where
  numThreads : ℕ
  thread : ℕ → ThreadInfo
  maxAllowedFutexWakeups : ℕ
  unmatchedFutexWakeups : ℕ

namespace Scheduler

def setThread (s : Scheduler) (tid : ℕ) (th : ThreadInfo) : Scheduler :=
  { s with thread := Function.update s.thread tid th }

/-- No thread is in a call. -/
def init (numThreads : ℕ) : Scheduler where
  numThreads := numThreads
  thread _ := ⟨⟨.none, 0, 0⟩, .user, none, 0⟩
  maxAllowedFutexWakeups := 0
  unmatchedFutexWakeups := 0

/-- `notifyFutexWakeStart`; none where its assertion fails. -/
def notifyFutexWakeStart (s : Scheduler) (tid maxWakes : ℕ) : Option Scheduler :=
  let th := s.thread tid
  if th.futexJoin.action = .none then
    let maxWakes := min maxWakes (1 <<< 24)
    some { s.setThread tid { th with futexJoin := { th.futexJoin with maxWakes := maxWakes } } with
      maxAllowedFutexWakeups := (s.maxAllowedFutexWakeups + maxWakes) % 2 ^ 32 }
  else none

/-- `notifyFutexWakeEnd`. -/
def notifyFutexWakeEnd (s : Scheduler) (tid wokenUp : ℕ) : Scheduler :=
  let th := s.thread tid
  s.setThread tid { th with futexJoin := { th.futexJoin with action := .wake, wokenUp := wokenUp } }

/-- `notifyFutexWaitWoken`. -/
def notifyFutexWaitWoken (s : Scheduler) (tid : ℕ) : Scheduler :=
  s.setThread tid { s.thread tid with futexJoin := ⟨.wait, 0, 0⟩ }

/-- `PrePatchFutex`. -/
def prePatchFutex (s : Scheduler) (tid : ℕ) (fi : FutexInfo) : Option Scheduler :=
  if isFutexWakeOp fi.op then s.notifyFutexWakeStart tid fi.val.toNat else some s

/-- `std::min` of two `int`s. -/
def stdMin (a b : BitVec 32) : BitVec 32 := if b.toInt < a.toInt then b else a

/-- `PostPatchFutex`. -/
def postPatchFutex (s : Scheduler) (tid : ℕ) (fi : FutexInfo) (res : BitVec 32) : Scheduler :=
  if isFutexWaitOp fi.op = true ∧ res.toInt = 0 then s.notifyFutexWaitWoken tid
  else if isFutexWakeOp fi.op = true ∧ 0 ≤ res.toInt then
    s.notifyFutexWakeEnd tid (stdMin res fi.val).toNat
  else s

/-- `futexWaitJoin`; the wait that is counted is put down to the call of `waker`. -/
def futexWaitJoin (s : Scheduler) (waker : ℕ) : Scheduler :=
  if s.maxAllowedFutexWakeups ≤ s.unmatchedFutexWakeups then s
  else { s.setThread waker { s.thread waker with credit := (s.thread waker).credit + 1 } with
    unmatchedFutexWakeups := s.unmatchedFutexWakeups + 1 }

/-- `futexWakeJoin` until it releases the lock; none where an assertion fails. -/
def futexWakeJoin (s : Scheduler) (tid : ℕ) : Option Scheduler :=
  let maxWakes := (s.thread tid).futexJoin.maxWakes
  let wokenUp := (s.thread tid).futexJoin.wokenUp
  if maxWakes ≤ s.maxAllowedFutexWakeups ∧ wokenUp ≤ maxWakes then
    let maxAllowedFutexWakeups := s.maxAllowedFutexWakeups - (maxWakes - wokenUp)
    if s.unmatchedFutexWakeups ≤ maxAllowedFutexWakeups then
      some { s.setThread tid { s.thread tid with stage := .polling } with
        maxAllowedFutexWakeups := maxAllowedFutexWakeups }
    else none
  else none

/-- The join resets the action. -/
def endJoin (s : Scheduler) (tid : ℕ) : Scheduler :=
  s.setThread tid ⟨{ (s.thread tid).futexJoin with action := .none }, .user, none, 0⟩

/-- The thread has the lock again, and rechecks. -/
def recheck (s : Scheduler) (tid : ℕ) : Scheduler :=
  let wokenUp := (s.thread tid).futexJoin.wokenUp
  if wokenUp ≤ s.unmatchedFutexWakeups then
    { s.endJoin tid with
      unmatchedFutexWakeups := s.unmatchedFutexWakeups - wokenUp
      maxAllowedFutexWakeups := (s.maxAllowedFutexWakeups + (2 ^ 32 - wokenUp)) % 2 ^ 32 }
  else s.setThread tid { s.thread tid with stage := .polling }

/-- The matching has failed; no wait is put down to any call any more. -/
def giveUp (s : Scheduler) (tid : ℕ) : Scheduler :=
  let wokenUp := (s.thread tid).futexJoin.wokenUp
  { s with
    thread := fun t => { (s.endJoin tid).thread t with credit := 0 }
    unmatchedFutexWakeups := 0
    maxAllowedFutexWakeups := (s.maxAllowedFutexWakeups + (2 ^ 32 - wokenUp)) % 2 ^ 32 }

end Scheduler

open Scheduler

/-- What a thread does next. -/
inductive FutexOp where
  | enter (tid : ℕ) (fi : FutexInfo)
  /-- The kernel returns a result. -/
  | exit (tid : ℕ) (res : BitVec 32)
  | join (tid waker : ℕ)
  /-- One test of the loop, possibly after the two seconds. -/
  | poll (tid : ℕ) (late : Bool)
  | lock (tid : ℕ)

/-- One step of a thread; none where it cannot be taken, or an assertion fails. -/
def step (s : Scheduler) : FutexOp → Option Scheduler
  | .enter tid fi =>
    if tid < s.numThreads ∧ (s.thread tid).stage = .user then
      (s.prePatchFutex tid fi).map fun s =>
        s.setThread tid { s.thread tid with stage := .inKernel, call := some fi }
    else none
  | .exit tid res =>
    if (s.thread tid).stage = .inKernel then
      (s.thread tid).call.map fun fi =>
        let s := s.postPatchFutex tid fi res
        s.setThread tid { s.thread tid with stage := .exiting }
    else none
  | .join tid waker =>
    if (s.thread tid).stage = .exiting then
      match (s.thread tid).futexJoin.action with
      | .none => some (s.endJoin tid)
      | .wait => some ((s.futexWaitJoin waker).endJoin tid)
      | .wake => s.futexWakeJoin tid
    else none
  | .poll tid late =>
    if (s.thread tid).stage = .polling then
      if s.unmatchedFutexWakeups < (s.thread tid).futexJoin.wokenUp then
        some (s.setThread tid { s.thread tid with stage := if late then .givingUp else .polling })
      else some (s.setThread tid { s.thread tid with stage := .relocking })
    else none
  | .lock tid =>
    match (s.thread tid).stage with
    | .relocking => some (s.recheck tid)
    | .givingUp => some (s.giveUp tid)
    | _ => none

/-- The thread is in a wake call, which has not ended its join. -/
def ThreadInfo.inWake (th : ThreadInfo) : Bool :=
  match th.call with
  | some fi => isFutexWakeOp fi.op
  | none => false

/-- The matching is in balance while nobody holds the lock. -/
structure Balanced (s : Scheduler) : Prop where
  /-- No assertion of `futexWakeJoin` would fail. -/
  joins : ∀ tid, (s.thread tid).stage = .exiting → (s.thread tid).futexJoin.action = .wake →
    (s.futexWakeJoin tid).isSome
  matched : s.unmatchedFutexWakeups ≤ s.maxAllowedFutexWakeups
  quiet : (∀ tid < s.numThreads, (s.thread tid).inWake = false) → s.maxAllowedFutexWakeups = 0

/-- The most waits that may be put down to the call. -/
def ThreadInfo.limit (th : ThreadInfo) : ℕ :=
  if th.inWake then if th.stage = .inKernel then th.futexJoin.maxWakes else th.futexJoin.wokenUp else 0

/-- A wake call adds less than `2 ^ 32` to the allowance, and returns neither
an error nor more than its cap, for a nonnegative argument; every wait that is
counted can be put down to a call that has not ended its join, as many to each
as it returns. -/
def Accountable (s : Scheduler) : FutexOp → Prop
  | .enter _ fi => isFutexWakeOp fi.op = true →
    s.maxAllowedFutexWakeups + min fi.val.toNat (1 <<< 24) < 2 ^ 32
  | .exit tid res => ∀ fi, (s.thread tid).call = some fi → isFutexWakeOp fi.op = true →
    0 ≤ res.toInt ∧ 0 ≤ fi.val.toInt ∧ (res.toInt ≤ 1 <<< 24 ∨ fi.val.toInt ≤ 1 <<< 24) ∧
      ((s.thread tid).credit : ℤ) ≤ min res.toInt fi.val.toInt
  | .join tid waker => (s.thread tid).futexJoin.action = .wait →
    s.unmatchedFutexWakeups < s.maxAllowedFutexWakeups →
      waker < s.numThreads ∧ (s.thread waker).credit < (s.thread waker).limit
  | _ => True

section Invariant

/-- What the thread has in the allowance. -/
def ThreadInfo.allowance (th : ThreadInfo) : ℕ :=
  if th.inWake then
    if th.stage = .inKernel ∨ th.stage = .exiting then th.futexJoin.maxWakes else th.futexJoin.wokenUp
  else 0

/-- What the stage of a thread tells about its call. -/
def ThreadInfo.Staged (th : ThreadInfo) : Prop :=
  match th.stage with
  | .user => th.call = none ∧ th.futexJoin.action = .none
  | .inKernel => th.futexJoin.action = .none ∧ ∀ fi, th.call = some fi → isFutexWakeOp fi.op = true →
    th.futexJoin.maxWakes = min fi.val.toNat (1 <<< 24)
  | .exiting =>
    if th.inWake then th.futexJoin.action = .wake ∧ th.futexJoin.wokenUp ≤ th.futexJoin.maxWakes
    else th.futexJoin.action ≠ .wake
  | _ => th.inWake = true ∧ th.futexJoin.action = .wake

/-- What holds while nobody has the lock. -/
structure Inv (s : Scheduler) : Prop where
  staged : ∀ tid, (s.thread tid).Staged
  exists_thread : ∀ tid, (s.thread tid).stage ≠ .user → tid < s.numThreads
  credits : ∀ tid, (s.thread tid).credit ≤ (s.thread tid).limit
  /-- The allowance is what the wake calls have in it. -/
  allowed : s.maxAllowedFutexWakeups = (Finset.range s.numThreads).sum fun tid => (s.thread tid).allowance
  bounded : s.maxAllowedFutexWakeups < 2 ^ 32
  /-- Every unmatched wait is put down to a call. -/
  matched : s.unmatchedFutexWakeups ≤ (Finset.range s.numThreads).sum fun tid => (s.thread tid).credit

variable {s s' : Scheduler} {tid : ℕ} {th : ThreadInfo} {allowed unmatched : ℕ}

@[simp] theorem setThread_thread_self : (s.setThread tid th).thread tid = th := Function.update_self ..

theorem setThread_thread_of_ne {t : ℕ} (h : t ≠ tid) : (s.setThread tid th).thread t = s.thread t :=
  Function.update_of_ne h ..

@[simp] theorem setThread_setThread {th' : ThreadInfo} :
    (s.setThread tid th).setThread tid th' = s.setThread tid th' := by
  unfold setThread
  dsimp only
  rw [Function.update_idem]

/-- One thread moves on, and the counters with it. -/
theorem Inv.setThread (h : Inv s) (htid : tid < s.numThreads) (hstaged : th.Staged)
    (hcredit : th.credit ≤ th.limit)
    (hallowed : allowed + (s.thread tid).allowance = s.maxAllowedFutexWakeups + th.allowance)
    (hbounded : allowed < 2 ^ 32)
    (hmatched : unmatched + (s.thread tid).credit ≤ s.unmatchedFutexWakeups + th.credit) :
    Inv { s.setThread tid th with
      maxAllowedFutexWakeups := allowed, unmatchedFutexWakeups := unmatched } where
  staged t := by
    by_cases ht : t = tid
    · rw [ht]
      exact setThread_thread_self.symm ▸ hstaged
    · exact (setThread_thread_of_ne ht).symm ▸ h.staged t
  exists_thread t hstage := by
    by_cases ht : t = tid
    · exact ht ▸ htid
    · exact h.exists_thread t ((@setThread_thread_of_ne s tid th t ht) ▸ hstage)
  credits t := by
    by_cases ht : t = tid
    · rw [ht]
      exact setThread_thread_self.symm ▸ hcredit
    · exact (setThread_thread_of_ne ht).symm ▸ h.credits t
  allowed := by
    have hmove := @sum_move s.numThreads tid (fun t => (s.thread t).allowance)
      (fun t => ((s.setThread tid th).thread t).allowance) htid fun t ht => by
        rw [setThread_thread_of_ne ht]
    rw [setThread_thread_self] at hmove
    have hold := h.allowed
    change allowed = (Finset.range s.numThreads).sum fun t => ((s.setThread tid th).thread t).allowance
    omega
  bounded := hbounded
  matched := by
    have hmove := @sum_move s.numThreads tid (fun t => (s.thread t).credit)
      (fun t => ((s.setThread tid th).thread t).credit) htid fun t ht => by
        rw [setThread_thread_of_ne ht]
    rw [setThread_thread_self] at hmove
    have hold := h.matched
    change unmatched ≤ (Finset.range s.numThreads).sum fun t => ((s.setThread tid th).thread t).credit
    omega

/-- A thread that changes its stage only. -/
theorem Inv.setStage (h : Inv s) (htid : tid < s.numThreads) (hstaged : th.Staged)
    (hallowance : th.allowance = (s.thread tid).allowance) (hlimit : th.limit = (s.thread tid).limit)
    (hcredit : th.credit = (s.thread tid).credit) : Inv (s.setThread tid th) := by
  have hle := h.credits tid
  exact h.setThread htid hstaged (by omega) (by omega) h.bounded (by omega)

theorem allowance_eq_zero (h : th.inWake = false) : th.allowance = 0 := by
  unfold ThreadInfo.allowance
  rw [h]
  rfl

theorem limit_eq_zero (h : th.inWake = false) : th.limit = 0 := by
  unfold ThreadInfo.limit
  rw [h]
  rfl

theorem allowance_eq_maxWakes (h : th.inWake = true) (hstage : th.stage = .inKernel ∨ th.stage = .exiting) :
    th.allowance = th.futexJoin.maxWakes := by
  unfold ThreadInfo.allowance
  rw [if_pos h, if_pos hstage]

theorem allowance_eq_wokenUp (h : th.inWake = true) (hkernel : th.stage ≠ .inKernel)
    (hexit : th.stage ≠ .exiting) : th.allowance = th.futexJoin.wokenUp := by
  unfold ThreadInfo.allowance
  rw [if_pos h, if_neg (not_or.mpr ⟨hkernel, hexit⟩)]

theorem limit_eq_wokenUp (h : th.inWake = true) (hkernel : th.stage ≠ .inKernel) :
    th.limit = th.futexJoin.wokenUp := by
  unfold ThreadInfo.limit
  rw [if_pos h, if_neg hkernel]

theorem Inv.limit_le_allowance (h : Inv s) (tid : ℕ) : (s.thread tid).limit ≤ (s.thread tid).allowance := by
  have hstaged := h.staged tid
  unfold ThreadInfo.Staged at hstaged
  unfold ThreadInfo.limit ThreadInfo.allowance
  cases hin : (s.thread tid).inWake with
  | false => exact le_rfl
  | true =>
    rw [if_pos rfl, if_pos rfl]
    cases hstage : (s.thread tid).stage with
    | exiting =>
      rw [hstage, hin] at hstaged
      exact hstaged.2
    | _ => exact le_rfl

/-- No wait is put down to a thread outside a wake call. -/
theorem Inv.credit_eq_zero (h : Inv s) (hout : (s.thread tid).inWake = false) :
    (s.thread tid).credit = 0 := by
  have hle := h.credits tid
  rw [limit_eq_zero hout] at hle
  exact Nat.le_zero.mp hle

/-- What a thread has in the allowance is part of it. -/
theorem Inv.allowance_le (h : Inv s) (htid : tid < s.numThreads) :
    (s.thread tid).allowance ≤ s.maxAllowedFutexWakeups := by
  rw [h.allowed]
  exact Finset.single_le_sum (f := fun t => (s.thread t).allowance) (fun _ _ => Nat.zero_le _)
    (Finset.mem_range.mpr htid)

end Invariant

section Steps

variable {s s' : Scheduler} {tid : ℕ} {th : ThreadInfo} {fi : FutexInfo}

theorem isFutexWaitOp_of_isFutexWakeOp {op : BitVec 32} (h : isFutexWakeOp op = true) :
    isFutexWaitOp op = false := by
  unfold isFutexWakeOp at h
  unfold isFutexWaitOp
  split at h <;> simp_all

/-- The entry of a call. -/
theorem Inv.enter (h : Inv s) (hop : Accountable s (.enter tid fi))
    (hstep : FutexMatching.step s (.enter tid fi) = some s') : Inv s' := by
  obtain ⟨⟨htid, hstage⟩, hstep⟩ := Option.ite_none_right_eq_some.mp hstep
  obtain ⟨s₁, hpre, hs'⟩ := Option.map_eq_some_iff.mp hstep
  have hstaged := h.staged tid
  unfold ThreadInfo.Staged at hstaged
  rw [hstage] at hstaged
  obtain ⟨hcall, haction⟩ := hstaged
  have hout : (s.thread tid).inWake = false := by
    unfold ThreadInfo.inWake
    rw [hcall]
  have hnone := allowance_eq_zero hout
  have hcredit := h.credit_eq_zero hout
  have hin : ∀ futexJoin credit, (ThreadInfo.mk futexJoin .inKernel (some fi) credit).inWake =
      isFutexWakeOp fi.op := fun _ _ => rfl
  unfold Scheduler.prePatchFutex at hpre
  by_cases hwake : isFutexWakeOp fi.op = true
  · have hfits := hop hwake
    rw [if_pos hwake] at hpre
    unfold Scheduler.notifyFutexWakeStart at hpre
    rw [if_pos haction] at hpre
    cases hpre
    have hnew := @Inv.setThread s tid
      ⟨{ (s.thread tid).futexJoin with maxWakes := min fi.val.toNat (1 <<< 24) }, .inKernel, some fi,
        (s.thread tid).credit⟩
      ((s.maxAllowedFutexWakeups + min fi.val.toNat (1 <<< 24)) % 2 ^ 32) s.unmatchedFutexWakeups h htid
      ⟨haction, fun fi' hfi' _ => by rw [Option.some.inj hfi']⟩ (by rw [hcredit]; exact Nat.zero_le _)
      (by rw [hnone, allowance_eq_maxWakes (hin _ _ |>.trans hwake) (.inl rfl), Nat.mod_eq_of_lt hfits]; rfl)
      (Nat.mod_lt _ (by omega)) le_rfl
    rw [← hs']
    unfold Scheduler.setThread at hnew ⊢
    dsimp only
    rw [Function.update_self, Function.update_idem]
    exact hnew
  · rw [if_neg hwake] at hpre
    cases hpre
    have hno : isFutexWakeOp fi.op = false := Bool.eq_false_iff.mpr hwake
    rw [← hs']
    refine h.setStage htid ⟨haction, fun fi' hfi' htrue => ?_⟩ ?_ ?_ rfl
    · exact absurd (Option.some.inj hfi' ▸ htrue) hwake
    · rw [hnone]
      exact allowance_eq_zero (hno ▸ hin _ _)
    · rw [limit_eq_zero hout]
      exact limit_eq_zero (hno ▸ hin _ _)

/-- The minimum of two results that are no errors. -/
theorem stdMin_toNat {a b : BitVec 32} (ha : 0 ≤ a.toInt) (hb : 0 ≤ b.toInt) :
    ((stdMin a b).toNat : ℤ) = min a.toInt b.toInt := by
  unfold stdMin
  have ha' := a.toInt_eq_toNat_cond
  have hb' := b.toInt_eq_toNat_cond
  have hla := a.isLt
  have hlb := b.isLt
  split at ha' <;> split at hb' <;> split <;> omega

/-- The exit of a call. -/
theorem Inv.exit {res : BitVec 32} (h : Inv s) (hop : Accountable s (.exit tid res))
    (hstep : FutexMatching.step s (.exit tid res) = some s') : Inv s' := by
  obtain ⟨hstage, hstep⟩ := Option.ite_none_right_eq_some.mp hstep
  obtain ⟨fi, hcall, hs'⟩ := Option.map_eq_some_iff.mp hstep
  have htid : tid < s.numThreads := h.exists_thread tid (by rw [hstage]; exact nofun)
  have hstaged := h.staged tid
  unfold ThreadInfo.Staged at hstaged
  rw [hstage] at hstaged
  obtain ⟨haction, hmax⟩ := hstaged
  have hwake : (s.thread tid).inWake = isFutexWakeOp fi.op := by
    unfold ThreadInfo.inWake
    rw [hcall]
  -- a call that is no wake call has nothing in the allowance
  have hother : ∀ futexJoin, isFutexWakeOp fi.op = false → futexJoin.action ≠ .wake →
      Inv (s.setThread tid ⟨futexJoin, .exiting, (s.thread tid).call, (s.thread tid).credit⟩) := by
    intro futexJoin hno hne
    have hin : (ThreadInfo.mk futexJoin .exiting (s.thread tid).call (s.thread tid).credit).inWake = false :=
      hwake.trans hno
    refine h.setStage htid ?_ ?_ ?_ rfl
    · unfold ThreadInfo.Staged
      dsimp only
      rw [hin]
      exact hne
    · rw [allowance_eq_zero hin, allowance_eq_zero (hwake.trans hno)]
    · rw [limit_eq_zero hin, limit_eq_zero (hwake.trans hno)]
  unfold Scheduler.postPatchFutex at hs'
  by_cases hwait : isFutexWaitOp fi.op = true ∧ res.toInt = 0
  · have hno : isFutexWakeOp fi.op = false := by
      refine Bool.eq_false_iff.mpr fun htrue => ?_
      rw [isFutexWaitOp_of_isFutexWakeOp htrue] at hwait
      exact Bool.false_ne_true hwait.1
    rw [if_pos hwait] at hs'
    rw [← hs']
    unfold Scheduler.notifyFutexWaitWoken
    dsimp only
    rw [setThread_setThread, setThread_thread_self]
    exact hother _ hno nofun
  · rw [if_neg hwait] at hs'
    cases hop' : isFutexWakeOp fi.op with
    | false =>
      rw [hop', if_neg fun hboth => Bool.false_ne_true hboth.1] at hs'
      rw [← hs']
      exact hother _ hop' (by rw [haction]; exact nofun)
    | true =>
      obtain ⟨hres, hval, hcap, hcredit⟩ := hop fi hcall hop'
      rw [if_pos ⟨hop', hres⟩] at hs'
      rw [← hs']
      unfold Scheduler.notifyFutexWakeEnd
      dsimp only
      rw [setThread_setThread, setThread_thread_self]
      have hmin := stdMin_toNat hres hval
      have hmaxWakes := hmax fi hcall hop'
      have hvalue : (fi.val.toNat : ℤ) = fi.val.toInt := by
        have hcond := fi.val.toInt_eq_toNat_cond
        split at hcond <;> omega
      have hin : ∀ futexJoin, (ThreadInfo.mk futexJoin .exiting (s.thread tid).call
          (s.thread tid).credit).inWake = true := fun _ => hwake.trans hop'
      refine h.setThread htid ?_ ?_ ?_ h.bounded le_rfl
      · unfold ThreadInfo.Staged
        dsimp only
        rw [if_pos (hin _)]
        refine ⟨rfl, ?_⟩
        omega
      · rw [limit_eq_wokenUp (hin _) nofun]
        dsimp only
        omega
      · rw [allowance_eq_maxWakes (hin _) (.inr rfl), allowance_eq_maxWakes (hwake.trans hop') (.inl hstage)]

/-- The end of a join outside a wake call. -/
theorem Inv.endJoin (h : Inv s) (htid : tid < s.numThreads) (hout : (s.thread tid).inWake = false) :
    Inv (s.endJoin tid) := by
  unfold Scheduler.endJoin
  refine h.setStage htid ⟨rfl, rfl⟩ ?_ ?_ (h.credit_eq_zero hout).symm
  · rw [allowance_eq_zero hout]
    exact allowance_eq_zero rfl
  · rw [limit_eq_zero hout]
    exact limit_eq_zero rfl

/-- A wait that is counted goes to the credit of a call that has some left. -/
theorem Inv.futexWaitJoin {waker : ℕ} (h : Inv s)
    (hop : s.unmatchedFutexWakeups < s.maxAllowedFutexWakeups →
      waker < s.numThreads ∧ (s.thread waker).credit < (s.thread waker).limit) :
    Inv (s.futexWaitJoin waker) := by
  unfold Scheduler.futexWaitJoin
  split
  · exact h
  · rename_i hlt
    obtain ⟨hwaker, hcredit⟩ := hop (Nat.lt_of_not_le hlt)
    refine h.setThread hwaker (h.staged waker) hcredit rfl h.bounded ?_
    dsimp only
    omega

/-- What the stage tells of a thread that has left the kernel. -/
theorem Inv.exiting (h : Inv s) (hstage : (s.thread tid).stage = .exiting) :
    ((s.thread tid).inWake = true → (s.thread tid).futexJoin.action = .wake ∧
      (s.thread tid).futexJoin.wokenUp ≤ (s.thread tid).futexJoin.maxWakes) ∧
    ((s.thread tid).inWake = false → (s.thread tid).futexJoin.action ≠ .wake) := by
  have hstaged := h.staged tid
  unfold ThreadInfo.Staged at hstaged
  rw [hstage] at hstaged
  dsimp only at hstaged
  constructor
  · intro hin
    rwa [if_pos hin] at hstaged
  · intro hout
    rwa [if_neg (Bool.not_eq_true _ ▸ hout)] at hstaged

/-- The credits of the calls leave room for what one of them does not use. -/
theorem Inv.room (h : Inv s) (hstage : (s.thread tid).stage = .exiting)
    (hin : (s.thread tid).inWake = true) :
    s.unmatchedFutexWakeups + ((s.thread tid).futexJoin.maxWakes - (s.thread tid).futexJoin.wokenUp) ≤
      s.maxAllowedFutexWakeups := by
  have htid := h.exists_thread tid (by rw [hstage]; exact nofun)
  obtain ⟨-, hwoken⟩ := (h.exiting hstage).1 hin
  have hle : ∀ t, (s.thread t).credit ≤
      Function.update (fun t => (s.thread t).allowance) tid (s.thread tid).futexJoin.wokenUp t := by
    intro t
    have hcredit := h.credits t
    by_cases ht : t = tid
    · rw [ht] at hcredit ⊢
      rw [limit_eq_wokenUp hin (by rw [hstage]; exact nofun)] at hcredit
      rwa [Function.update_self]
    · rw [Function.update_of_ne ht]
      exact hcredit.trans (h.limit_le_allowance t)
  have hsum : (Finset.range s.numThreads).sum (fun t => (s.thread t).credit) ≤ (Finset.range s.numThreads).sum
      (Function.update (fun t => (s.thread t).allowance) tid (s.thread tid).futexJoin.wokenUp) :=
    Finset.sum_le_sum fun t _ => hle t
  have hmove := @sum_move s.numThreads tid (fun t => (s.thread t).allowance)
    (Function.update (fun t => (s.thread t).allowance) tid (s.thread tid).futexJoin.wokenUp) htid
    fun t ht => Function.update_of_ne ht ..
  rw [Function.update_self, allowance_eq_maxWakes hin (.inr hstage), ← h.allowed] at hmove
  have hmatched := h.matched
  omega

/-- The start of a wake's join passes its assertions. -/
theorem Inv.futexWakeJoin (h : Inv s) (hstage : (s.thread tid).stage = .exiting)
    (hin : (s.thread tid).inWake = true) : ∃ s', s.futexWakeJoin tid = some s' ∧ Inv s' := by
  have htid := h.exists_thread tid (by rw [hstage]; exact nofun)
  obtain ⟨haction, hwoken⟩ := (h.exiting hstage).1 hin
  have hallowance := h.allowance_le htid
  rw [allowance_eq_maxWakes hin (.inr hstage)] at hallowance
  have hroom := h.room hstage hin
  have hcredit := h.credits tid
  rw [limit_eq_wokenUp hin (by rw [hstage]; exact nofun)] at hcredit
  have hin' : (ThreadInfo.mk (s.thread tid).futexJoin .polling (s.thread tid).call
      (s.thread tid).credit).inWake = true := hin
  have hjoin : s.futexWakeJoin tid = some { s.setThread tid { s.thread tid with stage := .polling } with
      maxAllowedFutexWakeups := s.maxAllowedFutexWakeups -
        ((s.thread tid).futexJoin.maxWakes - (s.thread tid).futexJoin.wokenUp) } := by
    unfold Scheduler.futexWakeJoin
    rw [if_pos ⟨hallowance, hwoken⟩]
    exact if_pos (by omega)
  refine ⟨_, hjoin, h.setThread htid ⟨hin', haction⟩ ?_ ?_ ?_ le_rfl⟩
  · rw [limit_eq_wokenUp hin' nofun]
    exact hcredit
  · rw [allowance_eq_wokenUp hin' nofun nofun, allowance_eq_maxWakes hin (.inr hstage)]
    dsimp only
    omega
  · have hbounded := h.bounded
    omega

/-- The join of a call. -/
theorem Inv.join {waker : ℕ} (h : Inv s) (hop : Accountable s (.join tid waker))
    (hstep : FutexMatching.step s (.join tid waker) = some s') : Inv s' := by
  obtain ⟨hstage, hstep⟩ := Option.ite_none_right_eq_some.mp hstep
  have htid := h.exists_thread tid (by rw [hstage]; exact nofun)
  obtain ⟨hwake, hother⟩ := h.exiting hstage
  cases hin : (s.thread tid).inWake with
  | true =>
    rw [(hwake hin).1] at hstep
    obtain ⟨s₁, hjoin, hinv⟩ := h.futexWakeJoin hstage hin
    exact Option.some.inj (hjoin.symm.trans hstep) ▸ hinv
  | false =>
    have hne := hother hin
    cases haction : (s.thread tid).futexJoin.action with
    | wake => exact absurd haction hne
    | none =>
      rw [haction] at hstep
      exact Option.some.inj hstep ▸ h.endJoin htid hin
    | wait =>
      rw [haction] at hstep
      have hwait := h.futexWaitJoin (hop haction)
      have hsame : ((s.futexWaitJoin waker).thread tid).inWake = false := by
        unfold Scheduler.futexWaitJoin
        split
        · exact hin
        · by_cases ht : tid = waker
          · rw [ht] at hin ⊢
            dsimp only
            rw [setThread_thread_self]
            exact hin
          · dsimp only
            rw [setThread_thread_of_ne ht]
            exact hin
      have hnum : (s.futexWaitJoin waker).numThreads = s.numThreads := by
        unfold Scheduler.futexWaitJoin
        split <;> rfl
      exact Option.some.inj hstep ▸ hwait.endJoin (hnum.symm ▸ htid) hsame

/-- What the stage tells of a thread inside `futexWakeJoin`. -/
theorem Inv.joining (h : Inv s) (hstage : (s.thread tid).stage = .polling ∨
    (s.thread tid).stage = .relocking ∨ (s.thread tid).stage = .givingUp) :
    tid < s.numThreads ∧ (s.thread tid).inWake = true ∧ (s.thread tid).futexJoin.action = .wake ∧
      (s.thread tid).allowance = (s.thread tid).futexJoin.wokenUp ∧
      (s.thread tid).limit = (s.thread tid).futexJoin.wokenUp := by
  have hstaged := h.staged tid
  unfold ThreadInfo.Staged at hstaged
  have hne : (s.thread tid).stage ≠ .user ∧ (s.thread tid).stage ≠ .inKernel ∧
      (s.thread tid).stage ≠ .exiting := by
    obtain hstage | hstage | hstage := hstage <;> rw [hstage] <;> exact ⟨nofun, nofun, nofun⟩
  have hin : (s.thread tid).inWake = true ∧ (s.thread tid).futexJoin.action = .wake := by
    obtain hstage | hstage | hstage := hstage <;> rw [hstage] at hstaged <;> exact hstaged
  exact ⟨h.exists_thread tid hne.1, hin.1, hin.2, allowance_eq_wokenUp hin.1 hne.2.1 hne.2.2,
    limit_eq_wokenUp hin.1 hne.2.1⟩

/-- A thread inside `futexWakeJoin` moves on to another of its stages. -/
theorem Inv.moves {stage : Stage} (h : Inv s) (hstage : (s.thread tid).stage = .polling ∨
    (s.thread tid).stage = .relocking ∨ (s.thread tid).stage = .givingUp)
    (hnew : stage = .polling ∨ stage = .relocking ∨ stage = .givingUp) :
    Inv (s.setThread tid { s.thread tid with stage := stage }) := by
  obtain ⟨htid, hin, haction, hallowance, hlimit⟩ := h.joining hstage
  have hin' : (ThreadInfo.mk (s.thread tid).futexJoin stage (s.thread tid).call
      (s.thread tid).credit).inWake = true := hin
  have hne : stage ≠ .inKernel ∧ stage ≠ .exiting := by
    obtain hnew | hnew | hnew := hnew <;> rw [hnew] <;> exact ⟨nofun, nofun⟩
  refine h.setStage htid ?_ ?_ ?_ rfl
  · unfold ThreadInfo.Staged
    obtain hnew | hnew | hnew := hnew <;> rw [hnew] <;> exact ⟨hin, haction⟩
  · rw [hallowance]
    exact allowance_eq_wokenUp hin' hne.1 hne.2
  · rw [hlimit]
    exact limit_eq_wokenUp hin' hne.1

/-- The thread is done when it sees as many waits as it has woken. -/
theorem Inv.recheck (h : Inv s) (hstage : (s.thread tid).stage = .relocking) : Inv (s.recheck tid) := by
  obtain ⟨htid, hin, haction, hallowance, hlimit⟩ := h.joining (.inr (.inl hstage))
  unfold Scheduler.recheck
  dsimp only
  split
  · rename_i hle
    have hcredit := h.credits tid
    have hpart := h.allowance_le htid
    have hbounded := h.bounded
    rw [hlimit] at hcredit
    rw [hallowance] at hpart
    have hmod : (s.maxAllowedFutexWakeups + (2 ^ 32 - (s.thread tid).futexJoin.wokenUp)) % 2 ^ 32 =
        s.maxAllowedFutexWakeups - (s.thread tid).futexJoin.wokenUp := by
      omega
    rw [hmod]
    refine h.setThread htid ⟨rfl, rfl⟩ ?_ ?_ ?_ ?_
    · rw [limit_eq_zero rfl]
    · rw [hallowance, allowance_eq_zero rfl]
      omega
    · omega
    · dsimp only
      omega
  · exact h.moves (.inr (.inl hstage)) (.inl rfl)

/-- A thread that gives up takes its wake-ups out of the allowance. -/
theorem Inv.giveUp (h : Inv s) (hstage : (s.thread tid).stage = .givingUp) : Inv (s.giveUp tid) := by
  obtain ⟨htid, hin, haction, hallowance, hlimit⟩ := h.joining (.inr (.inr hstage))
  have hpart := h.allowance_le htid
  have hbounded := h.bounded
  rw [hallowance] at hpart
  have hmod : (s.maxAllowedFutexWakeups + (2 ^ 32 - (s.thread tid).futexJoin.wokenUp)) % 2 ^ 32 =
      s.maxAllowedFutexWakeups - (s.thread tid).futexJoin.wokenUp := by
    omega
  have hthread : ∀ t, t ≠ tid → (s.giveUp tid).thread t = { s.thread t with credit := 0 } := by
    intro t ht
    unfold Scheduler.giveUp Scheduler.endJoin
    dsimp only
    rw [setThread_thread_of_ne ht]
  have hself : (s.giveUp tid).thread tid =
      ⟨{ (s.thread tid).futexJoin with action := .none }, .user, none, 0⟩ := by
    unfold Scheduler.giveUp Scheduler.endJoin
    dsimp only
    rw [setThread_thread_self]
  have hzero : ∀ t, ((s.giveUp tid).thread t).credit = 0 := fun _ => rfl
  have hmax : (s.giveUp tid).maxAllowedFutexWakeups =
      s.maxAllowedFutexWakeups - (s.thread tid).futexJoin.wokenUp := hmod
  refine ⟨fun t => ?_, fun t ht => ?_, fun t => ?_, ?_, ?_, ?_⟩
  · by_cases ht : t = tid
    · rw [ht, hself]
      exact ⟨rfl, rfl⟩
    · rw [hthread t ht]
      exact h.staged t
  · by_cases ht' : t = tid
    · rw [ht']
      exact htid
    · rw [hthread t ht'] at ht
      exact h.exists_thread t ht
  · rw [hzero]
    exact Nat.zero_le _
  · have hmove := @sum_move s.numThreads tid (fun t => (s.thread t).allowance)
      (fun t => ((s.giveUp tid).thread t).allowance) htid fun t ht => by
        rw [hthread t ht]
        rfl
    have hgone : ((s.giveUp tid).thread tid).allowance = 0 := by
      rw [hself]
      exact allowance_eq_zero rfl
    have hold := h.allowed
    rw [hgone, hallowance] at hmove
    rw [hmax]
    change _ = (Finset.range s.numThreads).sum fun t => ((s.giveUp tid).thread t).allowance
    omega
  · rw [hmax]
    omega
  · exact Nat.zero_le _

/-- Every accountable step keeps the matching. -/
theorem Inv.step {op : FutexOp} (h : Inv s) (hop : Accountable s op)
    (hstep : FutexMatching.step s op = some s') : Inv s' := by
  cases op with
  | enter tid fi => exact h.enter hop hstep
  | exit tid res => exact h.exit hop hstep
  | join tid waker => exact h.join hop hstep
  | poll tid late =>
    obtain ⟨hstage, hstep⟩ := Option.ite_none_right_eq_some.mp hstep
    split at hstep
    · refine Option.some.inj hstep ▸ h.moves (.inl hstage) ?_
      cases late with
      | true => exact .inr (.inr rfl)
      | false => exact .inl rfl
    · exact Option.some.inj hstep ▸ h.moves (.inl hstage) (.inr (.inl rfl))
  | lock tid =>
    dsimp only [FutexMatching.step] at hstep
    cases hstage : (s.thread tid).stage with
    | relocking =>
      rw [hstage] at hstep
      exact Option.some.inj hstep ▸ h.recheck hstage
    | givingUp =>
      rw [hstage] at hstep
      exact Option.some.inj hstep ▸ h.giveUp hstage
    | _ =>
      rw [hstage] at hstep
      exact nomatch hstep

theorem inv_init (numThreads : ℕ) : Inv (.init numThreads) where
  staged _ := ⟨rfl, rfl⟩
  exists_thread _ h := absurd rfl h
  credits _ := le_rfl
  allowed := (Finset.sum_eq_zero fun _ _ => allowance_eq_zero rfl).symm
  bounded := by
    change 0 < 2 ^ 32
    omega
  matched := Nat.zero_le _

theorem Inv.balanced (h : Inv s) : Balanced s where
  joins tid hstage haction := by
    have hin : (s.thread tid).inWake = true := by
      refine Bool.not_eq_false _ ▸ fun hout => ?_
      exact (h.exiting hstage).2 hout haction
    obtain ⟨s', hjoin, -⟩ := h.futexWakeJoin hstage hin
    rw [hjoin]
    rfl
  matched := by
    have hsum : (Finset.range s.numThreads).sum (fun t => (s.thread t).credit) ≤
        (Finset.range s.numThreads).sum fun t => (s.thread t).allowance :=
      Finset.sum_le_sum fun t _ => (h.credits t).trans (h.limit_le_allowance t)
    have hmatched := h.matched
    have hallowed := h.allowed
    omega
  quiet hquiet := by
    rw [h.allowed]
    exact Finset.sum_eq_zero fun t ht => allowance_eq_zero (hquiet t (Finset.mem_range.mp ht))

/-- In every run of accountable steps the matching is in balance. -/
theorem futex_balanced (numThreads : ℕ) (ops : List FutexOp)
    (hops : EveryStep step (fun s op _ => Accountable s op) (.init numThreads) ops) :
    EveryStep step (fun _ _ s' => Balanced s') (.init numThreads) ops := by
  have hstep : ∀ s op s', Inv s → step s op = some s' → Accountable s op → Inv s' ∧ Balanced s' :=
    fun _ _ _ h hstep hop => ⟨h.step hop hstep, (h.step hop hstep).balanced⟩
  exact hops.everyStep hstep (inv_init numThreads)

/-- A thread wakes one waiter, which joins after it. -/
def wakeOne : List FutexOp :=
  [.enter 1 ⟨0, 7⟩, .enter 0 ⟨1, 1⟩, .exit 0 1, .exit 1 0, .join 0 0, .join 1 0, .poll 0 false, .lock 0]

/-- The wake of one waiter is matched. -/
theorem wake_one_balanced : EveryStep step (fun s op _ => Accountable s op) (.init 2) wakeOne ∧
    EveryStep step (fun _ _ s' => Balanced s') (.init 2) wakeOne := by
  have hops : EveryStep step (fun s op _ => Accountable s op) (.init 2) wakeOne := by
    refine .cons rfl (fun hwake => absurd hwake (by decide)) ?_
    refine .cons rfl (fun _ => by decide) ?_
    refine .cons rfl (fun fi hfi _ => ?_) ?_
    · cases hfi
      decide
    refine .cons rfl (fun fi hfi hwake => ?_) ?_
    · cases hfi
      exact absurd hwake (by decide)
    refine .cons rfl (fun hwait => absurd hwait (by decide)) ?_
    refine .cons rfl (fun _ _ => by decide) ?_
    refine .cons rfl trivial ?_
    exact .cons rfl trivial trivial
  exact ⟨hops, futex_balanced 2 wakeOne hops⟩

/-- A wake call that fails in the kernel leaves its cap in the allowance. -/
theorem failed_wake_unbalanced : ¬EveryStep step (fun _ _ s' => Balanced s') (.init 1)
    [.enter 0 ⟨1, 1⟩, .exit 0 (-14), .join 0 0] := by
  intro h
  have hallowed : (run step (.init 1) [.enter 0 ⟨1, 1⟩, .exit 0 (-14), .join 0 0]).map
      (fun s => (s.maxAllowedFutexWakeups, s.numThreads, (s.thread 0).inWake)) = some (1, 1, false) := by
    decide
  obtain ⟨s, hrun, hs⟩ := Option.map_eq_some_iff.mp hallowed
  obtain ⟨s₂, hrun₂, hrun₃⟩ := @run_append _ _ step _ _ [.enter 0 ⟨1, 1⟩, .exit 0 (-14)] _ |>.mp hrun
  obtain ⟨s', hjoin, hnil⟩ := run_cons.mp hrun₃
  cases hnil
  have hbal : Balanced s := h.at hrun₂ hjoin
  obtain ⟨hone, hrest⟩ := Prod.mk.inj hs
  obtain ⟨hnum, hout⟩ := Prod.mk.inj hrest
  have hzero := hbal.quiet fun t ht => by
    have ht' : t = 0 := by omega
    exact ht' ▸ hout
  omega

end Steps

end Zsim.FutexMatching
