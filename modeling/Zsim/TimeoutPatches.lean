import Zsim.FutexMatching
import Zsim.SyscallPatches

/-!
# System calls with a timeout

The patch of a call with a timeout replaces the timeout by a short one, marks the thread for sleep and repeats the
call until the thread was woken or the call has another reason to return. Then it puts back the argument that it
saved, which it reads only after it has replaced it. The scheduler is modelled where it decides what a futex call
leaves; whether the thread sleeps is read from outside.
-/

namespace Zsim.TimeoutPatches

open SyscallPatches FutexMatching

/-- The calls with a timeout. -/
inductive TimeoutSyscall where
  | futex
  | epollWait
  | epollPwait
  | poll
  deriving DecidableEq

namespace TimeoutSyscall

/-- The numbers of the calls. -/
def number : TimeoutSyscall → UInt64
  | futex => 202
  | epollWait => 232
  | epollPwait => 281
  | poll => 7

/-- `getTimeoutArg`. -/
def getTimeoutArg : TimeoutSyscall → Fin 6
  | poll => 2
  | _ => 3

/-- The call with a number; none where the assertion on it fails. -/
def ofNumber (number : UInt64) : Option TimeoutSyscall :=
  match (number.toUInt32.toNat) with
  | 202 => some futex
  | 232 => some epollWait
  | 281 => some epollPwait
  | 7 => some poll
  | _ => none

end TimeoutSyscall

/-- The function that a patch leaves for after the call. -/
inductive PostPatchFn where
  | null
  | futex (fi : FutexInfo)
  | timeout (syscall : TimeoutSyscall) (prevIp timeoutArgVal : UInt64) (fi : FutexInfo)

/-- What a thread's instrumentation points to. -/
inductive FPtrType where
  | analysis
  | join
  | nop
  | retry
  deriving DecidableEq

/-- What the functions read from outside the thread. -/
structure Env where
  zinfo : GlobSimInfo
  /-- The process is in fast-forward. -/
  isInFastForward : Bool
  blockingSyscalls : Bool
  /-- The thread sleeps, as the scheduler tells. -/
  isSleeping : Bool
  /-- The application's memory where a call points to a timeout. -/
  memory : UInt64 → Timespec

structure Thread where
  tid : ℕ
  ctxt : Context
  /-- The address of the thread's entry of `fakeTimeouts`, and the entry. -/
  fakeTimeoutAddr : UInt64
  fakeTimeout : Timespec
  inFakeTimeoutMode : Bool
  postPatchFn : PostPatchFn
  fPtrs : FPtrType
  inSyscall : Bool
  /-- The phase that the thread is marked to sleep until. -/
  wakeupPhase : Option ℕ
  sched : Scheduler

namespace Thread

/-- `SkipTimeoutVirt`. -/
def skipTimeoutVirt (t : Thread) (env : Env) : Bool := t.fPtrs = .nop || env.isInFastForward

/-- How long a futex call waits. -/
def futexWaitNsec (env : Env) (op : BitVec 32) (timeout : UInt64) : Int64 :=
  let ts := env.memory timeout
  let waitNsec := ts.tvSec * 1000000000 + ts.tvNsec
  if op &&& 256#32 ≠ 0#32 then
    let offsetNs := env.zinfo.cyclesToNs env.zinfo.globPhaseCycles + env.zinfo.realtimeOffsetNs
    if offsetNs.toInt64 < waitNsec then (waitNsec.toUInt64 - offsetNs).toInt64 else 0
  else waitNsec

/-- The manipulation for each call, with the time it waits; none where `PrePatchTimeoutSyscall` returns false. -/
def fake (t : Thread) (env : Env) : TimeoutSyscall → Option (Int64 × Thread)
  | .futex =>
    let uaddr := t.ctxt.args 0
    let op := (t.ctxt.args 1).toBitVec.setWidth 32
    let timeout := t.ctxt.args 3
    if uaddr ≠ 0 ∧ isFutexWaitOp op = true ∧ timeout ≠ 0 then
      let waitNsec := futexWaitNsec env op timeout
      if waitNsec ≤ 0 then none
      else some (waitNsec, { t with
        fakeTimeout := ⟨0, 20000000⟩
        ctxt := t.ctxt.setArgument 3 t.fakeTimeoutAddr })
    else none
  | syscall =>
    let timeout := (t.ctxt.args syscall.getTimeoutArg).toUInt32.toInt32
    if timeout ≤ 0 then none
    else some ((timeout.toInt64.toUInt64 * 1000 * 1000).toInt64,
      { t with ctxt := t.ctxt.setArgument syscall.getTimeoutArg 20 })

/-- `PrePatchTimeoutSyscall`; none where its assertion fails. -/
def prePatchTimeoutSyscall (t : Thread) (env : Env) (syscall : TimeoutSyscall) : Option (Bool × Thread) :=
  if t.inFakeTimeoutMode then none
  else match t.fake env syscall with
    | none => some (false, t)
    | some (waitNsec, t) =>
      let waitCycles := (waitNsec * env.zinfo.freqMHz.toUInt64.toInt64 / 1000).toUInt64
      let waitPhases := waitCycles / env.zinfo.phaseLength.toUInt64
      let waitPhases := if waitPhases < 2 then 2 else waitPhases
      some (true, { t with
        wakeupPhase := some (env.zinfo.numPhases + waitPhases.toNat)
        inFakeTimeoutMode := true })

/-- The operation and the value of a futex call, as `PrePatchFutex` saves them. -/
def futexInfo (t : Thread) : TimeoutSyscall → FutexInfo
  | .futex => ⟨(t.ctxt.args 1).toBitVec.setWidth 32, (t.ctxt.args 2).toBitVec.setWidth 32⟩
  | _ => ⟨0, 0⟩

/-- The scheduler after `PrePatchFutex` for a futex call; none where its assertion fails. -/
def startWakes (t : Thread) (syscall : TimeoutSyscall) : Option Scheduler :=
  if syscall = .futex then t.sched.prePatchFutex t.tid (t.futexInfo syscall) else some t.sched

/-- `PatchTimeoutSyscall`; none where an assertion fails. -/
def patchTimeoutSyscall (t : Thread) (env : Env) : Option (PostPatchFn × Thread) :=
  if t.skipTimeoutVirt env then some (.null, t)
  else do
    let syscall ← TimeoutSyscall.ofNumber t.ctxt.number
    let sched ← t.startWakes syscall
    let (virtualised, t₁) ← { t with sched }.prePatchTimeoutSyscall env syscall
    if virtualised then
      some (.timeout syscall t₁.ctxt.ip (t₁.ctxt.args syscall.getTimeoutArg) (t.futexInfo syscall), t₁)
    else if syscall = .futex then some (.futex (t.futexInfo syscall), t₁)
    else some (.null, t₁)

/-- Whether the call has timed out, by its result. -/
def timedOut (t : Thread) (syscall : TimeoutSyscall) : Bool :=
  let res := t.ctxt.number.toUInt32.toInt32
  if syscall = .futex then res = -110 else res = 0

/-- `PostPatchTimeoutSyscall`, which tells whether to retry; none where an assertion fails. -/
def postPatchTimeoutSyscall (t : Thread) (env : Env) (syscall : TimeoutSyscall) (prevIp timeoutArgVal : UInt64) :
    Option (Bool × Thread) :=
  if t.inFakeTimeoutMode then
    let timedOut := t.timedOut syscall
    let retrySyscall := timedOut && env.isSleeping && !env.isInFastForward
    let wakeupPhase := if env.isSleeping && !retrySyscall then none else t.wakeupPhase
    if retrySyscall then
      some (true, { t with ctxt := { t.ctxt with ip := prevIp }.setNumber syscall.number, wakeupPhase })
    else
      some (false, { t with
        ctxt := t.ctxt.setArgument syscall.getTimeoutArg timeoutArgVal
        inFakeTimeoutMode := false
        wakeupPhase })
  else none

/-- Calls the function that the patch left. -/
def callPostPatch (t : Thread) (env : Env) : Option (PostPatchAction × Thread) :=
  match t.postPatchFn with
  | .null => some (.nothing, t)
  | .futex fi =>
    some (.nothing, { t with sched := t.sched.postPatchFutex t.tid fi (t.ctxt.number.toBitVec.setWidth 32) })
  | .timeout syscall prevIp timeoutArgVal fi => do
    let (retry, t) ← t.postPatchTimeoutSyscall env syscall prevIp timeoutArgVal
    if retry then some (.useRetryPtrs, t)
    else if syscall = .futex then
      some (.useJoinPtrs,
        { t with sched := t.sched.postPatchFutex t.tid fi (t.ctxt.number.toBitVec.setWidth 32) })
    else some (.useJoinPtrs, t)

/-- `VirtSyscallEnter` for a call with a timeout. -/
def virtSyscallEnter (t : Thread) (env : Env) : Option Thread :=
  (t.patchTimeoutSyscall env).map fun patched => { patched.2 with postPatchFn := patched.1 }

/-- `SyscallEnter` for a call with a timeout; none where an assertion fails. A retried call keeps its function. -/
def syscallEnter (t : Thread) (env : Env) : Option Thread :=
  let isNopThread := t.fPtrs = .nop
  let isRetryThread := t.fPtrs = .retry
  (if isRetryThread then some t else t.virtSyscallEnter env).bind fun t =>
    if t.inSyscall then none
    else
      let t := { t with inSyscall := true }
      if isNopThread ∨ isRetryThread then some t
      else if t.fPtrs ≠ .join ∧ env.blockingSyscalls = false then some { t with fPtrs := .join }
      else some t

/-- `SyscallExit` with what it was told to do; none where an assertion fails. -/
def syscallExit (t : Thread) (env : Env) : Option (PostPatchAction × Thread) :=
  if t.inSyscall then do
    let (ppa, t) ← { t with inSyscall := false }.callPostPatch env
    let fPtrs := match ppa with
      | .useJoinPtrs => if env.blockingSyscalls = false then .join else .analysis
      | .useRetryPtrs => .retry
      | .nothing => t.fPtrs
    let fPtrs := if fPtrs = .join ∧ env.isInFastForward = true then .nop else fPtrs
    some (ppa, { t with fPtrs })
  else none

end Thread

/-- A pass of a call through the kernel, with what is read before and after it. -/
structure Round where
  entry : Env
  res : UInt64
  exit : Env

open Thread in
/-- Serves a call until it is not retried. -/
def serve (t : Thread) : List Round → Option Thread
  | [] => none
  | r :: rs => do
    let t ← t.syscallEnter r.entry
    let (ppa, t) ← { t with ctxt := t.ctxt.kernel r.res }.syscallExit r.exit
    if ppa = .useRetryPtrs then serve t rs
    else if rs.isEmpty then some t
    else none

variable {t t' : Thread} {env : Env} {syscall : TimeoutSyscall} {ppa : PostPatchAction} {v : UInt64}
  {a : Fin 6 → UInt64}

/-- The value that the patch writes over the timeout. -/
def Thread.fakeArg (t : Thread) : TimeoutSyscall → UInt64
  | .futex => t.fakeTimeoutAddr
  | _ => 20

/-- The patch changes the argument and nothing that the rest of the call depends on. -/
theorem fake_eq {waitNsec : Int64} (h : t.fake env syscall = some (waitNsec, t')) :
    t' = { t with
      fakeTimeout := t'.fakeTimeout
      ctxt := t.ctxt.setArgument syscall.getTimeoutArg (t.fakeArg syscall) } := by
  cases syscall <;> unfold Thread.fake at h <;> dsimp only at h <;> split_ifs at h <;> cases h <;> rfl

/-- Only a call that waits has a timeout to fake, and it wakes no one. -/
theorem not_wakeOp_of_waitOp {op : BitVec 32} (h : isFutexWaitOp op = true) : isFutexWakeOp op = false := by
  unfold isFutexWaitOp at h
  unfold isFutexWakeOp
  split at h <;> simp_all

/-- A thread before a call whose timeout is virtualised. -/
structure Timed (t : Thread) (env : Env) (syscall : TimeoutSyscall) : Prop where
  idle : t.inSyscall = false
  real : t.inFakeTimeoutMode = false
  notSkipped : t.skipTimeoutVirt env = false
  notRetry : t.fPtrs ≠ .retry
  number : TimeoutSyscall.ofNumber t.ctxt.number = some syscall
  faked : (t.fake env syscall).isSome

/-- A thread whose call is served with a fake timeout. The value is the one that will be put back. -/
structure Pending (syscall : TimeoutSyscall) (v : UInt64) (a : Fin 6 → UInt64) (t : Thread) : Prop where
  postPatchFn : ∃ prevIp fi, t.postPatchFn = .timeout syscall prevIp v fi
  inFakeTimeoutMode : t.inFakeTimeoutMode = true
  args : t.ctxt.args = a

/-- After the call is not retried, the value is put back over the timeout and the other arguments are left. -/
structure Restored (syscall : TimeoutSyscall) (v : UInt64) (a : Fin 6 → UInt64) (t : Thread) : Prop where
  inFakeTimeoutMode : t.inFakeTimeoutMode = false
  args : t.ctxt.args = Function.update a syscall.getTimeoutArg v

/-- After a call is served with a fake timeout it is retried or its argument is put back. -/
theorem Pending.callPostPatch (h : Pending syscall v a t) (hpost : t.callPostPatch env = some (ppa, t')) :
    t'.inSyscall = t.inSyscall ∧
      if ppa = .useRetryPtrs then Pending syscall v a t' else Restored syscall v a t' := by
  obtain ⟨prevIp, fi, hfn⟩ := h.postPatchFn
  unfold Thread.callPostPatch Thread.postPatchTimeoutSyscall at hpost
  rw [hfn] at hpost
  dsimp only at hpost
  rw [if_pos h.inFakeTimeoutMode] at hpost
  by_cases hretry : (t.timedOut syscall && env.isSleeping && !env.isInFastForward) = true
  · rw [hretry] at hpost
    cases hpost
    exact ⟨rfl, ⟨prevIp, fi, rfl⟩, h.inFakeTimeoutMode, h.args⟩
  · rw [Bool.eq_false_of_not_eq_true hretry] at hpost
    have hargs : (t.ctxt.setArgument syscall.getTimeoutArg v).args =
        Function.update a syscall.getTimeoutArg v := by rw [← h.args]; rfl
    by_cases hfutex : syscall = .futex
    · simp only [hfutex] at hpost
      cases hpost
      subst hfutex
      exact ⟨rfl, rfl, hargs⟩
    · simp only [Option.bind_eq_bind, Option.bind_some, Bool.false_eq_true, if_false, hfutex] at hpost
      cases hpost
      exact ⟨rfl, rfl, hargs⟩

theorem Pending.exit (h : Pending syscall v a t) (hexit : t.syscallExit env = some (ppa, t')) :
    t'.inSyscall = false ∧ if ppa = .useRetryPtrs then Pending syscall v a t' ∧ t'.fPtrs = .retry
      else Restored syscall v a t' := by
  have hin : t.inSyscall = true := by
    by_contra hout
    rw [Thread.syscallExit, if_neg hout] at hexit
    cases hexit
  rw [Thread.syscallExit, if_pos hin] at hexit
  obtain ⟨⟨ppa', t₁⟩, hpost, hexit⟩ := Option.bind_eq_some_iff.mp hexit
  have hleft : Pending syscall v a { t with inSyscall := false } := ⟨h.postPatchFn, h.inFakeTimeoutMode, h.args⟩
  have hspec := hleft.callPostPatch hpost
  cases hexit
  refine ⟨hspec.1, ?_⟩
  cases ppa with
  | useRetryPtrs =>
    have hpending : Pending syscall v a t₁ := hspec.2
    exact ⟨⟨hpending.postPatchFn, hpending.inFakeTimeoutMode, hpending.args⟩, rfl⟩
  | nothing =>
    have hrestored : Restored syscall v a t₁ := hspec.2
    exact ⟨hrestored.inFakeTimeoutMode, hrestored.args⟩
  | useJoinPtrs =>
    have hrestored : Restored syscall v a t₁ := hspec.2
    exact ⟨hrestored.inFakeTimeoutMode, hrestored.args⟩

theorem Pending.kernel (h : Pending syscall v a t) (res : UInt64) :
    Pending syscall v a { t with ctxt := t.ctxt.kernel res } := ⟨h.postPatchFn, h.inFakeTimeoutMode, h.args⟩

/-- A retried call is not patched again. -/
theorem Pending.reenter (h : Pending syscall v a t) (hretry : t.fPtrs = .retry)
    (henter : t.syscallEnter env = some t') : Pending syscall v a t' := by
  unfold Thread.syscallEnter at henter
  simp only [hretry, if_true, Option.bind_some, or_true] at henter
  split_ifs at henter with hin
  cases henter
  exact ⟨h.postPatchFn, h.inFakeTimeoutMode, h.args⟩

/-- However often a call is retried, it ends with the value put back. -/
theorem Pending.serve (h : Pending syscall v a t) (hretry : t.fPtrs = .retry) {rounds : List Round}
    (hserve : serve t rounds = some t') : Restored syscall v a t' := by
  induction rounds generalizing t with
  | nil => cases hserve
  | cons r rs ih =>
    obtain ⟨t₁, henter, hserve⟩ := Option.bind_eq_some_iff.mp hserve
    obtain ⟨⟨ppa, t₂⟩, hexit, hserve⟩ := Option.bind_eq_some_iff.mp hserve
    have hspec := (((h.reenter hretry henter).kernel r.res).exit hexit).2
    dsimp only at hserve
    split_ifs at hserve hspec with hppa hlast
    · exact ih hspec.1 hspec.2 hserve
    · cases hserve
      exact hspec

/-- A call with a timeout to fake announces no wake-ups. -/
theorem Timed.startWakes (h : Timed t env syscall) : t.startWakes syscall = some t.sched := by
  by_cases hfutex : syscall = .futex
  · subst hfutex
    have hwait : isFutexWaitOp (t.futexInfo .futex).op = true := by
      by_contra hno
      have hfaked := h.faked
      simp only [Thread.futexInfo] at hno
      simp [Thread.fake, hno] at hfaked
    rw [Thread.startWakes, if_pos rfl, Scheduler.prePatchFutex, not_wakeOp_of_waitOp hwait]
    rfl
  · exact if_neg hfutex

theorem Timed.prePatch (h : Timed t env syscall) :
    ∃ t₁, t.prePatchTimeoutSyscall env syscall = some (true, t₁) ∧
      t₁.ctxt = t.ctxt.setArgument syscall.getTimeoutArg (t.fakeArg syscall) ∧
      t₁.inFakeTimeoutMode = true ∧ t₁.inSyscall = false := by
  have ⟨⟨waitNsec, t₂⟩, hfake⟩ := Option.isSome_iff_exists.mp h.faked
  have hctxt := fake_eq hfake
  have hreal : ¬ t.inFakeTimeoutMode = true := by
    rw [h.real]
    exact Bool.false_ne_true
  rw [Thread.prePatchTimeoutSyscall, if_neg hreal, hfake]
  exact ⟨_, rfl, congrArg Thread.ctxt hctxt, rfl, (congrArg Thread.inSyscall hctxt).trans h.idle⟩

/-- The argument that the patch saves is the one that it has just written. -/
theorem Timed.patch (h : Timed t env syscall) :
    ∃ t₁, t.patchTimeoutSyscall env =
        some (.timeout syscall t.ctxt.ip (t.fakeArg syscall) (t.futexInfo syscall), t₁) ∧
      t₁.ctxt.args = Function.update t.ctxt.args syscall.getTimeoutArg (t.fakeArg syscall) ∧
      t₁.inFakeTimeoutMode = true ∧ t₁.inSyscall = false := by
  have ⟨t₁, hpre, hctxt, hfake, hidle⟩ := h.prePatch
  unfold Thread.patchTimeoutSyscall
  rw [h.notSkipped, h.number, if_neg Bool.false_ne_true]
  simp only [Option.bind_eq_bind, Option.bind_some, h.startWakes, hpre, if_true, hctxt,
    Context.setArgument_ip, Context.setArgument_same]
  exact ⟨t₁, rfl, congrArg Context.args hctxt, hfake, hidle⟩

theorem Timed.enter (h : Timed t env syscall) :
    ∃ t₁, t.syscallEnter env = some t₁ ∧ t₁.inSyscall = true ∧
      Pending syscall (t.fakeArg syscall)
        (Function.update t.ctxt.args syscall.getTimeoutArg (t.fakeArg syscall)) t₁ := by
  have ⟨t₁, hpatch, hargs, hfake, hidle⟩ := h.patch
  unfold Thread.syscallEnter Thread.virtSyscallEnter
  dsimp only
  rw [if_neg h.notRetry, hpatch, Option.map_some, Option.bind_some]
  dsimp only
  rw [hidle, if_neg Bool.false_ne_true]
  split_ifs
  · exact ⟨_, rfl, rfl, ⟨_, _, rfl⟩, hfake, hargs⟩
  · exact ⟨_, rfl, rfl, ⟨_, _, rfl⟩, hfake, hargs⟩
  · exact ⟨_, rfl, rfl, ⟨_, _, rfl⟩, hfake, hargs⟩

/-- A call whose timeout is virtualised ends, however often it is retried, with the fake value in its place. -/
theorem Timed.serve (h : Timed t env syscall) {res : UInt64} {exit : Env} {rest : List Round}
    (hserve : serve t (⟨env, res, exit⟩ :: rest) = some t') :
    t'.inFakeTimeoutMode = false ∧
      t'.ctxt.args = Function.update t.ctxt.args syscall.getTimeoutArg (t.fakeArg syscall) := by
  have ⟨t₁, henter, _, hpending⟩ := h.enter
  simp only [TimeoutPatches.serve, henter, Option.bind_eq_bind, Option.bind_some] at hserve
  obtain ⟨⟨ppa, t₂⟩, hexit, hserve⟩ := Option.bind_eq_some_iff.mp hserve
  have hspec := ((hpending.kernel res).exit hexit).2
  have hrestored : Restored syscall (t.fakeArg syscall)
      (Function.update t.ctxt.args syscall.getTimeoutArg (t.fakeArg syscall)) t' := by
    dsimp only at hserve
    split_ifs at hserve hspec with hppa hlast
    · exact hspec.1.serve hspec.2 hserve
    · cases hserve
      exact hspec
  exact ⟨hrestored.inFakeTimeoutMode, hrestored.args.trans (Function.update_idem ..)⟩

/-- A call that returns for another reason than its timeout is not retried. -/
theorem Pending.finish (h : Pending syscall v a t) (hno : t.timedOut syscall = false) (env : Env) :
    ∃ ppa t', t.callPostPatch env = some (ppa, t') ∧ ppa ≠ .useRetryPtrs := by
  obtain ⟨prevIp, fi, hfn⟩ := h.postPatchFn
  have hpost : ∃ t', t.postPatchTimeoutSyscall env syscall prevIp v = some (false, t') := by
    rw [Thread.postPatchTimeoutSyscall, if_pos h.inFakeTimeoutMode, hno]
    exact ⟨_, rfl⟩
  have ⟨t', hpost⟩ := hpost
  rw [Thread.callPostPatch, hfn]
  dsimp only
  rw [hpost]
  dsimp only [Option.bind_eq_bind, Option.bind_some]
  rw [if_neg Bool.false_ne_true]
  split_ifs
  · exact ⟨_, _, rfl, by decide⟩
  · exact ⟨_, _, rfl, by decide⟩

/-- A call whose timeout is virtualised may end the first time. -/
theorem Timed.served (h : Timed t env syscall) : ∃ t', TimeoutPatches.serve t [⟨env, 1, env⟩] = some t' := by
  have ⟨t₁, henter, hin, hpending⟩ := h.enter
  have hno : (t₁.ctxt.kernel 1).number.toUInt32.toInt32 ≠ -110 ∧
      (t₁.ctxt.kernel 1).number.toUInt32.toInt32 ≠ 0 :=
    ⟨(by decide : (1 : UInt64).toUInt32.toInt32 ≠ -110), (by decide : (1 : UInt64).toUInt32.toInt32 ≠ 0)⟩
  have hleft : Pending syscall (t.fakeArg syscall)
      (Function.update t.ctxt.args syscall.getTimeoutArg (t.fakeArg syscall))
      { t₁ with ctxt := t₁.ctxt.kernel 1, inSyscall := false } :=
    ⟨hpending.postPatchFn, hpending.inFakeTimeoutMode, hpending.args⟩
  have hfirst : { t₁ with ctxt := t₁.ctxt.kernel 1, inSyscall := false }.timedOut syscall = false := by
    rw [Thread.timedOut]
    cases syscall <;> simp [hno.1, hno.2]
  have ⟨ppa, t₂, hpost, hppa⟩ := hleft.finish hfirst env
  rw [TimeoutPatches.serve, henter]
  dsimp only [Option.bind_eq_bind, Option.bind_some]
  rw [Thread.syscallExit, if_pos hin]
  dsimp only
  rw [hpost]
  dsimp only [Option.bind_eq_bind, Option.bind_some]
  rw [if_neg hppa]
  exact ⟨_, rfl⟩

/-- The timeout argument is what the application passed, however often the call is retried, just when this is the
value that the patch writes itself. The fake mode is left in any case. -/
theorem restored_iff (h : Timed t env syscall) :
    (∀ (res : UInt64) (exit : Env) (rest : List Round) (t' : Thread),
      serve t (⟨env, res, exit⟩ :: rest) = some t' →
        t'.ctxt.args syscall.getTimeoutArg = t.ctxt.args syscall.getTimeoutArg ∧ t'.inFakeTimeoutMode = false) ↔
      t.ctxt.args syscall.getTimeoutArg = t.fakeArg syscall := by
  constructor
  · intro hall
    have ⟨t', hserve⟩ := h.served
    rw [← (hall 1 env [] t' hserve).1, (h.serve hserve).2, Function.update_self]
  · intro hfake res exit rest t' hserve
    have ⟨hreal, hargs⟩ := h.serve hserve
    rw [hargs, Function.update_self]
    exact ⟨hfake.symm, hreal⟩

/-- A thread that polls for one second, and a process in whose phases it sleeps. -/
def pollThread : Thread where
  tid := 0
  ctxt := ⟨7, fun k => if k = 2 then 1000 else 0, 4194304⟩
  fakeTimeoutAddr := 65536
  fakeTimeout := ⟨0, 0⟩
  inFakeTimeoutMode := false
  postPatchFn := .null
  fPtrs := .analysis
  inSyscall := false
  wakeupPhase := none
  sched := Scheduler.init 1

def pollEnv : Env := ⟨⟨2000, 10000, 5, 50000, 0⟩, false, false, true, fun _ => ⟨0, 0⟩⟩

theorem timed_poll : Timed pollThread pollEnv .poll :=
  ⟨rfl, rfl, by decide, by decide, by decide, by decide⟩

theorem restored_iff_poll : Timed pollThread pollEnv .poll ∧
    ((∀ (res : UInt64) (exit : Env) (rest : List Round) (t' : Thread),
      serve pollThread (⟨pollEnv, res, exit⟩ :: rest) = some t' →
        t'.ctxt.args 2 = 1000 ∧ t'.inFakeTimeoutMode = false) ↔ (1000 : UInt64) = 20) :=
  ⟨timed_poll, restored_iff timed_poll⟩

/-- The call is retried once and then returns. Its argument is 20 afterwards. -/
theorem poll_not_restored :
    (serve pollThread [⟨pollEnv, 0, pollEnv⟩, ⟨pollEnv, 1, pollEnv⟩]).map (fun t => t.ctxt.args 2) = some 20 ∧
      ¬ ∀ (t : Thread) (env : Env) (syscall : TimeoutSyscall), Timed t env syscall →
        ∀ (res : UInt64) (exit : Env) (rest : List Round) (t' : Thread),
          serve t (⟨env, res, exit⟩ :: rest) = some t' →
            t'.ctxt.args syscall.getTimeoutArg = t.ctxt.args syscall.getTimeoutArg ∧
              t'.inFakeTimeoutMode = false := by
  have hargs : (serve pollThread [⟨pollEnv, 0, pollEnv⟩, ⟨pollEnv, 1, pollEnv⟩]).map
      (fun t => t.ctxt.args 2) = some 20 := by decide
  refine ⟨hargs, fun h => ?_⟩
  obtain ⟨t', hserve, hval⟩ := Option.map_eq_some_iff.mp hargs
  have heq : t'.ctxt.args 2 = 1000 := (h pollThread pollEnv .poll timed_poll 0 pollEnv _ t' hserve).1
  rw [hval] at heq
  exact absurd heq (by decide)

end Zsim.TimeoutPatches
