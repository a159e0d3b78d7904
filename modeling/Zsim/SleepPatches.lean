import Mathlib.Data.Fintype.Fin
import Mathlib.Tactic.FinCases
import Zsim.SyscallPatches

/-!
# Sleeps under a patch

A sleep becomes a wait without a timeout, and the scheduler wakes the thread in a phase that is at least as far
away as the sleep is long. When a sleep is interrupted the phases that are left are turned into nanoseconds as if
they were cycles, so that what is left of the request is almost always lost. Times are compared in thousandths of
a cycle, which a nanosecond has as many of as the frequency in megahertz.
-/

namespace Zsim.SleepPatches

open SyscallPatches

/-- The function that a patch leaves for after the call. The empty one cannot be called. -/
inductive PostPatchFn where
  | null
  | empty
  | sleep (isClock : Bool) (wakeupPhase : ℕ) (args : Fin 6 → UInt64) (rem : UInt64)

structure Thread where
  ctxt : Context
  /-- The application's memory, as far as calls point to times in it. -/
  memory : UInt64 → Timespec
  isNopThread : Bool
  /-- The address of the thread's futex word. -/
  futexWord : UInt64
  /-- The phase that the thread is marked to sleep until. -/
  wakeupPhase : Option ℕ

/-- `waitNsec/freqMHz` as phases, and at least one; none where the division traps. -/
def waitPhases (zinfo : GlobSimInfo) (waitNsec : UInt64) : Option UInt64 :=
  if zinfo.phaseLength = 0 then none
  else some (zinfo.nsToCycles waitNsec / zinfo.phaseLength.toUInt64 + 1)

/-- The time that it is, for a sleep that gives a time of the clock. -/
def offsetNsec (zinfo : GlobSimInfo) (absolute : Bool) : UInt64 :=
  if absolute then zinfo.cyclesToNs zinfo.globPhaseCycles + zinfo.realtimeOffsetNs else 0

/-- How long a sleep waits from now. -/
def waitNsecOf (zinfo : GlobSimInfo) (absolute : Bool) (ts : Timespec) : UInt64 :=
  if offsetNsec zinfo absolute ≤ timespecToNs ts then timespecToNs ts - offsetNsec zinfo absolute else 0

namespace Thread

/-- A `clock_nanosleep`, which has its time in another argument. -/
def isClock (t : Thread) : Bool := t.ctxt.number.toUInt32 = 230

/-- The pointer to the time, and the pointer to what is left. -/
def ts (t : Thread) : UInt64 := t.ctxt.args (if t.isClock then 2 else 0)

def rem (t : Thread) : UInt64 := t.ctxt.args (if t.isClock then 3 else 1)

/-- `TIMER_ABSTIME`. -/
def isAbsolute (t : Thread) : Bool := t.isClock && (t.ctxt.args 1).toUInt32 = 1

/-- `PatchNanosleep`; none where it traps or an assertion fails. -/
def patchNanosleep (t : Thread) (zinfo : GlobSimInfo) (isInFastForward : Bool) :
    Option (PostPatchFn × Thread) :=
  if t.isNopThread || isInFastForward then some (.null, t)
  else if t.isClock ∨ t.ctxt.number.toUInt32 = 35 then
    if t.isAbsolute ∧ zinfo.freqMHz = 0 then none
    else if t.ts = 0 then some (.null, t)
    else
      let ts := t.memory t.ts
      if ts.tvSec < 0 ∨ ts.tvNsec < 0 ∨ 999999999 < ts.tvNsec then some (.empty, t)
      else (waitPhases zinfo (waitNsecOf zinfo t.isAbsolute ts)).map fun waitPhases =>
        let wakeupPhase := zinfo.numPhases + waitPhases.toNat
        (.sleep t.isClock wakeupPhase t.ctxt.args t.rem, { t with
          wakeupPhase := some wakeupPhase
          ctxt := ((((t.ctxt.setNumber 202).setArgument 0 t.futexWord).setArgument 1 0).setArgument 2
            1).setArgument 3 0 })
  else none

/-- What is written where the remaining time is asked for; none where it traps or the assertion fails. -/
def remaining (zinfo : GlobSimInfo) (wakeupPhase : ℕ) : Option UInt64 :=
  if zinfo.numPhases ≤ wakeupPhase ∧ zinfo.freqMHz ≠ 0 then
    let remainingCycles := UInt64.ofNat (wakeupPhase - zinfo.numPhases)
    some (remainingCycles * 1000 / zinfo.freqMHz.toUInt64)
  else none

/-- Puts the arguments back. -/
def restoreArgs (c : Context) (args : Fin 6 → UInt64) : Context :=
  (((c.setArgument 0 (args 0)).setArgument 1 (args 1)).setArgument 2 (args 2)).setArgument 3 (args 3)

/-- The function that `PatchNanosleep` leaves; none where it traps, an assertion fails or it is empty. -/
def postPatch (t : Thread) (zinfo : GlobSimInfo) : PostPatchFn → Option (PostPatchAction × Thread)
  | .null => some (.nothing, t)
  | .empty => none
  | .sleep _ wakeupPhase args rem =>
    let res := (-t.ctxt.number).toUInt32.toInt32
    if res = 11 ∨ res = 4 ∨ res = 0 then
      let number := if res = 11 then 0 else if res = 4 then -4 else t.ctxt.number
      let t := { t with ctxt := restoreArgs (t.ctxt.setNumber number) args }
      if rem = 0 then some (.nothing, t)
      else if res = 4 then
        (remaining zinfo wakeupPhase).map fun remainingNsecs =>
          let left : Timespec := ⟨(remainingNsecs / 1000000000).toInt64, (remainingNsecs % 1000000000).toInt64⟩
          (.nothing, { t with memory := Function.update t.memory rem left })
      else some (.nothing, { t with memory := Function.update t.memory rem ⟨0, 0⟩ })
    else none

end Thread

section Arithmetic

variable {P f L R W e : ℕ}

/-- The conditions under which what is left of a request survives being divided by the length of a phase. -/
def Survives (P f L : ℕ) : Prop :=
  P = 2 ∧ L = 2000 ∧ f ∣ 2000 ∨ P = 1 ∧ L < 2 ^ 64 - 616 ∧ L ≤ f * (1000 * (L / 1000 + 1) / f)

/-- What the code reports for what is left of a request, in thousandths of a cycle. -/
def reported (P f L : ℕ) : ℕ := f * (1000 * (L / (1000 * P) + 1) % 2 ^ 64 / f)

theorem reported_le (P f L : ℕ) : reported P f L ≤ 1000 * (L / (1000 * P) + 1) :=
  (Nat.mul_div_le _ _).trans (Nat.mod_le _ _)

theorem reported_of_lt {q : ℕ} (hq : L / (1000 * P) = q) (hlt : 1000 * (q + 1) < 2 ^ 64) :
    reported P f L = f * (1000 * (q + 1) / f) := by
  rw [reported, hq, Nat.mod_eq_of_lt hlt]

/-- Phases of one cycle are reported as what they are, as long as the product does not wrap. -/
theorem le_reported_one (hL : L < 2 ^ 64) :
    L ≤ reported 1 f L ↔ L < 2 ^ 64 - 616 ∧ L ≤ f * (1000 * (L / 1000 + 1) / f) := by
  by_cases hwrap : L < 2 ^ 64 - 616
  · rw [reported_of_lt (q := L / 1000) (by rw [Nat.mul_one]) (by omega), and_iff_right hwrap]
  · have hq : L / (1000 * 1) = 18446744073709551 := by omega
    have hsmall : reported 1 f L ≤ 384 := by
      rw [reported, hq]
      exact Nat.mul_div_le _ _
    constructor
    · intro h
      omega
    · exact fun h => absurd h.1 hwrap

/-- What is left of a request is covered just when a single cycle covers it, or a phase is hardly longer. -/
theorem le_reported_iff (hP : 0 < P) (hL : L < 2 ^ 64) :
    L ≤ reported P f L ↔ L ≤ f * (1000 / f) ∨ Survives P f L := by
  constructor
  · intro h
    by_cases hone : P = 1
    · subst hone
      exact .inr (.inr ⟨rfl, (le_reported_one hL).mp h⟩)
    · have hle := h.trans (reported_le P f L)
      have hdiv : 1000 * P * (L / (1000 * P)) ≤ L := Nat.mul_div_le _ _
      cases hq : L / (1000 * P) with
      | zero =>
        rw [reported_of_lt hq (by decide)] at h
        exact .inl h
      | succ q =>
        rw [hq] at hle hdiv
        -- At least two phases are left, but less cycles than there are phases.
        have hshort : P * (q + 1) ≤ q + 2 := by
          have hmul : 1000 * (P * (q + 1)) ≤ 1000 * (q + 2) := by
            rw [← Nat.mul_assoc]
            exact hdiv.trans hle
          exact Nat.le_of_mul_le_mul_left hmul (by decide)
        have hlong : 2 * (q + 1) ≤ P * (q + 1) := Nat.mul_le_mul_right _ (by omega)
        have hzero : q = 0 := by omega
        subst hzero
        have htwo : P = 2 := by omega
        subst htwo
        rw [reported_of_lt hq (by decide)] at h
        have hexact : f * (2000 / f) = 2000 := Nat.le_antisymm (Nat.mul_div_le _ _) (hdiv.trans h)
        exact .inr (.inl ⟨rfl, Nat.le_antisymm hle hdiv, ⟨_, hexact.symm⟩⟩)
  · rintro (h | ⟨rfl, rfl, hdvd⟩ | ⟨rfl, h⟩)
    · have hsmall : L ≤ 1000 := h.trans (Nat.mul_div_le _ _)
      have hq : L / (1000 * P) ≤ 1 := by
        rw [Nat.div_le_iff_le_mul_add_pred (by omega)]
        omega
      rw [reported_of_lt rfl (by omega)]
      have hone : 1000 / f ≤ 1000 * (L / (1000 * P) + 1) / f :=
        Nat.div_le_div_right (Nat.le_mul_of_pos_right _ (Nat.succ_pos _))
      exact h.trans (Nat.mul_le_mul_left _ hone)
    · rw [reported_of_lt (q := 1) (by decide) (by decide), Nat.mul_div_cancel' hdvd]
    · exact (le_reported_one hL).mpr h

/-- What is covered of a request: the cycles that were slept, and what is reported for the phases that are left of
a wait. -/
def covered (P f W e : ℕ) : ℕ := 1000 * P * e + f * (1000 * (W / (1000 * P) + 1 - e) % 2 ^ 64 / f)

/-- A wait of so many thousandths is never covered for more than a phase more. -/
theorem covered_le (hP : 0 < P) (he : e ≤ W / (1000 * P)) : covered P f W e ≤ W + 1000 * P := by
  have hreport : f * (1000 * (W / (1000 * P) + 1 - e) % 2 ^ 64 / f) ≤ 1000 * P * (W / (1000 * P) + 1 - e) :=
    (Nat.mul_div_le _ _).trans ((Nat.mod_le _ _).trans (Nat.mul_le_mul_right _ (by omega)))
  have hwait : 1000 * P * (W / (1000 * P)) ≤ W := Nat.mul_div_le _ _
  calc covered P f W e ≤ 1000 * P * e + 1000 * P * (W / (1000 * P) + 1 - e) := Nat.add_le_add_left hreport _
    _ = 1000 * P * (W / (1000 * P)) + 1000 * P := by
      rw [← Nat.mul_add, Nat.add_sub_of_le (by omega), Nat.mul_add, Nat.mul_one]
    _ ≤ W + 1000 * P := Nat.add_le_add_right hwait _

/-- A wait is covered just when what is left of it is. -/
theorem le_covered_iff (hP : 0 < P) (he : e ≤ W / (1000 * P)) (hW : W < 2 ^ 64) :
    W ≤ covered P f W e ↔ W - 1000 * P * e ≤ f * (1000 / f) ∨ Survives P f (W - 1000 * P * e) := by
  have hleft : (W - 1000 * P * e) / (1000 * P) + 1 = W / (1000 * P) + 1 - e := by
    rw [Nat.sub_mul_div, Nat.sub_add_comm he]
  rw [← le_reported_iff hP (by omega), reported, hleft, covered]
  omega

end Arithmetic

/-- The nanoseconds of a time that is not negative. -/
def nsOf (ts : Timespec) : ℕ := ts.tvSec.toNatClampNeg * 1000000000 + ts.tvNsec.toNatClampNeg

theorem toNat_timespecToNs {ts : Timespec} (hsec : 0 ≤ ts.tvSec) (hnsec : 0 ≤ ts.tvNsec) :
    (timespecToNs ts).toNat = nsOf ts % 2 ^ 64 := by
  rw [timespecToNs, Int64.toUInt64_add, Int64.toUInt64_mul, UInt64.toNat_add, UInt64.toNat_mul,
    Int64.toNat_toUInt64_of_le hsec, Int64.toNat_toUInt64_of_le hnsec]
  exact Nat.mod_add_mod _ _ _

theorem toNatClampNeg_toInt64 {x : UInt64} (h : x.toNat < 2 ^ 63) : x.toInt64.toNatClampNeg = x.toNat := by
  have hofNat : x.toInt64 = Int64.ofNat x.toNat := by
    rw [← Int64.toInt64_toUInt64 (Int64.ofNat x.toNat), Int64.toUInt64_ofNat', UInt64.ofNat_toNat]
  rw [hofNat, Int64.toNatClampNeg_ofNat_of_lt h]

/-- The seconds and the nanoseconds that are stored are those that were split. -/
theorem nsOf_split (ns : UInt64) : nsOf ⟨(ns / 1000000000).toInt64, (ns % 1000000000).toInt64⟩ = ns.toNat := by
  have hlt := ns.toNat_lt
  have hsec : (ns / 1000000000).toNat = ns.toNat / 1000000000 := UInt64.toNat_div ..
  have hnsec : (ns % 1000000000).toNat = ns.toNat % 1000000000 := UInt64.toNat_mod ..
  rw [nsOf, toNatClampNeg_toInt64 (by omega), toNatClampNeg_toInt64 (by omega), hsec, hnsec]
  exact Nat.div_add_mod' _ _

variable {zinfo : GlobSimInfo} {t : Thread} {e : ℕ}

/-- The thousandths of a cycle that the code takes a wait for. -/
def thousandths (zinfo : GlobSimInfo) (waitNsec : UInt64) : ℕ := waitNsec.toNat * zinfo.freqMHz.toNat % 2 ^ 64

theorem toNat_waitPhases {waitNsec n : UInt64} (h : waitPhases zinfo waitNsec = some n) :
    0 < zinfo.phaseLength.toNat ∧
      n.toNat = thousandths zinfo waitNsec / (1000 * zinfo.phaseLength.toNat) + 1 := by
  unfold waitPhases at h
  split_ifs at h with hzero
  cases h
  have hpos : 0 < zinfo.phaseLength.toNat :=
    Nat.pos_of_ne_zero fun h => hzero (UInt32.toNat_inj.mp h)
  have hle : thousandths zinfo waitNsec / (1000 * zinfo.phaseLength.toNat) ≤ thousandths zinfo waitNsec / 1000 :=
    Nat.div_le_div_left (by omega) (by decide)
  have hlt : thousandths zinfo waitNsec < 2 ^ 64 := Nat.mod_lt _ (by decide)
  refine ⟨hpos, ?_⟩
  have hdiv : (zinfo.nsToCycles waitNsec / zinfo.phaseLength.toUInt64).toNat =
      thousandths zinfo waitNsec / (1000 * zinfo.phaseLength.toNat) := by
    rw [UInt64.toNat_div, GlobSimInfo.nsToCycles, UInt64.toNat_div, UInt64.toNat_mul, UInt32.toNat_toUInt64,
      UInt32.toNat_toUInt64, Nat.div_div_eq_div_mul]
    rfl
  rw [UInt64.toNat_add, hdiv]
  exact Nat.mod_eq_of_lt (by omega : _ + 1 < 2 ^ 64)

/-- A thread before a sleep that is virtualised and asks for the time that remains. -/
structure Sleeps (t : Thread) : Prop where
  simulated : t.isNopThread = false
  number : t.isClock = true ∨ t.ctxt.number.toUInt32 = 35
  ts : t.ts ≠ 0
  sec : 0 ≤ (t.memory t.ts).tvSec
  nsec : 0 ≤ (t.memory t.ts).tvNsec
  nsec_le : (t.memory t.ts).tvNsec ≤ 999999999
  rem : t.rem ≠ 0

/-- The thread after a sleep that is interrupted when so many phases were simulated. -/
def interrupted (zinfo : GlobSimInfo) (t : Thread) (e : ℕ) : Option Thread :=
  (t.patchNanosleep zinfo false).bind fun patched =>
    ({ patched.2 with ctxt := patched.2.ctxt.kernel (-4) }.postPatch
      { zinfo with numPhases := zinfo.numPhases + e } patched.1).map Prod.snd

theorem Sleeps.patch (h : Sleeps t) (hf : t.isAbsolute = true → zinfo.freqMHz ≠ 0) :
    t.patchNanosleep zinfo false =
      (waitPhases zinfo (waitNsecOf zinfo t.isAbsolute (t.memory t.ts))).map fun waitPhases =>
        (.sleep t.isClock (zinfo.numPhases + waitPhases.toNat) t.ctxt.args t.rem, { t with
          wakeupPhase := some (zinfo.numPhases + waitPhases.toNat)
          ctxt := ((((t.ctxt.setNumber 202).setArgument 0 t.futexWord).setArgument 1 0).setArgument 2
            1).setArgument 3 0 }) := by
  have hvalid : ¬ ((t.memory t.ts).tvSec < 0 ∨ (t.memory t.ts).tvNsec < 0 ∨
      999999999 < (t.memory t.ts).tvNsec) := by
    rw [not_or, not_or, Int64.not_lt, Int64.not_lt, Int64.not_lt]
    exact ⟨h.sec, h.nsec, h.nsec_le⟩
  unfold Thread.patchNanosleep
  rw [h.simulated, Bool.or_self, if_neg Bool.false_ne_true, if_pos h.number,
    if_neg (fun habs => hf habs.1 habs.2), if_neg h.ts]
  exact if_neg hvalid

/-- The registers that the patch used are restored, and what it leaves alone was never changed. -/
theorem restoreArgs_args (c : Context) (args : Fin 6 → UInt64) (h₄ : c.args 4 = args 4) (h₅ : c.args 5 = args 5) :
    (Thread.restoreArgs c args).args = args := by
  funext k
  fin_cases k <;> first | rfl | exact h₄ | exact h₅

/-- After an interrupt the function of the patch writes what remains. -/
theorem postPatch_interrupted {isClock : Bool} {wakeupPhase : ℕ} {args : Fin 6 → UInt64} {rem : UInt64}
    (hrem : rem ≠ 0) :
    { t with ctxt := t.ctxt.kernel (-4) }.postPatch zinfo (.sleep isClock wakeupPhase args rem) =
      (Thread.remaining zinfo wakeupPhase).map fun remainingNsecs => (.nothing, { t with
        ctxt := Thread.restoreArgs ((t.ctxt.kernel (-4)).setNumber (-4)) args
        memory := Function.update t.memory rem
          ⟨(remainingNsecs / 1000000000).toInt64, (remainingNsecs % 1000000000).toInt64⟩ }) := by
  have hres : (-(-4 : UInt64)).toUInt32.toInt32 = 4 := by decide
  simp only [Thread.postPatch, Context.kernel, hres]
  rw [if_pos (by decide), if_neg hrem, if_pos trivial]
  rfl

/-- An interrupted sleep reports the phases that are left as if they were cycles, and puts its arguments back. -/
theorem Sleeps.interrupted (h : Sleeps t) {n : UInt64}
    (hn : waitPhases zinfo (waitNsecOf zinfo t.isAbsolute (t.memory t.ts)) = some n)
    (hf : zinfo.freqMHz ≠ 0) (he : e ≤ n.toNat) :
    ∃ t', interrupted zinfo t e = some t' ∧
      nsOf (t'.memory t.rem) = 1000 * (n.toNat - e) % 2 ^ 64 / zinfo.freqMHz.toNat ∧
      t'.ctxt.args = t.ctxt.args := by
  have hlate : zinfo.numPhases + e ≤ zinfo.numPhases + n.toNat := Nat.add_le_add_left he _
  have hleft : Thread.remaining { zinfo with numPhases := zinfo.numPhases + e } (zinfo.numPhases + n.toNat) =
      some (UInt64.ofNat (n.toNat - e) * 1000 / zinfo.freqMHz.toUInt64) := by
    rw [Thread.remaining, if_pos ⟨hlate, hf⟩, Nat.add_sub_add_left]
  have hval : (UInt64.ofNat (n.toNat - e) * 1000 / zinfo.freqMHz.toUInt64).toNat =
      1000 * (n.toNat - e) % 2 ^ 64 / zinfo.freqMHz.toNat := by
    rw [UInt64.toNat_div, UInt64.toNat_mul, UInt32.toNat_toUInt64, UInt64.toNat_ofNat', Nat.mod_mul_mod,
      Nat.mul_comm]
    rfl
  rw [SleepPatches.interrupted, h.patch (fun _ => hf), hn, Option.map_some, Option.bind_some,
    postPatch_interrupted h.rem, hleft, Option.map_some, Option.map_some]
  refine ⟨_, rfl, ?_, restoreArgs_args _ _ rfl rfl⟩
  dsimp only
  rw [Function.update_self, nsOf_split, hval]

/-- Without a frequency or a length of the phases the patch traps. -/
theorem Sleeps.interrupted_eq_none (h : Sleeps t) (hzero : zinfo.phaseLength = 0 ∨ zinfo.freqMHz = 0) :
    SleepPatches.interrupted zinfo t e = none := by
  by_cases habs : t.isAbsolute = true ∧ zinfo.freqMHz = 0
  · have htrap : t.patchNanosleep zinfo false = none := by
      unfold Thread.patchNanosleep
      rw [h.simulated, Bool.or_self, if_neg Bool.false_ne_true, if_pos h.number, if_pos habs]
    rw [SleepPatches.interrupted, htrap, Option.bind_none]
  · rw [SleepPatches.interrupted, h.patch fun hclock hf => habs ⟨hclock, hf⟩, waitPhases]
    by_cases hphase : zinfo.phaseLength = 0
    · rw [if_pos hphase, Option.map_none, Option.bind_none]
    · have htrap : ∀ wakeupPhase,
          Thread.remaining { zinfo with numPhases := zinfo.numPhases + e } wakeupPhase = none :=
        fun _ => if_neg fun hboth => hboth.2 (hzero.resolve_left hphase)
      rw [if_neg hphase, Option.map_some, Option.bind_some, postPatch_interrupted h.rem, htrap, Option.map_none,
        Option.map_none]

/-- The nanoseconds that a sleep is asked for. -/
def request (zinfo : GlobSimInfo) (t : Thread) : ℕ :=
  nsOf (t.memory t.ts) - (offsetNsec zinfo t.isAbsolute).toNat

theorem Sleeps.toNat_waitNsecOf (h : Sleeps t) :
    (waitNsecOf zinfo t.isAbsolute (t.memory t.ts)).toNat =
      nsOf (t.memory t.ts) % 2 ^ 64 - (offsetNsec zinfo t.isAbsolute).toNat := by
  have hns := toNat_timespecToNs h.sec h.nsec
  unfold waitNsecOf
  split_ifs with hle
  · rw [UInt64.toNat_sub_of_le _ _ hle, hns]
  · rw [UInt64.le_iff_toNat_le, hns] at hle
    exact (Nat.sub_eq_zero_of_le (Nat.le_of_not_le hle)).symm

/-- What the code waits for, out of the request and the time that it is. -/
theorem wait_le {a o f : ℕ} : (a % 2 ^ 64 - o) * f % 2 ^ 64 ≤ (a - o) * f :=
  (Nat.mod_le _ _).trans (Nat.mul_le_mul_right _ (Nat.sub_le_sub_right (Nat.mod_le _ _) _))

/-- A request that 64 bits do not hold is waited for much less than it asks. -/
theorem wait_of_le {a o f : ℕ} (hlong : 2 ^ 64 ≤ (a - o) * f) :
    (a % 2 ^ 64 - o) * f % 2 ^ 64 + 2 ^ 64 ≤ (a - o) * f := by
  have hf : 1 ≤ f := by
    by_contra hzero
    have hf : f = 0 := by omega
    rw [hf, Nat.mul_zero] at hlong
    exact absurd hlong (by decide)
  by_cases ha : a < 2 ^ 64
  · rw [Nat.mod_eq_of_lt ha]
    omega
  · by_cases hpast : a % 2 ^ 64 ≤ o
    · rw [Nat.sub_eq_zero_of_le hpast, Nat.zero_mul, Nat.zero_mod, Nat.zero_add]
      exact hlong
    · have hwait : a % 2 ^ 64 - o + 2 ^ 64 ≤ a - o := by omega
      calc (a % 2 ^ 64 - o) * f % 2 ^ 64 + 2 ^ 64 ≤ (a % 2 ^ 64 - o) * f + 2 ^ 64 * f :=
            Nat.add_le_add (Nat.mod_le _ _) (Nat.le_mul_of_pos_right _ hf)
        _ = (a % 2 ^ 64 - o + 2 ^ 64) * f := (Nat.add_mul _ _ _).symm
        _ ≤ (a - o) * f := Nat.mul_le_mul_right _ hwait

/-- The request is covered by the phases that were slept and the code's report just when 64 bits hold it and
what is left of it survives. -/
theorem request_le_covered_iff {a o f P e : ℕ} (hP : 0 < P) (hPlt : P < 2 ^ 32) (hf : 0 < f)
    (he : e ≤ (a % 2 ^ 64 - o) * f % 2 ^ 64 / (1000 * P)) :
    (a - o) * f ≤ covered P f ((a % 2 ^ 64 - o) * f % 2 ^ 64) e ↔
      (a - o) * f < 2 ^ 64 ∧ ((a - o) * f - 1000 * P * e ≤ f * (1000 / f) ∨
        a < 2 ^ 64 ∧ Survives P f ((a - o) * f - 1000 * P * e)) := by
  by_cases hlong : 2 ^ 64 ≤ (a - o) * f
  · have hshort := wait_of_le hlong
    have hcovered := covered_le (f := f) hP he
    constructor
    · intro h
      omega
    · intro h
      omega
  · rw [and_iff_right (Nat.lt_of_not_le hlong)]
    by_cases ha : a < 2 ^ 64
    · rw [Nat.mod_eq_of_lt ha, Nat.mod_eq_of_lt (Nat.lt_of_not_le hlong)] at he ⊢
      rw [le_covered_iff hP he (Nat.lt_of_not_le hlong), and_iff_right ha]
    · -- A time of the clock that 64 bits do not hold is taken for one that has passed.
      have hpast : a % 2 ^ 64 ≤ o := by
        by_contra hfuture
        have hwait : 2 ^ 64 ≤ a - o := by omega
        exact hlong (hwait.trans (Nat.le_mul_of_pos_right _ hf))
      rw [Nat.sub_eq_zero_of_le hpast, Nat.zero_mul, Nat.zero_mod, Nat.zero_div] at he
      have hzero : e = 0 := Nat.le_zero.mp he
      have hcycle : covered P f 0 0 = f * (1000 / f) := by
        rw [covered, Nat.mul_zero, Nat.zero_add, Nat.zero_div]
        rfl
      rw [Nat.sub_eq_zero_of_le hpast, Nat.zero_mul, Nat.zero_mod, hzero, hcycle, Nat.mul_zero, Nat.sub_zero,
        or_iff_left (fun h => ha h.1)]

/-- The condition under which an interrupted sleep reports enough: both numbers that are divided by are positive,
64 bits hold the request, and a single cycle covers what is left of it, or phases are hardly longer than that. -/
def ReportsEnough (zinfo : GlobSimInfo) (t : Thread) (e : ℕ) : Prop :=
  let P := zinfo.phaseLength.toNat
  let f := zinfo.freqMHz.toNat
  let left := request zinfo t * f - 1000 * P * e
  0 < P ∧ 0 < f ∧ request zinfo t * f < 2 ^ 64 ∧
    (left ≤ f * (1000 / f) ∨ nsOf (t.memory t.ts) < 2 ^ 64 ∧ Survives P f left)

/-- The remaining time that is reported covers the request together with the phases that were simulated, and
exceeds it by less than two phases. -/
def Remains (zinfo : GlobSimInfo) (t : Thread) (e : ℕ) : Prop :=
  ∃ t', interrupted zinfo t e = some t' ∧
    request zinfo t * zinfo.freqMHz.toNat ≤
      1000 * zinfo.phaseLength.toNat * e + nsOf (t'.memory t.rem) * zinfo.freqMHz.toNat ∧
    1000 * zinfo.phaseLength.toNat * e + nsOf (t'.memory t.rem) * zinfo.freqMHz.toNat <
      request zinfo t * zinfo.freqMHz.toNat + 2 * (1000 * zinfo.phaseLength.toNat)

theorem Sleeps.remains_iff_reportsEnough (h : Sleeps t)
    (he : ∀ n, waitPhases zinfo (waitNsecOf zinfo t.isAbsolute (t.memory t.ts)) = some n → e < n.toNat) :
    Remains zinfo t e ↔ ReportsEnough zinfo t e := by
  by_cases hzero : zinfo.phaseLength = 0 ∨ zinfo.freqMHz = 0
  · have htrap := h.interrupted_eq_none (e := e) hzero
    constructor
    · rintro ⟨t', hrun, _⟩
      rw [htrap] at hrun
      cases hrun
    · rintro ⟨hP, hf, _⟩
      cases hzero with
      | inl hphase => rw [hphase] at hP; exact absurd hP (by decide)
      | inr hfreq => rw [hfreq] at hf; exact absurd hf (by decide)
  · rw [not_or] at hzero
    have hf : 0 < zinfo.freqMHz.toNat := Nat.pos_of_ne_zero fun h => hzero.2 (UInt32.toNat_inj.mp h)
    have ⟨n, hn⟩ : ∃ n, waitPhases zinfo (waitNsecOf zinfo t.isAbsolute (t.memory t.ts)) = some n :=
      ⟨_, if_neg hzero.1⟩
    have ⟨hP, hphases⟩ := toNat_waitPhases hn
    have hlt := he n hn
    have ⟨t', hrun, hrem, _⟩ := h.interrupted hn hzero.2 hlt.le
    rw [thousandths, h.toNat_waitNsecOf] at hphases
    have hslept : e ≤ (nsOf (t.memory t.ts) % 2 ^ 64 - (offsetNsec zinfo t.isAbsolute).toNat) *
        zinfo.freqMHz.toNat % 2 ^ 64 / (1000 * zinfo.phaseLength.toNat) := by omega
    have hcovered : 1000 * zinfo.phaseLength.toNat * e + nsOf (t'.memory t.rem) * zinfo.freqMHz.toNat =
        covered zinfo.phaseLength.toNat zinfo.freqMHz.toNat
          ((nsOf (t.memory t.ts) % 2 ^ 64 - (offsetNsec zinfo t.isAbsolute).toNat) *
            zinfo.freqMHz.toNat % 2 ^ 64) e := by
      rw [hrem, hphases, covered, Nat.mul_comm (_ / _)]
    have hbound := (covered_le (f := zinfo.freqMHz.toNat) hP hslept).trans
      (Nat.add_le_add_right wait_le _)
    have hiff := request_le_covered_iff hP (UInt32.toNat_lt _) hf hslept
    unfold Remains ReportsEnough
    rw [hrun]
    constructor
    · rintro ⟨_, heq, hle, _⟩
      cases heq
      rw [hcovered] at hle
      exact ⟨hP, hf, hiff.mp hle⟩
    · rintro ⟨_, _, henough⟩
      refine ⟨t', rfl, ?_, ?_⟩
      · rw [hcovered]
        exact hiff.mpr henough
      · rw [hcovered]
        unfold request
        omega

/-- The phases that a sleep takes when it is repeated for the time that remains after every interrupt, and every
interrupt comes where it reports enough. -/
inductive Repeated : GlobSimInfo → Thread → ℕ → Prop
  | last {zinfo : GlobSimInfo} {t : Thread} {n : UInt64} (h : Sleeps t) (hns : nsOf (t.memory t.ts) < 2 ^ 64)
      (hrequest : request zinfo t * zinfo.freqMHz.toNat < 2 ^ 64)
      (hn : waitPhases zinfo (waitNsecOf zinfo t.isAbsolute (t.memory t.ts)) = some n) :
      Repeated zinfo t n.toNat
  | again {zinfo zinfo₂ : GlobSimInfo} {t t' t₂ : Thread} {e total : ℕ} (h : Sleeps t)
      (he : ∀ n, waitPhases zinfo (waitNsecOf zinfo t.isAbsolute (t.memory t.ts)) = some n → e < n.toNat)
      (henough : ReportsEnough zinfo t e) (hrun : interrupted zinfo t e = some t')
      (hfreq : zinfo₂.freqMHz = zinfo.freqMHz) (hphase : zinfo₂.phaseLength = zinfo.phaseLength)
      (hrequest : request zinfo₂ t₂ = nsOf (t'.memory t.rem)) (hrest : Repeated zinfo₂ t₂ total) :
      Repeated zinfo t (e + total)

/-- A repeated sleep never takes less than was requested. -/
theorem Repeated.covers {total : ℕ} (h : Repeated zinfo t total) :
    request zinfo t * zinfo.freqMHz.toNat ≤ 1000 * zinfo.phaseLength.toNat * total := by
  induction h with
  | @last zinfo t n h hns hrequest hn =>
    have ⟨hP, hphases⟩ := toNat_waitPhases hn
    have hwait : thousandths zinfo (waitNsecOf zinfo t.isAbsolute (t.memory t.ts)) =
        request zinfo t * zinfo.freqMHz.toNat := by
      rw [thousandths, h.toNat_waitNsecOf, Nat.mod_eq_of_lt hns]
      exact Nat.mod_eq_of_lt hrequest
    rw [hphases, hwait]
    exact (Nat.lt_mul_div_succ _ (by omega)).le
  | @again zinfo zinfo₂ t t' t₂ e total h he henough hrun hfreq hphase hrequest hrest ih =>
    obtain ⟨t₃, hrun₃, hcovers, _⟩ := (h.remains_iff_reportsEnough he).mpr henough
    cases hrun.symm.trans hrun₃
    rw [hrequest, hfreq, hphase] at ih
    rw [Nat.mul_add]
    exact hcovers.trans (Nat.add_le_add_left ih _)

/-- An interrupted sleep reports the time that remains just when what is left of it survives the units. Repeated
for what remains, it then takes as long as requested. -/
theorem remains_iff (h : Sleeps t)
    (he : ∀ n, waitPhases zinfo (waitNsecOf zinfo t.isAbsolute (t.memory t.ts)) = some n → e < n.toNat) :
    (Remains zinfo t e ↔ ReportsEnough zinfo t e) ∧
      ∀ total, Repeated zinfo t total →
        request zinfo t * zinfo.freqMHz.toNat ≤ 1000 * zinfo.phaseLength.toNat * total :=
  ⟨h.remains_iff_reportsEnough he, fun _ hrepeated => hrepeated.covers⟩

/-- A thread that sleeps for a second, which is 200000 phases. -/
def oneSecond : Thread where
  ctxt := ⟨35, fun k => if k = 0 then 4096 else if k = 1 then 8192 else 0, 4194304⟩
  memory := fun _ => ⟨1, 0⟩
  isNopThread := false
  futexWord := 65536
  wakeupPhase := none

def twoGigahertz : GlobSimInfo := ⟨2000, 10000, 5, 50000, 0⟩

theorem sleeps_oneSecond : Sleeps oneSecond :=
  ⟨rfl, .inr rfl, by decide, by decide, by decide, by decide, by decide⟩

theorem waitPhases_oneSecond (n : UInt64)
    (h : waitPhases twoGigahertz (waitNsecOf twoGigahertz oneSecond.isAbsolute (oneSecond.memory oneSecond.ts)) =
      some n) : n = 200001 := by
  have hn : waitPhases twoGigahertz
      (waitNsecOf twoGigahertz oneSecond.isAbsolute (oneSecond.memory oneSecond.ts)) = some 200001 := by
    decide +kernel
  exact Option.some.inj (h.symm.trans hn)

theorem remains_iff_oneSecond : Sleeps oneSecond ∧
    ((Remains twoGigahertz oneSecond 200000 ↔ ReportsEnough twoGigahertz oneSecond 200000) ∧
      ∀ total, Repeated twoGigahertz oneSecond total →
        request twoGigahertz oneSecond * 2000 ≤ 1000 * 10000 * total) :=
  ⟨sleeps_oneSecond, remains_iff sleeps_oneSecond fun n hn => waitPhases_oneSecond n hn ▸ by decide⟩

/-- Half of the phases of a second are reported as 50 microseconds. -/
theorem oneSecond_lost :
    (interrupted twoGigahertz oneSecond 100000).map (fun t => nsOf (t.memory oneSecond.rem)) = some 50000 ∧
      ¬ ∀ (zinfo : GlobSimInfo) (t : Thread) (e : ℕ), Sleeps t →
        (∀ n, waitPhases zinfo (waitNsecOf zinfo t.isAbsolute (t.memory t.ts)) = some n → e < n.toNat) →
        Remains zinfo t e := by
  have hreport : (interrupted twoGigahertz oneSecond 100000).map (fun t => nsOf (t.memory oneSecond.rem)) =
      some 50000 := by decide +kernel
  refine ⟨hreport, fun h => ?_⟩
  obtain ⟨t', hrun, hle, _⟩ := h twoGigahertz oneSecond 100000 sleeps_oneSecond
    fun n hn => waitPhases_oneSecond n hn ▸ by decide
  have hrequest : request twoGigahertz oneSecond = 1000000000 := by decide
  have hfreq : twoGigahertz.freqMHz.toNat = 2000 := rfl
  have hphase : twoGigahertz.phaseLength.toNat = 10000 := rfl
  rw [hrun, Option.map_some, Option.some.injEq] at hreport
  rw [hrequest, hreport, hfreq, hphase] at hle
  omega

end Zsim.SleepPatches
