import Zsim.Outcomes
import Zsim.MemAddressMap
import Zsim.Intervals

/-!
# Channels of the detailed memory model

A rank keeps the last commands of its banks, and a channel keeps its ranks and
a short log of the bursts on the data bus. `LatencySimulate` schedules the
commands of one access around them. Cycles are natural numbers; what the source
computes in 32 bits stays in 32 bits. The commands of a rank and the bursts of
a channel are also kept in full, as history that no function reads.
-/

namespace Zsim.MemChannel

open WeakestPre Outcomes Intervals DetailedMemParams MemAddressMap

/-- The assertions and panics of the model. -/
inductive MemFailure where
  /-- `assert(myId == chnl)`. -/
  | chnl
  /-- `panic("Invalid interleaveType!")`. -/
  | interleaveType
  /-- An access outside the arrays of a rank, or to a rank that does not exist. -/
  | outside
  /-- The access to the first entry of an empty `accessLog`. -/
  | emptyLog
  /-- An assertion of a `MemRankBase` function. -/
  | monotone
  /-- An assertion of `UpdatePowerDownCycle`. -/
  | powerDown
  /-- An assertion of `LatencySimulate` on row hits. -/
  | rowHit
  /-- An assertion of `LatencySimulate` on the order of cycles. -/
  | order
  /-- The assertion of the controller on the latency. -/
  | minLatency
  deriving DecidableEq

/-- A command on one bank. -/
inductive Command where
  | act (bank row cycle : ℕ)
  | pre (bank cycle : ℕ)
  | rdwr (bank row : ℕ) (type : MemAccessType) (cycle : ℕ)
  deriving DecidableEq

/-- The entries of one bank in the arrays of `MemRankBase`. -/
structure Bank where
  /-- `bankinfo`: the bank is open. -/
  isOpen : Bool
  lastRow : ℕ
  lastType : MemAccessType
  lastActCycle : ℕ
  lastRdWrCycle : ℕ
  lastPreCycle : ℕ

/-- `MemRankBase`, without its statistics; the arrays have `bankCount` entries. -/
structure MemRankBase where
  lastBank : ℕ
  lastAccessCycle : ℕ
  lastRefreshCycle : ℕ
  refreshNum : ℕ
  accessInRefresh : ℕ
  tFAWIndex : ℕ
  banks : ℕ → Bank
  tFAWCycle : ℕ → ℕ
  idlePowerDownCycle : ℕ
  actvPowerDownCycle : ℕ
  idleStandbyCycle : ℕ
  /-- The commands so far, the last one first. -/
  log : List Command

/-- `MemChannelBase`. -/
structure MemChannelBase where
  myId : UInt32
  ranks : ℕ → MemRankBase
  /-- Start and end of the bursts that the slot search looks at. -/
  accessLog : List (ℕ × ℕ)
  /-- All arguments of `UpdateDataBusCycle` so far, the last ones first. -/
  bursts : List (ℕ × ℕ)

abbrev RankAct (α : Type) := Prog MemRankBase MemFailure α

abbrev Act (α : Type) := Prog MemChannelBase MemFailure α

/-- The zeroed arrays and fields of the constructor. -/
def MemRankBase.new : MemRankBase where
  lastBank := 0
  lastAccessCycle := 0
  lastRefreshCycle := 0
  refreshNum := 0
  accessInRefresh := 0
  tFAWIndex := 0
  banks := fun _ => ⟨false, 0, .READ, 0, 0, 0⟩
  tFAWCycle := fun _ => 0
  idlePowerDownCycle := 0
  actvPowerDownCycle := 0
  idleStandbyCycle := 0
  log := []

def MemChannelBase.new (myId : UInt32) : MemChannelBase := ⟨myId, fun _ => .new, [], []⟩

/-- Change one bank. -/
def MemRankBase.modifyBank (r : MemRankBase) (bank : ℕ) (f : Bank → Bank) : MemRankBase :=
  { r with banks := Function.update r.banks bank (f (r.banks bank)) }

/-- Run an action on one rank. -/
def onRank (rank : ℕ) {α : Type} (m : RankAct α) : Act α := fun s =>
  match m (s.ranks rank) with
  | .ok (a, r) => .ok (a, { s with ranks := Function.update s.ranks rank r })
  | .error e => .error e

theorem ends_onRank {α : Type} {E : MemFailure → Prop} (rank : ℕ) (m : RankAct α)
    (Q : α → MemChannelBase → Prop) (s : MemChannelBase) : ends E (onRank rank m) Q s ↔
      ends E m (fun a r => Q a { s with ranks := Function.update s.ranks rank r }) (s.ranks rank) := by
  unfold ends onRank
  cases m (s.ranks rank) <;> rfl

/-- What an action on a rank makes true of it, and the other ranks. -/
theorem onRank_ends {α : Type} {E : MemFailure → Prop} {rank : ℕ} {m : RankAct α}
    {P : α → MemRankBase → Prop} {s : MemChannelBase} (h : ends E m P (s.ranks rank)) :
    ends E (onRank rank m) (fun a s' => P a (s'.ranks rank) ∧ ∀ i ≠ rank, s'.ranks i = s.ranks i) s := by
  rw [ends_onRank]
  refine ends_mono h fun a r ha => ⟨?_, fun i hi => Function.update_of_ne hi _ _⟩
  simp only [Function.update_self]
  exact ha

section Rank

variable (p : MemParam)

/-- `GetActiveBankCount`. -/
def MemRankBase.GetActiveBankCount (r : MemRankBase) : ℕ :=
  (List.range p.bankCount.toNat).countP fun i => (r.banks i).isOpen

/-- `IsRowBufferHit`. -/
def MemRankBase.IsRowBufferHit (r : MemRankBase) (row bank : ℕ) : Bool :=
  (r.banks bank).isOpen && (r.banks bank).lastRow = row

/-- The number of refresh intervals since the last refresh. -/
def MemRankBase.refreshesDue (r : MemRankBase) (arrivalCycle : ℕ) : ℕ :=
  if r.lastRefreshCycle ≤ arrivalCycle then
    (arrivalCycle - r.lastRefreshCycle) / p.tREFI.toNat % 2 ^ 32
  else 0

/-- `UpdateRefreshNum`, with the assertion of `SetRefreshNum`. -/
def UpdateRefreshNum (arrivalCycle : ℕ) : RankAct ℕ := do
  let r ← observe fun r => r
  let refreshNum := r.refreshesDue p arrivalCycle
  let totalNum := (r.refreshNum + refreshNum) % 2 ^ 32
  ensure (r.refreshNum ≤ totalNum) .monotone
  change fun r => { r with refreshNum := totalNum }
  pure refreshNum

/-- `UpdateLastRefreshCycle`, with `MemRankBase::refresh`. -/
def UpdateLastRefreshCycle (refreshNum : ℕ) : RankAct Unit := do
  if 0 < refreshNum then
    let r ← observe fun r => r
    let lastCycle := r.lastRefreshCycle + p.tREFI.toNat * refreshNum % 2 ^ 32
    change fun r => { r with banks := fun i => { r.banks i with isOpen := false } }
    ensure (r.lastRefreshCycle < lastCycle) .monotone
    change fun r => { r with lastRefreshCycle := lastCycle }

/-- `GetPowerDownPenalty`. -/
def MemRankBase.GetPowerDownPenalty (r : MemRankBase) (arrivalCycle : ℕ) : ℕ :=
  if p.powerDownCycle ≠ 0 ∧ r.lastAccessCycle + p.powerDownCycle.toNat < arrivalCycle then
    p.tXP.toNat
  else 0

/-- What the open policy adds to the three power-down counters after a
power-down, in the order idle power-down, active power-down, idle standby. -/
def MemRankBase.openPowerDown (r : MemRankBase) (arrivalCycle lastPowerDownCycle powerDownCycle
    refreshNum : ℕ) : ℕ × ℕ × ℕ :=
  let bankCount := p.bankCount.toNat
  let actbanknum := r.GetActiveBankCount p
  let idlbanknum := bankCount - actbanknum
  let powerDownDuration := arrivalCycle - lastPowerDownCycle
  let tREFI := p.tREFI.toNat
  let idleStandby := idlbanknum * powerDownCycle % 2 ^ 32 / bankCount
  if refreshNum = 0 then
    (idlbanknum * powerDownDuration / bankCount, actbanknum * powerDownDuration / bankCount,
      idleStandby)
  else
    let refreshEndCycle1 := r.lastRefreshCycle + tREFI
    let refreshEndCycle2 := r.lastRefreshCycle + tREFI * refreshNum % 2 ^ 32
    let diffArrivalCycle := arrivalCycle - refreshEndCycle2
    let diffRefreshCycle := refreshEndCycle1 - lastPowerDownCycle
    ((idlbanknum * diffRefreshCycle + ((refreshNum - 1) * tREFI % 2 ^ 32 + diffArrivalCycle)) /
        bankCount,
      actbanknum * diffRefreshCycle / bankCount, idleStandby)

/-- `UpdatePowerDownCycle`. -/
def UpdatePowerDownCycle (arrivalCycle lastPhaseCycle refreshNum : ℕ) : RankAct Unit := do
  if p.powerDownCycle ≠ 0 then
    let r ← observe fun r => r
    let idleAt := r.lastAccessCycle + p.powerDownCycle.toNat
    let lastPowerDownCycle := if idleAt < lastPhaseCycle then lastPhaseCycle else idleAt
    let powerDownCycle := if idleAt < lastPhaseCycle then 0 else p.powerDownCycle.toNat
    let bankCount := p.bankCount.toNat
    let idlbanknum := bankCount - r.GetActiveBankCount p
    let refreshEndCycle2 := r.lastRefreshCycle + p.tREFI.toNat * refreshNum % 2 ^ 32
    -- the last branch below asserts this
    ensure (¬(r.lastAccessCycle = 0 ∧ lastPhaseCycle = 0) ∧ lastPowerDownCycle < arrivalCycle ∧
      p.openPolicy = true ∧ refreshNum ≠ 0 → refreshEndCycle2 ≤ arrivalCycle) .powerDown
    let d : ℕ × ℕ × ℕ :=
      if r.lastAccessCycle = 0 ∧ lastPhaseCycle = 0 then (arrivalCycle, 0, 0)
      else if arrivalCycle ≤ r.lastAccessCycle then (0, 0, 0)
      else if arrivalCycle ≤ lastPowerDownCycle then
        let diffPowerDownCycle := arrivalCycle - r.lastAccessCycle
        if p.openPolicy then (0, 0, idlbanknum * diffPowerDownCycle / bankCount)
        else (0, 0, diffPowerDownCycle)
      else if p.openPolicy then
        r.openPowerDown p arrivalCycle lastPowerDownCycle powerDownCycle refreshNum
      else (arrivalCycle - lastPowerDownCycle, 0, powerDownCycle)
    let idle_pd_cycle := r.idlePowerDownCycle + d.1
    let actv_pd_cycle := r.actvPowerDownCycle + d.2.1
    let idle_sb_cycle := r.idleStandbyCycle + d.2.2
    ensure (idle_pd_cycle + actv_pd_cycle + idle_sb_cycle ≤ arrivalCycle) .powerDown
    ensure (r.idlePowerDownCycle ≤ idle_pd_cycle) .monotone
    ensure (r.actvPowerDownCycle ≤ actv_pd_cycle) .monotone
    ensure (r.idleStandbyCycle ≤ idle_sb_cycle) .monotone
    change fun r => { r with
      idlePowerDownCycle := idle_pd_cycle
      actvPowerDownCycle := actv_pd_cycle
      idleStandbyCycle := idle_sb_cycle }

/-- The number of accesses in the current refresh period, as
`CalcIntraIssueCycle` updates it. -/
def MemRankBase.nextAccessInRefresh (r : MemRankBase) (refreshNum : ℕ) : ℕ :=
  let accessInRefresh := if refreshNum = 0 then 0 else r.accessInRefresh
  if r.lastRefreshCycle ≠ 0 ∧ r.lastAccessCycle - r.lastRefreshCycle ≤ p.GetRefreshCycle.toNat ∧
      r.lastRefreshCycle ≤ r.lastAccessCycle then
    (accessInRefresh + 1) % 2 ^ 32
  else 0

/-- The cycle that `CalcIntraIssueCycle` returns. -/
def MemRankBase.intraIssueCycle (r : MemRankBase) (rowHit : Bool) (type : MemAccessType)
    (arrivalCycle refreshNum : ℕ) : ℕ :=
  let last := r.banks r.lastBank
  let accessInRefresh := r.nextAccessInRefresh p refreshNum
  if accessInRefresh ≠ 0 then
    let refOverlap := r.lastAccessCycle - r.lastRefreshCycle
    let issuableCycle := max (r.lastRefreshCycle + p.GetRefreshCycle.toNat + refOverlap) arrivalCycle
    if 2 ≤ accessInRefresh then issuableCycle + (p.GetRdWrDelay type last.lastType).toNat
    else issuableCycle
  else if last.lastRdWrCycle ≠ 0 then
    if rowHit then max (last.lastRdWrCycle + (p.GetRdWrDelay type last.lastType).toNat) arrivalCycle
    else max (last.lastRdWrCycle + 1) arrivalCycle
  else arrivalCycle

/-- `CalcIntraIssueCycle`. -/
def CalcIntraIssueCycle (rowHit : Bool) (type : MemAccessType) (arrivalCycle refreshNum : ℕ) :
    RankAct ℕ := do
  let r ← observe fun r => r
  change fun r => { r with accessInRefresh := r.nextAccessInRefresh p refreshNum }
  pure (r.intraIssueCycle p rowHit type arrivalCycle refreshNum)

/-- The last ACT of any bank. -/
def MemRankBase.latestActCycle (r : MemRankBase) : ℕ :=
  (List.range p.bankCount.toNat).foldl (fun latest i => max latest (r.banks i).lastActCycle) 0

/-- `CalcActConst`. -/
def CalcActConst (bank issuableCycle : ℕ) : RankAct ℕ := do
  let r ← observe fun r => r
  let b := r.banks bank
  if b.lastActCycle = 0 then pure issuableCycle
  else
    let updateCycle := max issuableCycle (b.lastActCycle + p.tRC.toNat)
    let updateCycle :=
      if b.lastPreCycle ≠ 0 then max updateCycle (b.lastPreCycle + p.tRP.toNat) else updateCycle
    let updateCycle := max updateCycle (r.latestActCycle p + p.tRRD.toNat)
    ensure (r.tFAWIndex < p.bankCount.toNat) .outside
    pure (max updateCycle (r.tFAWCycle r.tFAWIndex + p.tFAW.toNat))

/-- `CalcPreConst`. -/
def MemRankBase.CalcPreConst (r : MemRankBase) (bank : ℕ) (type : MemAccessType)
    (issuableCycle : ℕ) : ℕ :=
  let updateCycle := max issuableCycle ((r.banks bank).lastRdWrCycle + (p.GetPreDelay type).toNat)
  max updateCycle ((r.banks bank).lastActCycle + p.tRAS.toNat)

/-- `CalcRdWrConst`. -/
def MemRankBase.CalcRdWrConst (r : MemRankBase) (type : MemAccessType) (issuableCycle : ℕ) : ℕ :=
  let last := r.banks r.lastBank
  max issuableCycle (last.lastRdWrCycle + (p.GetRdWrDelay type last.lastType).toNat)

/-- `IssueActivate`, with the assertions of `SetFAWCycle` and `SetLastActCycle`. -/
def IssueActivate (bank row issuedCycle : ℕ) : RankAct Unit := do
  let r ← observe fun r => r
  ensure (r.tFAWIndex < p.bankCount.toNat) .outside
  ensure (r.tFAWCycle r.tFAWIndex ≤ issuedCycle) .monotone
  ensure ((r.banks bank).lastActCycle ≤ issuedCycle) .monotone
  change fun r => { r.modifyBank bank fun b => { b with lastActCycle := issuedCycle, isOpen := true } with
    tFAWCycle := Function.update r.tFAWCycle r.tFAWIndex issuedCycle
    tFAWIndex := (r.tFAWIndex + 1) % 4
    log := .act bank row issuedCycle :: r.log }

/-- `IssuePrecharge`, with the assertion of `SetLastPreCycle`. -/
def IssuePrecharge (bank issuedCycle : ℕ) : RankAct Unit := do
  let r ← observe fun r => r
  ensure ((r.banks bank).lastPreCycle ≤ issuedCycle) .monotone
  change fun r => { r.modifyBank bank fun b => { b with lastPreCycle := issuedCycle, isOpen := false } with
    log := .pre bank issuedCycle :: r.log }

/-- `CheckContinuousAccess`. -/
def MemRankBase.CheckContinuousAccess (r : MemRankBase) (arrivalCycle bank row : ℕ) : Bool :=
  p.mergeContinuous && (arrivalCycle < (r.banks bank).lastPreCycle && (r.banks bank).lastRow = row)

/-- `MemRankBase::access`. -/
def MemRankBase.access (accessCycle issuedCycle row bank : ℕ) (type : MemAccessType) :
    RankAct Unit := do
  let r ← observe fun r => r
  ensure ((r.banks bank).lastRdWrCycle < issuedCycle) .monotone
  change fun r => { r.modifyBank bank fun b =>
      { b with lastRdWrCycle := issuedCycle, lastRow := row, lastType := type } with
    lastAccessCycle := max r.lastAccessCycle accessCycle
    lastBank := bank
    log := .rdwr bank row type issuedCycle :: r.log }

/-- The open policy up to the ACT: nothing on a row hit, else a PRE if the bank
is open. -/
def openPolicyStart (rowHit : Bool) (type : MemAccessType) (arrivalCycle refreshNum bank : ℕ) :
    RankAct (Option ℕ × Bool) :=
  if rowHit then pure (none, false)
  else do
    let issueCycle ← CalcIntraIssueCycle p rowHit type arrivalCycle refreshNum
    let r ← observe fun r => r
    if (r.banks bank).isOpen then do
      let preIssueCycle := r.CalcPreConst p bank (r.banks bank).lastType issueCycle
      ensure (issueCycle ≤ preIssueCycle) .order
      IssuePrecharge bank preIssueCycle
      pure (some (preIssueCycle + p.tRP.toNat), false)
    else pure (some issueCycle, false)

/-- The closed policy up to the ACT: nothing for a continuous access. -/
def closedPolicyStart (rowHit : Bool) (type : MemAccessType) (arrivalCycle refreshNum row bank : ℕ) :
    RankAct (Option ℕ × Bool) := do
  ensure (rowHit = false) .rowHit
  let r ← observe fun r => r
  if r.CheckContinuousAccess p arrivalCycle bank row then pure (none, true)
  else do
    let issueCycle ← CalcIntraIssueCycle p rowHit type arrivalCycle refreshNum
    pure (some issueCycle, false)

/-- The part of `LatencySimulate` that issues PRE and ACT: the cycle of the
ACT, if there is one, and whether the access continues the one before it. -/
def openRow (rowHit : Bool) (type : MemAccessType) (arrivalCycle refreshNum row bank : ℕ) :
    RankAct (Option ℕ × Bool) := do
  let (issuableCycle, continuous) ← (
    if p.openPolicy then
      openPolicyStart p rowHit type arrivalCycle refreshNum bank
    else closedPolicyStart p rowHit type arrivalCycle refreshNum row bank)
  match issuableCycle with
  | none => pure (none, continuous)
  | some issuableCycle => do
    let actIssueCycle ← CalcActConst p bank issuableCycle
    IssueActivate p bank row actIssueCycle
    ensure (arrivalCycle ≤ actIssueCycle) .order
    pure (some actIssueCycle, continuous)

/-- The first cycle for the read or write command in the rank. -/
def rdwrStart (opened : Option ℕ × Bool) (rowHit : Bool) (type : MemAccessType)
    (arrivalCycle refreshNum : ℕ) : RankAct ℕ := do
  match opened with
  | (some actIssueCycle, _) => observe fun r => r.CalcRdWrConst p type (actIssueCycle + p.tRCD.toNat)
  | (none, true) => observe fun r => r.CalcRdWrConst p type arrivalCycle
  | (none, false) => do
    ensure (rowHit = true) .rowHit
    ensure (p.openPolicy = true) .rowHit
    CalcIntraIssueCycle p rowHit type arrivalCycle refreshNum

/-- The part of `LatencySimulate` that issues PRE under the closed policy. -/
def closeRow (type : MemAccessType) (bank rdwrIssueCycle : ℕ) : RankAct Unit := do
  if p.openPolicy = false then
    let r ← observe fun r => r
    let preIssueCycle := r.CalcPreConst p bank type rdwrIssueCycle
    ensure (rdwrIssueCycle ≤ preIssueCycle) .order
    IssuePrecharge bank preIssueCycle

end Rank

section Channel

variable (p : MemParam)

/-- The loop of `CalcInterIssueCycle` over the rest of the log. -/
def findSlot (tSlot : ℕ) : List (ℕ × ℕ) → ℕ → ℕ
  | [], tStart => tStart
  | (busStart, busy) :: log, tStart =>
    let busEnd := busy + p.tRTRS.toNat
    let tEnd := tStart + tSlot
    if busStart < tEnd ∧ tEnd ≤ busEnd ∨ busStart ≤ tStart ∧ tStart < busEnd then
      findSlot tSlot log busEnd
    else if tEnd < busStart then tStart
    else findSlot tSlot log tStart

/-- `CalcInterIssueCycle`. -/
def CalcInterIssueCycle (accessLog : List (ℕ × ℕ)) (type : MemAccessType) (arrivalCycle : ℕ) : ℕ :=
  let tWait := (p.GetDataLatency type).toNat
  findSlot p (p.GetDataSlot type + p.tRTRS).toNat accessLog (arrivalCycle + tWait) - tWait

/-- `UpdateDataBusCycle`. -/
def UpdateDataBusCycle (start finish : ℕ) : Act Unit := do
  let s ← observe fun s => s
  let sorted := (s.accessLog ++ [(start, finish)]).insertionSort PairLE
  let accessLog ← (
    if p.accessLogDepth.toNat < sorted.length then
      match sorted.tail with
      | [] => abort .emptyLog
      | (_, busEnd) :: log => pure ((0, busEnd) :: log)
    else pure sorted)
  change fun s => { s with accessLog := accessLog, bursts := (start, finish) :: s.bursts }

theorem updateDataBusCycle_ranks {E : MemFailure → Prop} (hlog : E .emptyLog) (start finish : ℕ) (s : MemChannelBase) :
    ends E (UpdateDataBusCycle p start finish) (fun _ s' => s'.ranks = s.ranks) s := by
  simp only [UpdateDataBusCycle, ends_bind, ends_observe, ends_ite]
  split
  · split
    · exact hlog
    · rfl
  · rfl

/-- `LatencySimulate`; the location has been decoded. -/
def schedule (loc : Location) (arrivalCycle lastPhaseCycle : ℕ) (type : MemAccessType) : Act ℕ := do
  let row := loc.row.toNat
  let rank := loc.rank.toNat
  let bank := loc.bank.toNat
  ensure (rank < p.rankCount.toNat) .outside
  ensure (bank < p.bankCount.toNat) .outside
  let refreshNum ← onRank rank (UpdateRefreshNum p arrivalCycle)
  let pd_penalty ← observe fun s => (s.ranks rank).GetPowerDownPenalty p arrivalCycle
  onRank rank (UpdatePowerDownCycle p arrivalCycle lastPhaseCycle refreshNum)
  onRank rank (UpdateLastRefreshCycle p refreshNum)
  let rowHit ← observe fun s => (s.ranks rank).IsRowBufferHit row bank
  let opened ← onRank rank (openRow p rowHit type arrivalCycle refreshNum row bank)
  let start ← onRank rank (rdwrStart p opened rowHit type arrivalCycle refreshNum)
  ensure (arrivalCycle ≤ start) .order
  let s ← observe fun s => s
  let rdwrIssueCycle := CalcInterIssueCycle p s.accessLog type start
  ensure (arrivalCycle ≤ rdwrIssueCycle) .order
  let issueDelay := rdwrIssueCycle - arrivalCycle
  let latency := issueDelay + (p.GetDataDelay type).toNat + pd_penalty
  let latency_mem := latency + (p.tTrans - p.tTransCrit).toNat
  onRank rank (MemRankBase.access (arrivalCycle + latency_mem) rdwrIssueCycle row bank type)
  onRank rank (closeRow p type bank rdwrIssueCycle)
  let busEndCycle := arrivalCycle + latency_mem
  UpdateDataBusCycle p (busEndCycle - (p.GetDataSlot type).toNat) busEndCycle
  pure latency

/-- `AddressMap` with its assertion. -/
def locate (lineAddr : UInt64) : Act Location := do
  let loc := AddressMap p lineAddr
  let s ← observe fun s => s
  ensure (s.myId = loc.chnl) .chnl
  pure loc

/-- `MemChannelBase::LatencySimulate`. -/
def LatencySimulate (lineAddr : UInt64) (arrivalCycle lastPhaseCycle : ℕ) (type : MemAccessType) :
    Act ℕ := do
  let loc ← locate p lineAddr
  schedule p loc arrivalCycle lastPhaseCycle type

/-- The arguments of one call of `LatencySimulate`. -/
structure Access where
  lineAddr : UInt64
  arrivalCycle : ℕ
  lastPhaseCycle : ℕ
  type : MemAccessType

/-- The channel after an access; none if an assertion failed. -/
def step (s : MemChannelBase) (x : Access) : Option MemChannelBase :=
  ((LatencySimulate p x.lineAddr x.arrivalCycle x.lastPhaseCycle x.type s).map fun r => r.2).toOption

variable {p}

/-- What `LatencySimulate` ends in holds after a step. -/
theorem of_step {E : MemFailure → Prop} {s s' : MemChannelBase} {x : Access} {Q : MemChannelBase → Prop}
    (h : ends E (LatencySimulate p x.lineAddr x.arrivalCycle x.lastPhaseCycle x.type)
      (fun _ => Q) s) (hs : step p s x = some s') : Q s' := of_performed h hs

end Channel

end Zsim.MemChannel
