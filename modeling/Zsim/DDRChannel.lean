import Mathlib.Algebra.Order.Ring.Int
import Zsim.DRAMCommands
import Zsim.DetailedMemParams
import Mathlib.Data.List.ProdSigma
import Mathlib.Logic.Function.Basic

/-!
# The channel of the DDR memory model

`DDRMemory` models one channel. Its constructor sets timing parameters, clocks
and the address mapping, and the channel keeps what the timing of the next
command depends on: the open rows and last commands of the banks, the last four
ACTs of each rank and the end of the last data burst. The model is
issue-centric: when the column command of a request issues, `issue` also
records the PRE and the ACT it needed. The commands are kept as history that no
function reads. Cycles are natural numbers.
-/

namespace Zsim.DDRChannel

open DRAMCommands DetailedMemParams

section Config

/-- The parameters of a `DDRMemory` after its constructor. -/
structure DDRConfig extends Timing where
  ranksPerChannel : ℕ
  banksPerRank : ℕ
  /-- In system cycles, 32 bits. -/
  controllerSysLatency : ℕ
  queueDepth : ℕ
  rowHitLimit : ℕ
  deferredWrites : Bool
  closedPage : Bool
  sysFreqKHz : ℕ
  memFreqKHz : ℕ
  colShift : ℕ
  colMask : ℕ
  rankShift : ℕ
  rankMask : ℕ
  bankShift : ℕ
  bankMask : ℕ
  rowShift : ℕ
  deriving DecidableEq

/-- The technologies that `initTech` knows. -/
inductive Tech where
  | DDR3_1333_CL10
  | DDR3_1066_CL7
  | DDR3_1066_CL8
  deriving DecidableEq

/-- The timing parameters of `initTech`, with the burst of a 64-byte line. -/
def Tech.timing : Tech → Timing
  | .DDR3_1333_CL10 =>
    { tBL := 4, tCL := 10, tRCD := 10, tRTP := 5, tRP := 10, tRRD := 4, tRAS := 24, tFAW := 20,
      tWTR := 5, tWR := 10, tRFC := 74 }
  | .DDR3_1066_CL7 =>
    { tBL := 4, tCL := 7, tRCD := 7, tRTP := 4, tRP := 7, tRRD := 4, tRAS := 18, tFAW := 18,
      tWTR := 4, tWR := 7, tRFC := 59 }
  | .DDR3_1066_CL8 =>
    { tBL := 4, tCL := 8, tRCD := 8, tRTP := 4, tRP := 8, tRRD := 4, tRAS := 20, tFAW := 20,
      tWTR := 4, tWR := 8, tRFC := 59 }

/-- `memFreqKHz`, from a `tCK` of 1.5 or 1.875 ns. -/
def Tech.memFreqKHz : Tech → ℕ
  | .DDR3_1333_CL10 => 666666
  | .DDR3_1066_CL7 => 533333
  | .DDR3_1066_CL8 => 533333

/-- `initTech` adjusts the burst to the line size; none is its panic. -/
def burstLength (lineSize tBL : UInt32) : Option UInt32 :=
  if lineSize ≠ 0 ∧ lineSize &&& (lineSize - 1) = 0 ∧ 64 ≤ lineSize then some (lineSize * tBL / 64)
  else if lineSize = 32 then some (tBL / 2)
  else none

/-- A token of `addrMapping`. -/
inductive AddrField where
  | col
  | rank
  | bank
  | other
  deriving DecidableEq

/-- What the loop over the tokens computes: shift and mask of each field. -/
structure AddrMapping where
  startBit : ℕ
  colShift : ℕ
  colMask : ℕ
  rankShift : ℕ
  rankMask : ℕ
  bankShift : ℕ
  bankMask : ℕ

/-- `computeShiftAndMask`, for the field of the token; none is a panic. -/
def AddrMapping.add (m : AddrMapping) (colBits rankBits bankBits : ℕ) :
    AddrField → Option AddrMapping
  | .col =>
    if m.colMask ≠ 0 then none
    else some { m with
      startBit := m.startBit + colBits
      colShift := m.startBit
      colMask := 2 ^ colBits - 1 }
  | .rank =>
    if m.rankMask ≠ 0 then none
    else some { m with
      startBit := m.startBit + rankBits
      rankShift := m.startBit
      rankMask := 2 ^ rankBits - 1 }
  | .bank =>
    if m.bankMask ≠ 0 then none
    else some { m with
      startBit := m.startBit + bankBits
      bankShift := m.startBit
      bankMask := 2 ^ bankBits - 1 }
  | .other => none

/-- The loop over the tokens, lowest bits first. -/
def AddrMapping.addAll (colBits rankBits bankBits : ℕ) :
    List AddrField → AddrMapping → Option AddrMapping
  | [], m => some m
  | field :: fields, m =>
    (m.add colBits rankBits bankBits field).bind (addAll colBits rankBits bankBits fields)

/-- The arguments of the constructor. -/
structure DDRArgs where
  lineSize : UInt32
  colSize : UInt32
  ranksPerChannel : UInt32
  banksPerRank : UInt32
  sysFreqMHz : UInt32
  tech : Tech
  /-- The tokens of `addrMapping`, from left to right. -/
  addrMapping : List AddrField
  controllerSysLatency : UInt32
  queueDepth : UInt32
  rowHitLimit : UInt32
  deferredWrites : Bool
  closedPage : Bool

/-- The constructor; none is one of its panics. -/
def DDRArgs.config (a : DDRArgs) : Option DDRConfig := do
  let sysFreqKHz := (1000 * a.sysFreqMHz).toNat
  let tBL ← burstLength a.lineSize (.ofNat a.tech.timing.tBL)
  if sysFreqKHz / 2 ≤ a.tech.memFreqKHz then none
  if a.addrMapping.length ≠ 3 then none
  let colBits := ilog2 (a.colSize / (64 / 8) * 64 / a.lineSize)
  let bankBits := ilog2 a.banksPerRank
  let rankBits := ilog2 a.ranksPerChannel
  let m ← AddrMapping.addAll colBits.toNat rankBits.toNat bankBits.toNat a.addrMapping.reverse
    ⟨0, 0, 0, 0, 0, 0, 0⟩
  some {
    toTiming := { a.tech.timing with tBL := tBL.toNat }
    ranksPerChannel := a.ranksPerChannel.toNat
    banksPerRank := a.banksPerRank.toNat
    controllerSysLatency := a.controllerSysLatency.toNat
    queueDepth := a.queueDepth.toNat
    rowHitLimit := a.rowHitLimit.toNat
    deferredWrites := a.deferredWrites
    closedPage := a.closedPage
    sysFreqKHz := sysFreqKHz
    memFreqKHz := a.tech.memFreqKHz
    colShift := m.colShift
    colMask := m.colMask
    rankShift := m.rankShift
    rankMask := m.rankMask
    bankShift := m.bankShift
    bankMask := m.bankMask
    rowShift := m.startBit }

variable (c : DDRConfig)

def DDRConfig.sysToMemCycle (sysCycle : ℕ) : ℕ := sysCycle * c.memFreqKHz / c.sysFreqKHz + 1

def DDRConfig.memToSysCycle (memCycle : ℕ) : ℕ := (memCycle + 1) * c.sysFreqKHz / c.memFreqKHz

def DDRConfig.matchingMemToSysCycle (memCycle : ℕ) : ℕ :=
  (2 * memCycle - 1) * c.sysFreqKHz / c.memFreqKHz / 2

/-- `minRdLatency`, in 32 bits. -/
def DDRConfig.minRdLatency : ℕ :=
  (c.controllerSysLatency + c.memToSysCycle (c.tCL + c.tBL - 1)) % 2 ^ 32

def DDRConfig.minWrLatency : ℕ := c.controllerSysLatency

def DDRConfig.preDelay : ℕ := c.controllerSysLatency

/-- `postDelayRd`, in 32 bits. -/
def DDRConfig.postDelayRd : ℕ := (c.minRdLatency + 2 ^ 32 - c.preDelay) % 2 ^ 32

def DDRConfig.postDelayWr : ℕ := 0

/-- The cycle that `access` answers to a request with an event. -/
def DDRConfig.respCycle (cycle : ℕ) (isWrite : Bool) : ℕ :=
  cycle + if isWrite then c.minWrLatency else c.minRdLatency

/-- The `postDelay` of the event. -/
def DDRConfig.postDelay (isWrite : Bool) : ℕ :=
  if isWrite then DDRConfig.postDelayWr else c.postDelayRd

/-- What the constructor makes sure of. -/
structure DDRConfig.Accepted : Prop where
  memFreqKHz_pos : 0 < c.memFreqKHz
  clocks : c.memFreqKHz < c.sysFreqKHz / 2
  controllerSysLatency : c.controllerSysLatency < 2 ^ 32
  tCL : 0 < c.tCL
  tRCD : 0 < c.tRCD
  tRP : 0 < c.tRP
  tRTP : 0 < c.tRTP
  tRFC : c.tRP ≤ c.tRFC

/-- The assertion of `initTech` on its parameters, and that of `refresh`. -/
theorem Tech.positive (tech : Tech) : 0 < tech.memFreqKHz ∧ 0 < tech.timing.tCL ∧
    0 < tech.timing.tRCD ∧ 0 < tech.timing.tRP ∧ 0 < tech.timing.tRTP ∧
      tech.timing.tRP ≤ tech.timing.tRFC := by
  cases tech <;> decide

/-- Banks are compared by rank and bank. -/
scoped instance bankId_lawful : LawfulBEq (ℕ × ℕ) := inferInstance

/-- The banks of the channel, by rank and bank. -/
def DDRConfig.bankIds : List (ℕ × ℕ) := List.range c.ranksPerChannel ×ˢ List.range c.banksPerRank

/-- `AddrLoc`. -/
structure AddrLoc where
  row : ℕ
  bank : ℕ
  rank : ℕ
  col : ℕ

/-- The rank and the bank of a location. -/
def AddrLoc.bankId (loc : AddrLoc) : ℕ × ℕ := (loc.rank, loc.bank)

/-- `mapLineAddr`, before its assertions. -/
def DDRConfig.mapLineAddr (lineAddr : ℕ) : AddrLoc where
  col := (lineAddr >>> c.colShift) &&& c.colMask
  rank := (lineAddr >>> c.rankShift) &&& c.rankMask
  bank := (lineAddr >>> c.bankShift) &&& c.bankMask
  row := lineAddr >>> c.rowShift

/-- One rank with two banks, which lines alternate between. -/
def twoBanksArgs : DDRArgs where
  lineSize := 64
  colSize := 1024
  ranksPerChannel := 1
  banksPerRank := 2
  sysFreqMHz := 2000
  tech := .DDR3_1333_CL10
  addrMapping := [.rank, .col, .bank]
  controllerSysLatency := 10
  queueDepth := 2
  rowHitLimit := 4
  deferredWrites := true
  closedPage := false

/-- Its parameters. -/
def twoBanks : DDRConfig where
  toTiming := Tech.DDR3_1333_CL10.timing
  ranksPerChannel := 1
  banksPerRank := 2
  controllerSysLatency := 10
  queueDepth := 2
  rowHitLimit := 4
  deferredWrites := true
  closedPage := false
  sysFreqKHz := 2000000
  memFreqKHz := 666666
  colShift := 1
  colMask := 127
  rankShift := 8
  rankMask := 0
  bankShift := 0
  bankMask := 1
  rowShift := 8

example : twoBanksArgs.config = some twoBanks := by decide +kernel

end Config

/-- `DDRMemoryAccEvent`, with the cycle at which it is started. -/
structure DDRMemoryAccEvent where
  id : ℕ
  addr : ℕ
  isWrite : Bool
  startCycle : ℕ
  deriving DecidableEq

/-- `Request`, with the event that it was made for; writes give up `ev` when
they are queued. -/
structure Request where
  addr : ℕ
  loc : AddrLoc
  write : Bool
  rowHitSeq : ℕ
  arrivalCycle : ℕ
  startSysCycle : ℕ
  ev : Option DDRMemoryAccEvent
  origin : ℕ

/-- `ActWindow`. -/
structure ActWindow where
  size : ℕ
  buf : ℕ → ℕ
  idx : ℕ

namespace ActWindow

def init (size : ℕ) : ActWindow where
  size := size
  buf := fun _ => 0
  idx := 0

variable (w : ActWindow)

def minActCycle : ℕ := w.buf w.idx

def inc (i : ℕ) : ℕ := if i < w.size - 1 then i + 1 else 0

def dec (i : ℕ) : ℕ := if i ≠ 0 then i - 1 else w.size - 1

/-- The loop of `addActivation`: later ACTs move up, starting in slot `cur`, at
most once around. -/
def reorder (actCycle : ℕ) : ℕ → (ℕ → ℕ) → ℕ → (ℕ → ℕ) × ℕ
  | 0, buf, cur => (buf, cur)
  | n + 1, buf, cur =>
    if actCycle < buf (w.dec cur) then
      let buf := Function.update buf cur (buf (w.dec cur))
      let cur := w.dec cur
      if cur = w.idx then (buf, cur) else reorder actCycle n buf cur
    else (buf, cur)

/-- `addActivation`, after its assertion. -/
def addActivation (actCycle : ℕ) : ActWindow :=
  let (buf, cur) := w.reorder actCycle w.size w.buf w.idx
  { w with
    buf := Function.update buf cur actCycle
    idx := w.inc w.idx }

end ActWindow

/-- `Bank`, without its request lists. -/
structure Bank where
  openRow : ℕ
  isOpen : Bool
  /-- If the bank is closed, the time of the last PRE; if it is open, the
  minimum cycle at which PRE can be issued. -/
  minPreCycle : ℕ
  lastActCycle : ℕ
  lastCmdCycle : ℕ
  curRowHits : ℕ

/-- The members of `DDRMemory` that commands are timed by. -/
structure Channel where
  minRespCycle : ℕ
  lastCmdWasWrite : Bool
  banks : ℕ × ℕ → Bank
  rankActWindows : ℕ → ActWindow
  /-- The commands so far, the last one first. -/
  cmds : List (Command (ℕ × ℕ))

namespace Channel

/-- The channel that the constructor leaves; it does not set `lastCmdWasWrite`. -/
def new (c : DDRConfig) (lastCmdWasWrite : Bool) : Channel where
  minRespCycle := c.tCL + c.tBL + 1
  lastCmdWasWrite := lastCmdWasWrite
  banks := fun _ => ⟨0, false, 0, 0, 0, 0⟩
  rankActWindows := fun _ => .init 4
  cmds := []

variable (c : DDRConfig) (ch : Channel) (r : Request)

/-- The bank of the request. -/
def bankOf : Bank := ch.banks r.loc.bankId

/-- The row of the request is open. -/
def RowHit : Prop := r.loc.row = (ch.bankOf r).openRow ∧ (ch.bankOf r).isOpen = true

instance : Decidable (ch.RowHit r) := inferInstanceAs (Decidable (_ ∧ _))

/-- `preCycle`, of a request that is no row hit. -/
def preCycle : ℕ :=
  if (ch.bankOf r).isOpen then max r.arrivalCycle (ch.bankOf r).minPreCycle
  else (ch.bankOf r).minPreCycle

/-- `actCycle`, of a request that is no row hit. -/
def actCycle : ℕ :=
  max (max r.arrivalCycle (max (ch.preCycle r + c.tRP) ((ch.bankOf r).lastActCycle + c.tRRD)))
    ((ch.rankActWindows r.loc.rank).minActCycle + c.tFAW)

/-- `findMinCmdCycle`. Its assertion follows from the branch it is in. -/
def findMinCmdCycle : ℕ :=
  if ch.RowHit r then max r.arrivalCycle ((ch.bankOf r).lastCmdCycle + 1)
  else ch.actCycle c r + c.tRCD

/-- Records the PRE, if there is one, and the ACT of a request that is no row hit. -/
def activate : Channel :=
  let bank := ch.bankOf r
  let actCycle := ch.actCycle c r
  let pre := if bank.isOpen then [.precharge r.loc.bankId (ch.preCycle r)] else []
  { ch with
    banks := Function.update ch.banks r.loc.bankId { bank with
      isOpen := true
      openRow := r.loc.row
      minPreCycle := if bank.isOpen then ch.preCycle r + c.tRAS else bank.minPreCycle
      lastActCycle := actCycle }
    rankActWindows := Function.update ch.rankActWindows r.loc.rank
      ((ch.rankActWindows r.loc.rank).addActivation actCycle)
    cmds := .activate r.loc.bankId r.loc.row actCycle :: (pre ++ ch.cmds) }

/-- The cycle from which the column command can issue, by the data bus. -/
def minBusCycle (curCycle : ℕ) : ℕ :=
  let minCmdCycle := max curCycle (ch.minRespCycle - c.tCL)
  if ch.lastCmdWasWrite && !r.write then max minCmdCycle (ch.minRespCycle + c.tWTR) else minCmdCycle

/-- The cycle of the column command. -/
def cmdCycle (curCycle : ℕ) : ℕ :=
  let minCmdCycle :=
    if ch.RowHit r then ch.minBusCycle c r curCycle
    else max (ch.minBusCycle c r curCycle) (ch.actCycle c r + c.tRCD)
  max minCmdCycle (ch.minRespCycle - c.tCL)

/-- Records the RD or WR of a request for an open row, and the PRE of the bank
if it closes. -/
def column (cmdCycle : ℕ) (closes : Bool) : Channel :=
  let bank := ch.bankOf r
  let minRespCycle := cmdCycle + c.tCL + c.tBL
  let minPreCycle := max bank.minPreCycle (max (bank.lastActCycle + c.tRAS)
    (if r.write then minRespCycle + c.tWR else cmdCycle + c.tRTP))
  let pre := if closes then [.precharge r.loc.bankId minPreCycle] else []
  { ch with
    minRespCycle := minRespCycle
    lastCmdWasWrite := r.write
    banks := Function.update ch.banks r.loc.bankId { bank with
      isOpen := if closes then false else bank.isOpen
      minPreCycle := minPreCycle
      lastCmdCycle := cmdCycle
      curRowHits := r.rowHitSeq }
    cmds := pre ++ .column r.loc.bankId r.loc.row r.write cmdCycle :: ch.cmds }

/-- What `trySchedule` records of the request it serves. -/
def issue (curCycle : ℕ) (closes : Bool) : Channel :=
  (if ch.RowHit r then ch else ch.activate c r).column c r (ch.cmdCycle c r curCycle) closes

/-- `minRefreshCycle`: every bank can be closed. -/
def minRefreshCycle (memCycle : ℕ) : ℕ :=
  c.bankIds.foldl (fun cycle id => max cycle (max (ch.banks id).minPreCycle (ch.banks id).lastCmdCycle))
    memCycle

/-- `refresh` closes all banks, then refreshes. -/
def refresh (memCycle : ℕ) : Channel :=
  let minRefreshCycle := ch.minRefreshCycle c memCycle
  let refreshDoneCycle := minRefreshCycle + c.tRFC
  { ch with
    banks := fun id =>
      if id ∈ c.bankIds then
        { ch.banks id with minPreCycle := refreshDoneCycle - c.tRP, isOpen := false }
      else ch.banks id
    cmds := .refresh minRefreshCycle ::
      ((c.bankIds.filter fun id => (ch.banks id).isOpen).map (.precharge · minRefreshCycle) ++
        ch.cmds) }

end Channel

end Zsim.DDRChannel
