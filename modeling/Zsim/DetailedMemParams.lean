import Mathlib.Data.Nat.Log
import Mathlib.Data.Nat.Notation
import Mathlib.Tactic.TypeStar

/-!
# Parameters of the detailed memory model

The part of `MemParam` that the channels and the controller read. Timing
parameters are memory cycles in 32-bit words, and what the accessors compute
from them is computed in 32 bits, as in the source.
-/

namespace Zsim.DetailedMemParams

/-- `MemAccessType`. -/
inductive MemAccessType where
  | READ
  | WRITE
  deriving DecidableEq

/-- `MemParam`. -/
structure MemParam where
  /-- `IsOpenRowBufPolicy`; the only other policy is the closed one. -/
  openPolicy : Bool
  -- memory controller
  channelCount : UInt32
  interleaveType : ℕ
  powerDownCycle : UInt32
  controllerLatency : UInt32
  byteOffsetWidth : UInt32
  accessLogDepth : UInt32
  mergeContinuous : Bool
  schedulerQueueCount : UInt32
  -- device architecture
  bankCount : UInt32
  colAddrWidth : UInt32
  rankCount : UInt32
  rankWidth : UInt32
  bankWidth : UInt32
  channelDataWidthLog : UInt32
  -- timing
  tRC : UInt32
  tRAS : UInt32
  tRCD : UInt32
  tRP : UInt32
  tRPab : UInt32
  tRTRS : UInt32
  tRRD : UInt32
  tWR : UInt32
  tWTR : UInt32
  tCAS : UInt32
  tCWD : UInt32
  tCCD : UInt32
  tTrans : UInt32
  tTransCrit : UInt32
  tXP : UInt32
  tREFI : UInt32
  tRFC : UInt32
  tFAW : UInt32
  tRTP : UInt32

/-- `ilog2`. -/
def ilog2 (val : UInt32) : UInt32 := .ofNat (Nat.log 2 val.toNat)

theorem log_lt (val : UInt32) : Nat.log 2 val.toNat < 32 := by
  by_cases hzero : val.toNat = 0
  · rw [hzero]
    decide
  · exact Nat.log_lt_of_lt_pow hzero val.toNat_lt

theorem toNat_ilog2 (val : UInt32) : (ilog2 val).toNat = Nat.log 2 val.toNat := by
  have hlt := log_lt val
  rw [ilog2, UInt32.toNat_ofNat', Nat.mod_eq_of_lt (by omega)]

theorem ilog2_lt (val : UInt32) : (ilog2 val).toNat < 32 := by
  rw [toNat_ilog2]
  exact log_lt val

/-- What `LoadConfigMain` and `LoadTiming` leave behind: they compute the
widths and `tTransCrit`, and refuse a specification without ranks. -/
structure MemParam.Loaded (p : MemParam) : Prop where
  rankWidth : p.rankWidth = ilog2 p.rankCount
  bankWidth : p.bankWidth = ilog2 p.bankCount
  tTransCrit : p.tTransCrit = p.tTrans / 4
  rankCount : p.rankCount ≠ 0

/-- Every timing parameter is positive. -/
structure MemParam.Positive (p : MemParam) : Prop where
  tRC : 0 < p.tRC.toNat
  tRAS : 0 < p.tRAS.toNat
  tRCD : 0 < p.tRCD.toNat
  tRP : 0 < p.tRP.toNat
  tRPab : 0 < p.tRPab.toNat
  tRTRS : 0 < p.tRTRS.toNat
  tRRD : 0 < p.tRRD.toNat
  tWR : 0 < p.tWR.toNat
  tWTR : 0 < p.tWTR.toNat
  tCAS : 0 < p.tCAS.toNat
  tCWD : 0 < p.tCWD.toNat
  tCCD : 0 < p.tCCD.toNat
  tTrans : 0 < p.tTrans.toNat
  tXP : 0 < p.tXP.toNat
  tREFI : 0 < p.tREFI.toNat
  tRFC : 0 < p.tRFC.toNat
  tFAW : 0 < p.tFAW.toNat
  tRTP : 0 < p.tRTP.toNat

variable (p : MemParam)

/-- Read or write to data. -/
def MemParam.GetDataLatency : MemAccessType → UInt32
  | .READ => p.tCAS
  | .WRITE => p.tCWD

/-- Read or write to the first data. -/
def MemParam.GetDataDelay (type : MemAccessType) : UInt32 := p.GetDataLatency type + p.tTransCrit

/-- Data length; it does not depend on the type. -/
def MemParam.GetDataSlot (_type : MemAccessType) : UInt32 := p.tTrans

/-- Read or write to precharge. -/
def MemParam.GetPreDelay : MemAccessType → UInt32
  | .READ => p.tRTP
  | .WRITE => p.tCWD + p.tTrans + p.tWR

/-- The cycles a refresh takes. -/
def MemParam.GetRefreshCycle : UInt32 := if p.openPolicy then p.tRFC + p.tRPab else p.tRFC

/-- `GetRdWrDelay`, reading the table that `MakeConstraints` fills. The entry
of a write after a read wraps when `tCWD` is large. -/
def MemParam.GetRdWrDelay (type lastType : MemAccessType) : UInt32 :=
  match lastType, type with
  | .READ, .READ => max p.tTrans p.tCCD
  | .READ, .WRITE => p.tCAS + p.tCCD / 2 + 2 - p.tCWD
  | .WRITE, .READ => p.tCWD + p.tTrans + p.tWTR
  | .WRITE, .WRITE => max p.tCCD p.tTrans

end Zsim.DetailedMemParams
