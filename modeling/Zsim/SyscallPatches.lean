import Mathlib.Algebra.Order.Ring.Int
import Mathlib.Data.Nat.Notation
import Mathlib.Logic.Function.Basic

/-!
# System calls under a patch

A patch runs before a system call and may change its registers, and the function that it leaves runs after the
call. The kernel leaves the arguments alone. Times go between nanoseconds and cycles through 64-bit words. Phases
are counted by natural numbers.
-/

namespace Zsim.SyscallPatches

/-- A call has six arguments, numbered from 0. -/
scoped instance arguments_ne_zero : NeZero 6 := ⟨by decide⟩

/-- The registers that a patch reads and writes. The number of the call is where its result comes back. -/
structure Context where
  number : UInt64
  args : Fin 6 → UInt64
  ip : UInt64

namespace Context

/-- `PIN_SetSyscallArgument`. -/
def setArgument (c : Context) (k : Fin 6) (value : UInt64) : Context :=
  { c with args := Function.update c.args k value }

/-- `PIN_SetSyscallNumber`. -/
def setNumber (c : Context) (number : UInt64) : Context := { c with number }

/-- The call itself, which is an instruction of two bytes. -/
def kernel (c : Context) (res : UInt64) : Context := { c with number := res, ip := c.ip + 2 }

variable (c : Context) (k j : Fin 6) (value : UInt64)

@[simp] theorem setArgument_ip : (c.setArgument k value).ip = c.ip := rfl

@[simp] theorem setArgument_same : (c.setArgument k value).args k = value := Function.update_self ..

end Context

/-- What a patch tells the instrumentation to go on with. -/
inductive PostPatchAction where
  | nothing
  | useRetryPtrs
  | useJoinPtrs
  deriving DecidableEq

structure Timespec where
  tvSec : Int64
  tvNsec : Int64

/-- The fields of `zinfo` that patches read. -/
structure GlobSimInfo where
  freqMHz : UInt32
  phaseLength : UInt32
  numPhases : ℕ
  globPhaseCycles : UInt64
  /-- Of the clock domain of the process. -/
  realtimeOffsetNs : UInt64

/-- `timespecToNs`. -/
def timespecToNs (ts : Timespec) : UInt64 := (ts.tvSec * 1000000000 + ts.tvNsec).toUInt64

namespace GlobSimInfo

/-- `cyclesToNs`. -/
def cyclesToNs (zinfo : GlobSimInfo) (cycles : UInt64) : UInt64 := cycles * 1000 / zinfo.freqMHz.toUInt64

/-- `nsToCycles`. -/
def nsToCycles (zinfo : GlobSimInfo) (ns : UInt64) : UInt64 := ns * zinfo.freqMHz.toUInt64 / 1000

end GlobSimInfo

end Zsim.SyscallPatches
