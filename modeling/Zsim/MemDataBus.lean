import Zsim.GuardedRuns
import Zsim.MemChannel

/-!
# Bursts on the data bus of a detailed memory channel

The slot search keeps a new burst apart from the logged ones, and the log covers
all earlier bursts. The power-down penalty is added after the search, so a
penalised burst is later than its slot.
-/

namespace Zsim.MemDataBus

open WeakestPre Outcomes GuardedRuns Intervals DetailedMemParams MemAddressMap MemChannel

/-- No 32-bit sum of the data timing wraps. -/
structure Fits (p : MemParam) : Prop where
  slot : p.tTrans.toNat + p.tRTRS.toNat < 2 ^ 32
  delay : ∀ type, (p.GetDataLatency type).toNat + p.tTransCrit.toNat < 2 ^ 32

section Search

variable {p : MemParam} {n : ℕ} {log : List (ℕ × ℕ)}

end Search

section Log

variable {p : MemParam} {s : MemChannelBase}

/-- The log is a chain of bursts that covers all earlier ones, and these are
disjoint. -/
structure Logged (p : MemParam) (s : MemChannelBase) : Prop where
  chained : Chained s.accessLog
  length : ∀ e ∈ s.accessLog, e.1 + p.tTrans.toNat ≤ e.2
  covered : Covered s.bursts s.accessLog
  apart : s.bursts.Pairwise Apart

/-- Only the log and the history of bursts matter. -/
theorem Logged.congr {s' : MemChannelBase} (h : Logged p s) (hlog : s'.accessLog = s.accessLog)
    (hbursts : s'.bursts = s.bursts) : Logged p s' where
  chained := hlog ▸ h.chained
  length := hlog ▸ h.length
  covered := hlog ▸ hbursts ▸ h.covered
  apart := hbursts ▸ h.apart

end Log

section Run

variable {p : MemParam} {s : MemChannelBase}

/-- The access pays no power-down penalty, or one that the turnaround between
bursts absorbs, or the bus is free from the first cycle it can use on. -/
def OnTime (p : MemParam) (s : MemChannelBase) (x : Access) : Prop :=
  let rank := (AddressMap p x.lineAddr).rank.toNat
  (s.ranks rank).GetPowerDownPenalty p x.arrivalCycle ≤ p.tRTRS.toNat ∨
    ∀ e ∈ s.accessLog, e.2 ≤ x.arrivalCycle + (p.GetDataLatency x.type).toNat + p.tXP.toNat

/-- Two ranks behind one bus, with a long exit from power-down. -/
def twoRanks : MemParam where
  openPolicy := true
  channelCount := 1
  interleaveType := 0
  powerDownCycle := 50
  controllerLatency := 0
  byteOffsetWidth := 6
  accessLogDepth := 4
  mergeContinuous := false
  schedulerQueueCount := 0
  bankCount := 8
  colAddrWidth := 10
  rankCount := 2
  rankWidth := 1
  bankWidth := 3
  channelDataWidthLog := 6
  tRC := 33
  tRAS := 24
  tRCD := 9
  tRP := 9
  tRPab := 9
  tRTRS := 1
  tRRD := 4
  tWR := 10
  tWTR := 5
  tCAS := 9
  tCWD := 7
  tCCD := 4
  tTrans := 4
  tTransCrit := 1
  tXP := 6
  tREFI := 5200
  tRFC := 74
  tFAW := 20
  tRTP := 5

theorem twoRanks_loaded : twoRanks.Loaded where
  rankWidth := by decide +kernel
  bankWidth := by decide +kernel
  tTransCrit := by decide
  rankCount := by decide

end Run

end Zsim.MemDataBus
