import Zsim.MemDataBus

/-!
# Command timing of a detailed memory rank

The constraints between the commands of a rank speak of its whole history, and
the rank keeps what it needs of it: the last commands of every bank, a ring of
four ACTs, and the bank used last. An invariant ties the two together, and every
part of an access keeps it as long as the access meets a condition on the state
it finds.
-/

namespace Zsim.MemTiming

open WeakestPre Outcomes GuardedRuns DetailedMemParams MemAddressMap MemChannel

section History

/-- Bank and cycle of an ACT. -/
def actOf : Command → Option (ℕ × ℕ)
  | .act bank _ cycle => some (bank, cycle)
  | _ => none

/-- Banks and cycles of the ACTs, the last one first. -/
def acts (log : List Command) : List (ℕ × ℕ) := log.filterMap actOf

/-- Row and cycle of an ACT of the bank. -/
def actOn (bank : ℕ) : Command → Option (ℕ × ℕ)
  | .act b row cycle => if b = bank then some (row, cycle) else none
  | _ => none

/-- Row and cycle of the last ACT of the bank. -/
def lastAct (bank : ℕ) (log : List Command) : Option (ℕ × ℕ) := log.findSome? (actOn bank)

/-- Type and cycle of a read or write. -/
def rdwrOf : Command → Option (MemAccessType × ℕ)
  | .rdwr _ _ type cycle => some (type, cycle)
  | _ => none

/-- Type and cycle of the last read or write. -/
def lastRdWr (log : List Command) : Option (MemAccessType × ℕ) := log.findSome? rdwrOf

variable (p : MemParam)

/-- The command meets the constraints to the commands before it. -/
def Allowed (log : List Command) : Command → Prop
  | .act bank _ cycle =>
    (∀ x ∈ acts log, x.2 + (if x.1 = bank then p.tRC.toNat else p.tRRD.toNat) ≤ cycle) ∧
    (∀ x, (acts log)[3]? = some x → x.2 + p.tFAW.toNat ≤ cycle) ∧
    ∀ c, .pre bank c ∈ log → c + p.tRP.toNat ≤ cycle
  | .pre _ _ => True
  | .rdwr bank row type cycle =>
    (∃ c, lastAct bank log = some (row, c) ∧ c + p.tRCD.toNat ≤ cycle) ∧
    ∀ last, lastRdWr log = some last → last.2 + (p.GetRdWrDelay type last.1).toNat ≤ cycle

/-- Every command of the history meets them. -/
def Legal : List Command → Prop
  | [] => True
  | c :: log => Allowed p log c ∧ Legal log

variable {p} {log : List Command}

theorem Legal.suffix {later earlier : List Command} (h : Legal p (later ++ earlier)) : Legal p earlier := by
  induction later with
  | nil => exact h
  | cons c later ih => exact ih h.2

end History

end Zsim.MemTiming
