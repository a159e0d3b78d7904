import Mathlib.Data.List.Basic
import Mathlib.Data.List.Pairwise
import Mathlib.Data.Nat.Basic

/-!
# Legal command histories of a DRAM channel

The banks of a channel receive commands at given cycles. A history lists them,
the last one first; the commands of one bank are in the order in which the bank
performs them, and nothing is said of the order of the cycles of different
banks. A history is legal if every command respects the timing constraints to
the commands before it. The constraints on the activates of a rank, which
compare cycles in either order, are stated apart.
-/

namespace Zsim.DRAMCommands

/-- The timing constraints, in cycles of the channel. -/
structure Timing where
  /-- The length of a data burst. -/
  tBL : ℕ
  /-- Column command to data burst. -/
  tCL : ℕ
  /-- Activate to column command. -/
  tRCD : ℕ
  /-- Read to precharge. -/
  tRTP : ℕ
  /-- Precharge to activate. -/
  tRP : ℕ
  /-- Activate to activate, in one rank. -/
  tRRD : ℕ
  /-- Activate to precharge. -/
  tRAS : ℕ
  /-- At most four activates of a rank are in a window of this length. -/
  tFAW : ℕ
  /-- End of a write burst to read. -/
  tWTR : ℕ
  /-- End of a write burst to precharge. -/
  tWR : ℕ
  /-- Refresh to activate. -/
  tRFC : ℕ
  deriving DecidableEq

/-- A refresh is one of all banks of the channel. -/
inductive Command (β : Type) where
  | activate (bank : β) (row cycle : ℕ)
  | precharge (bank : β) (cycle : ℕ)
  | column (bank : β) (row : ℕ) (write : Bool) (cycle : ℕ)
  | refresh (cycle : ℕ)
  deriving DecidableEq, Repr

variable {β : Type} [DecidableEq β]

/-- The open row of a bank, with the cycle of the activate that opened it. -/
def opened (bank : β) : List (Command β) → Option (ℕ × ℕ)
  | [] => none
  | .activate b row cycle :: cmds => if b = bank then some (row, cycle) else opened bank cmds
  | .precharge b _ :: cmds => if b = bank then none else opened bank cmds
  | .column .. :: cmds => opened bank cmds
  | .refresh _ :: cmds => opened bank cmds

section Legal

variable (t : Timing)

/-- The end of the data burst of a column command. -/
def Timing.burstEnd (cycle : ℕ) : ℕ := cycle + t.tCL + t.tBL

/-- The first cycle at which a bank may be precharged after a column command. -/
def Timing.recovered (write : Bool) (cycle : ℕ) : ℕ :=
  if write then t.burstEnd cycle + t.tWR else cycle + t.tRTP

/-- The command respects its constraints to the commands of the history. -/
def Allowed (cmds : List (Command β)) : Command β → Prop
  | .activate bank _ cycle =>
    opened bank cmds = none ∧ (∀ pre, .precharge bank pre ∈ cmds → pre + t.tRP ≤ cycle) ∧
      ∀ ref, .refresh ref ∈ cmds → ref + t.tRFC ≤ cycle
  | .precharge bank cycle =>
    (∃ row act, opened bank cmds = some (row, act) ∧ act + t.tRAS ≤ cycle) ∧
      ∀ row write col, .column bank row write col ∈ cmds → t.recovered write col ≤ cycle
  | .column bank row write cycle =>
    (∃ act, opened bank cmds = some (row, act) ∧ act + t.tRCD ≤ cycle) ∧
      ∀ bank' row' write' col, .column bank' row' write' col ∈ cmds →
        t.burstEnd col ≤ cycle + t.tCL ∧
          (write' = true → write = false → t.burstEnd col + t.tWTR ≤ cycle)
  | .refresh cycle =>
    (∀ bank, opened bank cmds = none) ∧ ∀ bank pre, .precharge bank pre ∈ cmds → pre ≤ cycle

/-- Every command of the history is allowed after those before it. -/
def Legal : List (Command β) → Prop
  | [] => True
  | cmd :: cmds => Allowed t cmds cmd ∧ Legal cmds

variable {t}

/-- A bank that was activated is open since, or was precharged no earlier than
`tRAS` later. -/
theorem Legal.activated {cmds : List (Command β)} (h : Legal t cmds) {bank : β} {row act : ℕ}
    (ha : .activate bank row act ∈ cmds) :
    opened bank cmds = some (row, act) ∨ ∃ pre, .precharge bank pre ∈ cmds ∧ act + t.tRAS ≤ pre := by
  induction cmds with
  | nil => cases ha
  | cons cmd cmds ih =>
    have hold : .activate bank row act ∈ cmds → opened bank cmds = some (row, act) ∨
        ∃ pre, .precharge bank pre ∈ cmd :: cmds ∧ act + t.tRAS ≤ pre := by
      intro hmem
      cases ih h.2 hmem with
      | inl hopen => exact .inl hopen
      | inr hpre =>
        obtain ⟨pre, hpre, hle⟩ := hpre
        exact .inr ⟨pre, List.mem_cons_of_mem cmd hpre, hle⟩
    cases cmd with
    | activate b row' act' =>
      cases List.mem_cons.mp ha with
      | inl heq =>
        cases heq
        exact .inl (if_pos rfl)
      | inr hmem =>
        cases hold hmem with
        | inl hopen =>
          -- a bank with an open row is not activated
          have hne : b ≠ bank := by
            intro hb
            have hclosed := h.1.1
            rw [hb, hopen] at hclosed
            cases hclosed
          exact .inl ((if_neg hne).trans hopen)
        | inr hpre => exact .inr hpre
    | precharge b pre =>
      have hmem := (List.mem_cons.mp ha).resolve_left (fun heq => nomatch heq)
      cases hold hmem with
      | inl hopen =>
        by_cases hb : b = bank
        · obtain ⟨row', act', hopen', hras⟩ := h.1.1
          rw [hb, hopen] at hopen'
          cases hopen'
          subst hb
          exact .inr ⟨pre, List.mem_cons_self, hras⟩
        · exact .inl ((if_neg hb).trans hopen)
      | inr hpre => exact .inr hpre
    | column b row' write col =>
      exact hold ((List.mem_cons.mp ha).resolve_left (fun heq => nomatch heq))
    | refresh ref =>
      exact hold ((List.mem_cons.mp ha).resolve_left (fun heq => nomatch heq))

/-- The activates of each bank are `tRAS + tRP` apart. -/
def BankSpaced (t : Timing) (cmds : List (Command β)) : Prop :=
  cmds.Pairwise fun later earlier => ∀ bank row row' cycle cycle',
    later = .activate bank row cycle → earlier = .activate bank row' cycle' →
      cycle' + t.tRAS + t.tRP ≤ cycle

/-- Two activates of one bank are `tRAS + tRP` apart. -/
theorem Legal.bankSpaced {cmds : List (Command β)} (h : Legal t cmds) : BankSpaced t cmds := by
  induction cmds with
  | nil => exact List.Pairwise.nil
  | cons cmd cmds ih =>
    refine List.Pairwise.cons ?_ (ih h.2)
    intro earlier hmem bank row row' cycle cycle' hlater hearlier
    subst hlater hearlier
    obtain ⟨hclosed, hpre, -⟩ := h.1
    cases h.2.activated hmem with
    | inl hopen =>
      rw [hclosed] at hopen
      cases hopen
    | inr hp =>
      obtain ⟨pre, hp, hras⟩ := hp
      have hrp := hpre pre hp
      omega

end Legal

section Activates

variable {κ : Type} [DecidableEq κ] (rankOf : β → κ)

/-- The cycles of the activates of the banks of a rank, the last one first. -/
def activates (rank : κ) : List (Command β) → List ℕ
  | [] => []
  | .activate bank _ cycle :: cmds =>
    if rankOf bank = rank then cycle :: activates rank cmds else activates rank cmds
  | .precharge .. :: cmds => activates rank cmds
  | .column .. :: cmds => activates rank cmds
  | .refresh _ :: cmds => activates rank cmds

/-- How many of the cycles are in the window of `tFAW` cycles from `start` on. -/
def inWindow (t : Timing) (start : ℕ) (acts : List ℕ) : ℕ :=
  acts.countP fun act => start ≤ act ∧ act < start + t.tFAW

end Activates

end Zsim.DRAMCommands
