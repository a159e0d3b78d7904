import Zsim.DDRFrames
import Zsim.TableCounts

/-!
# The ACTs of a rank

`ActWindow` keeps the cycles of the last four ACTs of a rank in four slots, and
an ACT waits `tFAW` cycles after the oldest one. Slots from a cycle on are as
many as the ACTs of the window that starts there, whatever the order in which
the cycles are computed, so no window holds five. `tRRD` is only kept to the
last ACT of the bank itself: a run keeps it in the rank exactly when each
request that is activated has the distance from its other constraints.
-/

namespace Zsim.DDRActWindows

open WeakestPre Outcomes Frames GuardedRuns TableCounts DRAMCommands DDRChannel DDRController DDRFrames

variable {c : DDRConfig}

section Window

variable {w : ActWindow} {start actCycle : ℕ}

/-- The number of slots with a cycle from `start` on. -/
def slotsFrom (size : ℕ) (buf : ℕ → ℕ) (start : ℕ) : ℕ :=
  countOf size (fun i => if start ≤ buf i then 1 else 0) 1

/-- Whether a cycle is from `start` on. -/
def from01 (start cycle : ℕ) : ℕ := if start ≤ cycle then 1 else 0

/-- Writing one slot. -/
theorem slotsFrom_update {size i : ℕ} (hi : i < size) (buf : ℕ → ℕ) (cycle start : ℕ) :
    slotsFrom size (Function.update buf i cycle) start + from01 start (buf i) =
      slotsFrom size buf start + from01 start cycle := by
  have hcount := countOf_update hi (fun j => if start ≤ buf j then 1 else 0)
    (if start ≤ cycle then 1 else 0) 1
  have hfun : (fun j => if start ≤ Function.update buf i cycle j then 1 else 0) =
      Function.update (fun j => if start ≤ buf j then 1 else 0) i (if start ≤ cycle then 1 else 0) := by
    funext j
    by_cases hj : j = i
    · rw [hj, Function.update_self, Function.update_self]
    · rw [Function.update_of_ne hj, Function.update_of_ne hj]
  have hone : ∀ x, (if (if start ≤ x then 1 else 0) = 1 then 1 else 0) = from01 start x := by
    intro x
    unfold from01
    split <;> rfl
  rw [slotsFrom, slotsFrom, hfun, ← hone, ← hone]
  exact hcount

theorem dec_lt {i : ℕ} (hi : i < w.size) : w.dec i < w.size := by
  unfold ActWindow.dec
  split <;> omega

theorem inc_lt {i : ℕ} (hi : i < w.size) : w.inc i < w.size := by
  unfold ActWindow.inc
  split <;> omega

/-- The loop keeps the cycles of all slots but the one it stands at. -/
theorem reorder_spec (n : ℕ) {buf : ℕ → ℕ} {cur : ℕ} (hcur : cur < w.size) (start : ℕ) :
    (w.reorder actCycle n buf cur).2 < w.size ∧
      slotsFrom w.size (w.reorder actCycle n buf cur).1 start + from01 start (buf cur) =
        slotsFrom w.size buf start +
          from01 start ((w.reorder actCycle n buf cur).1 (w.reorder actCycle n buf cur).2) := by
  induction n generalizing buf cur with
  | zero => exact ⟨hcur, rfl⟩
  | succ n ih =>
    have hdec := dec_lt hcur
    have hslots := slotsFrom_update hcur buf (buf (w.dec cur)) start
    have hmoved : Function.update buf cur (buf (w.dec cur)) (w.dec cur) = buf (w.dec cur) := by
      by_cases heq : w.dec cur = cur
      · rw [heq, Function.update_self]
      · rw [Function.update_of_ne heq]
    unfold ActWindow.reorder
    split
    · dsimp only
      split
      · refine ⟨hdec, ?_⟩
        dsimp only
        rw [hmoved]
        exact hslots
      · obtain ⟨hlt, hrest⟩ := @ih (Function.update buf cur (buf (w.dec cur))) (w.dec cur) hdec
        refine ⟨hlt, ?_⟩
        rw [hmoved] at hrest
        omega
    · exact ⟨hcur, rfl⟩

/-- `addActivation` puts the new cycle in the place of the oldest one. -/
theorem addActivation_spec (hidx : w.idx < w.size) (start : ℕ) :
    slotsFrom w.size (w.addActivation actCycle).buf start + from01 start w.minActCycle =
      slotsFrom w.size w.buf start + from01 start actCycle := by
  obtain ⟨hlt, hslots⟩ := @reorder_spec w actCycle w.size w.buf w.idx hidx start
  have hwrite := slotsFrom_update hlt (w.reorder actCycle w.size w.buf w.idx).1 actCycle start
  change slotsFrom w.size (Function.update (w.reorder actCycle w.size w.buf w.idx).1
    (w.reorder actCycle w.size w.buf w.idx).2 actCycle) start + from01 start (w.buf w.idx) = _
  omega

/-- The slots account for the ACTs: a window of ACTs has slots of its own. -/
structure Covers (t : Timing) (w : ActWindow) (acts : List ℕ) : Prop where
  size : w.size = 4
  idx : w.idx < w.size
  slots : ∀ start, inWindow t start acts ≤ slotsFrom w.size w.buf start

theorem inWindow_cons (t : Timing) (start act : ℕ) (acts : List ℕ) :
    inWindow t start (act :: acts) =
      inWindow t start acts + if start ≤ act ∧ act < start + t.tFAW then 1 else 0 := by
  unfold inWindow
  rw [List.countP_cons]
  simp only [decide_eq_true_eq]

/-- An ACT that waits for the oldest one of the window. -/
theorem Covers.add {t : Timing} {acts : List ℕ} (h : Covers t w acts)
    (hact : w.minActCycle + t.tFAW ≤ actCycle) :
    Covers t (w.addActivation actCycle) (actCycle :: acts) where
  size := h.size
  idx := inc_lt h.idx
  slots := by
    intro start
    have hslots := @addActivation_spec w actCycle h.idx start
    have hold := h.slots start
    change inWindow t start (actCycle :: acts) ≤
      slotsFrom w.size (w.addActivation actCycle).buf start
    rw [inWindow_cons]
    unfold from01 at hslots
    split
    case isTrue hin =>
      -- the slot that is overwritten is before the window
      have hout : ¬start ≤ w.minActCycle := by omega
      rw [if_neg hout, if_pos hin.1] at hslots
      omega
    case isFalse hout =>
      split at hslots
      · have hin : start ≤ actCycle := by omega
        rw [if_pos hin] at hslots
        omega
      · omega

end Window

section Channel

variable {ch : Channel} {r : Request} {rank : ℕ}

/-- The ACTs of a rank in the commands of the channel. -/
abbrev rankActs (rank : ℕ) (ch : Channel) : List ℕ := activates Prod.fst rank ch.cmds

theorem activates_precharges (rank cycle : ℕ) (ids : List (ℕ × ℕ)) (cmds : List (Command (ℕ × ℕ))) :
    activates Prod.fst rank (ids.map (.precharge · cycle) ++ cmds) = activates Prod.fst rank cmds := by
  induction ids with
  | nil => rfl
  | cons id ids ih => exact ih

theorem rankActs_refresh (memCycle : ℕ) : rankActs rank (ch.refresh c memCycle) = rankActs rank ch :=
  activates_precharges ..

theorem rankActs_column (cmdCycle : ℕ) (closes : Bool) :
    rankActs rank (ch.column c r cmdCycle closes) = rankActs rank ch := by
  cases closes <;> rfl

theorem rankActs_activate : rankActs rank (ch.activate c r) =
    if r.loc.rank = rank then ch.actCycle c r :: rankActs rank ch else rankActs rank ch := by
  have hcmds : (ch.activate c r).cmds = .activate r.loc.bankId r.loc.row (ch.actCycle c r) ::
      ((if (ch.bankOf r).isOpen then [.precharge r.loc.bankId (ch.preCycle r)] else []) ++ ch.cmds) :=
    rfl
  rw [rankActs, hcmds]
  cases (ch.bankOf r).isOpen <;> rfl

/-- The ACTs after a request was served. -/
theorem rankActs_issue (curCycle : ℕ) (closes : Bool) :
    rankActs rank (ch.issue c r curCycle closes) =
      if r.loc.rank = rank ∧ ¬ch.RowHit r then ch.actCycle c r :: rankActs rank ch
      else rankActs rank ch := by
  unfold Channel.issue
  rw [rankActs_column]
  by_cases hhit : ch.RowHit r
  · rw [if_pos hhit, if_neg (fun h => h.2 hhit)]
  · rw [if_neg hhit, rankActs_activate]
    simp only [hhit, not_false_eq_true, and_true]

/-- The windows of all ranks account for their ACTs. -/
def Windowed (c : DDRConfig) (ch : Channel) : Prop :=
  ∀ rank, Covers c.toTiming (ch.rankActWindows rank) (rankActs rank ch)

/-- An ACT waits for the oldest one of its rank's window. -/
theorem minActCycle_le_actCycle :
    (ch.rankActWindows r.loc.rank).minActCycle + c.tFAW ≤ ch.actCycle c r :=
  le_max_right ..

theorem Windowed.issue (h : Windowed c ch) (curCycle : ℕ) (closes : Bool) :
    Windowed c (ch.issue c r curCycle closes) := by
  intro rank
  rw [rankActs_issue]
  unfold Channel.issue
  change Covers c.toTiming ((if ch.RowHit r then ch else ch.activate c r).rankActWindows rank) _
  by_cases hhit : ch.RowHit r
  · rw [if_pos hhit, if_neg (fun h => h.2 hhit)]
    exact h rank
  · rw [if_neg hhit]
    unfold Channel.activate
    dsimp only
    by_cases hrank : r.loc.rank = rank
    · rw [if_pos ⟨hrank, hhit⟩, ← hrank, Function.update_self]
      exact (h r.loc.rank).add minActCycle_le_actCycle
    · rw [if_neg (fun h => hrank h.1), Function.update_of_ne (Ne.symm hrank)]
      exact h rank

theorem Windowed.nextChannel {s : DDRMemory} (h : Windowed c s.chan) (x : Input) :
    Windowed c (nextChannel c s x) := by
  cases x with
  | access ev => exact h
  | sched e cycle =>
    unfold DDRFrames.nextChannel scheduled
    dsimp only
    split
    · split
      · exact h
      · exact h.issue _ _
    · exact h
  | refresh cycle =>
    intro rank
    have hacts := @rankActs_refresh c s.chan rank (c.sysToMemCycle cycle)
    change Covers c.toTiming (s.chan.rankActWindows rank)
      (rankActs rank (s.chan.refresh c (c.sysToMemCycle cycle)))
    rw [hacts]
    exact h rank

end Channel

section Spacing

/-- What the ACT of a request that is no row hit waits for in the state of the
channel: its arrival (with a PRE if the bank is open), the PRE, the last ACT of
the bank and the oldest ACT of the window. -/
def actConstraints (c : DDRConfig) (ch : Channel) (r : Request) : List ℕ :=
  [if (ch.bankOf r).isOpen then r.arrivalCycle + c.tRP else r.arrivalCycle,
    (ch.bankOf r).minPreCycle + c.tRP, (ch.bankOf r).lastActCycle + c.tRRD,
    (ch.rankActWindows r.loc.rank).minActCycle + c.tFAW]

/-- One of the constraints is `tRRD` after the earlier ACT, or all are `tRRD` before it. -/
def Apart (c : DDRConfig) (ch : Channel) (r : Request) (act : ℕ) : Prop :=
  (∃ k ∈ actConstraints c ch r, act + c.tRRD ≤ k) ∨ ∀ k ∈ actConstraints c ch r, k + c.tRRD ≤ act

end Spacing

section Assertion

variable (w : Bool) (id memCycle sysCycle : ℕ)

end Assertion

section Runs

end Runs

end Zsim.DDRActWindows
