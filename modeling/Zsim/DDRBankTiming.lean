import Zsim.DDRFrames
import Mathlib.Data.List.Nodup
import Mathlib.Tactic.Common

/-!
# The commands of the DDR memory model are legal

`minPreCycle` bounds the next PRE of an open bank and is the last PRE of a
closed one, and `minRespCycle` is the end of the last data burst. These readings
make every command that `trySchedule` and `refresh` record respect the timing
constraints, whatever the order in which their cycles are computed.
-/

namespace Zsim.DDRBankTiming

open WeakestPre Outcomes GuardedRuns DRAMCommands DDRChannel DDRController DDRFrames

variable {c : DDRConfig}

section Channel

variable {ch : Channel} {r : Request} {curCycle cmdCycle : ℕ} {closes : Bool}

/-- What the members of the channel say of the commands so far. -/
structure Timed (c : DDRConfig) (ch : Channel) : Prop where
  legal : Legal c.toTiming ch.cmds
  openRow : ∀ id, opened id ch.cmds =
    if (ch.banks id).isOpen then some ((ch.banks id).openRow, (ch.banks id).lastActCycle) else none
  pre : ∀ id pre, .precharge id pre ∈ ch.cmds → pre ≤ (ch.banks id).minPreCycle
  ref : ∀ ref, .refresh ref ∈ ch.cmds → ∀ id ∈ c.bankIds,
    ref + c.tRFC ≤ (ch.banks id).minPreCycle + c.tRP
  col : ∀ id row write col, .column id row write col ∈ ch.cmds →
    c.recovered write col ≤ (ch.banks id).minPreCycle
  burst : ∀ id row write col, .column id row write col ∈ ch.cmds → c.burstEnd col ≤ ch.minRespCycle
  turn : ∀ id row col, .column id row true col ∈ ch.cmds → ch.lastCmdWasWrite = false →
    c.burstEnd col + c.tWTR + c.tCL ≤ ch.minRespCycle
  lastCmd : ∀ id, c.burstEnd (ch.banks id).lastCmdCycle ≤ ch.minRespCycle
  inside : ∀ id, (ch.banks id).isOpen → id ∈ c.bankIds
  preInside : ∀ id pre, .precharge id pre ∈ ch.cmds → id ∈ c.bankIds

/-- The open row of the bank is ready for a column command, and its `tRAS` is
accounted for. -/
def Settled (c : DDRConfig) (bank : Bank) : Prop :=
  bank.isOpen → bank.lastActCycle + c.tRCD ≤ bank.lastCmdCycle ∧
    bank.lastActCycle + c.tRAS ≤ bank.minPreCycle

theorem minPreCycle_le_preCycle : (ch.bankOf r).minPreCycle ≤ ch.preCycle r := by
  unfold Channel.preCycle
  split <;> omega

/-- A bank with a row other than that of the request can be precharged at `preCycle`. -/
theorem Timed.precharge_allowed (h : Timed c ch) (hset : Settled c (ch.bankOf r))
    (hopen : (ch.bankOf r).isOpen = true) :
    Allowed c.toTiming ch.cmds (.precharge r.loc.bankId (ch.preCycle r)) := by
  have hpre := @minPreCycle_le_preCycle ch r
  constructor
  · refine ⟨(ch.bankOf r).openRow, (ch.bankOf r).lastActCycle, ?_, ?_⟩
    · rw [h.openRow]
      exact if_pos hopen
    · have hras := (hset hopen).2
      omega
  · intro row write col hcol
    have hrec : c.recovered write col ≤ (ch.bankOf r).minPreCycle := h.col _ row write col hcol
    omega

/-- The cycle of an ACT is after the PRE and the refreshes of its bank. -/
theorem preCycle_le_actCycle : ch.preCycle r + c.tRP ≤ ch.actCycle c r := by
  unfold Channel.actCycle
  omega

/-- The commands after an ACT. -/
theorem activate_cmds : (ch.activate c r).cmds =
    .activate r.loc.bankId r.loc.row (ch.actCycle c r) ::
      ((if (ch.bankOf r).isOpen then [.precharge r.loc.bankId (ch.preCycle r)] else []) ++ ch.cmds) :=
  rfl

theorem mem_activate {cmd : Command (ℕ × ℕ)} : cmd ∈ (ch.activate c r).cmds ↔
    cmd = .activate r.loc.bankId r.loc.row (ch.actCycle c r) ∨
      ((ch.bankOf r).isOpen ∧ cmd = .precharge r.loc.bankId (ch.preCycle r)) ∨ cmd ∈ ch.cmds := by
  rw [activate_cmds]
  cases hopen : (ch.bankOf r).isOpen <;> simp

/-- The banks after an ACT. -/
theorem activate_banks_of_ne {id : ℕ × ℕ} (hid : id ≠ r.loc.bankId) :
    (ch.activate c r).banks id = ch.banks id :=
  Function.update_of_ne hid ..

theorem activate_bank : (ch.activate c r).banks r.loc.bankId = { ch.bankOf r with
    isOpen := true
    openRow := r.loc.row
    minPreCycle := if (ch.bankOf r).isOpen then ch.preCycle r + c.tRAS else (ch.bankOf r).minPreCycle
    lastActCycle := ch.actCycle c r } :=
  Function.update_self ..

/-- An ACT does not lower the cycle of the next PRE. -/
theorem minPreCycle_le_activate (id : ℕ × ℕ) :
    (ch.banks id).minPreCycle ≤ ((ch.activate c r).banks id).minPreCycle := by
  by_cases hid : id = r.loc.bankId
  · have hpre := @minPreCycle_le_preCycle ch r
    have hsame : ch.banks id = ch.bankOf r := by rw [hid, Channel.bankOf]
    rw [hid, activate_bank, ← hid, hsame]
    dsimp only
    split <;> omega
  · rw [activate_banks_of_ne hid]

/-- The PRE and the ACT of a request that is no row hit are legal. -/
theorem Timed.activate_legal (h : Timed c ch) (hset : Settled c (ch.bankOf r))
    (hin : r.loc.bankId ∈ c.bankIds) : Legal c.toTiming (ch.activate c r).cmds := by
  have hact := @preCycle_le_actCycle c ch r
  have hpre := @minPreCycle_le_preCycle ch r
  have href : ∀ ref, .refresh ref ∈ ch.cmds → ref + c.tRFC ≤ ch.actCycle c r := by
    intro ref hmem
    have hle : ref + c.tRFC ≤ (ch.bankOf r).minPreCycle + c.tRP := h.ref ref hmem _ hin
    omega
  have hold : ∀ pre, .precharge r.loc.bankId pre ∈ ch.cmds → pre + c.tRP ≤ ch.actCycle c r := by
    intro pre hmem
    have hle : pre ≤ (ch.bankOf r).minPreCycle := h.pre _ pre hmem
    omega
  have hopened := h.openRow r.loc.bankId
  change opened r.loc.bankId ch.cmds = if (ch.bankOf r).isOpen then _ else none at hopened
  rw [activate_cmds]
  cases hopen : (ch.bankOf r).isOpen with
  | false =>
    rw [hopen] at hopened
    exact ⟨⟨hopened, hold, href⟩, h.legal⟩
  | true =>
    refine ⟨⟨if_pos rfl, ?_, ?_⟩, h.precharge_allowed hset hopen, h.legal⟩
    · intro pre hmem
      cases List.mem_cons.mp hmem with
      | inl heq =>
        cases heq
        exact hact
      | inr hmem => exact hold pre hmem
    · intro ref hmem
      exact href ref ((List.mem_cons.mp hmem).resolve_left fun heq => nomatch heq)

/-- The open rows after an ACT. -/
theorem opened_activate (id : ℕ × ℕ) : opened id (ch.activate c r).cmds =
    if r.loc.bankId = id then some (r.loc.row, ch.actCycle c r) else opened id ch.cmds := by
  rw [activate_cmds]
  cases (ch.bankOf r).isOpen with
  | false => rfl
  | true =>
    simp only [if_true, List.cons_append, List.nil_append, opened]
    split <;> rfl

theorem Timed.activate (h : Timed c ch) (hset : Settled c (ch.bankOf r))
    (hin : r.loc.bankId ∈ c.bankIds) : Timed c (ch.activate c r) where
  legal := h.activate_legal hset hin
  openRow := by
    intro id
    rw [opened_activate]
    by_cases hid : r.loc.bankId = id
    · rw [if_pos hid, ← hid, activate_bank]
      rfl
    · rw [if_neg hid, activate_banks_of_ne (Ne.symm hid)]
      exact h.openRow id
  pre := by
    intro id pre hmem
    rcases mem_activate.mp hmem with heq | ⟨hopen, heq⟩ | hmem
    · cases heq
    · cases heq
      rw [activate_bank, if_pos hopen]
      exact Nat.le_add_right ..
    · exact (h.pre id pre hmem).trans (minPreCycle_le_activate id)
  ref := by
    intro ref hmem id hid
    rcases mem_activate.mp hmem with heq | ⟨-, heq⟩ | hmem
    · cases heq
    · cases heq
    · have hle := h.ref ref hmem id hid
      have hmono := @minPreCycle_le_activate c ch r id
      omega
  col := by
    intro id row write col hmem
    rcases mem_activate.mp hmem with heq | ⟨-, heq⟩ | hmem
    · cases heq
    · cases heq
    · exact (h.col id row write col hmem).trans (minPreCycle_le_activate id)
  burst := by
    intro id row write col hmem
    rcases mem_activate.mp hmem with heq | ⟨-, heq⟩ | hmem
    · cases heq
    · cases heq
    · exact h.burst id row write col hmem
  turn := by
    intro id row col hmem
    rcases mem_activate.mp hmem with heq | ⟨-, heq⟩ | hmem
    · cases heq
    · cases heq
    · exact h.turn id row col hmem
  lastCmd := by
    intro id
    by_cases hid : id = r.loc.bankId
    · rw [hid, activate_bank]
      exact h.lastCmd r.loc.bankId
    · rw [activate_banks_of_ne hid]
      exact h.lastCmd id
  inside := by
    intro id hopen
    by_cases hid : id = r.loc.bankId
    · rw [hid]
      exact hin
    · rw [activate_banks_of_ne hid] at hopen
      exact h.inside id hopen
  preInside := by
    intro id pre hmem
    rcases mem_activate.mp hmem with heq | ⟨-, heq⟩ | hmem
    · cases heq
    · cases heq
      exact hin
    · exact h.preInside id pre hmem

/-- The commands after a column command. -/
theorem column_cmds : (ch.column c r cmdCycle closes).cmds =
    (if closes then [.precharge r.loc.bankId
      ((ch.column c r cmdCycle closes).banks r.loc.bankId).minPreCycle] else []) ++
      .column r.loc.bankId r.loc.row r.write cmdCycle :: ch.cmds := by
  unfold Channel.column
  dsimp only
  rw [Function.update_self]

theorem column_banks_of_ne {id : ℕ × ℕ} (hid : id ≠ r.loc.bankId) :
    (ch.column c r cmdCycle closes).banks id = ch.banks id :=
  Function.update_of_ne hid ..

theorem column_bank : (ch.column c r cmdCycle closes).banks r.loc.bankId = { ch.bankOf r with
    isOpen := if closes then false else (ch.bankOf r).isOpen
    minPreCycle := max (ch.bankOf r).minPreCycle (max ((ch.bankOf r).lastActCycle + c.tRAS)
      (if r.write then cmdCycle + c.tCL + c.tBL + c.tWR else cmdCycle + c.tRTP))
    lastCmdCycle := cmdCycle
    curRowHits := r.rowHitSeq } :=
  Function.update_self ..

theorem mem_column {cmd : Command (ℕ × ℕ)} : cmd ∈ (ch.column c r cmdCycle closes).cmds ↔
    (closes ∧ cmd = .precharge r.loc.bankId
      ((ch.column c r cmdCycle closes).banks r.loc.bankId).minPreCycle) ∨
      cmd = .column r.loc.bankId r.loc.row r.write cmdCycle ∨ cmd ∈ ch.cmds := by
  rw [column_cmds]
  cases closes <;> simp

/-- The PRE of the bank waits for its ACT and all its column commands. -/
theorem recovered_le_column : (ch.bankOf r).lastActCycle + c.tRAS ≤
      ((ch.column c r cmdCycle closes).banks r.loc.bankId).minPreCycle ∧
    c.recovered r.write cmdCycle ≤
      ((ch.column c r cmdCycle closes).banks r.loc.bankId).minPreCycle := by
  rw [column_bank]
  dsimp only [Timing.recovered, Timing.burstEnd]
  constructor
  · omega
  · cases r.write <;> simp

/-- A column command does not lower the cycle of the next PRE. -/
theorem minPreCycle_le_column (id : ℕ × ℕ) :
    (ch.banks id).minPreCycle ≤ ((ch.column c r cmdCycle closes).banks id).minPreCycle := by
  by_cases hid : id = r.loc.bankId
  · rw [hid, column_bank]
    exact le_max_left ..
  · rw [column_banks_of_ne hid]

/-- The column command can follow the commands of the channel. -/
structure Fits (c : DDRConfig) (ch : Channel) (r : Request) (cmdCycle : ℕ) : Prop where
  isOpen : (ch.bankOf r).isOpen = true
  openRow : (ch.bankOf r).openRow = r.loc.row
  tRCD : (ch.bankOf r).lastActCycle + c.tRCD ≤ cmdCycle
  bus : ch.minRespCycle ≤ cmdCycle + c.tCL
  tWTR : ch.lastCmdWasWrite = true → r.write = false → ch.minRespCycle + c.tWTR ≤ cmdCycle

/-- A read waits for all writes, also for those before the last command. -/
theorem Timed.turnaround (h : Timed c ch) (hfit : Fits c ch r cmdCycle) {id : ℕ × ℕ} {row col : ℕ}
    (hcol : .column id row true col ∈ ch.cmds) (hread : r.write = false) :
    c.burstEnd col + c.tWTR ≤ cmdCycle := by
  cases hlast : ch.lastCmdWasWrite with
  | true =>
    have hburst := h.burst id row true col hcol
    have hwtr := hfit.tWTR hlast hread
    omega
  | false =>
    have hturn := h.turn id row col hcol hlast
    have hbus := hfit.bus
    omega

theorem Timed.column_allowed (h : Timed c ch) (hfit : Fits c ch r cmdCycle) :
    Allowed c.toTiming ch.cmds (.column r.loc.bankId r.loc.row r.write cmdCycle) := by
  constructor
  · refine ⟨(ch.bankOf r).lastActCycle, ?_, hfit.tRCD⟩
    rw [h.openRow, ← hfit.openRow]
    exact if_pos hfit.isOpen
  · intro id row write col hcol
    constructor
    · exact (h.burst id row write col hcol).trans hfit.bus
    · intro hwrite hread
      rw [hwrite] at hcol
      exact h.turnaround hfit hcol hread

theorem Timed.column_legal (h : Timed c ch) (hfit : Fits c ch r cmdCycle) :
    Legal c.toTiming (ch.column c r cmdCycle closes).cmds := by
  have hrec := @recovered_le_column c ch r cmdCycle closes
  have hmono := @minPreCycle_le_column c ch r cmdCycle closes r.loc.bankId
  have hcol := h.column_allowed hfit
  rw [column_cmds]
  cases closes with
  | false => exact ⟨hcol, h.legal⟩
  | true =>
    refine ⟨⟨⟨r.loc.row, (ch.bankOf r).lastActCycle, ?_, hrec.1⟩, ?_⟩, hcol, h.legal⟩
    · have hopen := h.openRow r.loc.bankId
      rw [← Channel.bankOf, if_pos hfit.isOpen, hfit.openRow] at hopen
      exact hopen
    · intro row write col hmem
      cases List.mem_cons.mp hmem with
      | inl heq =>
        cases heq
        exact hrec.2
      | inr hmem => exact (h.col _ row write col hmem).trans hmono

/-- The open rows after a column command. -/
theorem opened_column (id : ℕ × ℕ) : opened id (ch.column c r cmdCycle closes).cmds =
    if closes ∧ r.loc.bankId = id then none else opened id ch.cmds := by
  rw [column_cmds]
  cases closes with
  | false =>
    simp only [Bool.false_eq_true, false_and, if_false, List.nil_append, opened]
  | true =>
    simp only [if_true, List.cons_append, List.nil_append, opened, true_and]

theorem Timed.column (h : Timed c ch) (hfit : Fits c ch r cmdCycle) :
    Timed c (ch.column c r cmdCycle closes) := by
  have hbus := hfit.bus
  have hresp : (ch.column c r cmdCycle closes).minRespCycle = c.burstEnd cmdCycle := rfl
  have hend : ch.minRespCycle ≤ c.burstEnd cmdCycle := by
    unfold Timing.burstEnd
    omega
  constructor
  case legal => exact h.column_legal hfit
  case openRow =>
    intro id
    rw [opened_column]
    by_cases hid : r.loc.bankId = id
    · have hopen := h.openRow id
      rw [← hid, column_bank]
      cases closes with
      | true => simp
      | false =>
        rw [← hid] at hopen
        simp only [Bool.false_eq_true, false_and, if_false]
        exact hopen
    · rw [if_neg fun hc => hid hc.2, column_banks_of_ne (Ne.symm hid)]
      exact h.openRow id
  case pre =>
    intro id pre hmem
    rcases mem_column.mp hmem with ⟨-, heq⟩ | heq | hmem
    · cases heq
      exact le_rfl
    · cases heq
    · exact (h.pre id pre hmem).trans (minPreCycle_le_column id)
  case ref =>
    intro ref hmem id hid
    rcases mem_column.mp hmem with ⟨-, heq⟩ | heq | hmem
    · cases heq
    · cases heq
    · have hle := h.ref ref hmem id hid
      have hmono := @minPreCycle_le_column c ch r cmdCycle closes id
      omega
  case col =>
    intro id row write col hmem
    rcases mem_column.mp hmem with ⟨-, heq⟩ | heq | hmem
    · cases heq
    · cases heq
      exact recovered_le_column.2
    · exact (h.col id row write col hmem).trans (minPreCycle_le_column id)
  case burst =>
    intro id row write col hmem
    rcases mem_column.mp hmem with ⟨-, heq⟩ | heq | hmem
    · cases heq
    · cases heq
      exact le_rfl
    · exact (h.burst id row write col hmem).trans hend
  case turn =>
    intro id row col hmem hlast
    rcases mem_column.mp hmem with ⟨-, heq⟩ | heq | hmem
    · cases heq
    · -- the last command is no write
      change r.write = false at hlast
      rw [hlast] at heq
      cases heq
    · have hwtr := h.turnaround hfit hmem hlast
      rw [hresp]
      unfold Timing.burstEnd at hwtr ⊢
      omega
  case lastCmd =>
    intro id
    rw [hresp]
    by_cases hid : id = r.loc.bankId
    · rw [hid, column_bank]
    · rw [column_banks_of_ne hid]
      exact (h.lastCmd id).trans hend
  case inside =>
    intro id hopen
    by_cases hid : id = r.loc.bankId
    · rw [hid]
      exact h.inside _ hfit.isOpen
    · rw [column_banks_of_ne hid] at hopen
      exact h.inside id hopen
  case preInside =>
    intro id pre hmem
    rcases mem_column.mp hmem with ⟨-, heq⟩ | heq | hmem
    · cases heq
      exact h.inside _ hfit.isOpen
    · cases heq
    · exact h.preInside id pre hmem

/-- After its column command the bank is settled. -/
theorem settled_column (hfit : Fits c ch r cmdCycle) :
    Settled c ((ch.column c r cmdCycle closes).banks r.loc.bankId) := by
  have hrec := @recovered_le_column c ch r cmdCycle closes
  intro _
  refine ⟨?_, ?_⟩
  · rw [column_bank]
    exact hfit.tRCD
  · refine le_trans ?_ hrec.1
    rw [column_bank]

/-- The data bus is free at the cycle of the command, and turned around for a read. -/
theorem cmdCycle_spec : ch.minRespCycle ≤ ch.cmdCycle c r curCycle + c.tCL ∧
    (ch.lastCmdWasWrite = true → r.write = false →
      ch.minRespCycle + c.tWTR ≤ ch.cmdCycle c r curCycle) ∧
    (¬ch.RowHit r → ch.actCycle c r + c.tRCD ≤ ch.cmdCycle c r curCycle) := by
  unfold Channel.cmdCycle
  dsimp only
  refine ⟨by omega, ?_, ?_⟩
  · intro hlast hread
    have hbus : ch.minRespCycle + c.tWTR ≤ ch.minBusCycle c r curCycle := by
      unfold Channel.minBusCycle
      rw [hlast, hread]
      exact le_max_right ..
    split <;> omega
  · intro hmiss
    rw [if_neg hmiss]
    omega

/-- The column command of a row hit fits without an ACT. -/
theorem Timed.fits_of_rowHit (h : Timed c ch) (hset : Settled c (ch.bankOf r)) (hhit : ch.RowHit r) :
    Fits c ch r (ch.cmdCycle c r curCycle) := by
  obtain ⟨hbus, hwtr, -⟩ := @cmdCycle_spec c ch r curCycle
  have hready := (hset hhit.2).1
  have hlast : c.burstEnd (ch.bankOf r).lastCmdCycle ≤ ch.minRespCycle := h.lastCmd _
  unfold Timing.burstEnd at hlast
  exact ⟨hhit.2, hhit.1.symm, by omega, hbus, hwtr⟩

/-- That of another request fits after its ACT. -/
theorem fits_of_activate (hmiss : ¬ch.RowHit r) :
    Fits c (ch.activate c r) r (ch.cmdCycle c r curCycle) := by
  obtain ⟨hbus, hwtr, hact⟩ := @cmdCycle_spec c ch r curCycle
  have hbank : (ch.activate c r).bankOf r = _ := activate_bank
  refine ⟨?_, ?_, ?_, hbus, hwtr⟩
  · rw [hbank]
  · rw [hbank]
  · rw [hbank]
    exact hact hmiss

/-- What `trySchedule` records keeps the reading of the channel. -/
theorem Timed.issue (h : Timed c ch) (hset : ∀ id, Settled c (ch.banks id))
    (hin : r.loc.bankId ∈ c.bankIds) : Timed c (ch.issue c r curCycle closes) ∧
      ∀ id, Settled c ((ch.issue c r curCycle closes).banks id) := by
  unfold Channel.issue
  split
  case isTrue hhit =>
    have hfit := @Timed.fits_of_rowHit c ch r curCycle h (hset _) hhit
    refine ⟨h.column hfit, fun id => ?_⟩
    by_cases hid : id = r.loc.bankId
    · rw [hid]
      exact settled_column hfit
    · rw [column_banks_of_ne hid]
      exact hset id
  case isFalse hmiss =>
    have hfit := @fits_of_activate c ch r curCycle hmiss
    refine ⟨(h.activate (hset _) hin).column hfit, fun id => ?_⟩
    by_cases hid : id = r.loc.bankId
    · rw [hid]
      exact settled_column hfit
    · rw [column_banks_of_ne hid, activate_banks_of_ne hid]
      exact hset id

/-- The refresh waits for the PREs of all banks. -/
theorem le_foldl_max {α : Type} (f : α → ℕ) (xs : List α) (start : ℕ) :
    start ≤ xs.foldl (fun cycle x => max cycle (f x)) start ∧
      ∀ x ∈ xs, f x ≤ xs.foldl (fun cycle x => max cycle (f x)) start := by
  induction xs generalizing start with
  | nil => exact ⟨le_rfl, fun x hx => nomatch hx⟩
  | cons y ys ih =>
    obtain ⟨hstart, hall⟩ := ih (max start (f y))
    rw [List.foldl_cons]
    refine ⟨by omega, fun x hx => ?_⟩
    cases List.mem_cons.mp hx with
    | inl heq =>
      rw [heq]
      omega
    | inr hmem => exact hall x hmem

theorem minPreCycle_le_minRefreshCycle {memCycle : ℕ} {id : ℕ × ℕ} (hid : id ∈ c.bankIds) :
    (ch.banks id).minPreCycle ≤ ch.minRefreshCycle c memCycle :=
  (le_max_left _ (ch.banks id).lastCmdCycle).trans ((le_foldl_max
    (fun id => max (ch.banks id).minPreCycle (ch.banks id).lastCmdCycle) c.bankIds memCycle).2 id hid)

/-- The PREs of the refresh close the banks of the list and are legal. -/
theorem Timed.precharges (h : Timed c ch) (hset : ∀ id, Settled c (ch.banks id)) {cycle : ℕ}
    {ids : List (ℕ × ℕ)} (hnodup : ids.Nodup) (hopen : ∀ id ∈ ids, (ch.banks id).isOpen = true)
    (hle : ∀ id ∈ ids, (ch.banks id).minPreCycle ≤ cycle) :
    Legal c.toTiming (ids.map (.precharge · cycle) ++ ch.cmds) ∧
      ∀ id, opened id (ids.map (.precharge · cycle) ++ ch.cmds) =
        if id ∈ ids then none else opened id ch.cmds := by
  induction ids with
  | nil => exact ⟨h.legal, fun id => rfl⟩
  | cons x ids ih =>
    obtain ⟨hx, hnodup⟩ := List.nodup_cons.mp hnodup
    obtain ⟨hlegal, hopened⟩ := ih hnodup (fun id hid => hopen id (List.mem_cons_of_mem x hid))
      (fun id hid => hle id (List.mem_cons_of_mem x hid))
    have hxopen := hopen x List.mem_cons_self
    have hxle := hle x List.mem_cons_self
    constructor
    · refine ⟨⟨⟨(ch.banks x).openRow, (ch.banks x).lastActCycle, ?_, ?_⟩, ?_⟩, hlegal⟩
      · have hclosed := hopened x
        rw [if_neg hx, h.openRow, if_pos hxopen] at hclosed
        exact hclosed
      · exact ((hset x hxopen).2).trans hxle
      · intro row write col hmem
        cases List.mem_append.mp hmem with
        | inl hpre =>
          obtain ⟨id, -, heq⟩ := List.mem_map.mp hpre
          cases heq
        | inr hmem => exact (h.col x row write col hmem).trans hxle
    · intro id
      change (if x = id then none else opened id (ids.map (.precharge · cycle) ++ ch.cmds)) = _
      rw [hopened, eq_comm]
      by_cases hid : x = id
      · rw [if_pos hid, if_pos (hid ▸ List.mem_cons_self)]
      · rw [if_neg hid]
        have hiff : id ∈ x :: ids ↔ id ∈ ids :=
          ⟨fun hmem => (List.mem_cons.mp hmem).resolve_left (Ne.symm hid), List.mem_cons_of_mem x⟩
        simp only [hiff]

/-- The commands after a refresh. -/
theorem mem_refresh {cmd : Command (ℕ × ℕ)} {memCycle : ℕ} :
    cmd ∈ (ch.refresh c memCycle).cmds ↔ cmd = .refresh (ch.minRefreshCycle c memCycle) ∨
      (∃ id ∈ c.bankIds, (ch.banks id).isOpen ∧
        cmd = .precharge id (ch.minRefreshCycle c memCycle)) ∨ cmd ∈ ch.cmds := by
  unfold Channel.refresh
  simp only [List.mem_cons, List.mem_append, List.mem_map, List.mem_filter]
  constructor
  · rintro (heq | ⟨id, ⟨hid, hopen⟩, heq⟩ | hmem)
    · exact .inl heq
    · exact .inr (.inl ⟨id, hid, hopen, heq.symm⟩)
    · exact .inr (.inr hmem)
  · rintro (heq | ⟨id, hid, hopen, heq⟩ | hmem)
    · exact .inl heq
    · exact .inr (.inl ⟨id, ⟨hid, hopen⟩, heq.symm⟩)
    · exact .inr (.inr hmem)

theorem refresh_banks {id : ℕ × ℕ} {memCycle : ℕ} (hid : id ∈ c.bankIds) :
    (ch.refresh c memCycle).banks id = { ch.banks id with
      minPreCycle := ch.minRefreshCycle c memCycle + c.tRFC - c.tRP
      isOpen := false } :=
  if_pos hid

theorem refresh_banks_of_notMem {id : ℕ × ℕ} {memCycle : ℕ} (hid : id ∉ c.bankIds) :
    (ch.refresh c memCycle).banks id = ch.banks id :=
  if_neg hid

/-- After a refresh no bank is open. -/
theorem Timed.refresh_closed (h : Timed c ch) (memCycle : ℕ) (id : ℕ × ℕ) :
    ((ch.refresh c memCycle).banks id).isOpen = false := by
  by_cases hid : id ∈ c.bankIds
  · rw [refresh_banks hid]
  · rw [refresh_banks_of_notMem hid, Bool.eq_false_iff]
    exact fun hopen => hid (h.inside id hopen)

/-- A refresh does not lower the cycle of the next PRE. -/
theorem minPreCycle_le_refresh (hrfc : c.tRP ≤ c.tRFC) (memCycle : ℕ) (id : ℕ × ℕ) :
    (ch.banks id).minPreCycle ≤ ((ch.refresh c memCycle).banks id).minPreCycle := by
  by_cases hid : id ∈ c.bankIds
  · have hle := @minPreCycle_le_minRefreshCycle c ch memCycle id hid
    rw [refresh_banks hid]
    dsimp only
    omega
  · rw [refresh_banks_of_notMem hid]

/-- The refresh is legal, with all rows closed. -/
theorem Timed.refresh_legal (h : Timed c ch) (hset : ∀ id, Settled c (ch.banks id)) (memCycle : ℕ) :
    Legal c.toTiming (ch.refresh c memCycle).cmds ∧
      ∀ id, opened id (ch.refresh c memCycle).cmds = none := by
  have hnodup : c.bankIds.Nodup := List.Nodup.product List.nodup_range List.nodup_range
  obtain ⟨hlegal, hopened⟩ := h.precharges hset
    (hnodup.filter fun id => (ch.banks id).isOpen) (fun id hid => (List.mem_filter.mp hid).2)
    (fun id hid => @minPreCycle_le_minRefreshCycle c ch memCycle id (List.mem_filter.mp hid).1)
  have hclosed : ∀ id, opened id ((c.bankIds.filter fun id => (ch.banks id).isOpen).map
      (.precharge · (ch.minRefreshCycle c memCycle)) ++ ch.cmds) = none := by
    intro id
    rw [hopened]
    split
    · rfl
    case isFalse hid =>
      rw [h.openRow]
      refine if_neg fun hopen => hid ?_
      exact List.mem_filter.mpr ⟨h.inside id hopen, hopen⟩
  refine ⟨⟨⟨hclosed, ?_⟩, hlegal⟩, hclosed⟩
  intro id pre hmem
  cases List.mem_append.mp hmem with
  | inl hpre =>
    obtain ⟨id', -, heq⟩ := List.mem_map.mp hpre
    cases heq
    exact le_rfl
  | inr hmem =>
    exact (h.pre id pre hmem).trans (minPreCycle_le_minRefreshCycle (h.preInside id pre hmem))

/-- A refresh keeps the reading of the channel. -/
theorem Timed.refresh (h : Timed c ch) (hset : ∀ id, Settled c (ch.banks id))
    (hrfc : c.tRP ≤ c.tRFC) (memCycle : ℕ) : Timed c (ch.refresh c memCycle) ∧
      ∀ id, Settled c ((ch.refresh c memCycle).banks id) := by
  have hclosed := h.refresh_closed memCycle
  have hmono := @minPreCycle_le_refresh c ch hrfc memCycle
  obtain ⟨hlegal, hopened⟩ := h.refresh_legal hset memCycle
  have hcol : ∀ id row write col, .column id row write col ∈ (ch.refresh c memCycle).cmds →
      .column id row write col ∈ ch.cmds := by
    intro id row write col hmem
    rcases mem_refresh.mp hmem with heq | ⟨_, -, -, heq⟩ | hmem
    · cases heq
    · cases heq
    · exact hmem
  constructor
  · constructor
    case legal => exact hlegal
    case openRow =>
      intro id
      rw [hopened, hclosed]
      rfl
    case pre =>
      intro id pre hmem
      rcases mem_refresh.mp hmem with heq | ⟨_, hid, -, heq⟩ | hmem
      · cases heq
      · cases heq
        rw [refresh_banks hid]
        dsimp only
        omega
      · exact (h.pre id pre hmem).trans (hmono id)
    case ref =>
      intro ref hmem id hid
      have hle := @minPreCycle_le_minRefreshCycle c ch memCycle id hid
      rw [refresh_banks hid]
      dsimp only
      rcases mem_refresh.mp hmem with heq | ⟨_, -, -, heq⟩ | hmem
      · cases heq
        omega
      · cases heq
      · have hold := h.ref ref hmem id hid
        omega
    case col =>
      intro id row write col hmem
      exact (h.col id row write col (hcol id row write col hmem)).trans (hmono id)
    case burst =>
      intro id row write col hmem
      exact h.burst id row write col (hcol id row write col hmem)
    case turn =>
      intro id row col hmem
      exact h.turn id row col (hcol id row true col hmem)
    case lastCmd =>
      intro id
      by_cases hid : id ∈ c.bankIds
      · rw [refresh_banks hid]
        exact h.lastCmd id
      · rw [refresh_banks_of_notMem hid]
        exact h.lastCmd id
    case inside =>
      intro id hopen
      rw [hclosed] at hopen
      cases hopen
    case preInside =>
      intro id pre hmem
      rcases mem_refresh.mp hmem with heq | ⟨_, hid, -, heq⟩ | hmem
      · cases heq
      · cases heq
        exact hid
      · exact h.preInside id pre hmem
  · intro id hopen
    rw [hclosed] at hopen
    cases hopen

/-- The reading holds of a new channel. -/
theorem timed_new (lastCmdWasWrite : Bool) : Timed c (.new c lastCmdWasWrite) ∧
    ∀ id, Settled c ((Channel.new c lastCmdWasWrite).banks id) := by
  constructor
  · constructor
    case legal => exact trivial
    case openRow => exact fun id => rfl
    case lastCmd =>
      intro id
      simp only [Channel.new, Timing.burstEnd]
      omega
    case inside => exact fun id hopen => nomatch hopen
    all_goals
      intros
      contradiction
  · exact fun id hopen => nomatch hopen

end Channel

section Runs

/-- The address of the request is mapped to a bank of the channel. -/
def Mapped (c : DDRConfig) (r : Request) : Prop := r.loc.bankId ∈ c.bankIds

/-- The reading of the channel in a state of the controller. -/
structure Reading (c : DDRConfig) (s : DDRMemory) : Prop where
  timed : Timed c s.chan
  settled : ∀ id, Settled c (s.chan.banks id)
  mapped : AllReqs (Mapped c) (queuesOf s)

theorem reading_new (lastCmdWasWrite : Bool) : Reading c (.new c lastCmdWasWrite) where
  timed := (timed_new lastCmdWasWrite).1
  settled := (timed_new lastCmdWasWrite).2
  mapped := ⟨fun _ _ hid => (nomatch hid), fun _ hr => (nomatch hr)⟩

theorem Reading.nextChannel {s : DDRMemory} (h : Reading c s) (hrfc : c.tRP ≤ c.tRFC) (x : Input) :
    Timed c (nextChannel c s x) ∧ ∀ id, Settled c ((nextChannel c s x).banks id) := by
  cases x with
  | access ev => exact ⟨h.timed, h.settled⟩
  | refresh cycle => exact h.timed.refresh h.settled hrfc _
  | sched e cycle =>
    unfold DDRFrames.nextChannel
    dsimp only
    split
    · unfold scheduled
      split
      · exact ⟨h.timed, h.settled⟩
      case h_2 w id hpick => exact h.timed.issue h.settled (h.mapped.1 w id (picked_mem hpick))
    · exact ⟨h.timed, h.settled⟩

theorem Reading.step {s s' : DDRMemory} {x : Input} (h : Reading c s) (hrfc : c.tRP ≤ c.tRFC)
    (hs : step c s x = some s') : Reading c s' := by
  have hchan := of_step (chan_perform s x) hs
  have hstable : Stable (Mapped c) := fun r _ _ hr => hr
  have hmapped := of_step (allReqs_perform hstable (fun ev _ hin => hin) h.mapped) hs
  obtain ⟨htimed, hsettled⟩ := h.nextChannel hrfc x
  rw [← hchan] at htimed hsettled
  exact ⟨htimed, hsettled, hmapped⟩

/-- In every run the commands on each bank and the bursts on the data bus are
legal, and the ACTs of a bank are `tRAS + tRP` apart. -/
theorem commands_legal (hrfc : c.tRP ≤ c.tRFC) (lastCmdWasWrite : Bool) {xs : List Input}
    {s : DDRMemory} (hrun : run (step c) (.new c lastCmdWasWrite) xs = some s) :
    Legal c.toTiming s.chan.cmds ∧ BankSpaced c.toTiming s.chan.cmds := by
  have hread : Reading c s :=
    run_invariant (fun s x s' h hs => h.step hrfc hs) (reading_new lastCmdWasWrite) hrun
  exact ⟨hread.timed.legal, hread.timed.legal.bankSpaced⟩

/-- A read, a write of another row of the same bank, and a refresh before the
write is issued. -/
def conflict : List Input := [
  .access ⟨0, 0, false, 100⟩,
  .access ⟨1, 256, true, 101⟩,
  .sched 0 130,
  .sched 0 142,
  .refresh 200,
  .sched 0 232,
  .sched 0 451]

/-- The refresh moves the ACT of the write. -/
theorem conflict_legal : ∃ s, run (step twoBanks) (.new twoBanks false) conflict = some s ∧
    s.chan.cmds = [.column (0, 0) 1 true 151, .activate (0, 0) 1 141, .refresh 67,
      .precharge (0, 0) 67, .column (0, 0) 0 false 44, .activate (0, 0) 0 34] ∧
    Legal twoBanks.toTiming s.chan.cmds ∧ BankSpaced twoBanks.toTiming s.chan.cmds := by
  have hcmds : (run (step twoBanks) (.new twoBanks false) conflict).map (fun s => s.chan.cmds) =
      some [.column (0, 0) 1 true 151, .activate (0, 0) 1 141, .refresh 67,
        .precharge (0, 0) 67, .column (0, 0) 0 false 44, .activate (0, 0) 0 34] := by decide +kernel
  obtain ⟨s, hrun, hs⟩ := Option.map_eq_some_iff.mp hcmds
  exact ⟨s, hrun, hs, commands_legal (by decide) false hrun⟩

end Runs

end Zsim.DDRBankTiming
