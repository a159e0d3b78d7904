import Zsim.GuardedRuns
import Zsim.TableCounts

/-!
# Fast-forward counters

Two global counters tell how many processes are in fast-forward and how many of
them are in synced fast-forward, for which the end of a phase waits. A process
of mode `Multiprocess` is synced while there is more than one process, and the
question is asked anew at each entry and exit; the counters stay balanced as
long as no entry has been answered otherwise than its exit will be.
-/

namespace Zsim.FastForward

open GuardedRuns TableCounts

/-- `SyncedFastForwardMode`. -/
inductive SyncedFastForwardMode where
  | always
  | multiprocess
  | never
  deriving DecidableEq

/-- `ProcExitStatus`. -/
inductive ProcExitStatus where
  | running
  | restartme
  | exited
  deriving DecidableEq

/-- What `ProcessTreeNode` needs for its counters; a child is its `procIdx`. -/
structure ProcessTreeNode where
  children : List ℕ
  curChildren : ℕ
  started : Bool
  inFastForward : Bool
  restartsLeft : ℕ
  syncedFastForward : SyncedFastForwardMode

/-- The part of `zinfo` that the processes share. -/
structure Globals where
  procArray : ℕ → ProcessTreeNode
  procExited : ℕ → ProcExitStatus
  numProcs : ℕ
  lineSize : ℕ
  globalActiveProcs : ℕ
  globalSyncedFFProcs : ℕ
  globalFFProcs : ℕ

/-- `__sync_fetch_and_add(&counter, 1)` on 32 bits. -/
def increment (counter : ℕ) : ℕ := (counter + 1) % 2 ^ 32

/-- `__sync_fetch_and_sub(&counter, 1)` on 32 bits. -/
def decrement (counter : ℕ) : ℕ := (counter + (2 ^ 32 - 1)) % 2 ^ 32

namespace Globals

/-- `CreateProcessTree`, for the nodes of a configuration. -/
def init (nodes : ℕ → ProcessTreeNode) (numProcs lineSize : ℕ) : Globals where
  procArray p := { nodes p with curChildren := 0, started := false }
  procExited _ := .running
  numProcs := numProcs
  lineSize := lineSize
  globalActiveProcs := 0
  globalSyncedFFProcs := 0
  globalFFProcs := 0

/-- `getSyncedFastForward`. -/
def getSyncedFastForward (s : Globals) (p : ℕ) : Bool :=
  (s.procArray p).syncedFastForward = .always ∨
    (s.procArray p).syncedFastForward = .multiprocess ∧ 1 < s.numProcs

/-- Replace one node. -/
def setNode (s : Globals) (p : ℕ) (node : ProcessTreeNode) : Globals :=
  { s with procArray := Function.update s.procArray p node }

/-- The increments of an entry. -/
def countEntry (s : Globals) (p : ℕ) : Globals :=
  { s with
    globalSyncedFFProcs := if s.getSyncedFastForward p then increment s.globalSyncedFFProcs
      else s.globalSyncedFFProcs
    globalFFProcs := increment s.globalFFProcs }

/-- The decrements of an exit. -/
def countExit (s : Globals) (p : ℕ) : Globals :=
  { s with
    globalSyncedFFProcs := if s.getSyncedFastForward p then decrement s.globalSyncedFFProcs
      else s.globalSyncedFFProcs
    globalFFProcs := decrement s.globalFFProcs }

/-- `notifyStart`; none where it panics or an assertion fails. -/
def notifyStart (s : Globals) (p : ℕ) : Option Globals :=
  if (s.procArray p).started = false then
    if (p = 0 ↔ s.globalActiveProcs = 0) then
      let s := { s with globalActiveProcs := increment s.globalActiveProcs }
      let s := if (s.procArray p).inFastForward then s.countEntry p else s
      some (s.setNode p { s.procArray p with started := true })
    else none
  else some s

/-- `enterFastForward`. -/
def enterFastForward (s : Globals) (p : ℕ) : Option Globals :=
  if (s.procArray p).inFastForward = false then
    some ((s.setNode p { s.procArray p with inFastForward := true }).countEntry p)
  else none

/-- `exitFastForward`. -/
def exitFastForward (s : Globals) (p : ℕ) : Option Globals :=
  if (s.procArray p).inFastForward = true then
    some ((s.setNode p { s.procArray p with inFastForward := false }).countExit p)
  else none

/-- The end of a process that has left fast-forward. -/
def finish (s : Globals) (p : ℕ) (terminationConditionMet : Bool) : Option Globals :=
  if s.procExited p = .running then
    if (s.procArray p).restartsLeft ≠ 0 ∧ terminationConditionMet = false then
      some { s.setNode p { s.procArray p with restartsLeft := (s.procArray p).restartsLeft - 1 } with
        procExited := Function.update s.procExited p .restartme }
    else some { s with
      procExited := Function.update s.procExited p .exited
      globalActiveProcs := decrement s.globalActiveProcs }
  else none

/-- `notifyEnd`. -/
def notifyEnd (s : Globals) (p : ℕ) (terminationConditionMet : Bool) : Option Globals :=
  if (s.procArray p).inFastForward = true then
    (s.exitFastForward p).bind fun s => s.finish p terminationConditionMet
  else s.finish p terminationConditionMet

/-- The harness launches a process again that ended with restarts left. -/
def restart (s : Globals) (p : ℕ) : Option Globals :=
  if s.procExited p = .restartme then
    some { s with procExited := Function.update s.procExited p .running }
  else none

/-- The new child of `getNextChild`: a copy of the node that has not started. -/
def addChild (s : Globals) (p : ℕ) : Option Globals :=
  if s.numProcs < s.lineSize then
    let child := { s.procArray p with started := false, curChildren := 0, children := [] }
    let node := { s.procArray p with children := (s.procArray p).children ++ [s.numProcs] }
    some { (s.setNode s.numProcs child).setNode p node with numProcs := s.numProcs + 1 }
  else none

/-- `getNextChild`. -/
def getNextChild (s : Globals) (p : ℕ) : Option Globals :=
  (if (s.procArray p).curChildren = (s.procArray p).children.length then s.addChild p
    else some s).bind fun s =>
  if (s.procArray p).curChildren < (s.procArray p).children.length then
    some (s.setNode p { s.procArray p with curChildren := (s.procArray p).curChildren + 1 })
  else none

end Globals

open Globals

/-- What happens to a process. -/
inductive ProcOp where
  | start
  | enter
  | exit
  | finish (terminationConditionMet : Bool)
  | restart
  | fork

/-- One call on an existing process. -/
def step (s : Globals) (x : ℕ × ProcOp) : Option Globals :=
  if x.1 < s.numProcs then
    match x.2 with
    | .start => s.notifyStart x.1
    | .enter => s.enterFastForward x.1
    | .exit => s.exitFastForward x.1
    | .finish terminationConditionMet => s.notifyEnd x.1 terminationConditionMet
    | .restart => s.restart x.1
    | .fork => s.getNextChild x.1
  else none

/-- The process has started and has not ended. -/
def Live (s : Globals) (p : ℕ) : Prop :=
  (s.procArray p).started = true ∧ s.procExited p = .running

instance (s : Globals) (p : ℕ) : Decidable (Live s p) := inferInstanceAs (Decidable (_ ∧ _))

/-- The process counts as being in fast-forward. -/
def inFF (s : Globals) (p : ℕ) : ℕ := if Live s p ∧ (s.procArray p).inFastForward = true then 1 else 0

/-- The process counts as being in synced fast-forward. -/
def inSyncedFF (s : Globals) (p : ℕ) : ℕ :=
  if (Live s p ∧ (s.procArray p).inFastForward = true) ∧ s.getSyncedFastForward p = true then 1 else 0

/-- A live process is in synced fast-forward. -/
def SomeSynced (s : Globals) : Prop :=
  ∃ p < s.numProcs, Live s p ∧ (s.procArray p).inFastForward = true ∧ s.getSyncedFastForward p = true

/-- `EndOfPhaseActions` waits. -/
def Waits (s : Globals) : Prop := s.globalSyncedFFProcs ≠ 0

/-- The counters count the live processes in fast-forward, and the end of a
phase waits exactly while one of them is synced. -/
structure Balanced (s : Globals) : Prop where
  ff : s.globalFFProcs = countOf s.numProcs (inFF s) 1
  synced : s.globalSyncedFFProcs = countOf s.numProcs (inSyncedFF s) 1
  waits : Waits s ↔ SomeSynced s

/-- The call finds the process as the counters take it to be: alive at entries,
exits and ends, and a first fork does not turn the only process from unsynced
to synced while it is in fast-forward. -/
def Accounted (s : Globals) (x : ℕ × ProcOp) : Prop :=
  match x.2 with
  | .start => True
  | .enter => Live s x.1
  | .exit => Live s x.1
  | .finish _ => (s.procArray x.1).inFastForward = true → Live s x.1
  | .restart => True
  | .fork => s.numProcs = 1 → (s.procArray 0).curChildren = (s.procArray 0).children.length →
      Live s 0 → (s.procArray 0).inFastForward = true →
        (s.procArray 0).syncedFastForward ≠ .multiprocess

section Counting

variable {s s' : Globals} {p q : ℕ}

theorem inFF_eq_one : inFF s p = 1 ↔ Live s p ∧ (s.procArray p).inFastForward = true := by
  unfold inFF
  split <;> simp [*]

theorem inSyncedFF_eq_one : inSyncedFF s p = 1 ↔
    (Live s p ∧ (s.procArray p).inFastForward = true) ∧ s.getSyncedFastForward p = true := by
  unfold inSyncedFF
  split <;> simp [*]

/-- The end of a phase follows the count. -/
theorem balanced_iff : Balanced s ↔ s.globalFFProcs = countOf s.numProcs (inFF s) 1 ∧
    s.globalSyncedFFProcs = countOf s.numProcs (inSyncedFF s) 1 := by
  constructor
  · intro h
    exact ⟨h.ff, h.synced⟩
  · intro h
    refine ⟨h.1, h.2, ?_⟩
    unfold Waits SomeSynced
    rw [h.2, countOf, ← Nat.pos_iff_ne_zero, Finset.card_pos]
    constructor
    · intro hne
      obtain ⟨p, hp⟩ := hne
      obtain ⟨hlt, hone⟩ := Finset.mem_filter.mp hp
      obtain ⟨⟨hlive, hff⟩, hsync⟩ := inSyncedFF_eq_one.mp hone
      exact ⟨p, Finset.mem_range.mp hlt, hlive, hff, hsync⟩
    · intro hsome
      obtain ⟨p, hlt, hlive, hff, hsync⟩ := hsome
      exact ⟨p, Finset.mem_filter.mpr ⟨Finset.mem_range.mpr hlt, inSyncedFF_eq_one.mpr ⟨⟨hlive, hff⟩, hsync⟩⟩⟩

/-- Only one process and its place among the ended ones have changed. -/
structure Frame (s s' : Globals) (p : ℕ) : Prop where
  numProcs : s'.numProcs = s.numProcs
  lineSize : s'.lineSize = s.lineSize
  node : ∀ q, q ≠ p → s'.procArray q = s.procArray q
  exited : ∀ q, q ≠ p → s'.procExited q = s.procExited q
  mode : (s'.procArray p).syncedFastForward = (s.procArray p).syncedFastForward

theorem Frame.trans {s₁ : Globals} (h : Frame s s₁ p) (h' : Frame s₁ s' p) : Frame s s' p where
  numProcs := h'.numProcs.trans h.numProcs
  lineSize := h'.lineSize.trans h.lineSize
  node q hq := (h'.node q hq).trans (h.node q hq)
  exited q hq := (h'.exited q hq).trans (h.exited q hq)
  mode := h'.mode.trans h.mode

theorem Frame.getSynced (h : Frame s s' p) (q : ℕ) :
    s'.getSyncedFastForward q = s.getSyncedFastForward q := by
  unfold Globals.getSyncedFastForward
  rw [h.numProcs]
  by_cases hq : q = p
  · rw [hq, h.mode]
  · rw [h.node q hq]

theorem Frame.live (h : Frame s s' p) (hq : q ≠ p) : Live s' q ↔ Live s q := by
  unfold Live
  rw [h.node q hq, h.exited q hq]

theorem Frame.inFF (h : Frame s s' p) (hq : q ≠ p) : inFF s' q = inFF s q := by
  simp only [FastForward.inFF, h.live hq, h.node q hq]

theorem Frame.inSyncedFF (h : Frame s s' p) (hq : q ≠ p) : inSyncedFF s' q = inSyncedFF s q := by
  simp only [FastForward.inSyncedFF, h.live hq, h.node q hq, h.getSynced q]

/-- Both counts, when one process changes. -/
theorem Frame.counts (h : Frame s s' p) (hp : p < s.numProcs) :
    countOf s'.numProcs (FastForward.inFF s') 1 + (if FastForward.inFF s p = 1 then 1 else 0) =
      countOf s.numProcs (FastForward.inFF s) 1 + (if FastForward.inFF s' p = 1 then 1 else 0) ∧
    countOf s'.numProcs (FastForward.inSyncedFF s') 1 +
        (if FastForward.inSyncedFF s p = 1 then 1 else 0) =
      countOf s.numProcs (FastForward.inSyncedFF s) 1 +
        (if FastForward.inSyncedFF s' p = 1 then 1 else 0) := by
  rw [h.numProcs]
  exact ⟨countOf_move hp (fun q hq => h.inFF hq) 1, countOf_move hp (fun q hq => h.inSyncedFF hq) 1⟩

/-- A call that leaves the counters and the process's place alone. -/
theorem Frame.balanced (h : Frame s s' p) (hp : p < s.numProcs)
    (hff : s'.globalFFProcs = s.globalFFProcs)
    (hsync : s'.globalSyncedFFProcs = s.globalSyncedFFProcs)
    (hsame : (Live s' p ∧ (s'.procArray p).inFastForward = true) ↔
      (Live s p ∧ (s.procArray p).inFastForward = true)) : Balanced s' ↔ Balanced s := by
  obtain ⟨hcount, hsynced⟩ := h.counts hp
  simp only [inFF_eq_one, inSyncedFF_eq_one, hsame, h.getSynced] at hcount hsynced
  rw [balanced_iff, balanced_iff, hff, hsync]
  omega

/-- A counted entry keeps the balance exactly when the process is alive after
it. -/
theorem Frame.balanced_entry (h : Frame s s' p) (hp : p < s.numProcs) (hn : s.numProcs < 2 ^ 32)
    (hs : Balanced s) (hff : s'.globalFFProcs = increment s.globalFFProcs)
    (hsync : s'.globalSyncedFFProcs = if s.getSyncedFastForward p then increment s.globalSyncedFFProcs
      else s.globalSyncedFFProcs)
    (hold : ¬(Live s p ∧ (s.procArray p).inFastForward = true))
    (hnew : (s'.procArray p).inFastForward = true) : Balanced s' ↔ Live s' p := by
  obtain ⟨hcount, hsynced⟩ := h.counts hp
  have hle := countOf_le s.numProcs (FastForward.inFF s) 1
  have hle' := countOf_le s'.numProcs (FastForward.inFF s') 1
  have hlesync' := countOf_le s'.numProcs (FastForward.inSyncedFF s') 1
  have hsize := h.numProcs
  simp only [inFF_eq_one, inSyncedFF_eq_one, hold, hnew, h.getSynced, false_and, if_false, and_true]
    at hcount hsynced
  rw [balanced_iff, hff, hsync, hs.ff, hs.synced]
  unfold increment
  by_cases hlive : Live s' p
  · rw [if_pos hlive] at hcount
    by_cases hmode : s.getSyncedFastForward p = true
    · rw [if_pos ⟨hlive, hmode⟩] at hsynced
      rw [if_pos hmode]
      exact ⟨fun _ => hlive, fun _ => by omega⟩
    · rw [if_neg fun hand => hmode hand.2] at hsynced
      rw [if_neg hmode]
      exact ⟨fun _ => hlive, fun _ => by omega⟩
  · rw [if_neg hlive] at hcount
    refine ⟨fun hand => ?_, fun hno => absurd hno hlive⟩
    omega

/-- A counted exit keeps the balance exactly when the process was alive. -/
theorem Frame.balanced_exit (h : Frame s s' p) (hp : p < s.numProcs) (hn : s.numProcs < 2 ^ 32)
    (hs : Balanced s) (hff : s'.globalFFProcs = decrement s.globalFFProcs)
    (hsync : s'.globalSyncedFFProcs = if s.getSyncedFastForward p then decrement s.globalSyncedFFProcs
      else s.globalSyncedFFProcs)
    (hold : (s.procArray p).inFastForward = true)
    (hnew : ¬(Live s' p ∧ (s'.procArray p).inFastForward = true)) : Balanced s' ↔ Live s p := by
  obtain ⟨hcount, hsynced⟩ := h.counts hp
  have hle := countOf_le s.numProcs (FastForward.inFF s) 1
  have hlesync := countOf_le s.numProcs (FastForward.inSyncedFF s) 1
  simp only [inFF_eq_one, inSyncedFF_eq_one, hold, hnew, h.getSynced, false_and, if_false, and_true]
    at hcount hsynced
  rw [balanced_iff, hff, hsync, hs.ff, hs.synced]
  unfold decrement
  by_cases hlive : Live s p
  · rw [if_pos hlive] at hcount
    by_cases hmode : s.getSyncedFastForward p = true
    · rw [if_pos ⟨hlive, hmode⟩] at hsynced
      rw [if_pos hmode]
      exact ⟨fun _ => hlive, fun _ => by omega⟩
    · rw [if_neg fun hand => hmode hand.2] at hsynced
      rw [if_neg hmode]
      exact ⟨fun _ => hlive, fun _ => by omega⟩
  · rw [if_neg hlive] at hcount
    refine ⟨fun hand => ?_, fun hno => absurd hno hlive⟩
    omega

end Counting

section Steps

variable {s s' : Globals} {p : ℕ} {x : ℕ × ProcOp}

/-- What holds between calls besides the balance. -/
structure Inv (s : Globals) : Prop where
  balanced : Balanced s
  /-- A process leaves fast-forward before it ends. -/
  ended : ∀ p, s.procExited p ≠ .running → (s.procArray p).inFastForward = false
  fresh : ∀ p, s.numProcs ≤ p → s.procExited p = .running
  numProcs : s.numProcs ≤ s.lineSize
  lineSize : s.lineSize < 2 ^ 32

theorem Inv.numProcs_lt (h : Inv s) : s.numProcs < 2 ^ 32 := h.numProcs.trans_lt h.lineSize

/-- One node is replaced by another of its mode. -/
theorem frame_of {node : ProcessTreeNode} (hnum : s'.numProcs = s.numProcs)
    (hline : s'.lineSize = s.lineSize) (hnode : s'.procArray = Function.update s.procArray p node)
    (hmode : node.syncedFastForward = (s.procArray p).syncedFastForward)
    (hexited : ∀ q, q ≠ p → s'.procExited q = s.procExited q) :
    Frame s s' p ∧ s'.procArray p = node := by
  have hp : s'.procArray p = node := by rw [hnode, Function.update_self]
  refine ⟨⟨hnum, hline, fun q hq => ?_, hexited, by rw [hp, hmode]⟩, hp⟩
  rw [hnode, Function.update_of_ne hq]

/-- The parts of the invariant that do not count, across a change of one process. -/
theorem Inv.of_frame (h : Inv s) (hf : Frame s s' p) (hp : p < s.numProcs) (hbal : Balanced s')
    (hended : s'.procExited p ≠ .running → (s'.procArray p).inFastForward = false) : Inv s' where
  balanced := hbal
  ended q hq := by
    by_cases hqp : q = p
    · rw [hqp] at hq ⊢
      exact hended hq
    · rw [hf.exited q hqp] at hq
      rw [hf.node q hqp]
      exact h.ended q hq
  fresh q hq := by
    rw [hf.numProcs] at hq
    have hqp : q ≠ p := by omega
    rw [hf.exited q hqp]
    exact h.fresh q hq
  numProcs := by
    rw [hf.numProcs, hf.lineSize]
    exact h.numProcs
  lineSize := by
    rw [hf.lineSize]
    exact h.lineSize

/-- A process that starts in fast-forward is counted. -/
theorem start_spec (h : Inv s) (hp : p < s.numProcs) (hs' : s.notifyStart p = some s') : Inv s' := by
  unfold Globals.notifyStart at hs'
  by_cases hstarted : (s.procArray p).started = false
  · rw [if_pos hstarted] at hs'
    have hs' := (Option.ite_none_right_eq_some.mp hs').2
    have hnotLive : ¬(Live s p ∧ (s.procArray p).inFastForward = true) := by
      intro hand
      exact absurd (hstarted.symm.trans hand.1.1) nofun
    dsimp only at hs'
    by_cases hff : (s.procArray p).inFastForward = true
    · rw [if_pos hff] at hs'
      have hs' := Option.some.inj hs'
      have hrunning : s.procExited p = .running := by
        by_contra hne
        exact absurd ((h.ended p hne).symm.trans hff) nofun
      have hexited : s'.procExited = s.procExited := hs' ▸ rfl
      obtain ⟨hframe, hnode⟩ := @frame_of s s' p { s.procArray p with started := true }
        (hs' ▸ rfl) (hs' ▸ rfl) (hs' ▸ rfl) rfl fun q _ => congrFun hexited q
      have hlive : Live s' p := ⟨by rw [hnode], by rw [hexited, hrunning]⟩
      have hbal := hframe.balanced_entry hp h.numProcs_lt h.balanced (hs' ▸ rfl) (hs' ▸ rfl) hnotLive
        (by rw [hnode]; exact hff)
      exact h.of_frame hframe hp (hbal.mpr hlive) fun hne => absurd hlive.2 hne
    · rw [if_neg hff] at hs'
      have hs' := Option.some.inj hs'
      have hexited : s'.procExited = s.procExited := hs' ▸ rfl
      obtain ⟨hframe, hnode⟩ := @frame_of s s' p { s.procArray p with started := true }
        (hs' ▸ rfl) (hs' ▸ rfl) (hs' ▸ rfl) rfl fun q _ => congrFun hexited q
      have hff' : ¬(s'.procArray p).inFastForward = true := by
        rw [hnode]
        exact hff
      have hbal := hframe.balanced hp (hs' ▸ rfl) (hs' ▸ rfl)
        (iff_of_false (fun hand => hff' hand.2) hnotLive)
      exact h.of_frame hframe hp (hbal.mpr h.balanced) fun _ => eq_false_of_ne_true hff'
  · rw [if_neg hstarted] at hs'
    cases hs'
    exact h

/-- An entry is counted rightly exactly for a live process. -/
theorem enter_spec (h : Inv s) (hp : p < s.numProcs) (hs' : s.enterFastForward p = some s') :
    (Balanced s' ↔ Live s p) ∧ (Live s p → Inv s') := by
  obtain ⟨hff, hs'⟩ := Option.ite_none_right_eq_some.mp hs'
  have hs' := Option.some.inj hs'
  have hexited : s'.procExited = s.procExited := hs' ▸ rfl
  obtain ⟨hframe, hnode⟩ := @frame_of s s' p { s.procArray p with inFastForward := true }
    (hs' ▸ rfl) (hs' ▸ rfl) (hs' ▸ rfl) rfl fun q _ => congrFun hexited q
  have hlive : Live s' p ↔ Live s p := by
    unfold Live
    rw [hnode, hexited]
  have hsync : s'.globalSyncedFFProcs = if s'.getSyncedFastForward p then
      increment s.globalSyncedFFProcs else s.globalSyncedFFProcs := hs' ▸ rfl
  rw [hframe.getSynced] at hsync
  have hbal := hframe.balanced_entry hp h.numProcs_lt h.balanced (hs' ▸ rfl) hsync
    (fun hand => absurd (hff.symm.trans hand.2) nofun) (by rw [hnode])
  rw [hlive] at hbal
  refine ⟨hbal, fun hl => h.of_frame hframe hp (hbal.mpr hl) fun hne => ?_⟩
  exact absurd (hlive.mpr hl).2 hne

/-- What an exit does to its process. -/
theorem exit_frame (hs' : s.exitFastForward p = some s') : Frame s s' p ∧
    s'.procArray p = { s.procArray p with inFastForward := false } ∧ s'.procExited = s.procExited ∧
    (s.procArray p).inFastForward = true ∧ s'.globalFFProcs = decrement s.globalFFProcs ∧
    s'.globalSyncedFFProcs = if s.getSyncedFastForward p then decrement s.globalSyncedFFProcs
      else s.globalSyncedFFProcs := by
  obtain ⟨hff, hs'⟩ := Option.ite_none_right_eq_some.mp hs'
  have hs' := Option.some.inj hs'
  have hexited : s'.procExited = s.procExited := hs' ▸ rfl
  obtain ⟨hframe, hnode⟩ := @frame_of s s' p { s.procArray p with inFastForward := false }
    (hs' ▸ rfl) (hs' ▸ rfl) (hs' ▸ rfl) rfl fun q _ => congrFun hexited q
  have hsync : s'.globalSyncedFFProcs = if s'.getSyncedFastForward p then
      decrement s.globalSyncedFFProcs else s.globalSyncedFFProcs := hs' ▸ rfl
  rw [hframe.getSynced] at hsync
  exact ⟨hframe, hnode, hexited, hff, hs' ▸ rfl, hsync⟩

/-- An exit is counted rightly exactly for a live process. -/
theorem exit_spec (h : Inv s) (hp : p < s.numProcs) (hs' : s.exitFastForward p = some s') :
    (Balanced s' ↔ Live s p) ∧ (Live s p → Inv s') := by
  obtain ⟨hframe, hnode, hexited, hff, hcount, hsync⟩ := exit_frame hs'
  have hff' : ¬(s'.procArray p).inFastForward = true := by
    rw [hnode]
    exact nofun
  have hbal := hframe.balanced_exit hp h.numProcs_lt h.balanced hcount hsync hff fun hand => hff' hand.2
  exact ⟨hbal, fun hl => h.of_frame hframe hp (hbal.mpr hl) fun _ => eq_false_of_ne_true hff'⟩

/-- The end of a process changes no counter of fast-forward. -/
theorem finish_frame {terminating : Bool} (hs' : s.finish p terminating = some s') : Frame s s' p ∧
    (s'.procArray p).inFastForward = (s.procArray p).inFastForward ∧ s.procExited p = .running ∧
    s'.globalFFProcs = s.globalFFProcs ∧ s'.globalSyncedFFProcs = s.globalSyncedFFProcs := by
  obtain ⟨hrunning, hs'⟩ := Option.ite_none_right_eq_some.mp hs'
  by_cases hrestart : (s.procArray p).restartsLeft ≠ 0 ∧ terminating = false
  · rw [if_pos hrestart] at hs'
    have hs' := Option.some.inj hs'
    have hexited : s'.procExited = Function.update s.procExited p .restartme := hs' ▸ rfl
    obtain ⟨hframe, hnode⟩ := @frame_of s s' p
      { s.procArray p with restartsLeft := (s.procArray p).restartsLeft - 1 }
      (hs' ▸ rfl) (hs' ▸ rfl) (hs' ▸ rfl) rfl fun q hq => by rw [hexited, Function.update_of_ne hq]
    exact ⟨hframe, by rw [hnode], hrunning, hs' ▸ rfl, hs' ▸ rfl⟩
  · rw [if_neg hrestart] at hs'
    have hs' := Option.some.inj hs'
    have hexited : s'.procExited = Function.update s.procExited p .exited := hs' ▸ rfl
    have hsame : s'.procArray = s.procArray := hs' ▸ rfl
    refine ⟨⟨hs' ▸ rfl, hs' ▸ rfl, fun q _ => congrFun hsame q, fun q hq => ?_, by rw [hsame]⟩,
      by rw [hsame], hrunning, hs' ▸ rfl, hs' ▸ rfl⟩
    rw [hexited, Function.update_of_ne hq]

/-- An end that leaves fast-forward is counted rightly exactly for a live
process. -/
theorem end_spec {terminating : Bool} (h : Inv s) (hp : p < s.numProcs)
    (hs' : s.notifyEnd p terminating = some s') :
    (Balanced s' ↔ ((s.procArray p).inFastForward = true → Live s p)) ∧
      (((s.procArray p).inFastForward = true → Live s p) → Inv s') := by
  unfold Globals.notifyEnd at hs'
  by_cases hff : (s.procArray p).inFastForward = true
  · rw [if_pos hff] at hs'
    obtain ⟨s₁, hexit, hfinish⟩ := Option.bind_eq_some_iff.mp hs'
    obtain ⟨hframe₁, hnode₁, hexited₁, -, hcount₁, hsync₁⟩ := exit_frame hexit
    obtain ⟨hframe₂, hff₂, -, hcount₂, hsync₂⟩ := finish_frame hfinish
    have hframe := hframe₁.trans hframe₂
    have hff' : ¬(s'.procArray p).inFastForward = true := by
      rw [hff₂, hnode₁]
      exact nofun
    have hbal := hframe.balanced_exit hp h.numProcs_lt h.balanced (hcount₂.trans hcount₁)
      (hsync₂.trans hsync₁) hff fun hand => hff' hand.2
    refine ⟨hbal.trans ⟨fun hl _ => hl, fun hl => hl hff⟩, fun hl => ?_⟩
    exact h.of_frame hframe hp (hbal.mpr (hl hff)) fun _ => eq_false_of_ne_true hff'
  · rw [if_neg hff] at hs'
    obtain ⟨hframe, hff', -, hcount, hsync⟩ := finish_frame hs'
    have hff'' : ¬(s'.procArray p).inFastForward = true := by
      rw [hff']
      exact hff
    have hbal := (hframe.balanced hp hcount hsync
      (iff_of_false (fun hand => hff'' hand.2) fun hand => hff hand.2)).mpr h.balanced
    refine ⟨iff_of_true hbal fun hno => absurd hno hff, fun _ => ?_⟩
    exact h.of_frame hframe hp hbal fun _ => eq_false_of_ne_true hff''

/-- A process that ended is launched again outside of fast-forward. -/
theorem restart_spec (h : Inv s) (hp : p < s.numProcs) (hs' : s.restart p = some s') : Inv s' := by
  obtain ⟨hexit, hs'⟩ := Option.ite_none_right_eq_some.mp hs'
  have hs' := Option.some.inj hs'
  have hff : (s.procArray p).inFastForward = false := h.ended p (by rw [hexit]; exact nofun)
  have hsame : s'.procArray = s.procArray := hs' ▸ rfl
  have hexited : s'.procExited = Function.update s.procExited p .running := hs' ▸ rfl
  have hframe : Frame s s' p := by
    refine ⟨hs' ▸ rfl, hs' ▸ rfl, fun q _ => congrFun hsame q, fun q hq => ?_, by rw [hsame]⟩
    rw [hexited, Function.update_of_ne hq]
  have hbal : Balanced s' := by
    refine (hframe.balanced hp (hs' ▸ rfl) (hs' ▸ rfl) ?_).mpr h.balanced
    rw [hsame, hff]
    exact iff_of_false (fun hand => absurd hand.2 nofun) fun hand => absurd hand.2 nofun
  refine h.of_frame hframe hp hbal fun _ => ?_
  rw [hsame]
  exact hff

/-- The first fork does not make the only process synced while it is in
fast-forward. -/
def StaysSynced (s : Globals) : Prop := s.numProcs = 1 → Live s 0 →
  (s.procArray 0).inFastForward = true → (s.procArray 0).syncedFastForward ≠ .multiprocess

/-- A new child is not counted, but it may make its parent count as synced. -/
theorem addChild_spec (h : Inv s) (hp : p < s.numProcs) (hs' : s.addChild p = some s') :
    s'.numProcs = s.numProcs + 1 ∧ (Balanced s' ↔ StaysSynced s) ∧ (StaysSynced s → Inv s') := by
  obtain ⟨hlines, hs'⟩ := Option.ite_none_right_eq_some.mp hs'
  have hs' := Option.some.inj hs'
  have hnum : s'.numProcs = s.numProcs + 1 := hs' ▸ rfl
  have hexited : s'.procExited = s.procExited := hs' ▸ rfl
  have hchild : (s'.procArray s.numProcs).started = false := by
    rw [← hs']
    dsimp only [Globals.setNode]
    rw [Function.update_of_ne hp.ne', Function.update_self]
  have hnode : ∀ q < s.numProcs, (s'.procArray q).started = (s.procArray q).started ∧
      (s'.procArray q).inFastForward = (s.procArray q).inFastForward ∧
      (s'.procArray q).syncedFastForward = (s.procArray q).syncedFastForward := by
    intro q hq
    rw [← hs']
    dsimp only [Globals.setNode]
    by_cases hqp : q = p
    · rw [hqp, Function.update_self]
      exact ⟨rfl, rfl, rfl⟩
    · rw [Function.update_of_ne hqp, Function.update_of_ne hq.ne]
      exact ⟨rfl, rfl, rfl⟩
  have hlive : ∀ q < s.numProcs, (Live s' q ↔ Live s q) := by
    intro q hq
    unfold Live
    rw [(hnode q hq).1, hexited]
  have hdead : ¬Live s' s.numProcs := by
    intro hl
    exact absurd (hchild.symm.trans hl.1) nofun
  have hff : countOf s'.numProcs (inFF s') 1 = countOf s.numProcs (inFF s) 1 := by
    have hsame : ∀ q < s.numProcs, inFF s' q = inFF s q := by
      intro q hq
      simp only [inFF, hlive q hq, (hnode q hq).2.1]
    have hnone : inFF s' s.numProcs = 0 := if_neg fun hand => hdead hand.1
    rw [hnum, countOf_succ, countOf_congr hsame, hnone]
    rfl
  have hsync : countOf s'.numProcs (inSyncedFF s') 1 = countOf s.numProcs (inSyncedFF s') 1 := by
    have hnone : inSyncedFF s' s.numProcs = 0 := if_neg fun hand => hdead hand.1.1
    rw [hnum, countOf_succ, hnone]
    rfl
  have hmode : ∀ q < s.numProcs, (s'.getSyncedFastForward q = true ↔
      (s.procArray q).syncedFastForward = .always ∨ (s.procArray q).syncedFastForward = .multiprocess) := by
    intro q hq
    have htwo : 1 < s.numProcs + 1 := by omega
    simp only [Globals.getSyncedFastForward, (hnode q hq).2.2, hnum, htwo, and_true, decide_eq_true_iff]
  have hbal : Balanced s' ↔ StaysSynced s := by
    have hcounter : s'.globalFFProcs = s.globalFFProcs := hs' ▸ rfl
    have hcounter' : s'.globalSyncedFFProcs = s.globalSyncedFFProcs := hs' ▸ rfl
    rw [balanced_iff, hff, hsync, hcounter, hcounter', h.balanced.ff, h.balanced.synced,
      and_iff_right rfl]
    by_cases hone : s.numProcs = 1
    · have hzero : 0 < s.numProcs := by omega
      have hold : inSyncedFF s 0 = 1 ↔ (Live s 0 ∧ (s.procArray 0).inFastForward = true) ∧
          (s.procArray 0).syncedFastForward = .always := by
        rw [inSyncedFF_eq_one]
        simp [Globals.getSyncedFastForward, hone]
      have hnew := @inSyncedFF_eq_one s' 0
      rw [hmode 0 hzero, hlive 0 hzero, (hnode 0 hzero).2.1] at hnew
      have hempty : countOf 0 (inSyncedFF s) 1 = countOf 0 (inSyncedFF s') 1 := rfl
      rw [hone, countOf_succ, countOf_succ, hempty, Nat.add_left_cancel_iff, if_congr hold rfl rfl,
        if_congr hnew rfl rfl]
      by_cases hcounted : Live s 0 ∧ (s.procArray 0).inFastForward = true
      · cases hm : (s.procArray 0).syncedFastForward with
        | always => simp [StaysSynced, hcounted, hm]
        | multiprocess => simp [StaysSynced, hcounted, hm, hone]
        | never => simp [StaysSynced, hcounted, hm]
      · rw [if_neg fun hand => hcounted hand.1, if_neg fun hand => hcounted hand.1]
        exact iff_of_true rfl fun _ hl hff => absurd ⟨hl, hff⟩ hcounted
    · have htwo : 1 < s.numProcs := by omega
      have hsame : ∀ q < s.numProcs, inSyncedFF s' q = inSyncedFF s q := by
        intro q hq
        have hmode' : s.getSyncedFastForward q = true ↔ s'.getSyncedFastForward q = true := by
          rw [hmode q hq]
          simp only [Globals.getSyncedFastForward, htwo, and_true, decide_eq_true_iff]
        simp only [inSyncedFF, hlive q hq, (hnode q hq).2.1, hmode']
      rw [countOf_congr hsame]
      exact iff_of_true rfl fun hno => absurd hno hone
  refine ⟨hnum, hbal, fun hstays => ⟨hbal.mpr hstays, fun q hq => ?_, fun q hq => ?_, ?_, ?_⟩⟩
  · rw [hexited] at hq
    have hlt : q < s.numProcs := not_le.mp fun hge => hq (h.fresh q hge)
    rw [(hnode q hlt).2.1]
    exact h.ended q hq
  · rw [hexited]
    exact h.fresh q (by omega)
  · rw [hnum]
    have hline : s'.lineSize = s.lineSize := hs' ▸ rfl
    rw [hline]
    exact hlines
  · have hline : s'.lineSize = s.lineSize := hs' ▸ rfl
    rw [hline]
    exact h.lineSize

/-- The next child is taken without a change to the counts. -/
theorem takeChild_spec (hp : p < s.numProcs)
    (hs' : s' = s.setNode p { s.procArray p with curChildren := (s.procArray p).curChildren + 1 }) :
    (Balanced s' ↔ Balanced s) ∧ (Inv s → Inv s') := by
  obtain ⟨hframe, hnode⟩ := @frame_of s s' p
    { s.procArray p with curChildren := (s.procArray p).curChildren + 1 }
    (hs' ▸ rfl) (hs' ▸ rfl) (hs' ▸ rfl) rfl fun q _ => hs' ▸ rfl
  have hexited : s'.procExited p = s.procExited p := hs' ▸ rfl
  have hbal := hframe.balanced hp (hs' ▸ rfl) (hs' ▸ rfl) (by unfold Live; rw [hnode, hexited])
  refine ⟨hbal, fun hinv => hinv.of_frame hframe hp (hbal.mpr hinv.balanced) fun hne => ?_⟩
  rw [hexited] at hne
  rw [hnode]
  exact hinv.ended p hne

/-- A fork keeps the balance exactly when no process becomes synced by it. -/
theorem fork_spec (h : Inv s) (hp : p < s.numProcs) (hs' : s.getNextChild p = some s') :
    (Balanced s' ↔ Accounted s (p, .fork)) ∧ (Accounted s (p, .fork) → Inv s') := by
  obtain ⟨s₁, hchild, htake⟩ := Option.bind_eq_some_iff.mp hs'
  obtain ⟨-, htake⟩ := Option.ite_none_right_eq_some.mp htake
  have htake := (Option.some.inj htake).symm
  by_cases halloc : (s.procArray p).curChildren = (s.procArray p).children.length
  · rw [if_pos halloc] at hchild
    obtain ⟨hnum, hbal, hinv⟩ := addChild_spec h hp hchild
    have hguard : Accounted s (p, .fork) ↔ StaysSynced s := by
      constructor
      · intro hacc hone
        have hzero : p = 0 := by omega
        exact hacc hone (hzero ▸ halloc)
      · intro hstays hone _
        exact hstays hone
    have hp₁ : p < s₁.numProcs := by omega
    obtain ⟨hbal₁, hinv₁⟩ := takeChild_spec hp₁ htake
    rw [hguard]
    exact ⟨hbal₁.trans hbal, fun hstays => hinv₁ (hinv hstays)⟩
  · rw [if_neg halloc] at hchild
    have hsame : s = s₁ := Option.some.inj hchild
    rw [← hsame] at htake
    obtain ⟨hbal, hinv⟩ := takeChild_spec hp htake
    have hacc : Accounted s (p, .fork) := by
      intro hone hcur
      have hzero : p = 0 := by omega
      exact absurd (hzero ▸ hcur) halloc
    exact ⟨iff_of_true (hbal.mpr h.balanced) hacc, fun _ => hinv h⟩

/-- One call keeps the balance exactly when the counters take its process for
what it is. -/
theorem step_spec (h : Inv s) (hs' : step s x = some s') :
    (Balanced s' ↔ Accounted s x) ∧ (Accounted s x → Inv s') := by
  obtain ⟨hp, hs'⟩ := Option.ite_none_right_eq_some.mp hs'
  obtain ⟨p, op⟩ := x
  cases op with
  | start =>
    have hinv := start_spec h hp hs'
    exact ⟨iff_of_true hinv.balanced trivial, fun _ => hinv⟩
  | enter => exact enter_spec h hp hs'
  | exit => exact exit_spec h hp hs'
  | finish terminationConditionMet => exact end_spec h hp hs'
  | restart =>
    have hinv := restart_spec h hp hs'
    exact ⟨iff_of_true hinv.balanced trivial, fun _ => hinv⟩
  | fork => exact fork_spec h hp hs'

theorem inv_init {nodes : ℕ → ProcessTreeNode} {numProcs lineSize : ℕ} (hnum : numProcs ≤ lineSize)
    (hline : lineSize < 2 ^ 32) : Inv (.init nodes numProcs lineSize) := by
  have hdead : ∀ p, ¬Live (.init nodes numProcs lineSize) p := fun p hl => absurd hl.1 nofun
  refine ⟨balanced_iff.mpr ⟨?_, ?_⟩, fun p hne => absurd rfl hne, fun _ _ => rfl, hnum, hline⟩
  · have hnone : inFF (.init nodes numProcs lineSize) = fun _ => 0 :=
      funext fun p => if_neg fun hand => hdead p hand.1
    rw [hnone, countOf_const_of_ne _ Nat.zero_ne_one]
    rfl
  · have hnone : inSyncedFF (.init nodes numProcs lineSize) = fun _ => 0 :=
      funext fun p => if_neg fun hand => hdead p hand.1.1
    rw [hnone, countOf_const_of_ne _ Nat.zero_ne_one]
    rfl

/-- For every configuration and every order of the calls, the counters are
balanced after each call exactly when each finds its process as the counters
take it to be. -/
theorem counters_balanced_iff (nodes : ℕ → ProcessTreeNode) {numProcs lineSize : ℕ}
    (hnum : numProcs ≤ lineSize) (hline : lineSize < 2 ^ 32) (xs : List (ℕ × ProcOp)) :
    EveryStep step (fun _ _ s' => Balanced s') (.init nodes numProcs lineSize) xs ↔
      EveryStep step (fun s x _ => Accounted s x) (.init nodes numProcs lineSize) xs := by
  have hiff : ∀ s x s', Inv s → step s x = some s' → (Balanced s' ↔ Accounted s x) :=
    fun s x s' h hs' => (step_spec h hs').1
  have hinv : ∀ s x s', Inv s → Accounted s x → step s x = some s' → Inv s' :=
    fun s x s' h hacc hs' => (step_spec h hs').2 hacc
  exact everyStep_iff hiff hinv (inv_init hnum hline)

/-- A process of mode `Multiprocess`, without children in the configuration. -/
def single : ProcessTreeNode where
  children := []
  curChildren := 0
  started := false
  inFastForward := false
  restartsLeft := 0
  syncedFastForward := .multiprocess

/-- A process that forks before it enters fast-forward is synced all along. -/
theorem fork_first_balanced : 1 ≤ 64 ∧ 64 < 2 ^ 32 ∧
    EveryStep step (fun _ _ s' => Balanced s') (.init (fun _ => single) 1 64)
      [(0, .start), (0, .fork), (1, .start), (0, .enter), (0, .exit)] := by
  have hnum : 1 ≤ 64 := by omega
  have hline : 64 < 2 ^ 32 := by omega
  refine ⟨hnum, hline, (counters_balanced_iff (fun _ => single) hnum hline _).mpr ?_⟩
  refine .cons rfl trivial ?_
  refine .cons rfl (fun _ _ _ hff => absurd hff nofun) ?_
  refine .cons rfl trivial ?_
  refine .cons rfl ⟨rfl, rfl⟩ ?_
  exact .cons rfl ⟨rfl, rfl⟩ trivial

/-- A process enters fast-forward alone and forks. -/
def enterThenFork : List (ℕ × ProcOp) := [(0, .start), (0, .enter), (0, .fork)]

/-- The exit takes from the synced counter what the entry has not added. -/
theorem fork_in_fast_forward : ¬EveryStep step (fun _ _ s' => Balanced s')
    (.init (fun _ => single) 1 64) (enterThenFork ++ [(0, .exit)]) := by
  intro h
  have hwrap : (run step (.init (fun _ => single) 1 64) (enterThenFork ++ [(0, .exit)])).map
      (fun s => (s.globalSyncedFFProcs, s.numProcs)) = some (2 ^ 32 - 1, 2) := by decide +kernel
  obtain ⟨s, hrun, hs⟩ := Option.map_eq_some_iff.mp hwrap
  obtain ⟨s₃, hrun₃, hrun₄⟩ := run_append.mp hrun
  obtain ⟨s', hexit, hnil⟩ := run_cons.mp hrun₄
  cases hnil
  have hbal : Balanced s := h.at hrun₃ hexit
  obtain ⟨hsync, hnum⟩ := Prod.mk.inj hs
  have hle := countOf_le s.numProcs (inSyncedFF s) 1
  have hcount := hbal.synced
  omega

end Steps

end Zsim.FastForward
