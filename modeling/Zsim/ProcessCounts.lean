import Zsim.GuardedRuns
import Zsim.TableCounts

/-!
# Instructions of a process

A core counts its instructions, and the differences of its counter are charged
to the group of the process it ran: when the thread is descheduled, and for the
running threads at the first query of a phase. Nothing is lost or counted
twice, but the charges are kept by group and read by process.
-/

namespace Zsim.ProcessCounts

open GuardedRuns TableCounts

/-- What the processes have been charged of one kind of count. -/
structure Tally where
  process : ℕ → ℕ
  lastCore : ℕ → ℕ

/-- The difference of the core's count goes to the group. -/
def Tally.charge (t : Tally) (cid group count : ℕ) : Tally where
  process := Function.update t.process group (t.process group + (count - t.lastCore cid))
  lastCore := Function.update t.lastCore cid count

/-- `ProcessStats`. -/
structure ProcessStats where
  cycles : Tally
  instrs : Tally
  lastUpdatePhase : ℕ

/-- The simulator as `ProcessStats` sees it. -/
structure Machine where
  numCores : ℕ
  /-- `zinfo->lineSize`. -/
  maxProcs : ℕ
  /-- `getGroupIdx` of each process. -/
  groupIdx : List ℕ
  /-- The `gid` of the thread on a used context. -/
  curThread : ℕ → Option ℕ
  coreCycles : ℕ → ℕ
  coreInstrs : ℕ → ℕ
  stats : ProcessStats
  numPhases : ℕ
  /-- The threads wait for the actions at the end of the phase. -/
  phaseEnded : Bool
  /-- The instructions each process has executed. -/
  executed : ℕ → ℕ

/-- `gid >> 16`. -/
def getPid (gid : ℕ) : ℕ := gid >>> 16

/-- The groups that `PopulateLevel` assigns to the processes after the first,
from their `groupWithPrevious`. -/
def groupIdxs (groupIdx : ℕ) : List Bool → List ℕ
  | [] => []
  | groupWithPrevious :: l =>
    let group := if groupWithPrevious then groupIdx - 1 else groupIdx
    group :: groupIdxs (group + 1) l

namespace Machine

/-- The simulator at its start. -/
def init (numCores maxProcs : ℕ) (groupWithPrevious : List Bool) : Machine where
  numCores := numCores
  maxProcs := maxProcs
  groupIdx := 0 :: groupIdxs 1 groupWithPrevious
  curThread _ := none
  coreCycles _ := 0
  coreInstrs _ := 0
  stats := ⟨⟨fun _ => 0, fun _ => 0⟩, ⟨fun _ => 0, fun _ => 0⟩, 0⟩
  numPhases := 0
  phaseEnded := false
  executed _ := 0

/-- `getScheduledPid`. -/
def getScheduledPid (m : Machine) (cid : ℕ) : Option ℕ := (m.curThread cid).map getPid

/-- What a core has counted since goes to a group. -/
def chargeCore (m : Machine) (cid group : ℕ) : Machine :=
  { m with stats := { m.stats with
    cycles := m.stats.cycles.charge cid group (m.coreCycles cid)
    instrs := m.stats.instrs.charge cid group (m.coreInstrs cid) } }

/-- `updateCore`; none where its assertion fails. -/
def updateCore (m : Machine) (cid p : ℕ) : Option Machine :=
  m.groupIdx[p]?.bind fun p =>
    if m.stats.cycles.lastCore cid ≤ m.coreCycles cid ∧
        m.stats.instrs.lastCore cid ≤ m.coreInstrs cid then
      some (m.chargeCore cid p)
    else none

/-- `ProcessStats::notifyDeschedule`. -/
def notifyDeschedule (m : Machine) (cid outgoingPid : ℕ) : Option Machine :=
  if cid < m.numCores ∧ outgoingPid < m.maxProcs then m.updateCore cid outgoingPid else none

/-- One iteration of `update`. -/
def updateScheduled (m : Machine) (cid : ℕ) : Option Machine :=
  match m.getScheduledPid cid with
  | none => some m
  | some p => if p < m.maxProcs then m.updateCore cid p else none

/-- `update`. -/
def update (m : Machine) : Option Machine :=
  if m.stats.lastUpdatePhase < m.numPhases then
    ((List.range m.numCores).foldlM updateScheduled m).map fun m =>
      { m with stats := { m.stats with lastUpdatePhase := m.numPhases } }
  else none

/-- `getProcessInstrs`, with the updated state. -/
def getProcessInstrs (m : Machine) (p : ℕ) : Option (ℕ × Machine) :=
  (if m.stats.lastUpdatePhase ≠ m.numPhases then m.update else some m).bind fun m =>
    if p < m.maxProcs then some (m.stats.instrs.process p, m) else none

end Machine

open Machine

/-- What happens in the simulator. -/
inductive MachineOp where
  /-- A process forks, and the child inherits its group. -/
  | fork (parent : ℕ)
  | schedule (gid cid : ℕ)
  | deschedule (cid : ℕ)
  | execute (cid cycles instrs : ℕ)
  | endPhase
  | query (p : ℕ)
  | nextPhase

/-- No thread is running: it is the end of a phase, or every context is idle. -/
def Quiesced (m : Machine) : Prop :=
  m.phaseEnded = true ∨ ∀ cid < m.numCores, m.curThread cid = none

instance (m : Machine) : Decidable (Quiesced m) := inferInstanceAs (Decidable (_ ∨ _))

/-- One event; queries are made when no thread is running. -/
def step (m : Machine) : MachineOp → Option Machine
  | .fork parent =>
    if m.groupIdx.length < m.maxProcs then
      m.groupIdx[parent]?.map fun group => { m with groupIdx := m.groupIdx ++ [group] }
    else none
  | .schedule gid cid =>
    if cid < m.numCores ∧ m.curThread cid = none ∧ getPid gid < m.groupIdx.length then
      some { m with curThread := Function.update m.curThread cid (some gid) }
    else none
  | .deschedule cid =>
    match m.curThread cid with
    | none => none
    | some gid => { m with curThread := Function.update m.curThread cid none }.notifyDeschedule cid (getPid gid)
  | .execute cid cycles instrs =>
    match m.curThread cid with
    | none => none
    | some gid =>
      if cid < m.numCores ∧ m.phaseEnded = false then some { m with
        coreCycles := Function.update m.coreCycles cid (m.coreCycles cid + cycles)
        coreInstrs := Function.update m.coreInstrs cid (m.coreInstrs cid + instrs)
        executed := Function.update m.executed (getPid gid) (m.executed (getPid gid) + instrs) }
      else none
  | .endPhase => if m.phaseEnded = false then some { m with phaseEnded := true } else none
  | .query p => if Quiesced m then (m.getProcessInstrs p).map Prod.snd else none
  | .nextPhase =>
    if m.phaseEnded = true then some { m with phaseEnded := false, numPhases := m.numPhases + 1 }
    else none

section Totals

/-- The instructions that the processes of a group have executed. -/
def groupTotal (m : Machine) (group : ℕ) : ℕ :=
  (Finset.range m.groupIdx.length).sum fun q => if m.groupIdx[q]? = some group then m.executed q else 0

/-- The instructions of a core that are not yet charged. -/
def unaccounted (m : Machine) (cid : ℕ) : ℕ := m.coreInstrs cid - m.stats.instrs.lastCore cid

/-- The group of the process on a core. -/
def groupOn (m : Machine) (cid : ℕ) : Option ℕ := (m.getScheduledPid cid).bind fun p => m.groupIdx[p]?

/-- The instructions of the group's running threads that are not yet charged. -/
def pending (m : Machine) (group : ℕ) : ℕ :=
  (Finset.range m.numCores).sum fun cid => if groupOn m cid = some group then unaccounted m cid else 0

/-- What holds of the counts at any time. -/
structure Inv (m : Machine) : Prop where
  phase : m.stats.lastUpdatePhase ≤ m.numPhases
  size : m.groupIdx.length ≤ m.maxProcs
  groups : ∀ p group : ℕ, m.groupIdx[p]? = some group → group ≤ p
  exists_proc : ∀ cid p, m.getScheduledPid cid = some p → p < m.groupIdx.length
  cycles : ∀ cid, m.stats.cycles.lastCore cid ≤ m.coreCycles cid
  instrs : ∀ cid, m.stats.instrs.lastCore cid ≤ m.coreInstrs cid
  /-- A core runs only while a thread is scheduled on it. -/
  idle : ∀ cid, m.curThread cid = none → unaccounted m cid = 0
  fresh : ∀ q, m.groupIdx.length ≤ q → m.executed q = 0
  /-- What the cores have been charged for is what the groups have been charged. -/
  slots : (Finset.range m.maxProcs).sum m.stats.instrs.process =
    (Finset.range m.numCores).sum m.stats.instrs.lastCore
  /-- What a group has executed is charged to it or pending. -/
  charged : ∀ group, m.stats.instrs.process group + pending m group = groupTotal m group

end Totals

section Charges

variable {m m' : Machine} {cid p group : ℕ}

/-- A core with a thread runs a process of some group. -/
theorem Inv.exists_group (h : Inv m) (hp : m.getScheduledPid cid = some p) :
    ∃ group, m.groupIdx[p]? = some group ∧ groupOn m cid = some group ∧ group < m.maxProcs := by
  have hlt := h.exists_proc cid p hp
  obtain ⟨group, hgroup⟩ : ∃ group, m.groupIdx[p]? = some group := ⟨_, List.getElem?_eq_getElem hlt⟩
  have hle := h.groups p group hgroup
  have hsize := h.size
  refine ⟨group, hgroup, ?_, by omega⟩
  unfold groupOn
  rw [hp]
  exact hgroup

theorem unaccounted_chargeCore (c : ℕ) :
    unaccounted (m.chargeCore cid group) c = if c = cid then 0 else unaccounted m c := by
  unfold unaccounted Machine.chargeCore Tally.charge
  by_cases hc : c = cid
  · rw [if_pos hc, hc]
    dsimp only
    rw [Function.update_self, Nat.sub_self]
  · rw [if_neg hc]
    dsimp only
    rw [Function.update_of_ne hc]

/-- The charge of a running thread takes from what is pending. -/
theorem Inv.chargeCore (h : Inv m) (hcid : cid < m.numCores) (hgroup : groupOn m cid = some group)
    (hlt : group < m.maxProcs) : Inv (m.chargeCore cid group) where
  phase := h.phase
  size := h.size
  groups := h.groups
  exists_proc := h.exists_proc
  cycles c := by
    dsimp only [Machine.chargeCore, Tally.charge]
    by_cases hc : c = cid
    · rw [hc, Function.update_self]
    · rw [Function.update_of_ne hc]
      exact h.cycles c
  instrs c := by
    dsimp only [Machine.chargeCore, Tally.charge]
    by_cases hc : c = cid
    · rw [hc, Function.update_self]
    · rw [Function.update_of_ne hc]
      exact h.instrs c
  idle c hidle := by
    rw [unaccounted_chargeCore]
    split
    · rfl
    · exact h.idle c hidle
  fresh := h.fresh
  slots := by
    have hprocess := @sum_move m.maxProcs group m.stats.instrs.process
      (m.chargeCore cid group).stats.instrs.process hlt fun j hj => Function.update_of_ne hj ..
    have hcore := @sum_move m.numCores cid m.stats.instrs.lastCore
      (m.chargeCore cid group).stats.instrs.lastCore hcid fun j hj => Function.update_of_ne hj ..
    have hnew : (m.chargeCore cid group).stats.instrs.process group =
        m.stats.instrs.process group + (m.coreInstrs cid - m.stats.instrs.lastCore cid) :=
      Function.update_self ..
    have hlast : (m.chargeCore cid group).stats.instrs.lastCore cid = m.coreInstrs cid :=
      Function.update_self ..
    have hle := h.instrs cid
    have hslots := h.slots
    change (Finset.range m.maxProcs).sum (m.chargeCore cid group).stats.instrs.process =
      (Finset.range m.numCores).sum (m.chargeCore cid group).stats.instrs.lastCore
    omega
  charged i := by
    have hpending : pending (m.chargeCore cid group) i +
        (if groupOn m cid = some i then unaccounted m cid else 0) = pending m i +
          (if groupOn m cid = some i then unaccounted (m.chargeCore cid group) cid else 0) :=
      @sum_move m.numCores cid (fun c => if groupOn m c = some i then unaccounted m c else 0)
        (fun c => if groupOn m c = some i then unaccounted (m.chargeCore cid group) c else 0) hcid
        fun c hc => by rw [unaccounted_chargeCore, if_neg hc]
    have hzero : unaccounted (m.chargeCore cid group) cid = 0 := by
      rw [unaccounted_chargeCore, if_pos rfl]
    rw [hzero, ite_self, Nat.add_zero, hgroup] at hpending
    have hcharged := h.charged i
    change (m.chargeCore cid group).stats.instrs.process i + pending (m.chargeCore cid group) i =
      groupTotal m i
    by_cases hi : i = group
    · have hnew : (m.chargeCore cid group).stats.instrs.process group =
          m.stats.instrs.process group + unaccounted m cid := Function.update_self ..
      rw [if_pos (by rw [hi])] at hpending
      rw [hi] at hpending hcharged ⊢
      omega
    · have hold : (m.chargeCore cid group).stats.instrs.process i = m.stats.instrs.process i :=
        Function.update_of_ne hi ..
      have hne : ¬some group = some i := fun heq => hi (Option.some.inj heq).symm
      rw [if_neg hne] at hpending
      omega

theorem Inv.updateCore (h : Inv m) (hp : m.groupIdx[p]? = some group) :
    m.updateCore cid p = some (m.chargeCore cid group) := by
  unfold Machine.updateCore
  rw [hp]
  exact if_pos ⟨h.cycles cid, h.instrs cid⟩

/-- Nothing but the charges has changed. -/
def SameBut (m m' : Machine) : Prop :=
  m' = { m with stats := { m.stats with cycles := m'.stats.cycles, instrs := m'.stats.instrs } }

/-- The loop of `update` leaves nothing pending on the cores it has visited. -/
theorem Inv.updateLoop (h : Inv m) (l : List ℕ) (hl : ∀ cid ∈ l, cid < m.numCores) :
    ∃ m', l.foldlM updateScheduled m = some m' ∧ Inv m' ∧ SameBut m m' ∧
      ∀ cid, cid ∈ l ∨ unaccounted m cid = 0 → unaccounted m' cid = 0 := by
  induction l generalizing m with
  | nil => exact ⟨m, rfl, h, rfl, fun cid hcid => hcid.resolve_left nofun⟩
  | cons cid l ih =>
    have hcid := hl cid List.mem_cons_self
    have hrest : ∀ c ∈ l, c < m.numCores := fun c hc => hl c (List.mem_cons_of_mem _ hc)
    rw [List.foldlM_cons]
    cases hp : m.getScheduledPid cid with
    | none =>
      have hround : updateScheduled m cid = some m := by
        unfold updateScheduled
        rw [hp]
      have hidle : unaccounted m cid = 0 := h.idle cid (Option.map_eq_none_iff.mp hp)
      obtain ⟨m', hloop, hinv, hsame, hzero⟩ := ih h hrest
      refine ⟨m', by rw [hround]; exact hloop, hinv, hsame, fun c hc => hzero c ?_⟩
      cases hc with
      | inr hc => exact .inr hc
      | inl hc =>
        cases List.mem_cons.mp hc with
        | inl heq => exact .inr (heq ▸ hidle)
        | inr hmem => exact .inl hmem
    | some p =>
      obtain ⟨group, hgroup, hon, hlt⟩ := h.exists_group hp
      have hplt : p < m.maxProcs := (h.exists_proc cid p hp).trans_le h.size
      have hround : updateScheduled m cid = some (m.chargeCore cid group) := by
        unfold updateScheduled
        rw [hp]
        exact (if_pos hplt).trans (h.updateCore hgroup)
      obtain ⟨m', hloop, hinv, hsame, hzero⟩ := ih (h.chargeCore hcid hon hlt) hrest
      refine ⟨m', by rw [hround]; exact hloop, hinv, hsame, fun c hc => hzero c ?_⟩
      rw [unaccounted_chargeCore]
      by_cases hcc : c = cid
      · exact .inr (if_pos hcc)
      · rw [if_neg hcc]
        exact hc.imp_left fun hmem => (List.mem_cons.mp hmem).resolve_left hcc

/-- A query answers, and what it leaves pending was pending at an earlier query
of the phase. -/
theorem Inv.getProcessInstrs (h : Inv m) (hp : p < m.maxProcs) :
    ∃ m', m.getProcessInstrs p = some (m'.stats.instrs.process p, m') ∧ Inv m' ∧
      (∀ i, groupTotal m' i = groupTotal m i) ∧ m'.coreInstrs = m.coreInstrs ∧
      m'.numCores = m.numCores ∧ m'.maxProcs = m.maxProcs ∧
      (m.stats.lastUpdatePhase ≠ m.numPhases → ∀ cid < m.numCores, unaccounted m' cid = 0) ∧
      (m.stats.lastUpdatePhase = m.numPhases → m' = m) := by
  by_cases hphase : m.stats.lastUpdatePhase = m.numPhases
  · refine ⟨m, ?_, h, fun _ => rfl, rfl, rfl, rfl, fun hne => absurd hphase hne, fun _ => rfl⟩
    unfold Machine.getProcessInstrs
    rw [if_neg (not_not.mpr hphase)]
    exact if_pos hp
  · have hlt : m.stats.lastUpdatePhase < m.numPhases := lt_of_le_of_ne h.phase hphase
    obtain ⟨m₁, hloop, hinv, hsame, hzero⟩ :=
      h.updateLoop (List.range m.numCores) fun cid hcid => List.mem_range.mp hcid
    unfold SameBut at hsame
    have hfields : m₁.maxProcs = m.maxProcs ∧ m₁.numCores = m.numCores ∧
        m₁.coreInstrs = m.coreInstrs ∧ m₁.groupIdx = m.groupIdx ∧ m₁.executed = m.executed := by
      rw [hsame]
      exact ⟨rfl, rfl, rfl, rfl, rfl⟩
    obtain ⟨hmax, hcores, hcount, hgroups, hexecuted⟩ := hfields
    refine ⟨{ m₁ with stats := { m₁.stats with lastUpdatePhase := m₁.numPhases } }, ?_, ?_, fun i => ?_,
      hcount, hcores, hmax, fun _ cid hcid => ?_, fun heq => absurd heq hphase⟩
    · unfold Machine.getProcessInstrs Machine.update
      rw [if_pos hphase, if_pos hlt, hloop]
      exact if_pos (hmax.symm ▸ hp)
    · exact ⟨le_rfl, hinv.size, hinv.groups, hinv.exists_proc, hinv.cycles, hinv.instrs, hinv.idle,
        hinv.fresh, hinv.slots, hinv.charged⟩
    · unfold groupTotal
      dsimp only
      rw [hgroups, hexecuted]
    · exact hzero cid (.inl (List.mem_range.mpr hcid))

/-- Only the slots of the table are read. -/
theorem Inv.lt_of_getProcessInstrs {x : ℕ × Machine} (h : Inv m) (hx : m.getProcessInstrs p = some x) :
    p < m.maxProcs := by
  unfold Machine.getProcessInstrs at hx
  obtain ⟨m₁, hm₁, hx⟩ := Option.bind_eq_some_iff.mp hx
  obtain ⟨hp, -⟩ := Option.ite_none_right_eq_some.mp hx
  by_cases hphase : m.stats.lastUpdatePhase = m.numPhases
  · rw [if_neg (not_not.mpr hphase)] at hm₁
    exact Option.some.inj hm₁ ▸ hp
  · rw [if_pos hphase] at hm₁
    obtain ⟨-, hm₁⟩ := Option.ite_none_right_eq_some.mp hm₁
    obtain ⟨m₂, hloop, hm₂⟩ := Option.map_eq_some_iff.mp hm₁
    obtain ⟨m₃, hloop', -, hsame, -⟩ :=
      h.updateLoop (List.range m.numCores) fun cid hcid => List.mem_range.mp hcid
    have heq : m₂ = m₃ := Option.some.inj (hloop.symm.trans hloop')
    unfold SameBut at hsame
    have hmax : m₃.maxProcs = m.maxProcs := hsame ▸ rfl
    rw [← hm₂, heq] at hp
    exact hmax ▸ hp

end Charges

section Steps

variable {m m' : Machine} {cid p group : ℕ} {op : MachineOp}

/-- A core without pending instructions may change its thread. -/
theorem Inv.setThread (h : Inv m) (hzero : unaccounted m cid = 0) {thread : Option ℕ}
    (hthread : ∀ gid, thread = some gid → getPid gid < m.groupIdx.length) :
    Inv { m with curThread := Function.update m.curThread cid thread } where
  phase := h.phase
  size := h.size
  groups := h.groups
  exists_proc c q hq := by
    obtain ⟨gid, hgid, hpid⟩ := Option.map_eq_some_iff.mp hq
    by_cases hc : c = cid
    · rw [hc] at hgid
      dsimp only at hgid
      rw [Function.update_self] at hgid
      exact hpid ▸ hthread gid hgid
    · dsimp only at hgid
      rw [Function.update_of_ne hc] at hgid
      exact h.exists_proc c q (Option.map_eq_some_iff.mpr ⟨gid, hgid, hpid⟩)
  cycles := h.cycles
  instrs := h.instrs
  idle c hidle := by
    by_cases hc : c = cid
    · rw [hc]
      exact hzero
    · dsimp only at hidle
      rw [Function.update_of_ne hc] at hidle
      exact h.idle c hidle
  fresh := h.fresh
  slots := h.slots
  charged i := by
    have hpending : pending { m with curThread := Function.update m.curThread cid thread } i = pending m i := by
      unfold pending
      refine Finset.sum_congr rfl fun c _ => ?_
      by_cases hc : c = cid
      · have hzero' : unaccounted { m with curThread := Function.update m.curThread cid thread } c = 0 :=
          hc ▸ hzero
        rw [hzero', hc, hzero, ite_self, ite_self]
      · have hon : groupOn { m with curThread := Function.update m.curThread cid thread } c = groupOn m c := by
          unfold groupOn Machine.getScheduledPid
          dsimp only
          rw [Function.update_of_ne hc]
        rw [hon]
        rfl
    rw [hpending]
    exact h.charged i

/-- A fork adds a process that has executed nothing. -/
theorem Inv.fork {parent : ℕ} (h : Inv m) (hsize : m.groupIdx.length < m.maxProcs)
    (hparent : m.groupIdx[parent]? = some group) :
    Inv { m with groupIdx := m.groupIdx ++ [group] } := by
  have hold : ∀ q < m.groupIdx.length, (m.groupIdx ++ [group])[q]? = m.groupIdx[q]? :=
    fun q hq => List.getElem?_append_left hq
  have hlen : (m.groupIdx ++ [group]).length = m.groupIdx.length + 1 := by simp
  refine ⟨h.phase, by dsimp only; omega, fun q g hq => ?_, fun c q hq => ?_, h.cycles, h.instrs, h.idle,
    fun q hq => h.fresh q (by dsimp only at hq; omega), h.slots, fun i => ?_⟩
  · dsimp only at hq
    by_cases hlt : q < m.groupIdx.length
    · rw [hold q hlt] at hq
      exact h.groups q g hq
    · have hend : q = m.groupIdx.length := by
        have hq' := (List.getElem?_eq_some_iff.mp hq).1
        omega
      rw [hend, List.getElem?_concat_length] at hq
      have hle := h.groups parent group hparent
      have hlt' := (List.getElem?_eq_some_iff.mp hparent).1
      have hg := Option.some.inj hq
      omega
  · have hq' : q < m.groupIdx.length := h.exists_proc c q hq
    dsimp only
    omega
  · have hon : ∀ c, groupOn { m with groupIdx := m.groupIdx ++ [group] } c = groupOn m c := by
      intro c
      unfold groupOn
      cases hq : m.getScheduledPid c with
      | none =>
        have hq' : getScheduledPid { m with groupIdx := m.groupIdx ++ [group] } c = none := hq
        rw [hq']
        rfl
      | some q =>
        have hq' : getScheduledPid { m with groupIdx := m.groupIdx ++ [group] } c = some q := hq
        rw [hq']
        exact hold q (h.exists_proc c q hq)
    have hpending : pending { m with groupIdx := m.groupIdx ++ [group] } i = pending m i := by
      unfold pending
      refine Finset.sum_congr rfl fun c _ => ?_
      rw [hon]
      rfl
    have htotal : groupTotal { m with groupIdx := m.groupIdx ++ [group] } i = groupTotal m i := by
      unfold groupTotal
      dsimp only
      rw [hlen, Finset.sum_range_succ, h.fresh _ le_rfl, ite_self, Nat.add_zero]
      refine Finset.sum_congr rfl fun q hq => ?_
      rw [hold q (Finset.mem_range.mp hq)]
    rw [hpending, htotal]
    exact h.charged i

/-- What a thread executes is pending for its group. -/
theorem Inv.execute {gid cycles instrs : ℕ} (h : Inv m) (hcid : cid < m.numCores)
    (hgid : m.curThread cid = some gid) : Inv { m with
      coreCycles := Function.update m.coreCycles cid (m.coreCycles cid + cycles)
      coreInstrs := Function.update m.coreInstrs cid (m.coreInstrs cid + instrs)
      executed := Function.update m.executed (getPid gid) (m.executed (getPid gid) + instrs) } := by
  obtain ⟨m', hm'⟩ : ∃ m', m' = { m with
      coreCycles := Function.update m.coreCycles cid (m.coreCycles cid + cycles)
      coreInstrs := Function.update m.coreInstrs cid (m.coreInstrs cid + instrs)
      executed := Function.update m.executed (getPid gid) (m.executed (getPid gid) + instrs) } := ⟨_, rfl⟩
  rw [← hm']
  have hpid : m.getScheduledPid cid = some (getPid gid) := Option.map_eq_some_iff.mpr ⟨gid, hgid, rfl⟩
  obtain ⟨group, hgroup, hon, -⟩ := h.exists_group hpid
  have hlt := h.exists_proc cid _ hpid
  have hstats : m'.stats = m.stats := hm' ▸ rfl
  have hgroups : m'.groupIdx = m.groupIdx := hm' ▸ rfl
  have hthread : m'.curThread = m.curThread := hm' ▸ rfl
  have hcores : m'.numCores = m.numCores := hm' ▸ rfl
  have hcount : m'.coreInstrs cid = m.coreInstrs cid + instrs := hm' ▸ Function.update_self ..
  have hcount' : ∀ c, c ≠ cid → m'.coreInstrs c = m.coreInstrs c := fun c hc =>
    hm' ▸ Function.update_of_ne hc ..
  have hcycles : ∀ c, m.coreCycles c ≤ m'.coreCycles c := by
    intro c
    rw [hm']
    dsimp only
    by_cases hc : c = cid
    · rw [hc, Function.update_self]
      omega
    · rw [Function.update_of_ne hc]
  have hrun : m'.executed (getPid gid) = m.executed (getPid gid) + instrs := hm' ▸ Function.update_self ..
  have hrun' : ∀ q, q ≠ getPid gid → m'.executed q = m.executed q := fun q hq =>
    hm' ▸ Function.update_of_ne hq ..
  have hle := h.instrs cid
  have hsame : ∀ c, c ≠ cid → unaccounted m' c = unaccounted m c := by
    intro c hc
    unfold unaccounted
    rw [hcount' c hc, hstats]
  have hmore : unaccounted m' cid = unaccounted m cid + instrs := by
    unfold unaccounted
    rw [hcount, hstats]
    omega
  have hscheduled : ∀ c, m'.getScheduledPid c = m.getScheduledPid c := by
    intro c
    unfold Machine.getScheduledPid
    rw [hthread]
  have hgroupOn : ∀ c, groupOn m' c = groupOn m c := by
    intro c
    unfold groupOn
    rw [hscheduled, hgroups]
  refine ⟨?_, ?_, ?_, fun c q hq => ?_, fun c => ?_, fun c => ?_, fun c hidle => ?_, fun q hq => ?_, ?_,
    fun i => ?_⟩
  · rw [hstats, show m'.numPhases = m.numPhases from hm' ▸ rfl]
    exact h.phase
  · rw [hgroups, show m'.maxProcs = m.maxProcs from hm' ▸ rfl]
    exact h.size
  · rw [hgroups]
    exact h.groups
  · rw [hscheduled] at hq
    rw [hgroups]
    exact h.exists_proc c q hq
  · rw [hstats]
    exact (h.cycles c).trans (hcycles c)
  · rw [hstats]
    have hlec := h.instrs c
    by_cases hc : c = cid
    · rw [hc, hcount]
      omega
    · rw [hcount' c hc]
      exact hlec
  · rw [hthread] at hidle
    have hc : c ≠ cid := by
      intro heq
      rw [heq, hgid] at hidle
      exact nomatch hidle
    rw [hsame c hc]
    exact h.idle c hidle
  · rw [hgroups] at hq
    rw [hrun' q (by omega)]
    exact h.fresh q hq
  · rw [hstats, hcores, show m'.maxProcs = m.maxProcs from hm' ▸ rfl]
    exact h.slots
  · have hpending := @sum_move m.numCores cid (fun c => if groupOn m c = some i then unaccounted m c else 0)
      (fun c => if groupOn m' c = some i then unaccounted m' c else 0) hcid fun c hc => by
        rw [hsame c hc, hgroupOn]
    have htotal := @sum_move m.groupIdx.length (getPid gid)
      (fun q => if m.groupIdx[q]? = some i then m.executed q else 0)
      (fun q => if m.groupIdx[q]? = some i then m'.executed q else 0) hlt fun q hq => by
        rw [hrun' q hq]
    have hcharged := h.charged i
    have hpending' : pending m' i = (Finset.range m.numCores).sum
        fun c => if groupOn m' c = some i then unaccounted m' c else 0 := by
      unfold pending
      rw [hcores]
    have htotal' : groupTotal m' i = (Finset.range m.groupIdx.length).sum
        fun q => if m.groupIdx[q]? = some i then m'.executed q else 0 := by
      unfold groupTotal
      rw [hgroups]
    unfold pending groupTotal at hcharged
    rw [hpending', htotal', hstats]
    rw [hgroupOn, hon, hmore] at hpending
    rw [hgroup, hrun] at htotal
    by_cases hi : some group = some i
    · rw [if_pos hi, if_pos hi] at hpending htotal
      omega
    · rw [if_neg hi, if_neg hi] at hpending htotal
      omega

/-- Every event keeps the counts. -/
theorem Inv.step (h : Inv m) (hstep : step m op = some m') : Inv m' := by
  cases op with
  | fork parent =>
    obtain ⟨hsize, hstep⟩ := Option.ite_none_right_eq_some.mp hstep
    obtain ⟨group, hgroup, hm'⟩ := Option.map_eq_some_iff.mp hstep
    rw [← hm']
    exact h.fork hsize hgroup
  | schedule gid cid =>
    obtain ⟨⟨-, hidle, hlt⟩, hstep⟩ := Option.ite_none_right_eq_some.mp hstep
    rw [← Option.some.inj hstep]
    refine h.setThread (h.idle cid hidle) fun gid' heq => ?_
    rw [← Option.some.inj heq]
    exact hlt
  | deschedule cid =>
    dsimp only [ProcessCounts.step] at hstep
    cases hgid : m.curThread cid with
    | none =>
      rw [hgid] at hstep
      exact nomatch hstep
    | some gid =>
      rw [hgid] at hstep
      obtain ⟨⟨hcid, -⟩, hstep⟩ := Option.ite_none_right_eq_some.mp hstep
      have hpid : m.getScheduledPid cid = some (getPid gid) := Option.map_eq_some_iff.mpr ⟨gid, hgid, rfl⟩
      obtain ⟨group, hgroup, hon, hlt⟩ := h.exists_group hpid
      have hcharge : Machine.updateCore { m with curThread := Function.update m.curThread cid none } cid
          (getPid gid) = some { m.chargeCore cid group with
            curThread := Function.update m.curThread cid none } := by
        unfold Machine.updateCore
        dsimp only
        rw [hgroup]
        exact if_pos ⟨h.cycles cid, h.instrs cid⟩
      rw [hcharge] at hstep
      rw [← Option.some.inj hstep]
      have hzero : unaccounted (m.chargeCore cid group) cid = 0 := by
        rw [unaccounted_chargeCore, if_pos rfl]
      exact (h.chargeCore hcid hon hlt).setThread hzero fun gid' heq => nomatch heq
  | execute cid cycles instrs =>
    dsimp only [ProcessCounts.step] at hstep
    cases hgid : m.curThread cid with
    | none =>
      rw [hgid] at hstep
      exact nomatch hstep
    | some gid =>
      rw [hgid] at hstep
      obtain ⟨⟨hcid, -⟩, hstep⟩ := Option.ite_none_right_eq_some.mp hstep
      rw [← Option.some.inj hstep]
      exact h.execute hcid hgid
  | endPhase =>
    obtain ⟨-, hstep⟩ := Option.ite_none_right_eq_some.mp hstep
    rw [← Option.some.inj hstep]
    exact ⟨h.phase, h.size, h.groups, h.exists_proc, h.cycles, h.instrs, h.idle, h.fresh, h.slots, h.charged⟩
  | query p =>
    obtain ⟨-, hstep⟩ := Option.ite_none_right_eq_some.mp hstep
    obtain ⟨x, hx, hm'⟩ := Option.map_eq_some_iff.mp hstep
    obtain ⟨m₁, hget, hinv, -⟩ := h.getProcessInstrs (h.lt_of_getProcessInstrs hx)
    rw [hget] at hx
    rw [← hm', ← Option.some.inj hx]
    exact hinv
  | nextPhase =>
    obtain ⟨-, hstep⟩ := Option.ite_none_right_eq_some.mp hstep
    rw [← Option.some.inj hstep]
    exact ⟨h.phase.trans (Nat.le_succ _), h.size, h.groups, h.exists_proc, h.cycles, h.instrs, h.idle,
      h.fresh, h.slots, h.charged⟩

end Steps

section Queries

variable {m m' : Machine} {p group : ℕ}

theorem groupIdxs_le {groupIdx k : ℕ} {l : List Bool} (hle : groupIdx ≤ k) (hpos : 0 < groupIdx) (i : ℕ)
    (h : (groupIdxs groupIdx l)[i]? = some group) : group ≤ k + i := by
  induction l generalizing groupIdx k i with
  | nil => exact nomatch h
  | cons groupWithPrevious l ih =>
    have hgroup : (if groupWithPrevious then groupIdx - 1 else groupIdx) ≤ k := by
      split <;> omega
    cases i with
    | zero => exact (Option.some.inj h) ▸ hgroup
    | succ i =>
      have hrest := ih (Nat.succ_le_succ hgroup) (Nat.succ_pos _) i h
      omega

theorem groupIdxs_length (groupIdx : ℕ) (l : List Bool) : (groupIdxs groupIdx l).length = l.length := by
  induction l generalizing groupIdx with
  | nil => rfl
  | cons groupWithPrevious l ih => exact congrArg (· + 1) (ih _)

/-- The counts hold at the start. -/
theorem inv_init (numCores : ℕ) {maxProcs : ℕ} {groupWithPrevious : List Bool}
    (hsize : groupWithPrevious.length < maxProcs) : Inv (.init numCores maxProcs groupWithPrevious) where
  phase := le_rfl
  size := by
    change (groupIdxs 1 groupWithPrevious).length + 1 ≤ maxProcs
    rw [groupIdxs_length]
    exact hsize
  groups p group h := by
    cases p with
    | zero => exact (Option.some.inj h).symm.le
    | succ i =>
      have hle := groupIdxs_le le_rfl Nat.one_pos i h
      omega
  exists_proc cid p h := nomatch h
  cycles _ := le_rfl
  instrs _ := le_rfl
  idle _ _ := rfl
  fresh _ _ := rfl
  slots := by
    change (Finset.range maxProcs).sum (fun _ => 0) = (Finset.range numCores).sum (fun _ => 0)
    rw [Finset.sum_const_zero, Finset.sum_const_zero]
  charged group := by
    have hpending : pending (.init numCores maxProcs groupWithPrevious) group = 0 :=
      Finset.sum_eq_zero fun cid _ => ite_self _
    have htotal : groupTotal (.init numCores maxProcs groupWithPrevious) group = 0 :=
      Finset.sum_eq_zero fun q _ => ite_self _
    rw [hpending, htotal]
    rfl

/-- A query of a process reads what its group has executed, so that the events
that compare it with a target fire when the group reaches it, and the totals of
the groups add up to those of the cores. -/
structure Charged (m : Machine) (p : ℕ) (m' : Machine) : Prop where
  reads : ∀ group : ℕ, m.groupIdx[p]? = some group → m'.stats.instrs.process p = groupTotal m group
  fires : ∀ group target : ℕ, m.groupIdx[p]? = some group →
    (target ≤ m'.stats.instrs.process p ↔ target ≤ groupTotal m group)
  adds : (Finset.range m'.maxProcs).sum m'.stats.instrs.process =
    (Finset.range m'.numCores).sum m'.coreInstrs

/-- Every query answers with the counts of the process's group. -/
def QueryCharged (m : Machine) : MachineOp → Machine → Prop
  | .query p, m' => p < m.maxProcs →
    m.getProcessInstrs p = some (m'.stats.instrs.process p, m') ∧ Charged m p m'
  | _, _ => True

/-- The process is the one its group is numbered after, or as many instructions
were executed by the group that has its number; and either the query is the
first of its phase, or every running thread has been charged. -/
def ReadsOwn (m : Machine) : MachineOp → Prop
  | .query p => p < m.maxProcs →
    (∀ group : ℕ, m.groupIdx[p]? = some group → group = p ∨ groupTotal m group = groupTotal m p) ∧
    (m.stats.lastUpdatePhase ≠ m.numPhases ∨ ∀ cid < m.numCores, unaccounted m cid = 0)
  | _ => True

/-- What the groups have been charged and what the cores have counted differ by
what the running threads have pending. -/
theorem Inv.adds_iff (h : Inv m) : (Finset.range m.maxProcs).sum m.stats.instrs.process =
      (Finset.range m.numCores).sum m.coreInstrs ↔ ∀ cid < m.numCores, unaccounted m cid = 0 := by
  have hsplit : (Finset.range m.numCores).sum m.coreInstrs =
      (Finset.range m.numCores).sum m.stats.instrs.lastCore +
        (Finset.range m.numCores).sum (unaccounted m) := by
    rw [← Finset.sum_add_distrib]
    refine Finset.sum_congr rfl fun cid _ => ?_
    have hle := h.instrs cid
    unfold unaccounted
    omega
  have hzero : (Finset.range m.numCores).sum (unaccounted m) = 0 ↔
      ∀ cid ∈ Finset.range m.numCores, unaccounted m cid = 0 := Finset.sum_eq_zero_iff
  have hslots := h.slots
  constructor
  · intro heq cid hcid
    exact hzero.mp (by omega) cid (Finset.mem_range.mpr hcid)
  · intro hall
    have hsum := hzero.mpr fun cid hcid => hall cid (Finset.mem_range.mp hcid)
    omega

/-- With nothing pending, a slot holds what the group with its number has executed. -/
theorem Inv.process_eq (h : Inv m) (hzero : ∀ cid < m.numCores, unaccounted m cid = 0) (i : ℕ) :
    m.stats.instrs.process i = groupTotal m i := by
  have hpending : pending m i = 0 := by
    refine Finset.sum_eq_zero fun cid hcid => ?_
    rw [hzero cid (Finset.mem_range.mp hcid), ite_self]
  have hcharged := h.charged i
  omega

/-- A query is right exactly when the process reads its own group. -/
theorem Inv.charged_iff (h : Inv m) {op : MachineOp} (hstep : ProcessCounts.step m op = some m') :
    QueryCharged m op m' ↔ ReadsOwn m op := by
  cases op with
  | query p =>
    obtain ⟨-, hstep⟩ := Option.ite_none_right_eq_some.mp hstep
    obtain ⟨x, hx, hm'⟩ := Option.map_eq_some_iff.mp hstep
    have hp := h.lt_of_getProcessInstrs hx
    obtain ⟨m₁, hget, hinv, htotal, -, hcores, -, hfirst, hsecond⟩ := h.getProcessInstrs hp
    have hm₁ : m₁ = m' := by
      rw [← hm', ← Option.some.inj (hget.symm.trans hx)]
    subst hm₁
    have hpending : (∀ cid < m₁.numCores, unaccounted m₁ cid = 0) ↔
        m.stats.lastUpdatePhase ≠ m.numPhases ∨ ∀ cid < m.numCores, unaccounted m cid = 0 := by
      by_cases hphase : m.stats.lastUpdatePhase = m.numPhases
      · rw [hsecond hphase]
        exact (or_iff_right (not_not.mpr hphase)).symm
      · rw [hcores]
        exact iff_of_true (hfirst hphase) (.inl hphase)
    constructor
    · intro hquery _
      obtain ⟨-, hreads, -, hadds⟩ := hquery hp
      have hzero := hinv.adds_iff.mp hadds
      refine ⟨fun group hgroup => ?_, hpending.mp hzero⟩
      have hread := hreads group hgroup
      rw [hinv.process_eq hzero, htotal] at hread
      exact .inr hread.symm
    · intro hreads _
      obtain ⟨hown, hupdate⟩ := hreads hp
      have hzero := hpending.mpr hupdate
      have hread : ∀ group : ℕ, m.groupIdx[p]? = some group →
          m₁.stats.instrs.process p = groupTotal m group := by
        intro group hgroup
        rw [hinv.process_eq hzero, htotal]
        cases hown group hgroup with
        | inl heq => rw [heq]
        | inr heq => exact heq.symm
      exact ⟨hget, hread, fun group target hgroup => by rw [hread group hgroup], hinv.adds_iff.mpr hzero⟩
  | fork parent => exact Iff.rfl
  | schedule gid cid => exact Iff.rfl
  | deschedule cid => exact Iff.rfl
  | execute cid cycles instrs => exact Iff.rfl
  | endPhase => exact Iff.rfl
  | nextPhase => exact Iff.rfl

/-- In a run, every query is right exactly when every query reads its own
group; and a query of any process would be answered. -/
theorem queries_charged_iff (numCores : ℕ) {maxProcs : ℕ} {groupWithPrevious : List Bool}
    (hsize : groupWithPrevious.length < maxProcs) (ops : List MachineOp) :
    (EveryStep step QueryCharged (.init numCores maxProcs groupWithPrevious) ops ↔
      EveryStep step (fun m op _ => ReadsOwn m op) (.init numCores maxProcs groupWithPrevious) ops) ∧
    ∀ m, run step (.init numCores maxProcs groupWithPrevious) ops = some m →
      ∀ p < m.maxProcs, (m.getProcessInstrs p).isSome := by
  have hiff : ∀ m op m', Inv m → step m op = some m' → (QueryCharged m op m' ↔ ReadsOwn m op) :=
    fun _ _ _ h hstep => h.charged_iff hstep
  have hinv : ∀ m op m', Inv m → step m op = some m' → Inv m' := fun _ _ _ h hstep => h.step hstep
  constructor
  · exact everyStep_iff hiff (fun m op m' h _ hstep => hinv m op m' h hstep) (inv_init numCores hsize)
  · intro m hrun p hp
    have hreached : Inv m := run_invariant hinv (inv_init numCores hsize) hrun
    obtain ⟨m', hget, -⟩ := hreached.getProcessInstrs hp
    rw [hget]
    rfl

/-- The thread of a process runs for a phase, and its process is queried in the next. -/
def runThenQuery (p gid : ℕ) : List MachineOp :=
  [.schedule gid 0, .execute 0 50 100, .endPhase, .nextPhase, .endPhase, .query p]

/-- The first process of a group reads its instructions. -/
theorem first_process_charged : 0 < 64 ∧
    EveryStep step QueryCharged (.init 1 64 []) (runThenQuery 0 0) := by
  have hsize : ([] : List Bool).length < 64 := by decide
  refine ⟨hsize, ((queries_charged_iff 1 hsize _).1).mpr ?_⟩
  refine .cons rfl trivial ?_
  refine .cons rfl trivial ?_
  refine .cons rfl trivial ?_
  refine .cons rfl trivial ?_
  refine .cons rfl trivial ?_
  refine .cons rfl (fun _ => ⟨fun group hgroup => ?_, .inl Nat.zero_ne_one⟩) trivial
  exact .inl (Option.some.inj hgroup).symm

/-- A process grouped with the previous one reads the slot of its own index,
where nothing is charged. -/
theorem grouped_process_uncharged : ¬EveryStep step QueryCharged (.init 1 64 [true])
    (runThenQuery 1 (1 <<< 16)) := by
  intro h
  obtain ⟨m, hm⟩ : ∃ m, run step (.init 1 64 [true])
      [.schedule (1 <<< 16) 0, .execute 0 50 100, .endPhase, .nextPhase, .endPhase] = some m := ⟨_, rfl⟩
  obtain ⟨m', hm'⟩ : ∃ m', step m (.query 1) = some m' := by
    cases hm
    exact ⟨_, rfl⟩
  have hcharged : QueryCharged m (.query 1) m' := h.at hm hm'
  cases hm
  cases hm'
  have hread := (hcharged (by decide)).2.reads 0 rfl
  exact absurd hread (by decide)

end Queries

end Zsim.ProcessCounts
