import Zsim.VantageRounds

/-!
# What a miss does under the Vantage policy

A miss ranks the candidates, replaces the victim and fills it. The ranking
performs one round for each candidate, and the fill moves the line to the
partition that missed, whose clock it advances.
-/

namespace Zsim.VantageMisses

open WeakestPre MemoryHierarchy CheckedTables PartPolicy Outcomes GuardedRuns Selection Vantage
  VantageRuns VantageRounds

/-- What the demotions and the aperture control look at in a partition. -/
def core (i : VantagePartInfo) : VantagePartInfo := { i with curIntervalIns := 0, extendedSize := 0 }

section Core

variable (i : VantagePartInfo)

@[simp] theorem core_size : (core i).size = i.size := rfl

@[simp] theorem core_targetSize : (core i).targetSize = i.targetSize := rfl

@[simp] theorem core_longTermTargetSize : (core i).longTermTargetSize = i.longTermTargetSize := rfl

@[simp] theorem core_curBts : (core i).curBts = i.curBts := rfl

@[simp] theorem core_setpointBts : (core i).setpointBts = i.setpointBts := rfl

@[simp] theorem core_curBtsHits : (core i).curBtsHits = i.curBtsHits := rfl

end Core

/-- A partition after an access to one of its lines. -/
def accessed (i : VantagePartInfo) : VantagePartInfo :=
  if i.size % 2 ^ 32 / 16 ≤ inc32 i.curBtsHits then
    { i with
      curBts := inc64 i.curBts
      setpointBts := inc64 i.setpointBts
      curBtsHits := 0 }
  else { i with curBtsHits := inc32 i.curBtsHits }

theorem accessed_targets (i : VantagePartInfo) : (accessed i).targetSize = i.targetSize ∧
    (accessed i).longTermTargetSize = i.longTermTargetSize := by
  unfold accessed
  split <;> exact ⟨rfl, rfl⟩

/-- The cores of all partitions. -/
def cores (t : Table VantagePartInfo) : ℕ → VantagePartInfo := fun q => core (t.cell q)

section Fill

variable {s : VantageReplPolicy} {id : LineId} {part q : ℕ} {e : PartFailure}
  {Q : Unit → VantageReplPolicy → Prop}

/-- A write of the core of a partition. -/
theorem wp_core {f : VantagePartInfo → VantagePartInfo} (g : VantagePartInfo → VantagePartInfo)
    (hq : q < s.partInfo.length) (hf : ∀ i, core (f i) = g (core i))
    (h : ∀ t, t.length = s.partInfo.length →
      cores t = Function.update (cores s.partInfo) q (g (cores s.partInfo q)) → Q () { s with partInfo := t }) :
    wp (modifyCell partInfo q f e) Q s := by
  refine (wp_modifyCell ..).mpr ⟨hq, h (s.partInfo.set q _) rfl ?_⟩
  have hset := TableCounts.cell_set s.partInfo q (f (s.partInfo.cell q)) core
  rw [hf] at hset
  exact hset

/-- A write of what is not in the core. -/
theorem wp_rest {f : VantagePartInfo → VantagePartInfo} (hq : q < s.partInfo.length)
    (hf : ∀ i, core (f i) = core i)
    (h : ∀ t, t.length = s.partInfo.length → cores t = cores s.partInfo → Q () { s with partInfo := t }) :
    wp (modifyCell partInfo q f e) Q s :=
  wp_core (fun i => i) hq hf fun t hlen ht => h t hlen (ht.trans (Function.update_eq_self ..))

/-- A line has moved to a partition and is its most recent one. -/
def inserted (s : VantageReplPolicy) (part : ℕ) (id : LineId) (bts : ℕ) (t : Table VantagePartInfo) :
    VantageReplPolicy :=
  { s with
    partInfo := t
    array := s.array.set id ⟨(s.array.cell id).addr, s.timestamp, bts, part, part⟩
    timestamp := inc64 s.timestamp }

theorem insertLine_cores (hid : id < s.array.length) (hp : (s.array.cell id).p < s.partInfo.length)
    (hop : (s.array.cell id).op < s.partInfo.length) (hpart : part < s.partInfo.length)
    (hne : (s.array.cell id).p ≠ part) :
    wp (insertLine part id) (fun _ s' => ∃ t, s' = inserted s part id (s.array.cell id).bts t ∧
      t.length = s.partInfo.length ∧
      cores t part = { cores s.partInfo part with size := inc64 (cores s.partInfo part).size } ∧
      ∀ q, q ≠ part → q ≠ (s.array.cell id).p → cores t q = cores s.partInfo q) s := by
  simp only [insertLine, wp_bind, wp_observe, wp_readCell, wp_modifyCell array, wp_change]
  refine ⟨hid, hid, ?_⟩
  refine wp_core (fun i => { i with size := dec64 i.size }) hp (fun _ => rfl) fun t₁ hl₁ h₁ => ?_
  refine wp_rest (hl₁ ▸ hop) (fun _ => rfl) fun t₂ hl₂ h₂ => ?_
  refine ⟨hid, ?_⟩
  refine wp_rest (by rw [hl₂, hl₁]; exact hpart) (fun _ => rfl) fun t₃ hl₃ h₃ => ?_
  refine wp_core (fun i => { i with size := inc64 i.size }) (by rw [hl₃, hl₂, hl₁]; exact hpart)
    (fun _ => rfl) fun t₄ hl₄ h₄ => ?_
  refine wp_rest (by rw [hl₄, hl₃, hl₂, hl₁]; exact hpart) (fun _ => rfl) fun t₅ hl₅ h₅ => ?_
  dsimp only at h₁ h₂ h₃ h₄ h₅ hl₁ hl₂ hl₃ hl₄ hl₅
  have hlen : t₅.length = s.partInfo.length := by rw [hl₅, hl₄, hl₃, hl₂, hl₁]
  rw [wp_touch]
  refine ⟨hlen.symm ▸ hpart, t₅, ?_, hlen, ?_, fun q hq hqp => ?_⟩
  · simp only [inserted, set_set, set_cell_self]
  · rw [h₅, h₄, Function.update_self, h₃, h₂, h₁, Function.update_of_ne hne.symm]
  · rw [h₅, h₄, Function.update_of_ne hq, h₃, h₂, h₁, Function.update_of_ne hqp]

theorem adjustTimestamp_cores (hid : id < s.array.length) (hp : (s.array.cell id).p < s.partInfo.length) :
    wp (adjustTimestamp id) (fun _ s' => ∃ t, t.length = s.partInfo.length ∧
      s' = { s with
        partInfo := t
        array := s.array.set id
          { s.array.cell id with bts := (s.partInfo.cell (s.array.cell id).p).curBts } } ∧
      cores t = Function.update (cores s.partInfo) (s.array.cell id).p
        (accessed (cores s.partInfo (s.array.cell id).p))) s := by
  simp only [adjustTimestamp, wp_bind, wp_readCell, wp_modifyCell array]
  refine ⟨hid, hp, hid, ?_⟩
  refine wp_core (fun i => { i with curBtsHits := inc32 i.curBtsHits }) hp (fun _ => rfl)
    fun t₁ hl₁ h₁ => ?_
  dsimp only at h₁ hl₁ ⊢
  have hcell : core (t₁.cell (s.array.cell id).p) =
      { cores s.partInfo (s.array.cell id).p with
        curBtsHits := inc32 (cores s.partInfo (s.array.cell id).p).curBtsHits } := by
    have hself := congrFun h₁ (s.array.cell id).p
    rw [Function.update_self] at hself
    exact hself
  have hsize : (t₁.cell (s.array.cell id).p).size = (cores s.partInfo (s.array.cell id).p).size := by
    rw [← core_size, hcell]
  have hhits : (t₁.cell (s.array.cell id).p).curBtsHits =
      inc32 (cores s.partInfo (s.array.cell id).p).curBtsHits := by
    rw [← core_curBtsHits, hcell]
  refine ⟨hl₁ ▸ hp, ?_⟩
  rw [wp_ite]
  split
  · next hturn =>
    refine wp_core (fun i => { i with
      curBts := inc64 i.curBts
      setpointBts := inc64 i.setpointBts
      curBtsHits := 0 }) (hl₁ ▸ hp) (fun _ => rfl) fun t₂ hl₂ h₂ => ?_
    refine ⟨t₂, hl₂.trans hl₁, rfl, ?_⟩
    rw [hsize, hhits] at hturn
    rw [h₂]
    dsimp only
    rw [h₁, Function.update_idem, Function.update_self, accessed, if_pos hturn]
  · next hstay =>
    rw [hsize, hhits] at hstay
    rw [wp_pure]
    refine ⟨t₁, hl₁, rfl, ?_⟩
    rw [h₁, accessed, if_neg hstay]

/-- An empty line has been filled for a partition. -/
structure Filled (s : VantageReplPolicy) (part : ℕ) (id : LineId) (t : Table VantagePartInfo) : Prop where
  infos : t.length = s.partInfo.length
  filled : cores t part =
    accessed { cores s.partInfo part with size := inc64 (cores s.partInfo part).size }
  others : ∀ q, q ≠ part → q ≠ (s.array.cell id).p → cores t q = cores s.partInfo q

/-- Filling an empty line of another partition, when no line is to be taken for it. -/
theorem update_fill (draw : ℕ → ℕ) (hid : id < s.array.length) (hempty : (s.array.cell id).ts = 0)
    (hp : (s.array.cell id).p < s.partInfo.length) (hop : (s.array.cell id).op < s.partInfo.length)
    (hpart : part < s.partInfo.length) (hne : (s.array.cell id).p ≠ part) (hmonitor : part < s.monitors)
    (htarget : (s.partInfo.cell part).longTermTargetSize ≤ (s.partInfo.cell part).targetSize) :
    ∃ t, update part 0 draw id s = .ok ((), inserted s part id (s.partInfo.cell part).curBts t) ∧
      Filled s part id t := by
  have hwp : wp (update part 0 draw id) (fun _ s' => ∃ t,
      s' = inserted s part id (s.partInfo.cell part).curBts t ∧ Filled s part id t) s := by
    simp only [update, wp_bind, wp_observe, if_neg (Nat.not_lt_zero _), wp_pure, wp_readCell, hempty,
      missUpdate]
    refine ⟨hid, wp_mono (insertLine_cores hid hp hop hpart hne) fun _ s₁ h₁ => ?_⟩
    obtain ⟨t₁, rfl, hlen₁, hhere, hothers⟩ := h₁
    obtain ⟨htarget₁, hlong₁, hcur⟩ : (t₁.cell part).targetSize = (s.partInfo.cell part).targetSize ∧
        (t₁.cell part).longTermTargetSize = (s.partInfo.cell part).longTermTargetSize ∧
          (t₁.cell part).curBts = (s.partInfo.cell part).curBts := by
      refine ⟨?_, ?_, ?_⟩
      · rw [← core_targetSize, show core (t₁.cell part) = _ from hhere]
        rfl
      · rw [← core_longTermTargetSize, show core (t₁.cell part) = _ from hhere]
        rfl
      · rw [← core_curBts, show core (t₁.cell part) = _ from hhere]
        rfl
    have hpart₁ : part < t₁.length := hlen₁.symm ▸ hpart
    refine ⟨hpart₁, ?_⟩
    rw [wp_ite]
    split
    · next hlt =>
      change (t₁.cell part).targetSize < (t₁.cell part).longTermTargetSize at hlt
      omega
    rw [wp_pure]
    refine ⟨hid, ?_⟩
    rw [wp_monitorAccess]
    have hcell : (inserted s part id (s.array.cell id).bts t₁).array.cell id =
        ⟨(s.array.cell id).addr, s.timestamp, (s.array.cell id).bts, part, part⟩ := set_cell_self ..
    rw [hcell]
    refine ⟨hmonitor, ?_⟩
    refine wp_mono (adjustTimestamp_cores hid (by rw [hcell]; exact hpart₁)) fun _ s' h' => ?_
    obtain ⟨t, hlen, rfl, hcores⟩ := h'
    refine ⟨t, ?_, hlen.trans hlen₁, ?_, fun q hq hqp => ?_⟩
    · rw [hcell]
      simp only [inserted, set_set, hcur]
    · rw [hcores, hcell, Function.update_self]
      exact congrArg accessed hhere
    · rw [hcores, hcell, Function.update_of_ne hq]
      exact hothers q hq hqp
  obtain ⟨⟨⟩, s', hrun, t, rfl, hfilled⟩ := hwp
  exact ⟨t, hrun, hfilled⟩

end Fill

/-- The partition `p` with some of its lines, of which the timestamps are known. -/
structure Kept (p : ℕ) (i : VantagePartInfo) (lines : Set LineId) (bts : LineId → ℕ)
    (s : VantageReplPolicy) : Prop where
  part : p < s.partitions
  info : cores s.partInfo p = i
  kept : ∀ id ∈ lines, id < s.totalSize ∧ (s.array.cell id).ts ≠ 0 ∧ (s.array.cell id).p = p ∧
    (s.array.cell id).bts = bts id

/-- The distance of a line to the current timestamp is at least that of the setpoint. -/
def Distant (i : VantagePartInfo) (bts : ℕ) : Prop :=
  sub64 i.curBts i.setpointBts % 256 ≤ sub64 i.curBts bts % 256

/-- A partition that has lost a line. -/
def lessOne (i : VantagePartInfo) : VantagePartInfo :=
  { i with
    size := dec64 i.size
    curIntervalDems := inc32 i.curIntervalDems }

/-- A partition one of whose lines has been considered. -/
def counted (i : VantagePartInfo) : VantagePartInfo :=
  { i with curIntervalCands := inc32 i.curIntervalCands }

section Rounds

variable {s s' : VantageReplPolicy} {id : LineId} {p : ℕ} {i : VantagePartInfo} {lines : Set LineId}
  {bts : LineId → ℕ} {control : VantagePartInfo → Option Setpoint}

theorem Kept.cell (h : Kept p i lines bts s) : core (s.partInfo.cell p) = i := h.info

/-- The round of a line that is kept is performed. -/
theorem Kept.round (h : Kept p i lines bts s) (hs : Shaped s) (hid : id ∈ lines)
    (hcontrol : 256 ≤ (seen s id).curIntervalCands → control (seen s id) ≠ none) :
    ∃ s', roundStep control s id = some s' ∧ Round control id s s' := by
  obtain ⟨hlt, -⟩ := h.kept id hid
  have hends := @considerDemotion_ends (fun _ => False) s id control (hs.reaches hlt)
    fun hfull hnone => hcontrol hfull hnone
  obtain ⟨⟨⟩, s', hrun, hround⟩ := wp_of_ends hends
  exact ⟨s', roundStep_iff.mpr hrun, hround⟩

theorem Kept.considered (h : Kept p i lines bts s) (hid : id ∈ lines)
    (hlarge : i.targetSize < i.size % 2 ^ 32) : Considered s id := by
  obtain ⟨-, hts, hp, -⟩ := h.kept id hid
  refine ⟨hts, hp.symm ▸ h.part.ne, ?_⟩
  rw [partOf, hp, ← core_size, ← core_targetSize, h.cell]
  exact hlarge

theorem Kept.old_iff (h : Kept p i lines bts s) (hid : id ∈ lines) : Old s id ↔ Distant i (bts id) := by
  obtain ⟨-, -, hp, hbts⟩ := h.kept id hid
  rw [Old, Distant, partOf, hp, hbts, ← h.cell]
  rfl

/-- A demoted line leaves the partition. -/
theorem Kept.demoted (h : Kept p i lines bts s) (hid : id ∈ lines) :
    Kept p (lessOne i) (lines \ {id}) bts (demoted s id) := by
  obtain ⟨-, -, hp, -⟩ := h.kept id hid
  refine ⟨h.part, ?_, fun j hj => ?_⟩
  · rw [← h.cell]
    simp only [cores, VantageRounds.demoted, hp, set_cell_of_ne _ _ _ h.part.ne, set_cell_self, partOf]
    rfl
  · have hne : j ≠ id := fun heq => hj.2 heq
    simp only [VantageRounds.demoted, set_cell_of_ne _ _ _ hne]
    exact h.kept j hj.1

theorem Kept.put (h : Kept p i lines bts s) (j : VantagePartInfo) :
    Kept p (core j) lines bts (putPart s p j) :=
  ⟨h.part, congrArg core (set_cell_self ..), h.kept⟩

/-- The candidate as the aperture control sees it. -/
theorem Kept.seen (h : Kept p i lines bts (afterDemotion s id)) (hp : (s.array.cell id).p = p) :
    core (seen s id) = counted i := by
  rw [VantageRounds.seen, hp, ← h.cell]
  rfl

variable {left : Set LineId} {i₁ : VantagePartInfo}

theorem Kept.seen_cands (h : Kept p i lines bts (afterDemotion s id)) (hp : (s.array.cell id).p = p)
    (hfew : i.curIntervalCands < 256) :
    (VantageRounds.seen s id).curIntervalCands = i.curIntervalCands + 1 := by
  have hsame : (core (VantageRounds.seen s id)).curIntervalCands = inc32 i.curIntervalCands := by
    rw [h.seen hp, counted]
  change (VantageRounds.seen s id).curIntervalCands = _ at hsame
  rw [hsame, inc32, Nat.mod_eq_of_lt (by omega)]

/-- A round inside an interval. -/
theorem Kept.pass (h : Kept p i lines bts s) (hs : Shaped s) (hid : id ∈ lines)
    (hlarge : i.targetSize < i.size % 2 ^ 32) (h₁ : Kept p i₁ left bts (afterDemotion s id))
    (hopen : i₁.curIntervalCands < 255) :
    ∃ s', roundStep control s id = some s' ∧ Kept p (counted i₁) left bts s' := by
  obtain ⟨-, -, hp, -⟩ := h.kept id hid
  have hcands := h₁.seen_cands hp (by omega)
  have hfew : ¬ 256 ≤ (VantageRounds.seen s id).curIntervalCands := by omega
  obtain ⟨s', hstep, hround⟩ := @Kept.round _ _ _ _ _ _ control h hs hid fun hfull => absurd hfull hfew
  refine ⟨s', hstep, ?_⟩
  rw [Round, if_pos (h.considered hid hlarge), if_neg hfew, hp] at hround
  rw [hround, ← h₁.seen hp]
  exact h₁.put _

/-- The last round of an interval, in which the aperture control decides. -/
theorem Kept.close (h : Kept p i lines bts s) (hs : Shaped s) (hid : id ∈ lines)
    (hlarge : i.targetSize < i.size % 2 ^ 32) (h₁ : Kept p i₁ left bts (afterDemotion s id))
    (hlast : i₁.curIntervalCands = 255) (hcore : ∀ j, control (core j) = control j) {sp : Setpoint}
    (hsp : control (counted i₁) = some sp) :
    256 ≤ (VantageRounds.seen s id).curIntervalCands ∧ control (VantageRounds.seen s id) = some sp ∧
      ∃ s', roundStep control s id = some s' ∧ Kept p (adjustSetpoint sp (counted i₁)) left bts s' := by
  obtain ⟨-, -, hp, -⟩ := h.kept id hid
  have hcands := h₁.seen_cands hp (by omega)
  have hfull : 256 ≤ (VantageRounds.seen s id).curIntervalCands := by omega
  have hcontrol : control (VantageRounds.seen s id) = some sp := by
    rw [← hcore, h₁.seen hp, hsp]
  obtain ⟨s', hstep, hround⟩ := @Kept.round _ _ _ _ _ _ control h hs hid fun _ hnone => by
    rw [hcontrol] at hnone
    cases hnone
  refine ⟨hfull, hcontrol, s', hstep, ?_⟩
  rw [Round, if_pos (h.considered hid hlarge), if_pos hfull, hp] at hround
  obtain ⟨sp', hsp', rfl⟩ := hround
  obtain rfl : sp = sp' := Option.some.inj (hcontrol.symm.trans hsp')
  have hput := h₁.put (adjustSetpoint sp (VantageRounds.seen s id))
  rw [← h₁.seen hp]
  exact hput

theorem Kept.young (h : Kept p i lines bts s) (hid : id ∈ lines) (hyoung : ¬ Distant i (bts id)) :
    Kept p i lines bts (afterDemotion s id) := by
  rw [afterDemotion, if_neg fun hold => hyoung ((h.old_iff hid).mp hold)]
  exact h

theorem Kept.old (h : Kept p i lines bts s) (hid : id ∈ lines) (hold : Distant i (bts id)) :
    Kept p (lessOne i) (lines \ {id}) bts (afterDemotion s id) := by
  rw [afterDemotion, if_pos ((h.old_iff hid).mpr hold)]
  exact h.demoted hid

/-- Young lines are only counted. -/
theorem Kept.passes {ids : List LineId} (h : Kept p i lines bts s) (hs : Shaped s)
    (hlarge : i.targetSize < i.size % 2 ^ 32) (hin : ∀ id ∈ ids, id ∈ lines ∧ ¬ Distant i (bts id))
    (hopen : i.curIntervalCands + ids.length ≤ 255) :
    ∃ s', run (roundStep control) s ids = some s' ∧
      Kept p { i with curIntervalCands := i.curIntervalCands + ids.length } lines bts s' := by
  induction ids generalizing s i with
  | nil => exact ⟨s, rfl, h⟩
  | cons id ids ih =>
    rw [List.length_cons] at hopen
    obtain ⟨hid, hyoung⟩ := hin id List.mem_cons_self
    obtain ⟨s₁, hstep, h₁⟩ := @Kept.pass _ _ _ _ _ _ control _ _ h hs hid hlarge (h.young hid hyoung)
      (by omega)
    have hcount : counted i = { i with curIntervalCands := i.curIntervalCands + 1 } := by
      rw [counted, inc32, Nat.mod_eq_of_lt (by omega)]
    rw [hcount] at h₁
    obtain ⟨s', hrun, h'⟩ := ih h₁ (hs.round (round_of_step hstep)) hlarge
      (fun j hj => hin j (List.mem_cons_of_mem id hj)) (by dsimp only; omega)
    refine ⟨s', run_cons.mpr ⟨s₁, hstep, hrun⟩, ?_⟩
    rw [List.length_cons, Nat.add_comm ids.length 1, ← Nat.add_assoc]
    exact h'

/-- Old lines are demoted while the partition is above its target. -/
theorem Kept.demotes {ids : List LineId} (h : Kept p i lines bts s) (hs : Shaped s) (hnodup : ids.Nodup)
    (hlarge : i.targetSize + ids.length ≤ i.size) (hsmall : i.size < 2 ^ 32)
    (hin : ∀ id ∈ ids, id ∈ lines ∧ Distant i (bts id)) (hopen : i.curIntervalCands + ids.length ≤ 255)
    (hdems : i.curIntervalDems + ids.length < 2 ^ 32) :
    ∃ s', run (roundStep control) s ids = some s' ∧ Kept p { i with
      size := i.size - ids.length
      curIntervalDems := i.curIntervalDems + ids.length
      curIntervalCands := i.curIntervalCands + ids.length } (lines \ {id | id ∈ ids}) bts s' := by
  induction ids generalizing s i lines with
  | nil =>
    refine ⟨s, rfl, h.part, h.info, fun id hid => h.kept id hid.1⟩
  | cons id ids ih =>
    rw [List.length_cons] at hlarge hopen hdems
    obtain ⟨hid, hold⟩ := hin id List.mem_cons_self
    obtain ⟨hnew, hnodup⟩ := List.nodup_cons.mp hnodup
    obtain ⟨s₁, hstep, h₁⟩ := @Kept.pass _ _ _ _ _ _ control _ _ h hs hid
      (by rw [Nat.mod_eq_of_lt hsmall]; omega) (h.old hid hold) (by dsimp only [lessOne]; omega)
    have hless : counted (lessOne i) = { i with
        size := i.size - 1
        curIntervalDems := i.curIntervalDems + 1
        curIntervalCands := i.curIntervalCands + 1 } := by
      simp only [counted, lessOne, dec64_of_pos (show 0 < i.size by omega), inc32,
        Nat.mod_eq_of_lt (show i.curIntervalDems + 1 < 2 ^ 32 by omega),
        Nat.mod_eq_of_lt (show i.curIntervalCands + 1 < 2 ^ 32 by omega)]
    rw [hless] at h₁
    have hrest : ∀ j ∈ ids, j ∈ lines \ {id} ∧ Distant i (bts j) := by
      intro j hj
      obtain ⟨hj', hdist⟩ := hin j (List.mem_cons_of_mem id hj)
      exact ⟨⟨hj', fun heq => hnew (heq ▸ hj)⟩, hdist⟩
    obtain ⟨s', hrun, h'⟩ := ih h₁ (hs.round (round_of_step hstep)) hnodup (by dsimp only; omega)
      (by dsimp only; omega) hrest (by dsimp only; omega) (by dsimp only; omega)
    refine ⟨s', run_cons.mpr ⟨s₁, hstep, hrun⟩, ?_⟩
    have hset : lines \ {j | j ∈ id :: ids} = (lines \ {id}) \ {j | j ∈ ids} := by
      ext j
      simp only [Set.mem_sdiff, Set.mem_ofPred_eq, List.mem_cons, Set.mem_singleton_iff]
      tauto
    dsimp only at h'
    rw [hset, List.length_cons, Nat.add_comm ids.length 1, ← Nat.add_assoc, ← Nat.add_assoc, ← Nat.sub_sub]
    exact h'

/-- The info of a partition after an interval in which `n` lines were demoted. -/
def intervalEnd (i : VantagePartInfo) (n : ℕ) : VantagePartInfo :=
  { i with
    size := i.size - n
    curIntervalDems := n
    curIntervalCands := 256 }

/-- An interval of 256 candidates: old lines, which are demoted, and young ones. -/
theorem Kept.interval {olds youngs : List LineId} {sp : Setpoint} (h : Kept p i lines bts s) (hs : Shaped s)
    (hnodup : olds.Nodup) (hold : ∀ id ∈ olds, id ∈ lines ∧ Distant i (bts id))
    (hyoung : ∀ id ∈ youngs, id ∈ lines ∧ ¬ Distant i (bts id)) (hne : olds ≠ [])
    (hlen : olds.length + youngs.length = 256) (hlarge : i.targetSize + olds.length < i.size)
    (hsmall : i.size < 2 ^ 32) (hcands : i.curIntervalCands = 0) (hdems : i.curIntervalDems = 0)
    (hcore : ∀ j, control (core j) = control j) (hsp : control (intervalEnd i olds.length) = some sp) :
    ∃ s', run (roundStep control) s (olds ++ youngs) = some s' ∧
      Kept p (adjustSetpoint sp (intervalEnd i olds.length)) (lines \ {id | id ∈ olds}) bts s' ∧
      ∃ id ∈ olds, (s'.array.cell id).p = s'.partitions := by
  have hout : ∀ {ids : List LineId} {s' : VantageReplPolicy} {id : LineId}, id ∈ lines → Distant i (bts id) →
      run (roundStep control) s (id :: ids) = some s' → (s'.array.cell id).p = s'.partitions := by
    intro ids s' id hid hdist hrun
    obtain ⟨s₁, hstep, hrest⟩ := run_cons.mp hrun
    have hcons := h.considered hid (by rw [Nat.mod_eq_of_lt hsmall]; omega)
    exact (run_lines hrest id).2 ((round_of_step hstep).moves_out hcons ((h.old_iff hid).mpr hdist))
  obtain ⟨d, olds, rfl⟩ := List.exists_cons_of_ne_nil hne
  obtain ⟨hd, hdist⟩ := hold d List.mem_cons_self
  suffices hrun : ∃ s', run (roundStep control) s (d :: olds ++ youngs) = some s' ∧
      Kept p (adjustSetpoint sp (intervalEnd i (d :: olds).length)) (lines \ {id | id ∈ d :: olds}) bts s' by
    obtain ⟨s', hrun, hkept⟩ := hrun
    exact ⟨s', hrun, hkept, d, List.mem_cons_self, hout hd hdist hrun⟩
  obtain rfl | ⟨ys, y, rfl⟩ := List.eq_nil_or_concat' youngs
  · -- the last candidate is the last of the old lines
    obtain hnil | ⟨ds, l, hds⟩ := List.eq_nil_or_concat' (d :: olds)
    · exact absurd hnil hne
    rw [hds] at hnodup hold hlen hlarge hsp ⊢
    rw [List.length_nil, Nat.add_zero, List.length_append, List.length_singleton] at hlen
    rw [List.length_append, List.length_singleton] at hlarge
    have hdisjoint := (List.nodup_append.mp hnodup).2.2
    obtain ⟨s₁, hrun₁, h₁⟩ := @Kept.demotes _ _ _ _ _ control ds h hs (List.nodup_append.mp hnodup).1
      (by omega) hsmall (fun id hid => hold id (List.mem_append_left _ hid)) (by omega) (by omega)
    obtain ⟨hl, hdistl⟩ := hold l (List.mem_append_right _ (List.mem_singleton_self l))
    have hkept : l ∈ lines \ {id | id ∈ ds} := by
      refine ⟨hl, fun hmem => ?_⟩
      exact hdisjoint l hmem l (List.mem_singleton_self l) rfl
    have hend : counted (lessOne { i with
        size := i.size - ds.length
        curIntervalDems := i.curIntervalDems + ds.length
        curIntervalCands := i.curIntervalCands + ds.length }) = intervalEnd i (ds ++ [l]).length := by
      rw [hcands, hdems]
      simp only [counted, lessOne, intervalEnd, List.length_append, List.length_singleton, inc32,
        dec64_of_pos (show 0 < i.size - ds.length by omega), Nat.zero_add, Nat.sub_sub]
      rw [hlen, Nat.mod_eq_of_lt (show 256 < 2 ^ 32 by omega)]
    obtain ⟨-, -, s', hstep, h'⟩ := h₁.close (hs.run hrun₁) hkept
      (by dsimp only; rw [Nat.mod_eq_of_lt (by omega)]; omega) (h₁.old hkept hdistl)
      (by dsimp only [lessOne]; omega) hcore (by rw [hend]; exact hsp)
    rw [List.append_nil]
    refine ⟨s', run_snoc hrun₁ hstep, ?_⟩
    rw [hend] at h'
    have hset : lines \ {id | id ∈ ds ++ [l]} = (lines \ {id | id ∈ ds}) \ {l} := by
      ext j
      simp only [Set.mem_sdiff, Set.mem_ofPred_eq, List.mem_append, List.mem_singleton,
        Set.mem_singleton_iff]
      tauto
    rw [hset]
    exact h'
  · rw [List.length_append, List.length_singleton] at hlen
    obtain ⟨s₁, hrun₁, h₁⟩ := @Kept.demotes _ _ _ _ _ control _ h hs hnodup (by omega) hsmall hold (by omega)
      (by omega)
    have hkept : ∀ id ∈ ys ++ [y], id ∈ lines \ {id | id ∈ d :: olds} ∧ ¬ Distant i (bts id) := by
      intro id hid
      obtain ⟨hin, hnear⟩ := hyoung id hid
      exact ⟨⟨hin, fun hmem => hnear (hold id hmem).2⟩, hnear⟩
    have hlarge₁ : i.targetSize < (i.size - (d :: olds).length) % 2 ^ 32 := by
      rw [Nat.mod_eq_of_lt (by omega)]
      omega
    obtain ⟨s₂, hrun₂, h₂⟩ := @Kept.passes _ _ _ _ _ control ys h₁ (hs.run hrun₁) hlarge₁
      (fun id hid => hkept id (List.mem_append_left _ hid)) (by dsimp only; omega)
    obtain ⟨hy, hnear⟩ := hkept y (List.mem_append_right _ (List.mem_singleton_self y))
    have hend : counted { i with
        size := i.size - (d :: olds).length
        curIntervalDems := i.curIntervalDems + (d :: olds).length
        curIntervalCands := i.curIntervalCands + (d :: olds).length + ys.length } =
          intervalEnd i (d :: olds).length := by
      have hlast : 0 + (d :: olds).length + ys.length = 255 := by omega
      rw [hcands, hdems, hlast]
      simp only [counted, intervalEnd, Nat.zero_add]
      rfl
    obtain ⟨-, -, s', hstep, h'⟩ := h₂.close ((hs.run hrun₁).run hrun₂) hy hlarge₁ (h₂.young hy hnear)
      (by dsimp only; omega) hcore (by rw [hend]; exact hsp)
    refine ⟨s', ?_, ?_⟩
    · rw [← List.append_assoc]
      exact run_snoc (run_append.mpr ⟨s₁, hrun₁, hrun₂⟩) hstep
    · rw [hend] at h'
      exact h'

end Rounds

/-- Between two calls: no line is to be taken from one partition for another. -/
structure Ready (P lines assoc : ℕ) (s : VantageReplPolicy) : Prop where
  sound : Sound P lines assoc s
  idle : s.candIdx = 0
  settled : ∀ q < P, (s.partInfo.cell q).longTermTargetSize ≤ (s.partInfo.cell q).targetSize

/-- The state after the candidates are recorded. -/
def started (s : VantageReplPolicy) (lineAddr : Address) (n : ℕ) (t : Table LineId) :
    VantageReplPolicy :=
  { s with
    incomingLineAddr := lineAddr
    candList := t
    candIdx := n }

section Miss

variable {P lines assoc part : ℕ} {s s₁ s₂ : VantageReplPolicy} {lineAddr : Address} {cands : List LineId}
  {control : VantagePartInfo → Option Setpoint} {r : LineId} {draw : ℕ → ℕ}

theorem recordCandidate_records {id : LineId} (hidx : s.candIdx < s.assoc)
    (hroom : s.candList.length = s.assoc) :
    wp (recordCandidate id) (fun _ s' => ∃ t, s' = started s s.incomingLineAddr (s.candIdx + 1) t ∧
      t.length = s.candList.length ∧ recorded s' = recorded s ++ [id]) s := by
  simp only [recordCandidate, wp_bind, wp_observe, wp_ensure, wp_modifyCell, wp_change]
  refine ⟨hidx, hroom.symm ▸ hidx, _, rfl, rfl, ?_⟩
  simp only [recorded, List.range_succ, List.map_append, List.map_cons, List.map_nil, set_cell_self]
  congr 1
  refine List.map_congr_left fun i hi => ?_
  exact set_cell_of_ne _ _ _ (List.mem_range.mp hi).ne

theorem foldlM_records (hlen : s.candIdx + cands.length ≤ s.assoc) (hroom : s.candList.length = s.assoc) :
    wp (cands.foldlM (fun _ id => recordCandidate id) ()) (fun _ s' => ∃ t,
      s' = started s s.incomingLineAddr (s.candIdx + cands.length) t ∧
      t.length = s.candList.length ∧ recorded s' = recorded s ++ cands) s := by
  induction cands generalizing s with
  | nil => exact ⟨(), s, rfl, s.candList, rfl, rfl, (List.append_nil _).symm⟩
  | cons id cands ih =>
    rw [List.length_cons] at hlen
    rw [List.foldlM_cons, wp_bind]
    refine wp_mono (recordCandidate_records (by omega) hroom) fun _ s₁ h₁ => ?_
    obtain ⟨t₁, rfl, hlen₁, hrec₁⟩ := h₁
    refine wp_mono (ih (by dsimp only [started]; omega) (hlen₁.trans hroom)) fun _ s' h' => ?_
    obtain ⟨t, rfl, hlen', hrec⟩ := h'
    refine ⟨t, ?_, hlen'.trans hlen₁, ?_⟩
    · simp only [started, List.length_cons]
      rw [Nat.add_assoc, Nat.add_comm 1]
    · rw [hrec, hrec₁, List.append_assoc, List.singleton_append]

theorem Ready.candidates (h : Ready P lines assoc s) (hlen : cands.length ≤ assoc) :
    ∃ t, candidates lineAddr cands s = .ok ((), started s lineAddr cands.length t) ∧
      t.length = s.candList.length ∧ recorded (started s lineAddr cands.length t) = cands := by
  obtain ⟨-, -, hassoc, -, hroom, -⟩ := h.sound.geometry
  have hstart : wp (VantageRounds.candidates lineAddr cands) (fun _ s' => ∃ t,
      s' = started s lineAddr cands.length t ∧ t.length = s.candList.length ∧ recorded s' = cands) s := by
    rw [VantageRounds.candidates, wp_bind, startReplacement, wp_change]
    refine wp_mono (foldlM_records ?_ ?_) fun _ s' h' => ?_
    · dsimp only
      rw [h.idle, hassoc]
      omega
    · exact hroom.trans hassoc.symm
    · obtain ⟨t, rfl, hlen', hrec⟩ := h'
      refine ⟨t, ?_, hlen', ?_⟩
      · simp only [started, h.idle, Nat.zero_add]
      · rw [hrec, recorded]
        dsimp only
        rw [h.idle]
        rfl
  obtain ⟨⟨⟩, s', hrun, t, rfl, hlen', hrec⟩ := hstart
  exact ⟨t, hrun, hlen', hrec⟩

theorem Ready.shaped (h : Ready P lines assoc s) (hsmall : lines ≤ 2 ^ 31)
    (hin : ∀ c ∈ cands, c < lines) {t : Table LineId} (ht : t.length = s.candList.length)
    (hrec : recorded (started s lineAddr cands.length t) = cands) :
    Shaped (started s lineAddr cands.length t) := by
  have hshaped := shaped_of_sound h.sound hsmall
  refine ⟨hshaped.lines, hshaped.infos, hshaped.parts, ht.trans hshaped.room, fun i hi => ?_, hshaped.small⟩
  have hmem : (started s lineAddr cands.length t).candList.cell i ∈ cands := by
    rw [← hrec]
    exact List.mem_map_of_mem (List.mem_range.mpr hi)
  rw [started, h.sound.geometry.2.1]
  exact hin _ hmem

/-- A ranking whose rounds can be performed. -/
theorem Ready.rank (h : Ready P lines assoc s) (hsmall : lines ≤ 2 ^ 31) (hne : cands ≠ [])
    (hlen : cands.length ≤ assoc) (hin : ∀ c ∈ cands, c < lines) {t : Table LineId}
    (ht : t.length = s.candList.length) (hrec : recorded (started s lineAddr cands.length t) = cands)
    (hcands : VantageRounds.candidates lineAddr cands s = .ok ((), started s lineAddr cands.length t))
    (hrun : run (roundStep control) (started s lineAddr cands.length t) cands = some s₂) :
    ∃ r, Victim s₂ cands r ∧ step (.ok s) (.rank lineAddr cands control) = some (.ok s₂) := by
  obtain ⟨-, hlines, hassoc, -⟩ := h.sound.geometry
  have hidx : (started s lineAddr cands.length t).candIdx ≤
      (started s lineAddr cands.length t).assoc := hassoc.symm ▸ hlen
  obtain ⟨r, hbest, hvictim⟩ := getBestCandidate_of_run (h.shaped hsmall hin ht hrec)
    (List.length_pos_iff.mpr hne) hidx (by rw [hrec]; exact hrun)
  rw [hrec] at hvictim
  refine ⟨r, hvictim, ?_⟩
  have hlegal : Legal s (.rank lineAddr cands control) := fun c hc => hlines.symm ▸ hin c hc
  have hperform : perform (.rank lineAddr cands control) s = .ok ((), s₂) := by
    rw [perform, rank_eq]
    exact ok_bind ((ok_bind hcands _).trans hbest) _
  rw [step, if_pos hlegal, hperform]
  rfl

/-- The victim has been replaced. -/
def emptied (s : VantageReplPolicy) (id : LineId) : VantageReplPolicy :=
  { s with
    candIdx := 0
    array := s.array.set id { s.array.cell id with
      ts := 0
      bts := 0
      addr := s.incomingLineAddr } }

/-- A victim of the unmanaged region is replaced and filled for a partition. -/
theorem fill_runs (h : Sound P lines assoc s) (hid : r < lines) (hpart : part < P)
    (hp : (s.array.cell r).p = P)
    (hsettled : ∀ q < P, (s.partInfo.cell q).longTermTargetSize ≤ (s.partInfo.cell q).targetSize) :
    ∃ t, run step (.ok s) [.replaced r, .update part 0 draw r] =
        some (.ok (inserted (emptied s r) part r (s.partInfo.cell part).curBts t)) ∧
      Filled (emptied s r) part r t ∧
      Ready P lines assoc (inserted (emptied s r) part r (s.partInfo.cell part).curBts t) := by
  obtain ⟨hP, hlines, -, hmonitors, -⟩ := h.geometry
  have hlen : r < s.array.length := h.line_lt hid
  have hreplaced : step (.ok s) (.replaced r) = some (.ok (emptied s r)) := by
    obtain ⟨⟨⟩, s', hrun, rfl⟩ : wp (replaced r) (fun _ s' => s' = emptied s r) s := by
      simp only [replaced, wp_bind, wp_change, wp_observe, wp_modifyCell]
      exact ⟨hlen, rfl⟩
    have hlegal : Legal s (.replaced r) := by
      rw [Legal, hlines]
      exact hid
    rw [step, if_pos hlegal, perform, hrun]
    rfl
  have hsound₁ : Sound P lines assoc (emptied s r) := by
    have hholds := @step_sound P lines assoc _ _ _ (fun s' hs' => Except.ok.inj hs' ▸ h) hreplaced
    exact hholds _ rfl
  have hinfos : s.partInfo.length = P + 1 := h.book.infos
  have hcell : (emptied s r).array.cell r =
      { s.array.cell r with ts := 0, bts := 0, addr := s.incomingLineAddr } := set_cell_self ..
  have hop : (s.array.cell r).op < P + 1 := h.book.origs r hid
  obtain ⟨t, hrun, hfilled⟩ := @update_fill (emptied s r) r part draw hlen (by rw [hcell])
    (by rw [hcell]; dsimp only [emptied]; omega) (by rw [hcell]; dsimp only [emptied]; omega)
    (by dsimp only [emptied]; omega) (by rw [hcell]; dsimp only; omega)
    (by dsimp only [emptied]; omega) (hsettled part hpart)
  have hupdate : step (.ok (emptied s r)) (.update part 0 draw r) =
      some (.ok (inserted (emptied s r) part r (s.partInfo.cell part).curBts t)) := by
    have hlegal : Legal (emptied s r) (.update part 0 draw r) := ⟨hP.symm ▸ hpart, hlines.symm ▸ hid⟩
    rw [step, if_pos hlegal, perform, hrun]
    rfl
  refine ⟨t, ?_, hfilled, ?_, rfl, fun q hq => ?_⟩
  · rw [run, hreplaced, Option.bind_some, run, hupdate]
    rfl
  · have hholds := @step_sound P lines assoc _ _ _ (fun s' hs' => Except.ok.inj hs' ▸ hsound₁) hupdate
    exact hholds _ rfl
  · have htargets : (core (t.cell q)).targetSize = (s.partInfo.cell q).targetSize ∧
        (core (t.cell q)).longTermTargetSize = (s.partInfo.cell q).longTermTargetSize := by
      by_cases hqp : q = part
      · rw [hqp, show core (t.cell part) = _ from hfilled.filled]
        exact accessed_targets _
      · rw [show core (t.cell q) = _ from hfilled.others q hqp (by rw [hcell]; dsimp only; omega)]
        exact ⟨rfl, rfl⟩
    have hq' := hsettled q hq
    rw [← htargets.1, ← htargets.2] at hq'
    exact hq'

/-- An empty line of the unmanaged region is ranked alone and filled. -/
theorem Ready.fills (h : Ready P lines assoc s) (hsmall : lines ≤ 2 ^ 31) (hassoc : 0 < assoc)
    (hid : r < lines) (hempty : (s.array.cell r).ts = 0) (hp : (s.array.cell r).p = P) (hpart : part < P) :
    ∃ s', run step (.ok s)
        [.rank lineAddr [r] control, .replaced r, .update part 0 draw r] = some (.ok s') ∧
      Ready P lines assoc s' ∧ s'.timestamp = inc64 s.timestamp ∧
      cores s'.partInfo part = accessed { cores s.partInfo part with size := inc64 (cores s.partInfo part).size } ∧
      (∀ j, j ≠ r → s'.array.cell j = s.array.cell j) ∧
      ∃ a, s'.array.cell r = ⟨a, s.timestamp, (s.partInfo.cell part).curBts, part, part⟩ := by
  obtain ⟨t, hcands, ht, hrec⟩ := @Ready.candidates P lines assoc s lineAddr [r] h hassoc
  have hone : ∀ c ∈ [r], c < lines := fun c hc => List.mem_singleton.mp hc ▸ hid
  have hrun : run (roundStep control) (started s lineAddr 1 t) [r] = some (started s lineAddr 1 t) :=
    run_cons.mpr ⟨_, roundStep_empty (h.sound.line_lt hid) hempty, rfl⟩
  obtain ⟨v, hvictim, hrank⟩ := h.rank hsmall (List.cons_ne_nil r []) hassoc hone ht hrec hcands hrun
  obtain rfl := List.mem_singleton.mp hvictim.mem
  have hsound : Sound P lines assoc (started s lineAddr 1 t) := by
    have hholds := @step_sound P lines assoc _ _ _ (fun s' hs' => Except.ok.inj hs' ▸ h.sound) hrank
    exact hholds _ rfl
  obtain ⟨t', hfill, hfilled, hready⟩ := @fill_runs P lines assoc part _ v draw hsound hid hpart hp h.settled
  refine ⟨_, ?_, hready, rfl, hfilled.filled, fun j hj => ?_, ?_⟩
  · exact run_cons.mpr ⟨_, hrank, hfill⟩
  · exact (set_cell_of_ne _ _ _ hj).trans (set_cell_of_ne _ _ _ hj)
  · exact ⟨_, set_cell_self ..⟩

/-- The constructor with percentages. -/
theorem construct_eq {portion slack aperture : ℕ} (hportion : portion ≤ 100) (hslack : slack ≤ 100)
    (haperture : aperture ≤ 100) : construct portion slack aperture s =
      initialise (targetManagedSize s.totalSize portion / s.partitions) s := by
  have hobserve : (observe fun s => s : Act VantageReplPolicy) s = .ok (s, s) := rfl
  rw [construct, ok_bind (ensure_ok hportion _ s), ok_bind (ensure_ok hslack _ s),
    ok_bind (ensure_ok haperture _ s), ok_bind hobserve]

/-- What the constructor leaves: empty partitions at their targets, and empty lines
in the unmanaged region. -/
theorem initialise_cores (target : ℕ) (hinfos : s.partInfo.length = s.partitions + 1)
    (hcells : s.array.length = s.totalSize) :
    wp (initialise target) (fun _ s' => s'.candIdx = s.candIdx ∧ s'.timestamp = s.timestamp ∧
      (∀ q < s.partitions, cores s'.partInfo q =
        { cores s.partInfo q with
          targetSize := target
          longTermTargetSize := target }) ∧
      ∀ j < s.totalSize, (s'.array.cell j).ts = (s.array.cell j).ts ∧
        (s'.array.cell j).p = s.partitions) s := by
  simp only [initialise, wp_bind, wp_observe]
  refine wp_mono (wp_forUpTo (fun n _ s' => ∃ t, s' = { s with partInfo := t } ∧
    t.length = s.partInfo.length ∧ (∀ q, n ≤ q → cores t q = cores s.partInfo q) ∧ ∀ q < n, cores t q =
      { cores s.partInfo q with
        targetSize := target
        longTermTargetSize := target }) ?_ ?_) fun _ s₁ h₁ => ?_
  · intro n _ s' hn h'
    obtain ⟨t, rfl, hlen, hrest, hcores⟩ := h'
    refine wp_core (fun i => { i with targetSize := target, longTermTargetSize := target })
      (by dsimp only; omega) (fun _ => rfl) fun t₁ hlen₁ h₁ => ?_
    dsimp only at h₁ hlen₁
    refine ⟨t₁, rfl, hlen₁.trans hlen, fun q hq => ?_, fun q hq => ?_⟩
    · rw [h₁, Function.update_of_ne (by omega)]
      exact hrest q (by omega)
    · by_cases hqn : q = n
      · rw [hqn, h₁, Function.update_self, hrest n le_rfl]
      · rw [h₁, Function.update_of_ne hqn]
        exact hcores q (by omega)
  · exact ⟨s.partInfo, rfl, rfl, fun _ _ => rfl, fun q hq => absurd hq (Nat.not_lt_zero q)⟩
  · obtain ⟨t, rfl, hlen, -, hcores⟩ := h₁
    refine wp_core (fun i => { i with targetSize := 0, longTermTargetSize := 0 })
      (by dsimp only; omega) (fun _ => rfl) fun t₂ hlen₂ h₂ => ?_
    refine wp_core (fun i => { i with size := s.totalSize }) (by dsimp only at hlen₂ ⊢; omega)
      (fun _ => rfl) fun t₃ hlen₃ h₃ => ?_
    refine wp_mono (wp_forUpTo (fun n _ s' => ∃ a : Table LineInfo,
      s' = { s with partInfo := t₃, array := a } ∧ a.length = s.totalSize ∧
        (∀ j, (a.cell j).ts = (s.array.cell j).ts) ∧ ∀ j < n, (a.cell j).p = s.partitions) ?_ ?_)
      fun _ s₄ h₄ => ?_
    · intro n _ s' hn h'
      obtain ⟨a, rfl, hlena, hts, hp⟩ := h'
      rw [wp_modifyCell]
      refine ⟨hlena.symm ▸ hn, _, rfl, hlena, fun j => ?_, fun j hj => ?_⟩
      · by_cases hjn : j = n
        · rw [hjn, set_cell_self]
          exact hts n
        · rw [set_cell_of_ne _ _ _ hjn]
          exact hts j
      · by_cases hjn : j = n
        · rw [hjn, set_cell_self]
        · rw [set_cell_of_ne _ _ _ hjn]
          exact hp j (by omega)
    · exact ⟨s.array, rfl, hcells, fun _ => rfl, fun j hj => absurd hj (Nat.not_lt_zero j)⟩
    · obtain ⟨a, rfl, -, hts, hp⟩ := h₄
      refine ⟨rfl, rfl, fun q hq => ?_, fun j hj => ⟨hts j, hp j hj⟩⟩
      dsimp only at h₂ h₃ ⊢
      rw [h₃, Function.update_of_ne hq.ne, h₂, Function.update_of_ne hq.ne]
      exact hcores q (by omega)

section Interval

variable {p : ℕ} {i : VantagePartInfo} {kept : Set LineId} {bts : LineId → ℕ}

theorem Kept.started (h : Kept p i kept bts s) (n : ℕ) (t : Table LineId) :
    Kept p i kept bts (started s lineAddr n t) := ⟨h.part, h.info, h.kept⟩

/-- Filling a line for another partition. -/
theorem Kept.filled (h : Kept p i kept bts s) {t : Table VantagePartInfo} {b : ℕ}
    (hp : (s.array.cell r).p ≠ p) (hpart : part ≠ p) (hfilled : Filled (emptied s r) part r t) :
    Kept p i kept bts (inserted (emptied s r) part r b t) := by
  have hcell : ((emptied s r).array.cell r).p = (s.array.cell r).p := by
    rw [emptied, set_cell_self]
  refine ⟨h.part, ?_, fun j hj => ?_⟩
  · have hothers := hfilled.others p hpart.symm (by rw [hcell]; exact hp.symm)
    exact hothers.trans h.info
  · have hne : j ≠ r := fun heq => hp (heq ▸ (h.kept j hj).2.2.1)
    have hsame : (inserted (emptied s r) part r b t).array.cell j = s.array.cell j :=
      (set_cell_of_ne _ _ _ hne).trans (set_cell_of_ne _ _ _ hne)
    rw [hsame]
    exact h.kept j hj

/-- A miss of another partition whose candidates are an interval of the partition `p`. -/
theorem Ready.interval (h : Ready P lines assoc s) (hsmall : lines ≤ 2 ^ 31) (hassoc : 256 ≤ assoc)
    (hpart : part < P) (hne : part ≠ p) (hkept : Kept p i kept bts s) {olds youngs : List LineId}
    {sp : Setpoint} (hnodup : olds.Nodup) (hold : ∀ id ∈ olds, id ∈ kept ∧ Distant i (bts id))
    (hyoung : ∀ id ∈ youngs, id ∈ kept ∧ ¬ Distant i (bts id)) (hnonempty : olds ≠ [])
    (hlen : olds.length + youngs.length = 256) (hlarge : i.targetSize + olds.length < i.size)
    (hsize : i.size < 2 ^ 32) (hcands : i.curIntervalCands = 0) (hdems : i.curIntervalDems = 0)
    (hcore : ∀ j, control (core j) = control j) (hsp : control (intervalEnd i olds.length) = some sp) :
    ∃ r s', run step (.ok s) [.rank lineAddr (olds ++ youngs) control, .replaced r, .update part 0 draw r] =
        some (.ok s') ∧ Ready P lines assoc s' ∧
      Kept p (adjustSetpoint sp (intervalEnd i olds.length)) (kept \ {id | id ∈ olds}) bts s' := by
  obtain ⟨hP, hlines, -⟩ := h.sound.geometry
  have hlength : (olds ++ youngs).length ≤ assoc := by
    rw [List.length_append]
    omega
  obtain ⟨t, hstart, ht, hrec⟩ := @Ready.candidates P lines assoc s lineAddr _ h hlength
  have hmem : ∀ id ∈ olds ++ youngs, id ∈ kept := by
    intro id hid
    cases List.mem_append.mp hid with
    | inl hid => exact (hold id hid).1
    | inr hid => exact (hyoung id hid).1
  have hin : ∀ id ∈ olds ++ youngs, id < lines := fun id hid => hlines ▸ (hkept.kept id (hmem id hid)).1
  have hshaped := h.shaped hsmall hin ht hrec
  obtain ⟨s₂, hrun, h₂, o, ho, hout⟩ := (hkept.started _ t).interval hshaped hnodup hold hyoung hnonempty
    hlen hlarge hsize hcands hdems hcore hsp
  obtain ⟨r, hvictim, hrank⟩ := h.rank hsmall (List.append_ne_nil_of_left_ne_nil hnonempty _) hlength hin
    ht hrec hstart hrun
  have hframe := run_frame hrun
  have hfull : ∀ c ∈ olds ++ youngs, (s₂.array.cell c).ts ≠ 0 := by
    intro c hc
    rw [(run_lines hrun c).1]
    exact (hkept.kept c (hmem c hc)).2.1
  have hr : (s₂.array.cell r).p = P := by
    have hleast := hvictim.cases.2.1 hfull ⟨o, List.mem_append_left _ ho, hout⟩
    have hfilter := (List.mem_filter.mp hleast.1).2
    rw [decide_eq_true_eq, hframe.partitions] at hfilter
    exact hfilter.trans hP
  have hsound : Sound P lines assoc s₂ := by
    have hholds := @step_sound P lines assoc _ _ _ (fun s' hs' => Except.ok.inj hs' ▸ h.sound) hrank
    exact hholds _ rfl
  have hsettled : ∀ q < P, (s₂.partInfo.cell q).longTermTargetSize ≤ (s₂.partInfo.cell q).targetSize := by
    intro q hq
    obtain ⟨htarget, hlong⟩ := run_targets hrun q
    rw [htarget, hlong]
    exact h.settled q hq
  obtain ⟨t', hfill, hfilled, hready⟩ :=
    @fill_runs P lines assoc part _ r draw hsound (hin r hvictim.mem) hpart hr hsettled
  have hpP : p < P := hP ▸ hkept.part
  refine ⟨r, _, run_cons.mpr ⟨_, hrank, hfill⟩, hready, h₂.filled ?_ hne hfilled⟩
  rw [hr]
  exact hpP.ne'

end Interval

end Miss
end Zsim.VantageMisses
