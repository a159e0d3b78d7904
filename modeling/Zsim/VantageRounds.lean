import Zsim.Frames
import Zsim.Selection
import Zsim.VantageRuns
import Mathlib.Data.Prod.Lex

/-!
# A replacement of the Vantage policy

While a victim is sought, every candidate of a partition above its target is
looked at once. One whose coarse-grain timestamp lies far enough back is
demoted, and every 256 candidates the aperture control moves the setpoint. Then
the victim is taken: an empty line, or the least recently used of the unmanaged
candidates, or of all. A ranking is a sequence of such rounds, each of which is
described as one step.
-/

namespace Zsim.VantageRounds

open WeakestPre MemoryHierarchy CheckedTables PartPolicy Outcomes Frames GuardedRuns Selection Vantage
  VantageRuns

/-- The partition of a line. -/
def partOf (s : VantageReplPolicy) (id : LineId) : VantagePartInfo :=
  s.partInfo.cell (s.array.cell id).p

/-- A candidate of a managed partition that is above its target. -/
def Considered (s : VantageReplPolicy) (id : LineId) : Prop :=
  (s.array.cell id).ts ≠ 0 ∧ (s.array.cell id).p ≠ s.partitions ∧
    (partOf s id).targetSize < (partOf s id).size % 2 ^ 32

/-- The distance of the line to the current timestamp, in 8 bits, is at least
that of the setpoint. -/
def Old (s : VantageReplPolicy) (id : LineId) : Prop :=
  sub64 (partOf s id).curBts (partOf s id).setpointBts % 256 ≤
    sub64 (partOf s id).curBts (s.array.cell id).bts % 256

instance (s : VantageReplPolicy) (id : LineId) : Decidable (Considered s id) :=
  inferInstanceAs (Decidable (_ ∧ _ ∧ _))

instance (s : VantageReplPolicy) (id : LineId) : Decidable (Old s id) :=
  inferInstanceAs (Decidable (_ ≤ _))

/-- The line has moved to the unmanaged region. -/
def demoted (s : VantageReplPolicy) (id : LineId) : VantageReplPolicy :=
  let out := s.partInfo.set (s.array.cell id).p
    { partOf s id with
      size := dec64 (partOf s id).size
      curIntervalDems := inc32 (partOf s id).curIntervalDems }
  { s with
    partInfo := out.set s.partitions
      { out.cell s.partitions with size := inc64 (out.cell s.partitions).size }
    array := s.array.set id { s.array.cell id with p := s.partitions } }

/-- Write the info of a partition. -/
def putPart (s : VantageReplPolicy) (p : ℕ) (i : VantagePartInfo) : VantageReplPolicy :=
  { s with partInfo := s.partInfo.set p i }

/-- After the demotion. -/
def afterDemotion (s : VantageReplPolicy) (id : LineId) : VantageReplPolicy :=
  if Old s id then demoted s id else s

/-- The info of the candidate's former partition once the candidate is counted. -/
def seen (s : VantageReplPolicy) (id : LineId) : VantagePartInfo :=
  let i := (afterDemotion s id).partInfo.cell (s.array.cell id).p
  { i with curIntervalCands := inc32 i.curIntervalCands }

/-- What one round of the demotion loop does. -/
def Round (control : VantagePartInfo → Option Setpoint) (id : LineId)
    (s s' : VantageReplPolicy) : Prop :=
  if Considered s id then
    if 256 ≤ (seen s id).curIntervalCands then
      ∃ sp, control (seen s id) = some sp ∧
        s' = putPart (afterDemotion s id) (s.array.cell id).p (adjustSetpoint sp (seen s id))
    else s' = putPart (afterDemotion s id) (s.array.cell id).p (seen s id)
  else s' = s

/-- Writes to two cells. -/
theorem set_comm {α : Type} {t : Table α} {i j : ℕ} {v w : α} (h : i ≠ j) :
    (t.set i v).set j w = (t.set j w).set i v := by
  simp only [Table.set, Function.update_comm h]

section Rounds

variable {E : PartFailure → Prop} {s s' : VantageReplPolicy} {id : LineId}
  {control : VantagePartInfo → Option Setpoint}

/-- Where a round may access the tables, or may fail to. -/
structure Reaches (E : PartFailure → Prop) (s : VantageReplPolicy) (id : LineId) : Prop where
  line : ¬ id < s.array.length → E .badCandidate
  info : ¬ (s.array.cell id).p < s.partInfo.length → E .outside
  unmanaged : ¬ s.partitions < s.partInfo.length → E .outside

theorem demote_ends (h : Reaches E s id) (hne : (s.array.cell id).p ≠ s.partitions) :
    ends E (demote (s.array.cell id).p id) (fun _ s' => s' = demoted s id) s := by
  simp only [demote, ends_bind, ends_observe, ends_modifyCell, set_length]
  refine ⟨fun _ => ⟨fun _ => ⟨fun _ => ⟨fun _ => ?_, h.info⟩, h.unmanaged⟩, h.line⟩, h.info⟩
  simp only [demoted, partOf, set_cell_self, set_cell_of_ne _ _ _ hne,
    set_cell_of_ne _ _ _ hne.symm, set_comm hne.symm, set_set]

@[simp] theorem afterDemotion_info_length : (afterDemotion s id).partInfo.length = s.partInfo.length := by
  unfold afterDemotion
  split <;> rfl

/-- A round does what it says, and fails only where it may. -/
theorem considerDemotion_ends (h : Reaches E s id) (hslope : 256 ≤ (seen s id).curIntervalCands →
    control (seen s id) = none → E .slope) :
    ends E (considerDemotion control id) (fun _ s' => Round control id s s') s := by
  rw [considerDemotion, ends_bind, ends_observe, ends_bind, ends_readCell]
  refine ⟨fun _ => ?_, h.line⟩
  rw [ends_ite]
  split
  · next hskip =>
    have hnot : ¬ Considered s id := by
      rintro ⟨hts, hp, -⟩
      cases hskip with
      | inl h0 => exact hts h0
      | inr hu => exact hp hu
    exact (if_neg hnot).mpr rfl
  · next hmanaged =>
    rw [not_or] at hmanaged
    obtain ⟨hts, hne⟩ := hmanaged
    rw [ends_bind, ends_readCell]
    refine ⟨fun hp => ?_, h.info⟩
    rw [ends_ite]
    split
    · next hsmall =>
      have hnot : ¬ Considered s id := fun hc => absurd hc.2.2 (not_lt.mpr hsmall)
      exact (if_neg hnot).mpr rfl
    · next hlarge =>
      have hcons : Considered s id := ⟨hts, hne, not_le.mp hlarge⟩
      have hafter : ends E (if Old s id then demote (s.array.cell id).p id else pure ())
          (fun _ s₁ => s₁ = afterDemotion s id) s := by
        rw [ends_ite, afterDemotion]
        split
        · exact demote_ends h hne
        · rfl
      rw [ends_bind]
      refine ends_mono hafter fun _ s₁ hs₁ => ?_
      subst hs₁
      have hinfo : (s.array.cell id).p < (afterDemotion s id).partInfo.length := by
        rw [afterDemotion_info_length]
        exact hp
      have hround : Round control id s = fun s' => if 256 ≤ (seen s id).curIntervalCands then
          ∃ sp, control (seen s id) = some sp ∧
            s' = putPart (afterDemotion s id) (s.array.cell id).p (adjustSetpoint sp (seen s id))
          else s' = putPart (afterDemotion s id) (s.array.cell id).p (seen s id) := by
        funext s'
        exact if_pos hcons
      rw [hround, ends_bind, ends_modifyCell_of_lt hinfo, ends_bind,
        ends_readCell_of_lt (by rw [set_length]; exact hinfo), set_cell_self]
      change ends E (if 256 ≤ (seen s id).curIntervalCands then _ else pure ()) _
        (putPart (afterDemotion s id) (s.array.cell id).p (seen s id))
      split
      · next hfull =>
        split
        · next hcontrol => exact hslope hfull hcontrol
        · next sp hcontrol =>
          rw [ends_modifyCell_of_lt (by rw [putPart, set_length]; exact hinfo)]
          refine ⟨sp, hcontrol, ?_⟩
          simp only [putPart, set_cell_self, set_set]
      · rfl

/-- Demotion leaves targets and timestamps alone. -/
theorem afterDemotion_part (q : ℕ) :
    ((afterDemotion s id).partInfo.cell q).curBts = (s.partInfo.cell q).curBts ∧
      ((afterDemotion s id).partInfo.cell q).setpointBts = (s.partInfo.cell q).setpointBts ∧
        ((afterDemotion s id).partInfo.cell q).targetSize = (s.partInfo.cell q).targetSize ∧
          ((afterDemotion s id).partInfo.cell q).longTermTargetSize =
            (s.partInfo.cell q).longTermTargetSize := by
  unfold afterDemotion
  split
  · simp only [demoted, partOf]
    by_cases hu : q = s.partitions
    · by_cases hp : s.partitions = (s.array.cell id).p
      · simp only [hu, set_cell_self, ← hp]
        exact ⟨trivial, trivial, trivial, trivial⟩
      · simp only [hu, set_cell_self, set_cell_of_ne _ _ _ hp]
        exact ⟨trivial, trivial, trivial, trivial⟩
    · rw [set_cell_of_ne _ _ _ hu]
      by_cases hp : q = (s.array.cell id).p
      · simp only [hp, set_cell_self]
        exact ⟨trivial, trivial, trivial, trivial⟩
      · simp only [set_cell_of_ne _ _ _ hp]
        exact ⟨trivial, trivial, trivial, trivial⟩
  · exact ⟨rfl, rfl, rfl, rfl⟩

/-- The state a round leaves, in one form: the adjustment may do nothing. -/
theorem Round.shape (h : Round control id s s') :
    (¬ Considered s id ∧ s' = s) ∨ (Considered s id ∧ ∃ i : VantagePartInfo,
      s' = putPart (afterDemotion s id) (s.array.cell id).p i ∧
        i.size = ((afterDemotion s id).partInfo.cell (s.array.cell id).p).size ∧
        i.targetSize = (partOf s id).targetSize ∧
          i.longTermTargetSize = (partOf s id).longTermTargetSize) := by
  unfold Round at h
  obtain ⟨-, -, htarget, hlong⟩ := @afterDemotion_part s id (s.array.cell id).p
  split at h
  · next hcons =>
    refine Or.inr ⟨hcons, ?_⟩
    split at h
    · obtain ⟨sp, -, rfl⟩ := h
      exact ⟨_, rfl, rfl, htarget, hlong⟩
    · exact ⟨_, h, rfl, htarget, hlong⟩
  · next hcons => exact Or.inl ⟨hcons, h⟩

end Rounds

/-- A round moves its candidate to the unmanaged region or moves no line. It
takes a line from a partition that has more than its target, and leaves it that. -/
structure Demotion (s : VantageReplPolicy) (id : LineId) (s' : VantageReplPolicy) : Prop where
  lines : ∀ j, s'.array.cell j = s.array.cell j ∨
    (j = id ∧ Considered s id ∧ Old s id ∧ s'.array.cell j = { s.array.cell j with p := s.partitions })
  sizes : ∀ q, q ≠ s.partitions → (s'.partInfo.cell q).size = (s.partInfo.cell q).size ∨
    (q = (s.array.cell id).p ∧ Considered s id ∧ Old s id ∧
      (s'.partInfo.cell q).size + 1 = (s.partInfo.cell q).size ∧
        (s'.partInfo.cell q).targetSize ≤ (s'.partInfo.cell q).size)

/-- What no round changes. -/
structure SameFrame (s s' : VantageReplPolicy) : Prop where
  partitions : s'.partitions = s.partitions
  totalSize : s'.totalSize = s.totalSize
  assoc : s'.assoc = s.assoc
  candList : s'.candList = s.candList
  candIdx : s'.candIdx = s.candIdx
  infos : s'.partInfo.length = s.partInfo.length
  lines : s'.array.length = s.array.length

section Demotions

variable {s s' s'' : VantageReplPolicy} {id : LineId} {control : VantagePartInfo → Option Setpoint}

theorem SameFrame.refl (s : VantageReplPolicy) : SameFrame s s := ⟨rfl, rfl, rfl, rfl, rfl, rfl, rfl⟩

theorem SameFrame.trans (h : SameFrame s s') (h' : SameFrame s' s'') : SameFrame s s'' :=
  ⟨h'.partitions.trans h.partitions, h'.totalSize.trans h.totalSize, h'.assoc.trans h.assoc,
    h'.candList.trans h.candList, h'.candIdx.trans h.candIdx, h'.infos.trans h.infos,
    h'.lines.trans h.lines⟩

theorem Round.frame (h : Round control id s s') : SameFrame s s' := by
  obtain ⟨-, rfl⟩ | ⟨-, i, rfl, -⟩ := h.shape
  · exact SameFrame.refl _
  · unfold putPart afterDemotion
    split <;> exact ⟨rfl, rfl, rfl, rfl, rfl, rfl, rfl⟩

/-- A round leaves the targets alone. -/
theorem Round.targets (h : Round control id s s') (q : ℕ) :
    (s'.partInfo.cell q).targetSize = (s.partInfo.cell q).targetSize ∧
      (s'.partInfo.cell q).longTermTargetSize = (s.partInfo.cell q).longTermTargetSize := by
  obtain ⟨-, rfl⟩ | ⟨-, i, rfl, -, htarget, hlong⟩ := h.shape
  · exact ⟨rfl, rfl⟩
  · by_cases hq : q = (s.array.cell id).p
    · rw [hq, putPart, set_cell_self]
      exact ⟨htarget, hlong⟩
    · rw [putPart, set_cell_of_ne _ _ _ hq]
      exact (afterDemotion_part q).2.2

theorem Round.demotion (h : Round control id s s') : Demotion s id s' := by
  obtain ⟨-, rfl⟩ | ⟨hcons, i, rfl, hsize, htarget, -⟩ := h.shape
  · exact ⟨fun _ => Or.inl rfl, fun _ _ => Or.inl rfl⟩
  · obtain ⟨hts, hne, hlarge⟩ := hcons
    have hcons : Considered s id := ⟨hts, hne, hlarge⟩
    by_cases hold : Old s id
    · rw [afterDemotion, if_pos hold] at hsize ⊢
      have hpos : 0 < (partOf s id).size := Nat.pos_of_ne_zero fun h0 => by
        rw [h0] at hlarge
        exact absurd hlarge (Nat.not_lt_zero _)
      have hout : i.size + 1 = (partOf s id).size := by
        rw [hsize]
        simp only [demoted, set_cell_of_ne _ _ _ hne, set_cell_self, dec64_of_pos hpos]
        omega
      constructor
      · intro j
        by_cases hj : j = id
        · subst hj
          exact Or.inr ⟨rfl, hcons, hold, set_cell_self ..⟩
        · exact Or.inl (set_cell_of_ne _ _ _ hj)
      · intro q hq
        by_cases hqp : q = (s.array.cell id).p
        · right
          subst hqp
          have hcell : ((putPart (demoted s id) (s.array.cell id).p i).partInfo.cell
              (s.array.cell id).p) = i := set_cell_self ..
          rw [hcell]
          have hmod := Nat.mod_le (partOf s id).size (2 ^ 32)
          exact ⟨rfl, hcons, hold, hout, by omega⟩
        · left
          simp only [putPart, demoted, set_cell_of_ne _ _ _ hqp, set_cell_of_ne _ _ _ hq]
    · rw [afterDemotion, if_neg hold] at hsize ⊢
      refine ⟨fun _ => Or.inl rfl, fun q _ => Or.inl ?_⟩
      by_cases hqp : q = (s.array.cell id).p
      · subst hqp
        have hcell : ((putPart s (s.array.cell id).p i).partInfo.cell (s.array.cell id).p) = i :=
          set_cell_self ..
        rw [hcell, hsize]
      · simp only [putPart, set_cell_of_ne _ _ _ hqp]

end Demotions

/-- The tables are whole, the candidates are lines, and a line's number is an `int32_t`. -/
structure Shaped (s : VantageReplPolicy) : Prop where
  lines : s.array.length = s.totalSize
  infos : s.partInfo.length = s.partitions + 1
  parts : ∀ i < s.totalSize, (s.array.cell i).p ≤ s.partitions
  room : s.candList.length = s.assoc
  cands : ∀ i < s.candIdx, s.candList.cell i < s.totalSize
  small : s.totalSize ≤ 2 ^ 31

/-- The recorded candidates. -/
def recorded (s : VantageReplPolicy) : List LineId := (List.range s.candIdx).map s.candList.cell

/-- One round as a step. -/
def roundStep (control : VantagePartInfo → Option Setpoint) (s : VantageReplPolicy) (id : LineId) :
    Option VantageReplPolicy :=
  match considerDemotion control id s with
  | .ok (_, s') => some s'
  | .error _ => none

/-- The demotion loop over the first `n` candidates. -/
def rounds (control : VantagePartInfo → Option Setpoint) (n : ℕ) : Act Unit :=
  forUpTo (fun i _ => do
    let id ← readCell candList i .badCandidate
    considerDemotion control id) n ()

/-- The search for the victim after the demotions; `s` is the state before them. -/
def search (s : VantageReplPolicy) : Act LineId := do
  let first ← readCell candList 0 .badCandidate
  let r ← forUpTo (fun i (r : ℤ × Bool) =>
    if r.2 = true then pure r
    else do
      let id ← readCell candList i .badCandidate
      let e ← readCell array id .badCandidate
      ensure (0 ≤ r.1) .badCandidate
      let best ← readCell array r.1.toNat .badCandidate
      pure (if e.ts = 0 then (WayPart.int32 id, true)
        else if better s.partitions e best = true then (WayPart.int32 id, false) else r))
    s.candIdx (WayPart.int32 first, false)
  ensure (0 ≤ r.1 ∧ r.1.toNat < s.totalSize) .badCandidate
  pure r.1.toNat

theorem getBestCandidate_eq (control : VantagePartInfo → Option Setpoint) :
    getBestCandidate control = (do
      let s ← observe fun s => s
      ensure (0 < s.candIdx) .noCandidate
      ensure (s.candIdx ≤ s.assoc) .manyCandidates
      rounds control s.candIdx
      search s) := rfl

/-- A ranking up to the demotions. -/
def candidates (lineAddr : Address) (cands : List LineId) : Act Unit := do
  startReplacement lineAddr
  cands.foldlM (fun _ id => recordCandidate id) ()

/-- The order of the victims: the unmanaged region first, then by last use. -/
def victimKey (s : VantageReplPolicy) (id : LineId) : ℕ ×ₗ ℕ :=
  toLex (if (s.array.cell id).p = s.partitions then 0 else 1, (s.array.cell id).ts)

/-- The victim: the first empty candidate, or else the first of the least recently
used of the unmanaged ones, or of all when none is unmanaged. -/
def Victim (s : VantageReplPolicy) (cands : List LineId) (r : LineId) : Prop :=
  cands.find? (fun c => (s.array.cell c).ts == 0) = some r ∨
    ((∀ c ∈ cands, (s.array.cell c).ts ≠ 0) ∧ FirstLeast (victimKey s) cands r)

/-- The states of every run are of this shape. -/
theorem shaped_of_sound {P lines assoc : ℕ} {s : VantageReplPolicy} (h : Sound P lines assoc s)
    (hsmall : lines ≤ 2 ^ 31) : Shaped s := by
  obtain ⟨hP, hlines, hassoc, -, hroom, hcands⟩ := h.geometry
  refine ⟨?_, ?_, fun i hi => ?_, hroom.trans hassoc.symm, ?_, ?_⟩
  · rw [hlines, h.book.cells]
  · rw [hP, h.book.infos]
  · have hp : classes s.array i < P + 1 := h.book.parts i (hlines ▸ hi)
    rw [hP]
    exact Nat.lt_succ_iff.mp hp
  · rw [hlines]
    exact hcands
  · rw [hlines]
    exact hsmall

section Decision

variable {E : PartFailure → Prop} {s s' s₁ : VantageReplPolicy} {id : LineId}
  {control : VantagePartInfo → Option Setpoint} {cands : List LineId} {n : ℕ}

theorem roundStep_iff : roundStep control s id = some s' ↔ considerDemotion control id s = .ok ((), s') := by
  unfold roundStep
  cases h : considerDemotion control id s with
  | error e => simp
  | ok x =>
    obtain ⟨⟨⟩, s₁⟩ := x
    simp

theorem round_of_step (h : roundStep control s id = some s') : Round control id s s' := by
  have hends := @considerDemotion_ends (fun _ => True) s id control
    ⟨fun _ => trivial, fun _ => trivial, fun _ => trivial⟩ (fun _ _ => trivial)
  unfold ends at hends
  rwa [roundStep_iff.mp h] at hends

theorem Shaped.round (h : Shaped s) (hr : Round control id s s') : Shaped s' := by
  have hf := hr.frame
  have hd := hr.demotion
  constructor
  · rw [hf.lines, hf.totalSize, h.lines]
  · rw [hf.infos, hf.partitions, h.infos]
  · intro j hj
    rw [hf.totalSize] at hj
    have hp := h.parts j hj
    rw [hf.partitions]
    obtain hsame | ⟨-, -, -, hmoved⟩ := hd.lines j
    · rwa [hsame]
    · rw [hmoved]
  · rw [hf.candList, hf.assoc, h.room]
  · rw [hf.candList, hf.candIdx, hf.totalSize]
    exact h.cands
  · rw [hf.totalSize]
    exact h.small

theorem Shaped.reaches (h : Shaped s) (hid : id < s.totalSize) : Reaches E s id := by
  have hp := h.parts id hid
  refine ⟨fun hno => absurd ?_ hno, fun hno => absurd ?_ hno, fun hno => absurd ?_ hno⟩
  · rw [h.lines]
    exact hid
  · rw [h.infos]
    omega
  · rw [h.infos]
    omega

theorem rank_eq (lineAddr : Address) :
    rank control lineAddr cands = candidates lineAddr cands >>= fun _ => getBestCandidate control := by
  rw [candidates, bind_assoc]
  rfl

theorem run_snoc {ids : List LineId} (h : run (roundStep control) s ids = some s₁)
    (hstep : roundStep control s₁ id = some s') : run (roundStep control) s (ids ++ [id]) = some s' :=
  run_append.mpr ⟨s₁, h, run_cons.mpr ⟨s', hstep, rfl⟩⟩

/-- The demotion loop performs one round for each recorded candidate. -/
theorem rounds_ends (h : Shaped s) (hslope : ∀ i, control i = none → E .slope)
    (hassoc : s.candIdx ≤ s.assoc) (hn : n ≤ s.candIdx) :
    ends E (forUpTo (fun i _ => do
      let id ← readCell candList i .badCandidate
      considerDemotion control id) n ()) (fun _ s' => Shaped s' ∧ SameFrame s s' ∧
        run (roundStep control) s ((List.range n).map s.candList.cell) = some s') s := by
  refine ends_forUpTo (fun n _ s' => Shaped s' ∧ SameFrame s s' ∧
    run (roundStep control) s ((List.range n).map s.candList.cell) = some s') ?_ ?_
  · intro i _ s₁ hi h₁
    obtain ⟨hshaped, hframe, hrun⟩ := h₁
    have hlen : i < s₁.candList.length := by
      rw [hframe.candList, h.room]
      omega
    have hid : s₁.candList.cell i < s₁.totalSize := by
      rw [hframe.candList, hframe.totalSize]
      exact h.cands i (by omega)
    rw [ends_bind, ends_readCell_of_lt hlen]
    refine ends_mono (ends_run (considerDemotion_ends (hshaped.reaches hid) fun _ => hslope _)) fun _ s' hs' => ?_
    obtain ⟨hround, hok⟩ := hs'
    refine ⟨hshaped.round hround, hframe.trans hround.frame, ?_⟩
    rw [List.range_succ, List.map_append, List.map_cons, List.map_nil, ← hframe.candList]
    rw [← hframe.candList] at hrun
    exact run_snoc hrun (roundStep_iff.mpr hok)
  · exact ⟨h, SameFrame.refl s, rfl⟩

theorem round_frame (h : roundStep control s id = some s') : SameFrame s s' := (round_of_step h).frame

theorem run_frame {ids : List LineId} (h : run (roundStep control) s ids = some s') : SameFrame s s' :=
  @run_invariant _ _ _ (SameFrame s) (fun _ _ _ h₁ h₂ => h₁.trans (round_frame h₂)) _ _ _ (SameFrame.refl s) h

theorem run_targets {ids : List LineId} (h : run (roundStep control) s ids = some s') (q : ℕ) :
    (s'.partInfo.cell q).targetSize = (s.partInfo.cell q).targetSize ∧
      (s'.partInfo.cell q).longTermTargetSize = (s.partInfo.cell q).longTermTargetSize := by
  refine @run_invariant _ _ _ (fun s₁ : VantageReplPolicy =>
    (s₁.partInfo.cell q).targetSize = (s.partInfo.cell q).targetSize ∧
      (s₁.partInfo.cell q).longTermTargetSize = (s.partInfo.cell q).longTermTargetSize) ?_ _ _ _ ⟨rfl, rfl⟩ h
  intro s₁ id s₂ h₁ hstep
  obtain ⟨htarget, hlong⟩ := (round_of_step hstep).targets q
  exact ⟨htarget.trans h₁.1, hlong.trans h₁.2⟩

/-- A loop that returns has performed its rounds. -/
theorem rounds_begun (n : ℕ) : ends (fun _ => True) (rounds control n) (fun _ s' =>
    run (roundStep control) s ((List.range n).map s.candList.cell) = some s') s := by
  refine ends_forUpTo (fun n _ s' =>
    run (roundStep control) s ((List.range n).map s.candList.cell) = some s') ?_ rfl
  intro i _ s₁ _ hrun
  rw [ends_bind, ends_readCell]
  refine ⟨fun _ => ?_, fun _ => trivial⟩
  have hround := @considerDemotion_ends (fun _ => True) s₁ (s₁.candList.cell i) control
    ⟨fun _ => trivial, fun _ => trivial, fun _ => trivial⟩ fun _ _ => trivial
  refine ends_mono (ends_run hround) fun _ s' hs' => ?_
  obtain ⟨-, hok⟩ := hs'
  dsimp only at hok
  rw [(run_frame hrun).candList] at hok
  rw [List.range_succ, List.map_append, List.map_cons, List.map_nil]
  exact run_snoc hrun (roundStep_iff.mpr hok)

/-- Rounds that can be performed are what the loop performs. -/
theorem rounds_of_run (hn : n ≤ s.candList.length)
    (h : run (roundStep control) s ((List.range n).map s.candList.cell) = some s') :
    rounds control n s = .ok ((), s') := by
  induction n generalizing s' with
  | zero =>
    cases h
    rfl
  | succ n ih =>
    rw [List.range_succ, List.map_append, List.map_cons, List.map_nil] at h
    obtain ⟨s₁, h₁, hlast⟩ := run_append.mp h
    obtain ⟨s₂, hround, hdone⟩ := run_cons.mp hlast
    obtain rfl := Option.some.inj hdone
    have hframe := run_frame h₁
    have hlen : n < s₁.candList.length := hframe.candList.symm ▸ hn
    have hread : readCell candList n PartFailure.badCandidate s₁ = .ok (s.candList.cell n, s₁) := by
      rw [← hframe.candList]
      exact readCell_inside candList hlen
    exact (ok_bind (ih (Nat.le_of_succ_le hn) h₁) _).trans
      ((ok_bind hread _).trans (roundStep_iff.mp hround))

/-- A search that returns has performed a round for each recorded candidate, and
has changed nothing else. -/
theorem rounds_of_getBestCandidate :
    ends (fun _ => True) (getBestCandidate control)
      (fun _ s' => run (roundStep control) s (recorded s) = some s') s := by
  have hsearch : Keeps (fun s : VantageReplPolicy => s) (search s) :=
    .bind (.readCell _ _ _) fun _ => .bind (.forUpTo (fun _ _ => .ite (.pure _)
      (.bind (.readCell _ _ _) fun _ => .bind (.readCell _ _ _) fun _ => .bind (.ensure _) fun _ =>
        .bind (.readCell _ _ _) fun _ => .pure _)) _ _) fun _ => .bind (.ensure _) fun _ => .pure _
  rw [getBestCandidate_eq, ends_bind, ends_observe, ends_bind, ends_ensure]
  refine ⟨fun _ => ?_, fun _ => trivial⟩
  rw [ends_bind, ends_ensure]
  refine ⟨fun _ => ?_, fun _ => trivial⟩
  rw [ends_bind]
  refine ends_mono (rounds_begun s.candIdx) fun _ s₁ h₁ => ?_
  refine ends_mono hsearch.after fun _ s' hs' => ?_
  exact hs' ▸ h₁

/-- What makes a candidate better is the order of the victims. -/
theorem better_iff (c d : LineId) : better s.partitions (s.array.cell c) (s.array.cell d) = true ↔
    victimKey s c < victimKey s d := by
  unfold better victimKey
  rw [Prod.Lex.toLex_lt_toLex]
  by_cases hc : (s.array.cell c).p = s.partitions <;> by_cases hd : (s.array.cell d).p = s.partitions <;>
    simp [hc, hd]

theorem int32_of_lt (h : id < 2 ^ 31) : WayPart.int32 id = (id : ℤ) := if_pos h

theorem shaped_int32 (h : Shaped s) (hid : id < s.totalSize) : WayPart.int32 id = (id : ℤ) :=
  int32_of_lt (hid.trans_le h.small)

/-- The search for the victim, over the first `n` candidates. -/
def Searched (s : VantageReplPolicy) (cands : List LineId) (first : LineId) (r : ℤ × Bool) : Prop :=
  ∃ b : LineId, r.1 = (b : ℤ) ∧ b < s.totalSize ∧
    ((r.2 = true ∧ cands.find? (fun c => (s.array.cell c).ts == 0) = some b) ∨
      (r.2 = false ∧ (∀ c ∈ cands, (s.array.cell c).ts ≠ 0) ∧
        ((cands = [] ∧ b = first) ∨ FirstLeast (victimKey s) cands b)))

/-- One more candidate, after which the search stops if it is empty. -/
theorem Searched.next {r : ℤ × Bool} {first c : LineId} (h : Searched s cands first r)
    (hfirst : cands = [] → c = first) (hgo : r.2 = false) (hc : c < s.totalSize) (hs : Shaped s) :
    Searched s (cands ++ [c]) first (if (s.array.cell c).ts = 0 then (WayPart.int32 c, true)
      else if better s.partitions (s.array.cell c) (s.array.cell r.1.toNat) = true then
        (WayPart.int32 c, false) else r) := by
  obtain ⟨b, hb, hlt, hcases⟩ := h
  obtain ⟨hdone, -⟩ | ⟨-, hfull, hbest⟩ := hcases
  · rw [hdone] at hgo
    cases hgo
  · have hbefore : cands.find? (fun c => (s.array.cell c).ts == 0) = none := by
      rw [List.find?_eq_none]
      intro d hd
      simpa using hfull d hd
    by_cases hempty : (s.array.cell c).ts = 0
    · rw [if_pos hempty, shaped_int32 hs hc]
      refine ⟨c, rfl, hc, Or.inl ⟨rfl, ?_⟩⟩
      rw [List.find?_append, hbefore, Option.none_or, List.find?_singleton]
      simp [hempty]
    · have hfull' : ∀ d ∈ cands ++ [c], (s.array.cell d).ts ≠ 0 := by
        intro d hd
        rw [List.mem_append, List.mem_singleton] at hd
        cases hd with
        | inl hd => exact hfull d hd
        | inr hd => exact hd ▸ hempty
      rw [if_neg hempty, hb, Int.toNat_natCast]
      simp only [better_iff]
      obtain ⟨rfl, rfl⟩ | hleast := hbest
      · have hcb := hfirst rfl
        subst hcb
        rw [if_neg (lt_irrefl _)]
        exact ⟨c, hb, hlt, Or.inr ⟨hgo, hfull', Or.inr firstLeast_singleton⟩⟩
      · have hturn := hleast.snoc c
        split
        · next hless =>
          rw [if_pos hless] at hturn
          rw [shaped_int32 hs hc]
          exact ⟨c, rfl, hc, Or.inr ⟨rfl, hfull', Or.inr hturn⟩⟩
        · next hless =>
          rw [if_neg hless] at hturn
          exact ⟨b, hb, hlt, Or.inr ⟨hgo, hfull', Or.inr hturn⟩⟩

theorem Searched.victim {r : ℤ × Bool} {first : LineId} (h : Searched s cands first r)
    (hne : cands ≠ []) : r.1 = (r.1.toNat : ℤ) ∧ r.1.toNat < s.totalSize ∧ Victim s cands r.1.toNat := by
  obtain ⟨b, hb, hlt, hcases⟩ := h
  rw [hb, Int.toNat_natCast]
  refine ⟨rfl, hlt, ?_⟩
  obtain ⟨-, hfound⟩ | ⟨-, hfull, hbest⟩ := hcases
  · exact Or.inl hfound
  · obtain ⟨hnil, -⟩ | hleast := hbest
    · exact absurd hnil hne
    · exact Or.inr ⟨hfull, hleast⟩

/-- A search that has stopped stays as it is. -/
theorem Searched.stop {r : ℤ × Bool} {first : LineId} (c : LineId) (h : Searched s cands first r)
    (hdone : r.2 = true) : Searched s (cands ++ [c]) first r := by
  obtain ⟨b, hb, hlt, hcases⟩ := h
  obtain ⟨-, hfound⟩ | ⟨hgo, -⟩ := hcases
  · refine ⟨b, hb, hlt, Or.inl ⟨hdone, ?_⟩⟩
    rw [List.find?_append, hfound, Option.some_or]
  · rw [hdone] at hgo
    cases hgo

/-- The search finds a victim in the state the rounds leave. -/
theorem search_ends (h : Shaped s₁) (hframe : SameFrame s s₁) (hne : 0 < s.candIdx)
    (hassoc : s.candIdx ≤ s.assoc) :
    ends E (search s) (fun r s' => s' = s₁ ∧ Victim s₁ (recorded s) r) s₁ := by
  have hread : ∀ {i}, i < s.candIdx → i < s₁.candList.length ∧ s₁.candList.cell i < s₁.totalSize := by
    intro i hi
    rw [h.room, hframe.assoc]
    exact ⟨by omega, h.cands i (hframe.candIdx.symm ▸ hi)⟩
  rw [search, ends_bind, ends_readCell_of_lt (hread hne).1, ends_bind]
  refine ends_mono (ends_forUpTo (fun n r s' => s' = s₁ ∧
    Searched s₁ ((List.range n).map s₁.candList.cell) (s₁.candList.cell 0) r) ?_ ?_) ?_
  · intro i r s' hi hinv
    obtain ⟨rfl, hsearch⟩ := hinv
    obtain ⟨hlen, hid⟩ := hread hi
    rw [List.range_succ, List.map_append, List.map_cons, List.map_nil, ends_ite]
    split
    · next hdone => exact ⟨rfl, hsearch.stop _ hdone⟩
    · next hgo =>
      have hgo' : r.2 = false := by simpa using hgo
      have hline : s'.candList.cell i < s'.array.length := h.lines ▸ hid
      have hfirst : (List.range i).map s'.candList.cell = [] →
          s'.candList.cell i = s'.candList.cell 0 := by
        intro hnil
        rw [List.map_eq_nil_iff, List.range_eq_nil] at hnil
        rw [hnil]
      have hbest : 0 ≤ r.1 ∧ r.1.toNat < s'.array.length := by
        obtain ⟨b, hb, hlt, -⟩ := hsearch
        rw [hb, Int.toNat_natCast, h.lines]
        exact ⟨Int.natCast_nonneg b, hlt⟩
      rw [ends_bind, ends_readCell_of_lt hlen, ends_bind, ends_readCell_of_lt hline, ends_bind,
        ends_ensure]
      refine ⟨fun _ => ?_, fun hno => absurd hbest.1 hno⟩
      rw [ends_bind, ends_readCell_of_lt hbest.2, ends_pure, ← hframe.partitions]
      exact ⟨rfl, hsearch.next hfirst hgo' hid h⟩
  · refine ⟨rfl, s₁.candList.cell 0, shaped_int32 h (hread hne).2, (hread hne).2, Or.inr ⟨rfl, ?_⟩⟩
    exact ⟨by simp, Or.inl ⟨rfl, rfl⟩⟩
  · intro r s' hinv
    obtain ⟨rfl, hsearch⟩ := hinv
    have hnonempty : (List.range s.candIdx).map s'.candList.cell ≠ [] := by
      rw [ne_eq, List.map_eq_nil_iff, List.range_eq_nil]
      omega
    obtain ⟨hr, hlt, hvictim⟩ := hsearch.victim hnonempty
    rw [hframe.candList] at hvictim
    rw [ends_bind, ends_ensure]
    refine ⟨fun _ => ⟨rfl, hvictim⟩, fun hno => absurd ⟨?_, ?_⟩ hno⟩
    · rw [hr]
      exact Int.natCast_nonneg _
    · rw [← hframe.totalSize]
      exact hlt

/-- The demotion rounds, and then a victim that the search finds in the state they
leave. -/
theorem getBestCandidate_ends (h : Shaped s) (hslope : ∀ i, control i = none → E .slope)
    (hne : 0 < s.candIdx) (hassoc : s.candIdx ≤ s.assoc) :
    ends E (getBestCandidate control) (fun r s' => run (roundStep control) s (recorded s) = some s' ∧
      Shaped s' ∧ Victim s' (recorded s) r) s := by
  rw [getBestCandidate_eq, ends_bind, ends_observe, ends_bind, ends_ensure]
  refine ⟨fun _ => ?_, fun hno => absurd hne hno⟩
  rw [ends_bind, ends_ensure]
  refine ⟨fun _ => ?_, fun hno => absurd hassoc hno⟩
  rw [ends_bind]
  refine ends_mono (rounds_ends h hslope hassoc le_rfl) fun _ s₁ hs₁ => ?_
  obtain ⟨hshaped, hframe, hrun⟩ := hs₁
  refine ends_mono (search_ends hshaped hframe hne hassoc) fun r s' hs' => ?_
  obtain ⟨rfl, hvictim⟩ := hs'
  exact ⟨hrun, hshaped, hvictim⟩

theorem Shaped.run {ids : List LineId} (h : Shaped s) (hr : run (roundStep control) s ids = some s') :
    Shaped s' :=
  @run_invariant _ _ _ Shaped (fun _ _ _ h₁ hs => h₁.round (round_of_step hs)) _ _ _ h hr

/-- A demoted candidate is in the unmanaged region. -/
theorem Round.moves_out (h : Round control id s s') (hcons : Considered s id) (hold : Old s id) :
    (s'.array.cell id).p = s'.partitions := by
  obtain ⟨hnot, -⟩ | ⟨-, i, rfl, -⟩ := h.shape
  · exact absurd hcons hnot
  · rw [putPart, afterDemotion, if_pos hold]
    simp only [demoted, set_cell_self]

/-- Rounds leave the timestamps of the lines, and the lines of the unmanaged region there. -/
theorem run_lines {ids : List LineId} (h : run (roundStep control) s ids = some s') (j : LineId) :
    (s'.array.cell j).ts = (s.array.cell j).ts ∧
      ((s.array.cell j).p = s.partitions → (s'.array.cell j).p = s'.partitions) := by
  refine @run_invariant _ _ _ (fun s₁ : VantageReplPolicy => (s₁.array.cell j).ts = (s.array.cell j).ts ∧
    ((s.array.cell j).p = s.partitions → (s₁.array.cell j).p = s₁.partitions)) ?_ _ _ _
      ⟨rfl, fun hp => hp⟩ h
  intro s₁ id s₂ h₁ hstep
  obtain ⟨hts, hp⟩ := h₁
  have hround := round_of_step hstep
  have hparts := hround.frame.partitions
  obtain hsame | ⟨-, -, -, hmoved⟩ := hround.demotion.lines j
  · rw [hsame, hparts]
    exact ⟨hts, hp⟩
  · rw [hmoved, hparts]
    exact ⟨hts, fun _ => rfl⟩

/-- An empty line is bypassed. -/
theorem roundStep_empty (hid : id < s.array.length) (hempty : (s.array.cell id).ts = 0) :
    roundStep control s id = some s := by
  rw [roundStep_iff, considerDemotion]
  have hobserve : (observe fun s => s : Act VantageReplPolicy) s = .ok (s, s) := rfl
  refine (ok_bind hobserve _).trans ((ok_bind (readCell_inside array hid) _).trans ?_)
  rw [if_pos (Or.inl hempty)]
  rfl

/-- When the rounds can be performed, the search returns a victim. -/
theorem getBestCandidate_of_run (h : Shaped s) (hne : 0 < s.candIdx) (hassoc : s.candIdx ≤ s.assoc)
    (hrun : run (roundStep control) s (recorded s) = some s') :
    ∃ r, getBestCandidate control s = .ok (r, s') ∧ Victim s' (recorded s) r := by
  obtain ⟨r, s'', hsearch, rfl, hvictim⟩ :=
    wp_of_ends (@search_ends (fun _ => False) s s' (h.run hrun) (run_frame hrun) hne hassoc)
  refine ⟨r, ?_, hvictim⟩
  have hrounds := rounds_of_run (hassoc.trans h.room.ge) hrun
  have hobserve : (observe fun s => s : Act VantageReplPolicy) s = .ok (s, s) := rfl
  rw [getBestCandidate_eq]
  refine (ok_bind hobserve _).trans ?_
  exact (ok_bind (ensure_ok hne PartFailure.noCandidate s) _).trans
    ((ok_bind (ensure_ok hassoc PartFailure.manyCandidates s) _).trans
      ((ok_bind hrounds _).trans hsearch))

theorem Victim.mem {r : LineId} (h : Victim s cands r) : r ∈ cands := by
  cases h with
  | inl hfound => exact List.mem_of_find?_eq_some hfound
  | inr hleast => exact hleast.2.least.1

/-- The least recently used of the unmanaged candidates if there is one, and of
all of them otherwise. -/
theorem Victim.cases {r : LineId} (h : Victim s cands r) :
    ((∃ c ∈ cands, (s.array.cell c).ts = 0) →
      cands.find? (fun c => (s.array.cell c).ts == 0) = some r) ∧
    ((∀ c ∈ cands, (s.array.cell c).ts ≠ 0) → (∃ c ∈ cands, (s.array.cell c).p = s.partitions) →
      Least (fun c => (s.array.cell c).ts) (cands.filter fun c => (s.array.cell c).p = s.partitions) r) ∧
    ((∀ c ∈ cands, (s.array.cell c).ts ≠ 0 ∧ (s.array.cell c).p ≠ s.partitions) →
      Least (fun c => (s.array.cell c).ts) cands r) := by
  have hlex : (∀ c ∈ cands, (s.array.cell c).ts ≠ 0) → FirstLeast (victimKey s) cands r := by
    intro hfull
    cases h with
    | inl hfound =>
      have hr := List.find?_some hfound
      exact absurd (by simpa using hr) (hfull r (List.mem_of_find?_eq_some hfound))
    | inr hleast => exact hleast.2
  refine ⟨fun hempty => ?_, fun hfull hum => ?_, fun hfull => ?_⟩
  · obtain ⟨c, hc, h0⟩ := hempty
    cases h with
    | inl hfound => exact hfound
    | inr hleast => exact absurd h0 (hleast.1 c hc)
  · obtain ⟨hr, hmin⟩ := (hlex hfull).least
    obtain ⟨u, hu, hup⟩ := hum
    have hrp : (s.array.cell r).p = s.partitions := by
      by_contra hne
      have hle := hmin u hu
      simp [victimKey, Prod.Lex.toLex_le_toLex, hup, hne] at hle
    refine ⟨List.mem_filter.mpr ⟨hr, by simpa using hrp⟩, fun c hc => ?_⟩
    obtain ⟨hc, hcp⟩ := List.mem_filter.mp hc
    have hle := hmin c hc
    have hcp' : (s.array.cell c).p = s.partitions := by simpa using hcp
    simpa [victimKey, Prod.Lex.toLex_le_toLex, hrp, hcp'] using hle
  · obtain ⟨hr, hmin⟩ := (hlex fun c hc => (hfull c hc).1).least
    refine ⟨hr, fun c hc => ?_⟩
    have hle := hmin c hc
    simpa [victimKey, Prod.Lex.toLex_le_toLex, (hfull r hr).2, (hfull c hc).2] using hle

/-- Whatever the aperture control does, a ranking demotes only candidates that are
managed, above the target of their partition and behind its setpoint at that
moment, never below a target; then it evicts the first empty candidate, or else
the least recently used of the unmanaged ones, or else of all. -/
theorem replacement_decision (s : VantageReplPolicy) (h : Shaped s) (hne : 0 < s.candIdx)
    (hassoc : s.candIdx ≤ s.assoc) (control : VantagePartInfo → Setpoint) :
    ∃ r s', getBestCandidate (fun i => some (control i)) s = .ok (r, s') ∧
      run (roundStep fun i => some (control i)) s (recorded s) = some s' ∧
      EveryStep (roundStep fun i => some (control i)) Demotion s (recorded s) ∧
      ((∃ c ∈ recorded s, (s'.array.cell c).ts = 0) →
        (recorded s).find? (fun c => (s'.array.cell c).ts == 0) = some r) ∧
      ((∀ c ∈ recorded s, (s'.array.cell c).ts ≠ 0) →
        (∃ c ∈ recorded s, (s'.array.cell c).p = s'.partitions) →
          Least (fun c => (s'.array.cell c).ts)
            ((recorded s).filter fun c => (s'.array.cell c).p = s'.partitions) r) ∧
      ((∀ c ∈ recorded s, (s'.array.cell c).ts ≠ 0 ∧ (s'.array.cell c).p ≠ s'.partitions) →
        Least (fun c => (s'.array.cell c).ts) (recorded s) r) := by
  have hends := @getBestCandidate_ends (fun _ => False) s (fun i => some (control i)) h
    (fun _ hnone => by cases hnone) hne hassoc
  obtain ⟨r, s', hok, hrun, -, hvictim⟩ := wp_of_ends hends
  refine ⟨r, s', hok, hrun, ?_, hvictim.cases⟩
  exact @everyStep_of_invariant _ _ _ _ (fun _ => True)
    (fun _ _ _ _ hs => ⟨trivial, (round_of_step hs).demotion⟩) _ _ trivial

end Decision

section Instance

/-- Two partitions and three lines: partition 0 has two lines and a target of one. -/
def threeLines : VantageReplPolicy :=
  { allocated 2 3 3 256 false 2 with
    partInfo := ⟨3, fun q => match q with
      | 0 => ⟨⟨2, 1⟩, 5, 0, 3, 0, 0, 0, 2, 1⟩
      | 1 => ⟨⟨1, 1⟩, 5, 0, 5, 0, 0, 0, 1, 1⟩
      | _ => ⟨⟨0, 0⟩, 0, 0, 0, 0, 0, 0, 0, 0⟩⟩
    array := ⟨3, fun i => match i with
      | 0 => ⟨7, 4, 2, 0, 0⟩
      | 1 => ⟨8, 1, 5, 1, 1⟩
      | _ => ⟨9, 2, 5, 0, 0⟩⟩
    candList := ⟨3, fun i => i⟩
    candIdx := 3 }

/-- Line 0 is behind the setpoint and is demoted. It is evicted, although it is
the most recently used of the three lines. -/
theorem threeLines_evicts : ∃ s', getBestCandidate (fun _ => some .keep) threeLines = .ok (0, s') ∧
    (s'.array.cell 0).p = 2 ∧ Least (fun c => (s'.array.cell c).ts)
      ((recorded threeLines).filter fun c => (s'.array.cell c).p = s'.partitions) 0 := by
  have hshaped : Shaped threeLines := by
    refine ⟨rfl, rfl, ?_, rfl, ?_, by decide⟩ <;> decide
  obtain ⟨r, s', hok, hrun, -, -, hunmanaged, -⟩ :=
    replacement_decision threeLines hshaped (by decide) (by decide) fun _ => .keep
  have hanswer : (getBestCandidate (fun _ => some .keep) threeLines).toOption.map Prod.fst = some 0 := by
    decide
  have hlines : (run (roundStep fun _ => some .keep) threeLines (recorded threeLines)).map (fun s =>
      (s.partitions, (List.range 3).map fun i => ((s.array.cell i).ts, (s.array.cell i).p))) =
        some (2, [(4, 2), (1, 1), (2, 0)]) := by decide
  rw [hok] at hanswer
  rw [hrun] at hlines
  simp [List.range_succ] at hlines
  obtain ⟨hP, ⟨ht0, hp0⟩, ⟨ht1, -⟩, ht2, -⟩ := hlines
  obtain rfl : r = 0 := Option.some.inj hanswer
  refine ⟨s', hok, hp0, hunmanaged ?_ ⟨0, by decide, by omega⟩⟩
  have hrecorded : recorded threeLines = [0, 1, 2] := rfl
  rw [hrecorded]
  simp [ht0, ht1, ht2]

end Instance
end Zsim.VantageRounds
