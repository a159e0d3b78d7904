import Zsim.VantageFrames
import Zsim.VantageMisses
import Zsim.VantageAperture

/-!
# The setpoints of the Vantage policy

A setpoint trails the current timestamp of its partition by at most 255, and
both advance together. An aperture decision takes it one step away or one step
nearer. The step nearer is guarded by a plain comparison of the two timestamps,
although the setpoint of a partition that is still at timestamp 0 goes below
zero and wraps; from there it cannot come nearer any more.
-/

namespace Zsim.VantageSetpoints

open WeakestPre MemoryHierarchy CheckedTables PartPolicy DoubleRounding Outcomes Frames GuardedRuns
  Vantage VantageRuns VantageRounds VantageFrames VantageMisses VantageAperture

/-- The timestamps of the partitions. -/
def clocks (s : VantageReplPolicy) : ℕ → ℕ × ℕ :=
  fun q => ((s.partInfo.cell q).curBts, (s.partInfo.cell q).setpointBts)

/-- How far the setpoint is behind. -/
def lag (c : ℕ × ℕ) : ℕ := sub64 c.1 c.2

/-- A clock of 64 bits whose setpoint is at most 255 behind. -/
structure Trails (c : ℕ × ℕ) : Prop where
  cur : c.1 < 2 ^ 64
  setpoint : c.2 < 2 ^ 64
  lag : lag c ≤ 255

/-- The setpoint after a decision. -/
def decided (sp : Setpoint) (c : ℕ × ℕ) : ℕ × ℕ :=
  match sp with
  | .increase => (c.1, if c.2 < c.1 then inc64 c.2 else c.2)
  | .decrease => (c.1, if lag c < 255 then dec64 c.2 else c.2)
  | .keep => c

/-- Both timestamps advance. -/
def advanced (c : ℕ × ℕ) : ℕ × ℕ := (inc64 c.1, inc64 c.2)

section Clock

variable {c : ℕ × ℕ}

theorem trails_advanced (h : Trails c) : Trails (advanced c) ∧ lag (advanced c) = lag c := by
  obtain ⟨hcur, hset, hlag⟩ := h
  unfold advanced lag sub64 inc64 at *
  refine ⟨⟨by dsimp only; omega, by dsimp only; omega, ?_⟩, ?_⟩ <;>
    simp only [lag, sub64] <;> split at hlag <;> split <;> omega

/-- The setpoint comes one step nearer when it is below the timestamp, and stays
where it is when it has wrapped. -/
theorem increase_cases (h : Trails c) :
    (c.2 < c.1 ∧ Trails (decided .increase c) ∧ lag (decided .increase c) + 1 = lag c) ∨
      (¬ c.2 < c.1 ∧ decided .increase c = c) := by
  obtain ⟨hcur, hset, hlag⟩ := h
  by_cases hlt : c.2 < c.1
  · left
    have hinc : inc64 c.2 = c.2 + 1 := Nat.mod_eq_of_lt (by omega)
    have hdec : decided .increase c = (c.1, c.2 + 1) := by
      rw [decided, if_pos hlt, hinc]
    have hnew : lag (c.1, c.2 + 1) = c.1 - (c.2 + 1) := if_pos hlt
    have hold : lag c = c.1 - c.2 := if_pos hlt.le
    rw [hdec]
    refine ⟨hlt, ⟨hcur, ?_, ?_⟩, ?_⟩
    · dsimp only
      omega
    · omega
    · omega
  · right
    refine ⟨hlt, ?_⟩
    rw [decided, if_neg hlt]

/-- The setpoint goes one step back while it is less than 255 behind. -/
theorem decrease_cases (h : Trails c) :
    (lag c < 255 ∧ Trails (decided .decrease c) ∧ lag (decided .decrease c) = lag c + 1) ∨
      (¬ lag c < 255 ∧ decided .decrease c = c) := by
  obtain ⟨hcur, hset, hlag⟩ := h
  by_cases hlt : lag c < 255
  · left
    have hdec : decided .decrease c = (c.1, dec64 c.2) := by
      rw [decided, if_pos hlt]
    have hback : lag (c.1, dec64 c.2) = lag c + 1 := by
      simp only [lag, sub64, dec64] at hlt ⊢
      split at hlt <;> split <;> split <;> omega
    rw [hdec]
    refine ⟨hlt, ⟨hcur, ?_, ?_⟩, hback⟩
    · dsimp only [dec64]
      split <;> omega
    · omega
  · right
    refine ⟨hlt, ?_⟩
    rw [decided, if_neg hlt]

theorem trails_decided (h : Trails c) (sp : Setpoint) : Trails (decided sp c) := by
  cases sp with
  | keep => exact h
  | increase =>
    obtain ⟨-, htrails, -⟩ | ⟨-, hsame⟩ := increase_cases h
    · exact htrails
    · exact hsame.symm ▸ h
  | decrease =>
    obtain ⟨-, htrails, -⟩ | ⟨-, hsame⟩ := decrease_cases h
    · exact htrails
    · exact hsame.symm ▸ h

end Clock

/-- The timestamps of one partition. -/
def clockOf (i : VantagePartInfo) : ℕ × ℕ := (i.curBts, i.setpointBts)

section Programs

variable {s s' : VantageReplPolicy} {id : LineId} {part : ℕ} {draw : ℕ → ℕ}

theorem uncounted_clockOf : Uncounted clockOf :=
  ⟨fun _ _ => rfl, fun _ _ => rfl, fun _ _ => rfl, fun _ _ => rfl, fun _ _ => rfl, fun _ _ => rfl⟩

/-- What keeps the view of the timestamps keeps the timestamps. -/
theorem keeps_clocks {α : Type} {m : Act α} (h : Keeps (view clockOf) m) : Keeps clocks m :=
  h.comp fun v => v.2

theorem clocks_put (p : ℕ) (i : VantagePartInfo) :
    clocks (putPart s p i) = Function.update (clocks s) p (i.curBts, i.setpointBts) :=
  TableCounts.cell_set s.partInfo p i clockOf

theorem keeps_takeOneLine : Keeps (view clockOf) (takeOneLine draw) := by
  refine .bind (.observe _) fun s => .bind (.ensure _) fun _ => .bind
    (.forUpTo (fun _ _ => .bind (.readCell _ _ _) fun _ => .pure _) _ _) fun _ =>
    .bind (.ensure _) fun _ => .bind (.forUpTo (fun p r => ?_) _ _) fun _ => .ensure _
  refine .ite (.pure _) (.bind (.readCell _ _ _) fun i => .ite ?_ (.pure _))
  exact .bind (keeps_part _ _ fun _ => rfl) fun _ => .pure _

theorem keeps_missUpdate : Keeps (view clockOf) (missUpdate part draw id) :=
  .bind (keeps_insertLine uncounted_clockOf) fun _ => .bind (.observe _) fun _ =>
    .bind (.readCell _ _ _) fun _ => .ite (.bind (.ensure _) fun _ =>
      .bind (keeps_part _ _ fun _ => rfl) fun _ => keeps_takeOneLine) (.pure _)

theorem resize_clock (smooth : Bool) (n : ℕ) (i : VantagePartInfo) :
    clockOf (resize smooth n i).1 = clockOf i := by
  unfold resize
  split
  · dsimp only
    split <;> rfl
  · rfl

theorem keeps_setPartitionSizes (sizes : ℕ → ℕ) (draw : ℕ → ℕ → ℕ) :
    Keeps (view clockOf) (setPartitionSizes sizes draw) := by
  refine .bind (.observe _) fun s => .bind (.forUpTo (fun p n => .of_ends fun s₁ => ?_) _ _) fun _ =>
    .forUpTo (fun _ _ => keeps_takeOneLine) _ _
  simp only [ends_bind, ends_readCell, ends_modifyCell, ends_pure]
  refine ⟨fun _ => ⟨fun _ => ?_, fun _ => trivial⟩, fun _ => trivial⟩
  exact view_put_same (resize_clock _ _ (s₁.partInfo.cell p))

/-- Accessing a line may advance both timestamps of its partition, and no others. -/
theorem adjustTimestamp_clocks :
    ends (fun _ => True) (adjustTimestamp id) (fun _ s' => clocks s' = clocks s ∨
      ∃ p, clocks s' = Function.update (clocks s) p (advanced (clocks s p))) s := by
  rw [adjustTimestamp, ends_bind, ends_readCell]
  refine ⟨fun _ => ?_, fun _ => trivial⟩
  rw [ends_bind, ends_readCell]
  refine ⟨fun _ => ?_, fun _ => trivial⟩
  rw [ends_bind]
  refine ends_mono (keeps_clocks (keeps_line _ _)).after fun _ s₁ h₁ => ?_
  rw [ends_bind]
  have hhits := keeps_clocks (keeps_part (s.array.cell id).p .outside fun i =>
    uncounted_clockOf.curBtsHits i (inc32 i.curBtsHits))
  refine ends_mono hhits.after fun _ s₂ h₂ => ?_
  rw [ends_bind, ends_readCell]
  refine ⟨fun _ => ?_, fun _ => trivial⟩
  have hsame : clocks s₂ = clocks s := h₂.trans h₁
  rw [ends_ite]
  split
  · rw [ends_modifyCell]
    refine ⟨fun _ => Or.inr ⟨(s.array.cell id).p, ?_⟩, fun _ => trivial⟩
    rw [← hsame]
    exact clocks_put ..
  · exact Or.inl hsame

/-- An access keeps the timestamps up to one step of one partition's clock. -/
theorem update_clocks (phaseCycles : ℕ) : ends (fun _ => True) (update part phaseCycles draw id)
    (fun _ s' => clocks s' = clocks s ∨
      ∃ p, clocks s' = Function.update (clocks s) p (advanced (clocks s p))) s := by
  rw [update, ends_bind, ends_observe, ends_bind]
  refine ends_mono (keeps_clocks (keeps_phase phaseCycles s)).after fun _ s₁ h₁ => ?_
  rw [ends_bind, ends_readCell]
  refine ⟨fun _ => ?_, fun _ => trivial⟩
  rw [ends_bind]
  refine ends_mono (keeps_clocks (Keeps.ite (keeps_hitUpdate uncounted_clockOf) keeps_missUpdate)).after
    fun _ s₂ h₂ => ?_
  rw [ends_bind, ends_readCell]
  refine ⟨fun _ => ?_, fun _ => trivial⟩
  rw [ends_bind]
  refine ends_mono (keeps_clocks (keeps_monitor _)).after fun _ s₃ h₃ => ?_
  have hsame : clocks s₃ = clocks s := h₃.trans (h₂.trans h₁)
  rw [← hsame]
  exact adjustTimestamp_clocks

end Programs

/-- All setpoints trail their timestamps. -/
def AllTrail (s : VantageReplPolicy) : Prop := ∀ q, Trails (clocks s q)

/-- What the aperture control decides in a round, if it decides anything. -/
def decision (control : VantagePartInfo → Option Setpoint) (s : VantageReplPolicy) (id : LineId) :
    Option Setpoint :=
  if Considered s id ∧ 256 ≤ (seen s id).curIntervalCands then control (seen s id) else none

/-- How far the setpoint of a candidate's partition is behind. -/
def partLag (s : VantageReplPolicy) (p : ℕ) : ℕ := lag (clocks s p)

/-- A decision moves the setpoint by one, unless it is at the end of its way. -/
structure Moves (control : VantagePartInfo → Option Setpoint) (s : VantageReplPolicy) (id : LineId)
    (s' : VantageReplPolicy) : Prop where
  nearer : decision control s id = some .increase → partLag s (s.array.cell id).p ≠ 0 →
    partLag s' (s.array.cell id).p + 1 = partLag s (s.array.cell id).p
  further : decision control s id = some .decrease → partLag s (s.array.cell id).p < 255 →
    partLag s' (s.array.cell id).p = partLag s (s.array.cell id).p + 1

/-- A setpoint that is to come nearer has not wrapped. -/
def Unwrapped (control : VantagePartInfo → Option Setpoint) (s : VantageReplPolicy) (id : LineId) :
    Prop :=
  decision control s id = some .increase → partLag s (s.array.cell id).p ≠ 0 →
    (partOf s id).setpointBts < (partOf s id).curBts

section Rounds

variable {s s' : VantageReplPolicy} {id : LineId} {control : VantagePartInfo → Option Setpoint}

/-- The clocks after a round. -/
theorem round_clocks (h : Round control id s s') : clocks s' = match decision control s id with
    | some sp => Function.update (clocks s) (s.array.cell id).p (decided sp (clocks s (s.array.cell id).p))
    | none => clocks s := by
  have hafter : clocks (afterDemotion s id) = clocks s := by
    funext q
    obtain ⟨hcur, hset, -, -⟩ := @afterDemotion_part s id q
    simp only [clocks, hcur, hset]
  have hseen : ((seen s id).curBts, (seen s id).setpointBts) =
      clocks s (s.array.cell id).p := by
    rw [← hafter]
    rfl
  unfold Round at h
  unfold decision
  by_cases hcons : Considered s id
  · rw [if_pos hcons] at h
    by_cases hfull : 256 ≤ (seen s id).curIntervalCands
    · rw [if_pos hfull] at h
      obtain ⟨sp, hcontrol, rfl⟩ := h
      rw [if_pos ⟨hcons, hfull⟩, hcontrol]
      dsimp only
      rw [clocks_put, hafter, ← hseen]
      congr 1
      cases sp with
      | keep => rfl
      | increase => rfl
      | decrease => rfl
    · rw [if_neg hfull] at h
      rw [if_neg fun hboth => hfull hboth.2, h, clocks_put, hseen, hafter]
      exact Function.update_eq_self ..
  · rw [if_neg hcons] at h
    rw [if_neg fun hboth => hcons hboth.1, h]

theorem AllTrail.round (h : AllTrail s) (hr : Round control id s s') : AllTrail s' := by
  intro q
  rw [round_clocks hr]
  cases decision control s id with
  | none => exact h q
  | some sp =>
    dsimp only
    by_cases hq : q = (s.array.cell id).p
    · rw [hq, Function.update_self]
      exact trails_decided (h _) sp
    · rw [Function.update_of_ne hq]
      exact h q

theorem AllTrail.advance (h : AllTrail s) (hclocks : clocks s' = clocks s ∨
    ∃ p, clocks s' = Function.update (clocks s) p (advanced (clocks s p))) :
    AllTrail s' ∧ ∀ q, partLag s' q = partLag s q := by
  obtain hsame | ⟨p, hone⟩ := hclocks
  · constructor
    · intro q
      rw [hsame]
      exact h q
    · intro q
      rw [partLag, partLag, hsame]
  · have hcell : ∀ q, Trails (clocks s' q) ∧ lag (clocks s' q) = lag (clocks s q) := by
      intro q
      rw [hone]
      by_cases hq : q = p
      · rw [hq, Function.update_self]
        exact trails_advanced (h p)
      · rw [Function.update_of_ne hq]
        exact ⟨h q, rfl⟩
    exact ⟨fun q => (hcell q).1, fun q => (hcell q).2⟩

/-- A round moves the setpoint as decided exactly when it has not wrapped. -/
theorem moves_iff (h : AllTrail s) (hr : Round control id s s') :
    Moves control s id s' ↔ Unwrapped control s id := by
  have htrails := h (s.array.cell id).p
  have hafter : ∀ sp, decision control s id = some sp →
      partLag s' (s.array.cell id).p = lag (decided sp (clocks s (s.array.cell id).p)) := by
    intro sp hsp
    have hclocks := round_clocks hr
    rw [hsp] at hclocks
    rw [partLag, hclocks]
    dsimp only
    rw [Function.update_self]
  constructor
  · intro hmoves hincrease hne
    have hnew := hmoves.nearer hincrease hne
    rw [hafter _ hincrease] at hnew
    obtain ⟨hlt, -⟩ | ⟨-, hsame⟩ := increase_cases htrails
    · exact hlt
    · rw [hsame, partLag] at hnew
      omega
  · intro hunwrapped
    constructor
    · intro hincrease hne
      have hlt := hunwrapped hincrease hne
      rw [hafter _ hincrease]
      obtain ⟨-, -, hstep⟩ | ⟨hnot, -⟩ := increase_cases htrails
      · exact hstep
      · exact absurd hlt hnot
    · intro hdecrease hlt
      rw [hafter _ hdecrease]
      obtain ⟨-, -, hstep⟩ | ⟨hnot, -⟩ := decrease_cases htrails
      · exact hstep
      · exact absurd hlt hnot

end Rounds

/-- In every round of a ranking. -/
def DuringRank (R : (VantagePartInfo → Option Setpoint) → VantageReplPolicy → LineId →
    VantageReplPolicy → Prop) : Except PartFailure VantageReplPolicy → Op → Prop
  | .ok s, .rank lineAddr cands control => ∀ s₁, candidates lineAddr cands s = .ok ((), s₁) →
      EveryStep (roundStep control) (R control) s₁ (recorded s₁)
  | _, _ => True

/-- Every call but a ranking leaves each setpoint as far behind as it was. -/
def KeepsLags : Except PartFailure VantageReplPolicy → Op →
    Except PartFailure VantageReplPolicy → Prop
  | .ok _, .rank .., _ => True
  | .ok s, _, .ok s' => ∀ q, partLag s' q = partLag s q
  | _, _, _ => True

section Runs

variable {s s' : VantageReplPolicy} {control : VantagePartInfo → Option Setpoint}

theorem keeps_construct (portion slack aperture : ℕ) :
    Keeps (view clockOf) (construct portion slack aperture) := by
  refine .bind (.ensure _) fun _ => .bind (.ensure _) fun _ => .bind (.ensure _) fun _ =>
    .bind (.observe _) fun _ => .bind (.observe _) fun _ => ?_
  refine .bind (.forUpTo (fun i _ => ?_) _ _) fun _ => ?_
  · exact keeps_part _ _ fun _ => rfl
  refine .bind (keeps_part _ _ fun _ => rfl) fun _ => ?_
  exact .bind (keeps_part _ _ fun _ => rfl) fun _ => .forUpTo (fun _ _ => keeps_line _ _) _ _

theorem AllTrail.rounds (h : AllTrail s) (ids : List LineId) :
    EveryStep (roundStep control) (fun _ _ s' => AllTrail s') s ids :=
  @everyStep_of_invariant _ _ _ _ AllTrail (fun _ _ _ h hs =>
    have h' := AllTrail.round h (round_of_step hs)
    ⟨h', h'⟩) _ _ h

theorem AllTrail.candidates (h : AllTrail s) {lineAddr : Address} {cands : List LineId}
    (hs : candidates lineAddr cands s = .ok ((), s')) : AllTrail s' := by
  intro q
  rw [keeps_clocks (keeps_candidates lineAddr cands) s () s' hs]
  exact h q

/-- One call. -/
theorem perform_clocks (h : AllTrail s) (op : Op) :
    ends (fun _ => True) (perform op) (fun _ s' => AllTrail s' ∧ KeepsLags (.ok s) op (.ok s')) s := by
  cases op with
  | rank lineAddr cands control =>
    rw [perform, rank_eq, ends_bind, ends_bind]
    have hstart : ends (fun _ => True) (VantageRounds.candidates lineAddr cands)
        (fun _ s₁ => AllTrail s₁) s := by
      refine ends_mono (keeps_clocks (keeps_candidates lineAddr cands)).after fun _ s₁ h₁ => ?_
      intro q
      rw [h₁]
      exact h q
    refine ends_mono hstart fun _ s₁ h₁ => ?_
    refine ends_mono rounds_of_getBestCandidate fun _ s' hrun => ?_
    refine ⟨?_, trivial⟩
    exact @run_invariant _ _ _ AllTrail (fun _ _ _ h hs => h.round (round_of_step hs)) _ _ _ h₁ hrun
  | replaced id =>
    exact ends_mono (keeps_clocks keeps_replaced).after fun _ s' h' => h.advance (Or.inl h')
  | update part phaseCycles draw id =>
    exact ends_mono (update_clocks phaseCycles) fun _ s' h' => h.advance h'
  | setPartitionSizes sizes draw =>
    exact ends_mono (keeps_clocks (keeps_setPartitionSizes sizes draw)).after fun _ s' h' => h.advance (Or.inl h')

/-- From the initial state, each setpoint trails its timestamp by at most 255 in
every state, and only rankings move it nearer or further. A ranking moves it as
decided exactly as long as no setpoint that is to come nearer has wrapped. -/
theorem setpoints_move {P lines assoc granularity portion slack aperture : ℕ} {smooth : Bool}
    (h : construct portion slack aperture (allocated P lines assoc granularity smooth P) = .ok ((), s))
    (ops : List Op) :
    EveryStep step (fun r op r' => Holds AllTrail r' ∧ DuringRank (fun _ _ _ s' => AllTrail s') r op ∧
      KeepsLags r op r') (.ok s) ops ∧
    (EveryStep step (fun r op _ => DuringRank Moves r op) (.ok s) ops ↔
      EveryStep step (fun r op _ => DuringRank (fun control s id _ => Unwrapped control s id) r op)
        (.ok s) ops) := by
  have hinit : Holds AllTrail (.ok s) := by
    intro s₀ hs₀
    obtain rfl := Except.ok.inj hs₀
    intro q
    rw [keeps_clocks (keeps_construct portion slack aperture) _ () s h]
    have hzero : Trails (0, 0) := ⟨by decide, by decide, by decide⟩
    exact hzero
  have hstep : ∀ r op r', Holds AllTrail r → step r op = some r' → Holds AllTrail r' ∧
      KeepsLags r op r' := by
    intro r op r' hr hs
    cases r with
    | error e => cases hs
    | ok s₁ =>
      obtain ⟨-, rfl⟩ := step_spec hs
      have hends := holds_of_ends (perform_clocks (hr s₁ rfl) op)
      refine ⟨fun s' hs' => (hends s' hs').1, ?_⟩
      cases hrun : (perform op s₁).map fun r => r.2 with
      | error e => cases op <;> exact trivial
      | ok s' => exact (hends s' hrun).2
  constructor
  · refine @everyStep_of_invariant _ _ _ _ (Holds AllTrail) ?_ _ _ hinit
    intro r op r' hr hs
    obtain ⟨hr', hlags⟩ := hstep r op r' hr hs
    refine ⟨hr', hr', ?_, hlags⟩
    cases r with
    | error e => trivial
    | ok s₁ =>
      cases op with
      | rank lineAddr cands control =>
        intro s₂ hs₂
        exact ((hr s₁ rfl).candidates hs₂).rounds _
      | replaced | update | setPartitionSizes => trivial
  · refine @everyStep_iff _ _ _ _ _ (Holds AllTrail) ?_ ?_ _ _ hinit
    · intro r op r' hr hs
      cases r with
      | error e => cases hs
      | ok s₁ =>
        cases op with
        | rank lineAddr cands control =>
          refine forall₂_congr fun s₂ hs₂ => ?_
          refine @everyStep_iff _ _ _ _ _ AllTrail ?_ ?_ _ _ ((hr s₁ rfl).candidates hs₂)
          · exact fun s id s' hall hround => moves_iff hall (round_of_step hround)
          · exact fun s id s' hall _ hround => hall.round (round_of_step hround)
        | replaced | update | setPartitionSizes => exact Iff.rfl
    · exact fun r op r' hr _ hs => (hstep r op r' hr hs).1

/-- Two partitions of 65536 lines each. -/
theorem twoParts_move :
    ∃ s, construct 100 100 50 (allocated 2 131072 256 256 false 2) = .ok ((), s) ∧ ∀ ops,
      EveryStep step (fun r op r' => Holds AllTrail r' ∧ DuringRank (fun _ _ _ s' => AllTrail s') r op ∧
        KeepsLags r op r') (.ok s) ops ∧
      (EveryStep step (fun r op _ => DuringRank Moves r op) (.ok s) ops ↔
        EveryStep step (fun r op _ => DuringRank (fun control s id _ => Unwrapped control s id) r op)
          (.ok s) ops) := by
  obtain ⟨⟨⟩, s, hrun, -⟩ := @construct_spec 2 256 256 false 131072 (by omega) 100 100 50 (by omega)
    (by omega) (by omega)
  exact ⟨s, hrun, fun ops => setpoints_move hrun ops⟩

end Runs

section Wrapped

/-- The rankings use the feedback in doubles. -/
def Feedback (partSlackPct maxAperturePct : ℕ) : Op → Prop
  | .rank _ _ control => control = apertureControl partSlackPct maxAperturePct
  | _ => True

/-- One state is reached from another by calls under the feedback. -/
def Reached (s s' : VantageReplPolicy) : Prop :=
  ∃ ops, (∀ op ∈ ops, Feedback 100 50 op) ∧ run step (.ok s) ops = some (.ok s')

theorem Reached.trans {s s' s'' : VantageReplPolicy} (h : Reached s s') (h' : Reached s' s'') :
    Reached s s'' := by
  obtain ⟨ops, hops, hrun⟩ := h
  obtain ⟨ops', hops', hrun'⟩ := h'
  refine ⟨ops ++ ops', fun op hop => ?_, run_append.mpr ⟨_, hrun, hrun'⟩⟩
  cases List.mem_append.mp hop with
  | inl hop => exact hops op hop
  | inr hop => exact hops' op hop

/-- A call sequence of a miss. -/
theorem reached_miss {s s' : VantageReplPolicy} {lineAddr : Address} {cands : List LineId} {r : LineId}
    {part : ℕ} {draw : ℕ → ℕ} (h : run step (.ok s) [.rank lineAddr cands (apertureControl 100 50),
      .replaced r, .update part 0 draw r] = some (.ok s')) : Reached s s' := by
  refine ⟨_, fun op hop => ?_, h⟩
  simp only [List.mem_cons, List.not_mem_nil, or_false] at hop
  obtain rfl | rfl | rfl := hop
  · rfl
  · trivial
  · trivial

/-- A partition of `k` lines with the given clock and a target of 65536 lines. -/
def partAt (k cur hits setpoint : ℕ) : VantagePartInfo :=
  ⟨⟨k, 65536⟩, cur, hits, setpoint, 0, 0, 0, 0, 65536⟩

/-- A clock advances 16 times while the partition doubles its size. -/
def Slow (k cur hits : ℕ) : Prop :=
  (k ≤ 16 ∧ cur = k ∧ hits = 0) ∨
    ∃ m, 16 * 2 ^ m ≤ k ∧ k < 32 * 2 ^ m ∧ cur * 2 ^ m + hits ≤ 16 * (m * 2 ^ m) + k

theorem slow_of_bound {k cur hits m : ℕ} (hlow : 16 * 2 ^ m ≤ k) (hhigh : k ≤ 32 * 2 ^ m)
    (hbound : cur * 2 ^ m + hits ≤ 16 * (m * 2 ^ m) + k) : Slow k cur hits := by
  right
  obtain hlt | heq := hhigh.lt_or_eq
  · exact ⟨m, hlow, hlt, hbound⟩
  · have hpow : 2 ^ (m + 1) = 2 * 2 ^ m := pow_succ' 2 m
    have hcur : cur * 2 ^ (m + 1) = 2 * (cur * 2 ^ m) := by
      rw [hpow]
      ring
    have hm : (m + 1) * 2 ^ (m + 1) = 2 * (m * 2 ^ m) + 2 * 2 ^ m := by
      rw [hpow]
      ring
    have hpos : 0 < 2 ^ m := Nat.two_pow_pos m
    exact ⟨m + 1, by omega, by omega, by omega⟩

theorem Slow.next {k cur hits : ℕ} (h : Slow k cur hits) :
    if (k + 1) / 16 ≤ hits + 1 then Slow (k + 1) (cur + 1) 0 else Slow (k + 1) cur (hits + 1) := by
  obtain ⟨hk, rfl, rfl⟩ | ⟨m, hlow, hhigh, hbound⟩ := h
  · rw [if_pos (by omega)]
    by_cases hlt : cur < 16
    · exact Or.inl ⟨by omega, rfl, rfl⟩
    · exact @slow_of_bound _ _ _ 0 (by omega) (by omega) (by omega)
  · have hone : (cur + 1) * 2 ^ m = cur * 2 ^ m + 2 ^ m := Nat.succ_mul ..
    split
    · next hturn =>
      -- at least `2 ^ m` accesses since the last advance
      have hmany : 2 ^ m ≤ hits + 1 := le_trans (by omega) hturn
      exact @slow_of_bound _ _ _ m (by omega) (by omega) (by omega)
    · exact @slow_of_bound _ _ _ m (by omega) (by omega) (by omega)

theorem Slow.cur_le {k cur hits : ℕ} (h : Slow k cur hits) (hk : k < 131072) : cur ≤ 223 := by
  obtain ⟨hsmall, rfl, -⟩ | ⟨m, hlow, hhigh, hbound⟩ := h
  · omega
  · have hm : m < 13 := by
      rw [← Nat.pow_lt_pow_iff_right (show 1 < 2 by omega)]
      omega
    have hlt : cur * 2 ^ m < (16 * m + 32) * 2 ^ m := by
      rw [Nat.add_mul, Nat.mul_assoc]
      omega
    have hcur : cur < 16 * m + 32 := Nat.lt_of_mul_lt_mul_right hlt
    omega

/-- The first `k` lines have been filled for partition 0. -/
structure Filling (k cur hits : ℕ) (s : VantageReplPolicy) : Prop where
  ready : Ready 2 131072 256 s
  info : cores s.partInfo 0 = partAt k cur hits cur
  time : s.timestamp = k + 1
  slow : Slow k cur hits
  clock : cur ≤ k ∧ hits ≤ k ∧ (0 < k → 0 < cur)
  empty : ∀ j, k ≤ j → j < 131072 → (s.array.cell j).ts = 0 ∧ (s.array.cell j).p = 2
  filled : ∀ j < k, (s.array.cell j).ts ≠ 0 ∧ (s.array.cell j).p = 0
  recent : ∀ j < k, k ≤ j + hits → (s.array.cell j).bts = cur
  covered : ∀ v < cur, ∃ j < k, (s.array.cell j).bts = v

/-- One more access to the partition. -/
theorem accessed_partAt {k cur hits : ℕ} (hk : k < 131072) (hcur : cur ≤ k) (hhits : hits ≤ k) :
    accessed { partAt k cur hits cur with size := inc64 k } =
      if (k + 1) / 16 ≤ hits + 1 then partAt (k + 1) (cur + 1) 0 (cur + 1)
      else partAt (k + 1) cur (hits + 1) cur := by
  have hsize : inc64 k = k + 1 := Nat.mod_eq_of_lt (by omega)
  have hclock : inc64 cur = cur + 1 := Nat.mod_eq_of_lt (by omega)
  have hhit : inc32 hits = hits + 1 := Nat.mod_eq_of_lt (by omega)
  have hmod : (k + 1) % 2 ^ 32 = k + 1 := Nat.mod_eq_of_lt (by omega)
  simp only [accessed, partAt, hsize, hclock, hhit, hmod]

theorem Filling.next {k cur hits : ℕ} {s : VantageReplPolicy} (h : Filling k cur hits s)
    (hk : k < 131072) : ∃ s', Reached s s' ∧
      if (k + 1) / 16 ≤ hits + 1 then Filling (k + 1) (cur + 1) 0 s'
      else Filling (k + 1) cur (hits + 1) s' := by
  obtain ⟨hcur, hhits, hpos⟩ := h.clock
  obtain ⟨hts, hp⟩ := h.empty k le_rfl hk
  obtain ⟨s', hrun, hready, htime, hinfo, hothers, a, hline⟩ :=
    @Ready.fills 2 131072 256 0 s 0 (apertureControl 100 50) k (fun _ => 0) h.ready (by omega) (by omega) hk hts
      hp (by omega)
  refine ⟨s', reached_miss hrun, ?_⟩
  rw [h.info] at hinfo
  change cores s'.partInfo 0 = accessed { partAt k cur hits cur with size := inc64 k } at hinfo
  rw [accessed_partAt hk hcur hhits] at hinfo
  have hbts : (s.partInfo.cell 0).curBts = cur := by
    rw [← core_curBts, show core (s.partInfo.cell 0) = _ from h.info]
    rfl
  rw [hbts] at hline
  have htime' : s'.timestamp = k + 1 + 1 := by
    rw [htime, h.time]
    exact Nat.mod_eq_of_lt (by omega)
  have hempty : ∀ j, k + 1 ≤ j → j < 131072 → (s'.array.cell j).ts = 0 ∧ (s'.array.cell j).p = 2 := by
    intro j hj hlt
    rw [hothers j (Nat.ne_of_gt hj)]
    exact h.empty j (by omega) hlt
  have hfilled : ∀ j < k + 1, (s'.array.cell j).ts ≠ 0 ∧ (s'.array.cell j).p = 0 := by
    intro j hj
    by_cases hjk : j = k
    · rw [hjk, hline, h.time]
      exact ⟨Nat.succ_ne_zero k, rfl⟩
    · rw [hothers j hjk]
      exact h.filled j (by omega)
  have hcovered : ∀ v < cur, ∃ j < k + 1, (s'.array.cell j).bts = v := by
    intro v hv
    obtain ⟨j, hj, hjv⟩ := h.covered v hv
    refine ⟨j, by omega, ?_⟩
    rw [hothers j (Nat.ne_of_lt hj), hjv]
  have hslow := h.slow.next
  split
  · next hturn =>
    rw [if_pos hturn] at hinfo hslow
    refine ⟨hready, hinfo, htime', hslow, by omega, hempty, hfilled, fun j hj hrec => ?_, fun v hv => ?_⟩
    · omega
    · by_cases hvc : v = cur
      · refine ⟨k, by omega, ?_⟩
        rw [hline, hvc]
      · exact hcovered v (by omega)
  · next hstay =>
    rw [if_neg hstay] at hinfo hslow
    refine ⟨hready, hinfo, htime', hslow, by omega, hempty, hfilled, fun j hj hrec => ?_, hcovered⟩
    by_cases hjk : j = k
    · rw [hjk, hline]
    · rw [hothers j hjk]
      exact h.recent j (by omega) (by omega)

/-- The partition fills up to any size. -/
theorem Filling.reaches {s : VantageReplPolicy} (h : Filling 0 0 0 s) (n : ℕ) (hn : n ≤ 131072) :
    ∃ cur hits s', Reached s s' ∧ Filling n cur hits s' := by
  induction n with
  | zero => exact ⟨0, 0, s, ⟨[], fun _ hop => absurd hop List.not_mem_nil, rfl⟩, h⟩
  | succ n ih =>
    obtain ⟨cur, hits, s₁, hreach, h₁⟩ := ih (by omega)
    obtain ⟨s', hmiss, h'⟩ := h₁.next (by omega)
    split at h'
    · exact ⟨_, _, s', hreach.trans hmiss, h'⟩
    · exact ⟨_, _, s', hreach.trans hmiss, h'⟩

/-- A large partition takes 256 lines without a turn of its clock. -/
theorem Filling.fresh {k cur hits n : ℕ} {s : VantageReplPolicy} (h : Filling k cur hits s) (hk : 8192 ≤ k)
    (hn : hits + n ≤ 256) (hroom : k + n ≤ 131072) :
    ∃ s', Reached s s' ∧ Filling (k + n) cur (hits + n) s' := by
  induction n with
  | zero => exact ⟨s, ⟨[], fun _ hop => absurd hop List.not_mem_nil, rfl⟩, h⟩
  | succ n ih =>
    obtain ⟨s₁, hreach, h₁⟩ := ih (by omega) (by omega)
    obtain ⟨s', hmiss, h'⟩ := h₁.next (by omega)
    rw [if_neg (by omega)] at h'
    exact ⟨s', hreach.trans hmiss, h'⟩

/-- Partition 0 is above its target, and its last 256 lines are of one timestamp. -/
theorem Filling.large {s : VantageReplPolicy} (h : Filling 0 0 0 s) :
    ∃ k cur hits s', Reached s s' ∧ Filling k cur hits s' ∧ 66018 ≤ k ∧ k ≤ 66274 ∧ 256 ≤ hits := by
  obtain ⟨cur, hits, s₁, hreach, h₁⟩ := h.reaches 66018 (by omega)
  by_cases hmany : 256 ≤ hits
  · exact ⟨_, _, _, s₁, hreach, h₁, le_rfl, by omega, hmany⟩
  · obtain ⟨s', hmiss, h'⟩ := @Filling.fresh _ _ _ (256 - hits) _ h₁ (by omega) (by omega) (by omega)
    exact ⟨_, _, _, s', hreach.trans hmiss, h', by omega, by omega, by omega⟩

/-- Two partitions of 65536 lines each are managed. -/
theorem initial_target : targetManagedSize 131072 100 / 2 = 65536 := by
  have hone : roundDouble ((100 : ℕ) / 100 : ℚ) = 1 := by
    have hwhole := roundDouble_natCast (k := 1) (by omega)
    norm_num at hwhole ⊢
    exact hwhole
  have hlines : roundDouble ((131072 : ℕ) : ℚ) = (131072 : ℕ) := roundDouble_natCast (by omega)
  rw [targetManagedSize, hone, mul_one, hlines, Nat.floor_natCast]

theorem initial_filling : ∃ s, construct 100 100 50 (allocated 2 131072 256 256 false 2) = .ok ((), s) ∧
    Filling 0 0 0 s := by
  obtain ⟨⟨⟩, s, hrun, hsound, -⟩ := @construct_spec 2 256 256 false 131072 (by omega) 100 100 50 (by omega)
    (by omega) (by omega)
  have hinit : construct 100 100 50 (allocated 2 131072 256 256 false 2) =
      initialise 65536 (allocated 2 131072 256 256 false 2) := by
    rw [construct_eq (by omega) (by omega) (by omega)]
    exact congrArg (fun target => initialise target (allocated 2 131072 256 256 false 2)) initial_target
  rw [hinit] at hrun
  obtain ⟨⟨⟩, s', hrun', hidx, htime, hcores, hlines⟩ :=
    @initialise_cores (allocated 2 131072 256 256 false 2) 65536 rfl rfl
  rw [hrun] at hrun'
  cases hrun'
  refine ⟨s, hinit.trans hrun, ⟨hsound, hidx, fun q hq => ?_⟩, ?_, htime,
    Or.inl ⟨by omega, rfl, rfl⟩, ⟨le_rfl, le_rfl, fun hpos => absurd hpos (Nat.lt_irrefl 0)⟩,
    fun j _ hj => hlines j hj, fun j hj => absurd hj (Nat.not_lt_zero j),
    fun j hj => absurd hj (Nat.not_lt_zero j), fun v hv => absurd hv (Nat.not_lt_zero v)⟩
  · have hcell : core (s.partInfo.cell q) = _ := hcores q hq
    have htarget : (core (s.partInfo.cell q)).targetSize = 65536 := by rw [hcell]
    have hlong : (core (s.partInfo.cell q)).longTermTargetSize = 65536 := by rw [hcell]
    rw [core_targetSize] at htarget
    rw [core_longTermTargetSize] at hlong
    omega
  · exact hcores 0 (by decide)

/-- A few lines above the target, one demotion in an interval is too many. -/
theorem control_decreases {i : VantagePartInfo} {above : ℕ} (htarget : i.targetSize = 65536)
    (hsize : i.size = 65536 + above) (hpos : 0 < above) (habove : above < 512)
    (hcands : i.curIntervalCands = 256) (hdems : 0 < i.curIntervalDems) (hsmall : i.curIntervalDems ≤ 256) :
    apertureControl 100 50 i = some .decrease := by
  have hint : WayPart.int32 i.curIntervalDems = (i.curIntervalDems : ℤ) :=
    int32_of_lt (Nat.lt_of_le_of_lt hsmall (by omega))
  have hshare : ((above * 256 : ℕ) : ℚ) / 2 ^ (16 + 1) < i.curIntervalDems := by
    have hnat : above * 256 < i.curIntervalDems * 2 ^ (16 + 1) := by omega
    rw [div_lt_iff₀ (by positivity)]
    exact_mod_cast hnat
  have hdouble : above * i.curIntervalCands < 2 ^ 53 := by
    rw [hcands]
    omega
  rw [@apertureControl_half i 16 above (by omega) htarget hsize hpos (by omega) hdouble, hcands, hint,
    Int.cast_natCast, if_neg (not_lt.mpr hshare.le), if_pos hshare]

/-- Above the target, no demotion in an interval is too few. -/
theorem control_increases {i : VantagePartInfo} {above : ℕ} (htarget : i.targetSize = 65536)
    (hsize : i.size = 65536 + above) (hpos : 0 < above) (habove : above < 512)
    (hcands : i.curIntervalCands = 256) (hdems : i.curIntervalDems = 0) :
    apertureControl 100 50 i = some .increase := by
  have hshare : (WayPart.int32 0 : ℚ) < ((above * 256 : ℕ) : ℚ) / 2 ^ (16 + 1) := by
    have hzero : WayPart.int32 0 = 0 := rfl
    rw [hzero, Int.cast_zero]
    positivity
  have hdouble : above * i.curIntervalCands < 2 ^ 53 := by
    rw [hcands]
    omega
  rw [@apertureControl_half i 16 above (by omega) htarget hsize hpos (by omega) hdouble, hcands, hdems,
    if_pos hshare]

theorem sub64_self (x : ℕ) : sub64 x x = 0 := by
  rw [sub64, if_pos le_rfl, Nat.sub_self]

theorem adjust_decrease {i : VantagePartInfo} (h : sub64 i.curBts i.setpointBts < 255) :
    adjustSetpoint .decrease i = { i with
      setpointBts := dec64 i.setpointBts
      curIntervalCands := 0
      curIntervalIns := 0
      curIntervalDems := 0 } := by
  simp only [adjustSetpoint, if_pos h]

/-- The setpoint after an interval with too many demotions. -/
theorem adjust_partAt {k cur hits setpoint n : ℕ} (hlag : sub64 cur setpoint < 255) :
    adjustSetpoint .decrease (intervalEnd (partAt k cur hits setpoint) n) =
      partAt (k - n) cur hits (dec64 setpoint) :=
  adjust_decrease (i := intervalEnd (partAt k cur hits setpoint) n) hlag

section Descent

variable {cur hits : ℕ} {o : ℕ → LineId} {young : List LineId} {bts : LineId → ℕ}
  {s : VantageReplPolicy}

/-- Partition 0 has `k` lines and its setpoint is at `v`; there are a line of each
timestamp up to `v` and young lines. -/
def Falling (cur hits k v : ℕ) (o : ℕ → LineId) (young : List LineId) (bts : LineId → ℕ)
    (s : VantageReplPolicy) : Prop :=
  Ready 2 131072 256 s ∧ ∃ kept, Kept 0 (partAt k cur hits v) kept bts s ∧ (∀ u ≤ v, o u ∈ kept) ∧
    ∀ f ∈ young, f ∈ kept

/-- One interval in which a single line is as old as the setpoint. -/
theorem Falling.step {k v : ℕ} (h : Falling cur hits k v o young bts s) (hv : v < cur) (hcur : cur ≤ 223)
    (ho : ∀ u < cur, bts (o u) = u) (hyoung : ∀ f ∈ young, bts f = cur) (hlen : young.length = 256)
    (hlow : 65537 < k) (hhigh : k ≤ 66018) :
    ∃ s', Reached s s' ∧ Ready 2 131072 256 s' ∧ ∃ kept,
      Kept 0 (partAt (k - 1) cur hits (dec64 v)) kept bts s' ∧ (∀ u < v, o u ∈ kept) ∧
        ∀ f ∈ young, f ∈ kept := by
  obtain ⟨hready, kept, hkept, hold, hfresh⟩ := h
  have hlag : sub64 cur v = cur - v := if_pos hv.le
  have hlast : ∀ id ∈ [o v], id ∈ kept ∧ Distant (partAt k cur hits v) (bts id) := by
    intro id hid
    obtain rfl := List.mem_singleton.mp hid
    refine ⟨hold v le_rfl, ?_⟩
    rw [ho v hv]
    exact le_rfl
  have hnear : ∀ id ∈ young.tail, id ∈ kept ∧ ¬ Distant (partAt k cur hits v) (bts id) := by
    intro id hid
    have hmem := List.mem_of_mem_tail hid
    refine ⟨hfresh id hmem, ?_⟩
    rw [hyoung id hmem]
    change ¬ sub64 cur v % 256 ≤ sub64 cur cur % 256
    rw [hlag, sub64_self]
    omega
  obtain ⟨r, s', hrun, hready', hkept'⟩ := @Ready.interval 2 131072 256 1 s 0 (apertureControl 100 50)
    (fun _ => 0) 0 _ _ _ hready (by omega) le_rfl (by omega) (by omega) hkept [o v] young.tail .decrease
    (List.nodup_singleton _) hlast hnear (List.cons_ne_nil _ _)
    (by rw [List.length_singleton, List.length_tail, hlen]) hlow
    (by change k < 2 ^ 32; omega) rfl rfl (fun _ => rfl)
    (control_decreases rfl (show k - 1 = 65536 + (k - 65537) by omega) (by omega) (by omega) rfl
      Nat.one_pos (by change 1 ≤ 256; omega))
  rw [adjust_partAt (by omega)] at hkept'
  refine ⟨s', reached_miss hrun, hready', _, hkept', fun u hu => ⟨hold u hu.le, fun hmem => ?_⟩,
    fun f hf => ⟨hfresh f hf, fun hmem => ?_⟩⟩
  · have heq := List.mem_singleton.mp hmem
    have hbts := ho u (by omega)
    rw [heq, ho v hv] at hbts
    omega
  · have heq := List.mem_singleton.mp hmem
    have hbts := hyoung f hf
    rw [heq, ho v hv] at hbts
    omega

/-- The setpoint goes down to zero, and wraps. -/
theorem Falling.wraps {k v : ℕ} (h : Falling cur hits k v o young bts s) (hv : v < cur) (hcur : cur ≤ 223)
    (ho : ∀ u < cur, bts (o u) = u) (hyoung : ∀ f ∈ young, bts f = cur) (hlen : young.length = 256)
    (hlow : 65537 + v < k) (hhigh : k ≤ 66018) :
    ∃ s', Reached s s' ∧ Ready 2 131072 256 s' ∧ ∃ kept,
      Kept 0 (partAt (k - (v + 1)) cur hits (2 ^ 64 - 1)) kept bts s' ∧ ∀ f ∈ young, f ∈ kept := by
  induction v generalizing s k with
  | zero =>
    obtain ⟨s', hreach, hready, kept, hkept, -, hfresh⟩ := h.step hv hcur ho hyoung hlen (by omega) hhigh
    exact ⟨s', hreach, hready, kept, hkept, hfresh⟩
  | succ v ih =>
    obtain ⟨s₁, hreach, hready, kept, hkept, hold, hfresh⟩ := h.step hv hcur ho hyoung hlen (by omega) hhigh
    rw [dec64_of_pos v.succ_pos] at hkept
    have hfalling : Falling cur hits (k - 1) v o young bts s₁ :=
      ⟨hready, kept, hkept, fun u hu => hold u (Nat.lt_succ_of_le hu), hfresh⟩
    obtain ⟨s', hreach', hready', hrest⟩ := ih hfalling (by omega) (by omega) (by omega)
    rw [Nat.sub_sub, Nat.add_comm 1] at hrest
    exact ⟨s', hreach.trans hreach', hready', hrest⟩

end Descent

/-- Lines that are neither young nor needed for the descent. -/
theorem exists_spare {k cur : ℕ} (o : ℕ → LineId) (hk : 66018 ≤ k) (hcur : cur ≤ 223) :
    ∃ ids : List LineId, ids.Nodup ∧ ids.length = 256 ∧ ∀ j ∈ ids, j + 256 < k ∧ ∀ u < cur, o u ≠ j := by
  have hcard : 256 ≤ (Finset.range (k - 256) \ (Finset.range cur).image o).card := by
    have hle := Finset.le_card_sdiff ((Finset.range cur).image o) (Finset.range (k - 256))
    have himage := (Finset.card_image_le (s := Finset.range cur) (f := o))
    rw [Finset.card_range] at hle himage
    omega
  obtain ⟨D, hsub, hD⟩ := Finset.exists_subset_card_eq hcard
  refine ⟨D.toList, D.nodup_toList, by rw [Finset.length_toList, hD], fun j hj => ?_⟩
  obtain ⟨hrange, himage⟩ := Finset.mem_sdiff.mp (hsub (Finset.mem_toList.mp hj))
  have hlt := Finset.mem_range.mp hrange
  refine ⟨Nat.add_lt_of_lt_sub hlt, fun u hu heq => himage ?_⟩
  exact Finset.mem_image.mpr ⟨u, Finset.mem_range.mpr hu, heq⟩

theorem Filling.kept {k cur hits : ℕ} {s : VantageReplPolicy} (h : Filling k cur hits s) (hk : k < 131072) :
    Kept 0 (partAt k cur hits cur) {j | j < k} (fun j => (s.array.cell j).bts) s := by
  obtain ⟨hP, hlines, -⟩ := h.ready.sound.geometry
  refine ⟨by omega, h.info, fun j hj => ?_⟩
  obtain ⟨hts, hp⟩ := h.filled j hj
  exact ⟨hlines.symm ▸ Nat.lt_trans hj hk, hts, hp, rfl⟩

/-- With the setpoint at the timestamp, an interval demotes all of its lines. -/
theorem Filling.descends {k cur hits : ℕ} {s : VantageReplPolicy} (h : Filling k cur hits s)
    (hlow : 66018 ≤ k) (hhigh : k ≤ 66274) (hhits : 256 ≤ hits) :
    ∃ o young bts s', Reached s s' ∧ Falling cur hits (k - 256) (cur - 1) o young bts s' ∧
      (∀ u < cur, bts (o u) = u) ∧ (∀ f ∈ young, bts f = cur) ∧ young.length = 256 := by
  obtain ⟨-, -, hpos⟩ := h.clock
  have hcur := h.slow.cur_le (by omega)
  have hpos := hpos (by omega)
  have hcovered : ∀ v, ∃ j, v < cur → j < k ∧ (s.array.cell j).bts = v := by
    intro v
    by_cases hv : v < cur
    · obtain ⟨j, hj, hjv⟩ := h.covered v hv
      exact ⟨j, fun _ => ⟨hj, hjv⟩⟩
    · exact ⟨0, fun hlt => absurd hlt hv⟩
  choose o ho using hcovered
  obtain ⟨spare, hnodup, hlen, hspare⟩ := exists_spare o hlow hcur
  have hold : ∀ id ∈ spare, id ∈ {j | j < k} ∧
      Distant (partAt k cur hits cur) (s.array.cell id).bts := by
    intro id hid
    obtain ⟨hlt, -⟩ := hspare id hid
    refine ⟨Nat.lt_of_le_of_lt (Nat.le_add_right id 256) hlt, ?_⟩
    change sub64 cur cur % 256 ≤ _
    rw [sub64_self]
    exact Nat.zero_le _
  have hne : spare ≠ [] := by
    intro hnil
    rw [hnil] at hlen
    cases hlen
  obtain ⟨r, s', hrun, hready, hkept⟩ := @Ready.interval 2 131072 256 1 s 0 (apertureControl 100 50)
    (fun _ => 0) 0 _ _ _ h.ready (by omega) le_rfl (by omega) (by omega) (h.kept (by omega)) spare [] .decrease
    hnodup hold (fun id hid => absurd hid List.not_mem_nil) hne hlen
    (by rw [hlen]; change 65536 + 256 < k; omega) (by change k < 2 ^ 32; omega) rfl rfl (fun _ => rfl)
    (by
      rw [hlen]
      exact control_decreases rfl (show k - 256 = 65536 + (k - 65792) by omega) (by omega) (by omega) rfl
        (by change 0 < 256; omega) le_rfl)
  rw [adjust_partAt (by rw [sub64_self]; omega), hlen, dec64_of_pos hpos] at hkept
  refine ⟨o, (List.range 256).map fun x => k - 256 + x, _, s', reached_miss hrun,
    ⟨hready, _, hkept, fun u hu => ?_, fun f hf => ?_⟩, fun u hu => (ho u hu).2, fun f hf => ?_, by simp⟩
  · have hlt : u < cur := by omega
    refine ⟨(ho u hlt).1, fun hmem => ?_⟩
    exact (hspare _ hmem).2 u hlt rfl
  · obtain ⟨x, hx, rfl⟩ := List.mem_map.mp hf
    rw [List.mem_range] at hx
    refine ⟨show k - 256 + x < k by omega, fun hmem => ?_⟩
    have hlt : k - 256 + x + 256 < k := (hspare _ hmem).1
    omega
  · obtain ⟨x, hx, rfl⟩ := List.mem_map.mp hf
    rw [List.mem_range] at hx
    exact h.recent _ (by omega) (by omega)

/-- A wrapped setpoint is to come nearer, and stays where it is. -/
theorem wrapped_stays {k cur hits : ℕ} {kept : Set LineId} {bts : LineId → ℕ} {young : List LineId}
    {s : VantageReplPolicy} (h : Ready 2 131072 256 s)
    (hkept : Kept 0 (partAt k cur hits (2 ^ 64 - 1)) kept bts s) (hlow : 65536 < k) (hhigh : k ≤ 66018)
    (hcur : cur ≤ 223) (hyoung : ∀ f ∈ young, f ∈ kept ∧ bts f = cur) (hlen : young.length = 256) :
    ¬ DuringRank Moves (.ok s) (.rank 0 young (apertureControl 100 50)) := by
  obtain ⟨-, hlines, -⟩ := h.sound.geometry
  have hlag : sub64 cur (2 ^ 64 - 1) = cur + 1 := by
    rw [sub64, if_neg (by omega)]
    omega
  have hnear : ∀ id ∈ young, id ∈ kept ∧ ¬ Distant (partAt k cur hits (2 ^ 64 - 1)) (bts id) := by
    intro id hid
    obtain ⟨hin, hbts⟩ := hyoung id hid
    refine ⟨hin, ?_⟩
    rw [hbts]
    change ¬ sub64 cur (2 ^ 64 - 1) % 256 ≤ sub64 cur cur % 256
    rw [hlag, sub64_self]
    omega
  intro hmoves
  obtain ⟨t, hstart, ht, hrec⟩ := @Ready.candidates 2 131072 256 s 0 young h hlen.le
  have hevery := hmoves _ hstart
  have hshaped := h.shaped (by omega) (fun c hc => hlines ▸ (hkept.kept c (hyoung c hc).1).1) ht hrec
  rw [hrec] at hevery
  obtain hnil | ⟨ys, y, rfl⟩ := List.eq_nil_or_concat' young
  · rw [hnil] at hlen
    cases hlen
  have hys : ys.length = 255 := by
    rw [List.length_append, List.length_singleton] at hlen
    omega
  have hlarge : 65536 < k % 2 ^ 32 := by
    rw [Nat.mod_eq_of_lt (by omega)]
    exact hlow
  obtain ⟨s₁, hrun, h₁⟩ := @Kept.passes _ _ _ _ _ (apertureControl 100 50) ys (hkept.started _ t) hshaped hlarge
    (fun id hid => hnear id (List.mem_append_left _ hid)) (by rw [hys]; exact le_rfl)
  obtain ⟨hy, hfar⟩ := hnear y (List.mem_append_right _ (List.mem_singleton_self y))
  have hcontrol : apertureControl 100 50 (counted { partAt k cur hits (2 ^ 64 - 1) with
      curIntervalCands := (partAt k cur hits (2 ^ 64 - 1)).curIntervalCands + ys.length }) = some .increase := by
    rw [hys]
    exact control_increases rfl (show k = 65536 + (k - 65536) by omega) (by omega) (by omega) rfl rfl
  obtain ⟨hfull, hsome, s₂, hstep, h₂⟩ := h₁.close (hshaped.run hrun) hy hlarge (h₁.young hy hfar)
    (by rw [hys]; rfl) (fun _ => rfl) hcontrol
  have hround := @EveryStep.at _ _ _ _ _ _ _ ys [] y hevery hrun hstep
  obtain ⟨-, -, hp, -⟩ := h₁.kept y hy
  have hdecision : decision (apertureControl 100 50) s₁ y = some .increase := by
    rw [decision, if_pos ⟨h₁.considered hy hlarge, hfull⟩, hsome]
  have hbefore : partLag s₁ 0 = cur + 1 := by
    rw [partLag, clocks, ← core_curBts, ← core_setpointBts, h₁.cell]
    exact hlag
  have hafter : partLag s₂ 0 = cur + 1 := by
    rw [partLag, clocks, ← core_curBts, ← core_setpointBts, h₂.cell]
    change sub64 cur (if 2 ^ 64 - 1 < cur then inc64 (2 ^ 64 - 1) else 2 ^ 64 - 1) = cur + 1
    rw [if_neg (by omega), hlag]
  have hnearer := hround.nearer hdecision
  rw [hp, hbefore, hafter] at hnearer
  omega

/-- With the feedback in doubles, two partitions of 65536 lines and an interval of
256 candidates, a setpoint wraps below zero and is then stuck. -/
theorem setpoint_sticks : ∃ s, construct 100 100 50 (allocated 2 131072 256 256 false 2) = .ok ((), s) ∧
    ∃ ops, (∀ op ∈ ops, Feedback 100 50 op) ∧
      ¬ EveryStep step (fun r op _ => DuringRank Moves r op) (.ok s) ops := by
  obtain ⟨s₀, hinit, hfilling⟩ := initial_filling
  obtain ⟨k, cur, hits, s₁, hreach₁, h₁, hlow, hhigh, hhits⟩ := hfilling.large
  have hcur := h₁.slow.cur_le (by omega)
  obtain ⟨-, -, hpos⟩ := h₁.clock
  have hpos := hpos (by omega)
  obtain ⟨o, young, bts, s₂, hreach₂, h₂, ho, hyoung, hlen⟩ := h₁.descends hlow hhigh hhits
  obtain ⟨s₃, hreach₃, hready, kept, hkept, hfresh⟩ := h₂.wraps (by omega) hcur ho hyoung hlen (by omega)
    (by omega)
  have hstuck := wrapped_stays hready hkept (by omega) (by omega) hcur
    (fun f hf => ⟨hfresh f hf, hyoung f hf⟩) hlen
  obtain ⟨ops, hops, hrun⟩ := (hreach₁.trans hreach₂).trans hreach₃
  refine ⟨s₀, hinit, ops ++ [.rank 0 young (apertureControl 100 50)], fun op hop => ?_, fun hevery => ?_⟩
  · cases List.mem_append.mp hop with
    | inl hop => exact hops op hop
    | inr hop =>
      obtain rfl := List.mem_singleton.mp hop
      rfl
  · obtain ⟨-, hlines, -⟩ := hready.sound.geometry
    have hlegal : Legal s₃ (.rank 0 young (apertureControl 100 50)) := fun f hf =>
      (hkept.kept f (hfresh f hf)).1
    have hstep : step (.ok s₃) (.rank 0 young (apertureControl 100 50)) = some _ := if_pos hlegal
    exact hstuck (@EveryStep.at _ _ _ _ _ _ _ ops [] _ hevery hrun hstep)

end Wrapped

end Zsim.VantageSetpoints
