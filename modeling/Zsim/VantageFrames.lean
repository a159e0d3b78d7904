import Zsim.Frames
import Zsim.TableCounts
import Zsim.VantageRounds

/-!
# What the calls of the Vantage policy leave alone

Most writes go to the sizes and counters of a partition. Whatever is said of the
partitions without them is kept by an access and by a ranking, up to the clock
that an access advances and the setpoint that a ranking adjusts.
-/

namespace Zsim.VantageFrames

open WeakestPre MemoryHierarchy CheckedTables PartPolicy Frames Vantage VantageRounds

/-- A projection of the partitions that does not see sizes and counters. -/
structure Uncounted {α : Type} (g : VantagePartInfo → α) : Prop where
  size : ∀ i n, g { i with size := n } = g i
  extendedSize : ∀ i n, g { i with extendedSize := n } = g i
  curBtsHits : ∀ i n, g { i with curBtsHits := n } = g i
  curIntervalIns : ∀ i n, g { i with curIntervalIns := n } = g i
  curIntervalDems : ∀ i n, g { i with curIntervalDems := n } = g i
  curIntervalCands : ∀ i n, g { i with curIntervalCands := n } = g i

/-- The parameters of the policy. -/
def settings (s : VantageReplPolicy) : ℕ × ℕ × ℕ × Bool :=
  (s.partitions, s.totalSize, s.partGranularity, s.smoothTransients)

/-- The parameters, and the partitions under the projection. -/
def view {α : Type} (g : VantagePartInfo → α) (s : VantageReplPolicy) : (ℕ × ℕ × ℕ × Bool) × (ℕ → α) :=
  (settings s, fun q => g (s.partInfo.cell q))

section Writes

variable {α : Type} {g : VantagePartInfo → α} {s : VantageReplPolicy} {id : LineId} {part : ℕ}

/-- A write of the info of a partition. -/
theorem view_put (g : VantagePartInfo → α) (s : VantageReplPolicy) (p : ℕ) (i : VantagePartInfo) :
    view g (putPart s p i) = (settings s, Function.update (view g s).2 p (g i)) :=
  congrArg (fun f => (settings s, f)) (TableCounts.cell_set s.partInfo p i g)

theorem view_put_same {p : ℕ} {i : VantagePartInfo} (h : g i = g (s.partInfo.cell p)) :
    view g (putPart s p i) = view g s := by
  rw [view_put, h]
  exact congrArg (fun f => (settings s, f)) (Function.update_eq_self ..)

theorem keeps_part {f : VantagePartInfo → VantagePartInfo} (p : ℕ) (e : PartFailure)
    (h : ∀ i, g (f i) = g i) : Keeps (view g) (modifyCell partInfo p f e) :=
  .modifyCell (fun s => view_put_same (h (s.partInfo.cell p))) e

theorem keeps_line {f : LineInfo → LineInfo} (id : LineId) (e : PartFailure) :
    Keeps (view g) (modifyCell array id f e) :=
  .modifyCell (fun _ => rfl) e

theorem keeps_touch (p : ℕ) : Keeps (view g) (touch partInfo p) :=
  .bind (.readCell _ _ _) fun _ => .pure _

theorem keeps_monitor (p : ℕ) :
    Keeps (view g) (monitorAccess (fun s : VantageReplPolicy => s.monitors) p) :=
  .bind (.observe _) fun _ => .ensure _

theorem keeps_recordHit : Keeps (view g) (recordHit id) :=
  .bind (.observe _) fun _ => .bind (keeps_line _ _) fun _ => .bind (.change fun _ => rfl) fun _ =>
    .bind (.readCell _ _ _) fun _ => keeps_touch _

theorem keeps_hitUpdate (h : Uncounted g) : Keeps (view g) (hitUpdate part id) := by
  refine .bind (.observe _) fun _ => .bind (.readCell _ _ _) fun _ => .bind (.ite ?_ (.pure _)) fun _ =>
    keeps_recordHit
  refine .bind (keeps_line _ _) fun _ => .bind (keeps_part _ _ fun _ => ?_) fun _ =>
    .bind (keeps_part _ _ fun _ => ?_) fun _ => keeps_part _ _ fun _ => ?_
  · exact h.curIntervalIns _ _
  · exact h.size _ _
  · exact h.size _ _

theorem keeps_insertLine (h : Uncounted g) : Keeps (view g) (insertLine part id) := by
  refine .bind (.observe _) fun _ => .bind (.readCell _ _ _) fun _ => .bind (keeps_line _ _) fun _ =>
    .bind (.change fun _ => rfl) fun _ => .bind (keeps_part _ _ fun _ => ?_) fun _ =>
    .bind (keeps_part _ _ fun _ => ?_) fun _ => .bind (keeps_line _ _) fun _ =>
    .bind (keeps_part _ _ fun _ => ?_) fun _ => .bind (keeps_part _ _ fun _ => ?_) fun _ =>
    .bind (keeps_part _ _ fun _ => ?_) fun _ => keeps_touch _
  · exact h.size _ _
  · exact h.extendedSize _ _
  · exact h.curIntervalIns _ _
  · exact h.size _ _
  · exact h.extendedSize _ _

theorem keeps_phase (phaseCycles : ℕ) (s : VantageReplPolicy) :
    Keeps (view g) (if s.lastUpdateCycle < phaseCycles then do
        forUpTo (fun p _ => touch partInfo p) (s.partitions + 1) ()
        change fun s => { s with lastUpdateCycle := phaseCycles }
      else pure ()) :=
  .ite (.bind (.forUpTo (fun p _ => keeps_touch p) _ _) fun _ => .change fun _ => rfl) (.pure _)

theorem keeps_candidates (lineAddr : Address) (cands : List LineId) :
    Keeps (view g) (candidates lineAddr cands) := by
  refine .bind (.change fun _ => rfl) fun _ => ?_
  induction cands with
  | nil => exact .pure _
  | cons id cands ih =>
    rw [List.foldlM_cons]
    refine .bind ?_ fun _ => ih
    exact .bind (.observe _) fun _ => .bind (.ensure _) fun _ =>
      .bind (.modifyCell (fun _ => rfl) _) fun _ => .change fun _ => rfl

theorem keeps_replaced : Keeps (view g) (replaced id) :=
  .bind (.change fun _ => rfl) fun _ => .bind (.observe _) fun _ => keeps_line _ _

theorem keeps_demote (h : Uncounted g) : Keeps (view g) (demote part id) := by
  refine .bind (.observe _) fun _ => .bind (keeps_part _ _ fun _ => ?_) fun _ =>
    .bind (keeps_line _ _) fun _ => .bind (keeps_part _ _ fun _ => ?_) fun _ =>
    keeps_part _ _ fun _ => ?_
  · exact h.size _ _
  · exact h.size _ _
  · exact h.curIntervalDems _ _

end Writes
end Zsim.VantageFrames
