import Zsim.IdealLRUPart
import Zsim.IdealLRURuns
import Zsim.TableCounts
import Zsim.GuardedRuns

/-!
# Runs of the ideal partitioned array

Every line is in the list of its partition, which is ordered by the last update
of its lines. The lists have the recorded sizes, the address map inverts the
line addresses, and the line chosen for eviction is the least recently updated
one of a partition that has lines.
-/

namespace Zsim.IdealLRUPartRuns

open WeakestPre MemoryHierarchy CheckedTables TableCounts PartPolicy IntrusiveList DoubleRounding
open IdealLRUPart GuardedRuns
open WayPart (int32)

/-- The lists of all the partitions are linked and share no line. -/
structure Lists (P : ℕ) (s : IdealLRUPartReplPolicy) (xs : ℕ → List LineId) : Prop where
  linked : ∀ q < P, Linked s.nodes q (s.partInfo.cell q).lruList (xs q)
  apart : ∀ q < P, ∀ r < P, ∀ i ∈ xs q, i ∈ xs r → q = r

/-- The lists after a line has moved to the front of one of them. -/
def moved (xs : ℕ → List LineId) (id : LineId) (new : ℕ) : ℕ → List LineId := fun q =>
  if q = new then id :: (xs q).erase id else (xs q).erase id

section Moved

variable {xs : ℕ → List LineId} {id i : LineId} {old new q : ℕ}

theorem mem_moved (hnodup : (xs q).Nodup) :
    i ∈ moved xs id new q ↔ (i = id ∧ q = new) ∨ (i ≠ id ∧ i ∈ xs q) := by
  unfold moved
  split
  · next hq =>
    rw [List.mem_cons, hnodup.mem_erase_iff]
    by_cases hi : i = id <;> simp [hi, hq]
  · next hq =>
    rw [hnodup.mem_erase_iff]
    simp [hq]

/-- The lengths change as the sizes do. -/
theorem length_moved (hid : id ∈ xs old) (hothers : q ≠ old → id ∉ xs q) :
    (moved xs id new q).length + (if old = q then 1 else 0) =
      (xs q).length + (if new = q then 1 else 0) := by
  have hlength : ((xs q).erase id).length + (if old = q then 1 else 0) = (xs q).length := by
    by_cases hq : old = q
    · subst hq
      have hpos := List.length_pos_of_mem hid
      rw [List.length_erase_of_mem hid, if_pos rfl]
      omega
    · rw [List.erase_of_not_mem (hothers (Ne.symm hq)), if_neg hq]
      rfl
  unfold moved
  split
  · next hq =>
    rw [List.length_cons, if_pos hq.symm]
    omega
  · next hq =>
    rw [if_neg (Ne.symm hq)]
    omega

end Moved

section Moves

variable {P old new : ℕ} {s : IdealLRUPartReplPolicy} {xs : ℕ → List LineId} {id : LineId}

/-- Only the lists change. -/
structure Relinked (s s' : IdealLRUPartReplPolicy) : Prop where
  same : s' = { s with nodes := s'.nodes, partInfo := s'.partInfo }
  length : s'.partInfo.length = s.partInfo.length
  infos : ∀ q, (s'.partInfo.cell q).toPartInfo = (s.partInfo.cell q).toPartInfo

theorem Relinked.trans {s s' s'' : IdealLRUPartReplPolicy} (h : Relinked s s')
    (h' : Relinked s' s'') : Relinked s s'' := by
  refine ⟨?_, h'.length.trans h.length, fun q => (h'.infos q).trans (h.infos q)⟩
  rw [h'.same, h.same]

/-- A method that acts on the list of one partition and frames the other nodes. -/
theorem listMethod_spec {q : ℕ} {f : Heap → InList → Option (Heap × InList)} {h : Heap} {L : InList}
    (hq : q < s.partInfo.length) (hf : f s.nodes (s.partInfo.cell q).lruList = some (h, L)) :
    wp (listMethod q f) (fun _ s' => Relinked s s' ∧ s'.nodes = h ∧ (s'.partInfo.cell q).lruList = L ∧
      ∀ r, r ≠ q → s'.partInfo.cell r = s.partInfo.cell r) s := by
  simp only [listMethod, wp_bind, wp_readCell, wp_observe, hf, wp_change, wp_modifyCell]
  refine ⟨hq, hq, ⟨rfl, rfl, fun r => ?_⟩, trivial, ?_, fun r hr => set_cell_of_ne _ _ _ hr⟩
  · by_cases hr : r = q
    · change ((s.partInfo.set q _).cell r).toPartInfo = _
      rw [hr, set_cell_self]
    · exact congrArg IdPartInfo.toPartInfo (set_cell_of_ne _ _ _ hr)
  · exact congrArg IdPartInfo.lruList (set_cell_self ..)

/-- Removing a line from its list and pushing it on one moves it there. -/
theorem moveList_spec (hl : Lists P s xs) (hP : P ≤ s.partInfo.length) (hold : old < P) (hnew : new < P)
    (hid : id ∈ xs old) :
    wp (moveList old new id) (fun _ s' => Relinked s s' ∧ Lists P s' (moved xs id new)) s := by
  obtain ⟨pre, post, hxs⟩ := List.append_of_mem hid
  have hlold := hl.linked old hold
  rw [hxs] at hlold
  have hnotpre : id ∉ pre := fun hp =>
    (List.nodup_append'.mp hlold.nodup).2.2 hp List.mem_cons_self
  have herase : (xs old).erase id = pre ++ post := by
    rw [hxs, List.erase_append_right _ hnotpre, List.erase_cons_head]
  have hothers : ∀ q < P, q ≠ old → id ∉ xs q := fun q hq hne hin =>
    hne (hl.apart q hq old hold id hin hid)
  obtain ⟨h₁, L₁, hrun₁, hl₁, hfree, hframe₁⟩ := remove_spec hlold
  rw [moveList, wp_bind]
  refine wp_mono (listMethod_spec (lt_of_lt_of_le hold hP) hrun₁) ?_
  rintro _ s₁ ⟨hk₁, hnodes₁, hlist₁, hcells₁⟩
  -- the lists without the line
  have hmid : ∀ q < P, Linked s₁.nodes q (s₁.partInfo.cell q).lruList ((xs q).erase id) := by
    intro q hq
    by_cases hqo : q = old
    · rw [hqo, hnodes₁, hlist₁, herase]
      exact hl₁
    · rw [hcells₁ q hqo, hnodes₁, List.erase_of_not_mem (hothers q hq hqo)]
      refine (hl.linked q hq).congr fun i hi => hframe₁ i fun hin => hqo ?_
      rw [← hxs] at hin
      exact hl.apart q hq old hold i hi hin
  rw [← hnodes₁] at hfree
  obtain ⟨h₂, L₂, hrun₂, hl₂, hframe₂⟩ := pushFront_spec (hmid new hnew) hfree
  refine wp_mono (listMethod_spec (by rw [hk₁.length]; exact lt_of_lt_of_le hnew hP) hrun₂) ?_
  rintro _ s₂ ⟨hk₂, hnodes₂, hlist₂, hcells₂⟩
  refine ⟨hk₁.trans hk₂, fun q hq => ?_, fun q hq r hr i hi hi' => ?_⟩
  · unfold moved
    by_cases hqn : q = new
    · rw [if_pos hqn, hqn, hnodes₂, hlist₂]
      exact hl₂
    · rw [if_neg hqn, hcells₂ q hqn, hnodes₂]
      refine (hmid q hq).congr fun i hi => hframe₂ i fun hin => ?_
      have hiq := List.mem_of_mem_erase hi
      rcases List.mem_cons.mp hin with rfl | hin
      · have howner := (hmid q hq).owner hi
        rw [hfree] at howner
        cases howner
      · exact hqn (hl.apart q hq new hnew i hiq (List.mem_of_mem_erase hin))
  · have hmem : ∀ q < P, i ∈ moved xs id new q → (i = id ∧ q = new) ∨ (i ≠ id ∧ i ∈ xs q) :=
      fun q hq => (mem_moved (hl.linked q hq).nodup).mp
    rcases hmem q hq hi with ⟨rfl, rfl⟩ | ⟨hne, hiq⟩
    · rcases hmem r hr hi' with ⟨-, rfl⟩ | ⟨hne, -⟩
      · rfl
      · exact absurd rfl hne
    · rcases hmem r hr hi' with ⟨heq, -⟩ | ⟨-, hir⟩
      · exact absurd heq hne
      · exact hl.apart q hq r hr i hiq hir

end Moves

/-- The invariant of the policy; `xs q` is the list of partition `q`. -/
structure Sound (P n : ℕ) (xs : ℕ → List LineId) (s : IdealLRUPartReplPolicy) : Prop where
  partitions : s.partitions = P
  numLines : s.numLines = n
  infos : P ≤ s.partInfo.length
  cells : s.array.length = n
  monitors : P ≤ s.monitors
  /-- Sizes are compared as `int32_t`. -/
  small : n < 2 ^ 31
  targets : ∀ q < P, (s.partInfo.cell q).targetSize < 2 ^ 32
  lists : Lists P s xs
  member : ∀ q < P, ∀ i, i ∈ xs q ↔ i < n ∧ (s.array.cell i).p = q
  parts : ∀ i < n, (s.array.cell i).p < P
  sizes : ∀ q < P, (s.partInfo.cell q).size = (xs q).length

section Policy

variable {P n part : ℕ} {xs : ℕ → List LineId} {s s' : IdealLRUPartReplPolicy} {id : LineId}

theorem Sound.info_lt (h : Sound P n xs s) {q : ℕ} (hq : q < P) : q < s.partInfo.length :=
  lt_of_lt_of_le hq h.infos

/-- A partition's list has at most as many lines as there are. -/
theorem Sound.length_le (h : Sound P n xs s) {q : ℕ} (hq : q < P) : (xs q).length ≤ n := by
  have hsub : xs q ⊆ List.range n := fun i hi =>
    List.mem_range.mpr ((h.member q hq i).mp hi).1
  have hle := (List.subperm_of_subset (h.lists.linked q hq).nodup hsub).length_le
  rwa [List.length_range] at hle

/-- The list of a partition has the lines that are counted for it. -/
theorem Sound.count (h : Sound P n xs s) {q : ℕ} (hq : q < P) :
    (s.partInfo.cell q).size = countOf n (fun i => (s.array.cell i).p) q := by
  rw [h.sizes q hq, ← List.toFinset_card_of_nodup (h.lists.linked q hq).nodup]
  refine congrArg Finset.card (Finset.ext fun i => ?_)
  rw [List.mem_toFinset, h.member q hq, Finset.mem_filter, Finset.mem_range]

theorem replaced_spec (h : Sound P n xs s) (hid : id < n) :
    wp (replaced id) (fun _ s' => Sound P n xs s') s := by
  rw [replaced, wp_modifyCell]
  have hp : ∀ i, ((s.array.set id { s.array.cell id with used := false }).cell i).p =
      (s.array.cell i).p := by
    intro i
    by_cases hi : i = id
    · rw [hi, set_cell_self]
    · rw [set_cell_of_ne _ _ _ hi]
  refine ⟨by rw [h.cells]; exact hid, { h with
    cells := h.cells
    lists := ⟨h.lists.linked, h.lists.apart⟩
    member := fun q hq i => ?_
    parts := fun i hi => ?_ }⟩
  · dsimp only
    rw [hp]
    exact h.member q hq i
  · dsimp only
    rw [hp]
    exact h.parts i hi

/-- The sizes follow a line that changes its partition. -/
theorem moveSize_spec (h : Sound P n xs s) {old new : ℕ} (hold : old < P) (hnew : new < P)
    (hpos : 0 < (s.partInfo.cell old).size) :
    wp (moveSize old new) (fun _ s' => ∃ t, s' = { s with partInfo := t } ∧
      t.length = s.partInfo.length ∧ (∀ q, (t.cell q).lruList = (s.partInfo.cell q).lruList) ∧
      (∀ q, (t.cell q).targetSize = (s.partInfo.cell q).targetSize) ∧
      ∀ q < P, (t.cell q).size + (if old = q then 1 else 0) =
        (s.partInfo.cell q).size + (if new = q then 1 else 0)) s := by
  have hsmall := h.small
  have hle : ∀ q < P, (s.partInfo.cell q).size ≤ n := fun q hq => by
    rw [h.sizes q hq]
    exact h.length_le hq
  rw [moveSize, wp_bind, wp_ite]
  split
  · next hne =>
    simp only [wp_bind, wp_modifyCell, wp_touch]
    refine ⟨h.info_lt hold, h.info_lt hnew, h.info_lt hnew, _, rfl, rfl, fun q => ?_, fun q => ?_,
      fun q hq => ?_⟩
    · by_cases hqn : q = new
      · rw [hqn, set_cell_self, set_cell_of_ne _ _ _ (Ne.symm hne)]
      · rw [set_cell_of_ne _ _ _ hqn]
        by_cases hqo : q = old
        · rw [hqo, set_cell_self]
        · rw [set_cell_of_ne _ _ _ hqo]
    · by_cases hqn : q = new
      · rw [hqn, set_cell_self, set_cell_of_ne _ _ _ (Ne.symm hne)]
      · rw [set_cell_of_ne _ _ _ hqn]
        by_cases hqo : q = old
        · rw [hqo, set_cell_self]
        · rw [set_cell_of_ne _ _ _ hqo]
    · have hq' := hle q hq
      by_cases hqn : q = new
      · subst hqn
        rw [set_cell_self, set_cell_of_ne _ _ _ (Ne.symm hne), if_neg hne, if_pos rfl]
        exact inc64_of_lt (Nat.lt_succ_of_le hq') (by omega)
      · rw [set_cell_of_ne _ _ _ hqn, if_neg (Ne.symm hqn)]
        by_cases hqo : q = old
        · subst hqo
          rw [set_cell_self, if_pos rfl]
          have hdec : dec64 (s.partInfo.cell q).size = _ := dec64_of_pos hpos
          dsimp only
          omega
        · rw [set_cell_of_ne _ _ _ hqo, if_neg (Ne.symm hqo)]
  · next heq =>
    have heq : old = new := not_not.mp heq
    subst heq
    rw [wp_touch, wp_touch]
    exact ⟨h.info_lt hold, h.info_lt hold, _, rfl, rfl, fun _ => rfl, fun _ => rfl, fun _ _ => rfl⟩

/-- A line has moved to the front of a list, and its partition and the sizes
with it. -/
theorem Sound.move (h : Sound P n xs s) (hid : id < n) {new : ℕ} (hnew : new < P)
    (hsame : s' = { s with partInfo := s'.partInfo, array := s'.array, nodes := s'.nodes })
    (hinfos : s'.partInfo.length = s.partInfo.length) (hcells : s'.array.length = s.array.length)
    (htargets : ∀ q, (s'.partInfo.cell q).targetSize = (s.partInfo.cell q).targetSize)
    (hlists : Lists P s' (moved xs id new))
    (hp : ∀ i, (s'.array.cell i).p = if i = id then new else (s.array.cell i).p)
    (hsizes : ∀ q < P, (s'.partInfo.cell q).size + (if (s.array.cell id).p = q then 1 else 0) =
      (s.partInfo.cell q).size + (if new = q then 1 else 0)) :
    Sound P n (moved xs id new) s' := by
  have hold := h.parts id hid
  have hin : id ∈ xs (s.array.cell id).p := (h.member _ hold id).mpr ⟨hid, rfl⟩
  refine ⟨by rw [hsame]; exact h.partitions, by rw [hsame]; exact h.numLines, by rw [hinfos]; exact h.infos,
    hcells.trans h.cells, by rw [hsame]; exact h.monitors, h.small, fun q hq => ?_, hlists,
    fun q hq i => ?_, fun i hi => ?_, fun q hq => ?_⟩
  · rw [htargets]
    exact h.targets q hq
  · rw [mem_moved (h.lists.linked q hq).nodup, hp, h.member q hq]
    by_cases hi : i = id
    · subst hi
      simp [hid, eq_comm]
    · simp [hi]
  · rw [hp]
    split
    · exact hnew
    · exact h.parts i hi
  · have hothers : q ≠ (s.array.cell id).p → id ∉ xs q := fun hne hin' =>
      hne ((h.member q hq id).mp hin').2.symm
    have hlength : (moved xs id new q).length + _ = _ := length_moved hin hothers
    have hsize := hsizes q hq
    rw [h.sizes q hq] at hsize
    omega

/-- An update moves its line to the front of a list: its own on a hit, and the
list of the new partition after a fill. -/
theorem update_spec (h : Sound P n xs s) (hid : id < n) (hpart : part < P) :
    wp (update part id) (fun _ s' => ∃ q < P, Sound P n (moved xs id q) s') s := by
  have hline : id < s.array.length := by rwa [h.cells]
  have hold := h.parts id hid
  have hin : id ∈ xs (s.array.cell id).p := (h.member _ hold id).mpr ⟨hid, rfl⟩
  have hfinish : ∀ {s' : IdealLRUPartReplPolicy} {q}, q < P → Sound P n (moved xs id q) s' →
      wp (do
        let e ← readCell array id .badCandidate
        monitorAccess (fun s => s.monitors) e.p) (fun _ s'' => ∃ q < P,
          Sound P n (moved xs id q) s'') s' := by
    intro s' q hq h'
    simp only [wp_bind, wp_readCell, wp_monitorAccess]
    exact ⟨by rw [h'.cells]; exact hid, lt_of_lt_of_le (h'.parts id hid) h'.monitors, q, hq, h'⟩
  rw [update, wp_bind, wp_readCell]
  refine ⟨hline, ?_⟩
  rw [wp_bind, wp_ite]
  split
  · -- a hit
    rw [wp_bind, wp_touch]
    refine ⟨h.info_lt hold, wp_mono (moveList_spec h.lists h.infos hold hold hin) ?_⟩
    rintro _ s' ⟨hk, hlists⟩
    have hsame := hk.same
    refine hfinish hold (h.move hid hold ?_ hk.length ?_ (fun q => ?_) hlists (fun i => ?_) fun q hq => ?_)
    · rw [hsame]
    · rw [hsame]
    · rw [hk.infos]
    · rw [hsame]
      split
      · next hi => rw [hi]
      · rfl
    · rw [hk.infos]
  · -- a fill
    have hpos : 0 < (s.partInfo.cell (s.array.cell id).p).size := by
      rw [h.sizes _ hold]
      exact List.length_pos_of_mem hin
    rw [moveLine, wp_bind]
    refine wp_mono (moveSize_spec h hold hpart hpos) ?_
    rintro _ s₁ ⟨t, rfl, hlen, hlist, htarget, hsize⟩
    rw [wp_bind, wp_modifyCell]
    refine ⟨hline, ?_⟩
    have hlists₁ : Lists P { s with
        partInfo := t
        array := s.array.set id { s.array.cell id with p := part } } xs := by
      refine ⟨fun q hq => ?_, h.lists.apart⟩
      dsimp only
      rw [hlist]
      exact h.lists.linked q hq
    rw [wp_bind]
    refine wp_mono (moveList_spec hlists₁ (by rw [hlen]; exact h.infos) hold hpart hin) ?_
    rintro _ s₂ ⟨hk, hlists⟩
    have hsame := hk.same
    have hline₂ : id < s₂.array.length := by
      rw [hsame]
      exact hline
    rw [wp_modifyCell]
    refine ⟨hline₂, hfinish hpart (h.move hid hpart ?_ (hk.length.trans hlen) ?_ (fun q => ?_)
      ⟨hlists.linked, hlists.apart⟩ (fun i => ?_) fun q hq => ?_)⟩
    · rw [hsame]
    · rw [hsame]
      rfl
    · exact (congrArg PartInfo.targetSize (hk.infos q)).trans (htarget q)
    · rw [hsame]
      by_cases hi : i = id
      · rw [hi, if_pos rfl]
        change (((s.array.set id _).set id _).cell id).p = part
        rw [set_cell_self, set_cell_self]
      · rw [if_neg hi]
        change (((s.array.set id _).set id _).cell i).p = _
        rw [set_cell_of_ne _ _ _ hi, set_cell_of_ne _ _ _ hi]
    · exact (congrArg (· + _) (congrArg PartInfo.size (hk.infos q))).trans (hsize q hq)

theorem int32_eq (x : ℕ) : int32 x = if x < 2 ^ 31 then (x : ℤ) else (x : ℤ) - 2 ^ 32 := rfl

theorem sub32_ge {x y : ℕ} (hx : x < 2 ^ 31) (hy : y < 2 ^ 32) : -(y : ℤ) ≤ sub32 x y := by
  unfold sub32
  rw [Nat.mod_eq_of_lt hy, Nat.mod_eq_of_lt (lt_trans hx (by decide))]
  have hcancel : 2 ^ 32 - y + y = 2 ^ 32 := Nat.sub_add_cancel hy.le
  generalize 2 ^ 32 - y = d at hcancel ⊢
  rw [int32_eq]
  split <;> omega

/-- Whatever its target, a partition is less than twice its target below it. -/
theorem neg_two_lt_partDiff {i : PartInfo} (hsize : i.size < 2 ^ 31) (htarget : i.targetSize < 2 ^ 32) :
    -2 < partDiff i := by
  have hinc : inc64 i.targetSize = i.targetSize + 1 :=
    inc64_of_lt htarget (by decide)
  have hround : roundDouble ((i.targetSize + 1 : ℕ) : ℚ) = ((i.targetSize + 1 : ℕ) : ℚ) :=
    roundDouble_natCast (by omega)
  have hsub : -((i.targetSize : ℕ) : ℚ) ≤ sub32 i.size i.targetSize := by
    exact_mod_cast sub32_ge hsize htarget
  have hpos : (0 : ℚ) < ((i.targetSize + 1 : ℕ) : ℚ) := by positivity
  have hratio : -((1 : ℕ) : ℚ) ≤ sub32 i.size i.targetSize / ((i.targetSize + 1 : ℕ) : ℚ) := by
    rw [Nat.cast_one, le_div_iff₀ hpos]
    push_cast
    linarith
  have hge : -((1 : ℕ) : ℚ) ≤ partDiff i := by
    rw [partDiff, hinc, hround]
    exact neg_le_roundDouble hratio (by decide)
  rw [Nat.cast_one] at hge
  linarith

/-- The partition to evict from has lines, if there are any. -/
theorem victimPart_spec (h : Sound P n xs s) (hpos : 0 < n) (hpart : part < P) :
    wp (victimPart part) (fun q s' => s' = s ∧ q < P ∧ 0 < (s.partInfo.cell q).size) s := by
  have hP := h.partitions
  simp only [victimPart, wp_bind, wp_observe, wp_readCell]
  refine ⟨h.info_lt hpart, wp_mono (wp_forUpTo (fun i r s' => s = s' ∧ r.2 < P ∧
    (0 < (s.partInfo.cell r.2).size ∨
      (r.1 = -2 ∧ ∀ q < i, (s.partInfo.cell q).size = 0))) ?_ ?_) ?_⟩
  · rintro i r _ hi ⟨rfl, hr, hinv⟩
    rw [hP] at hi
    have hsize : (s.partInfo.cell i).size < 2 ^ 31 := by
      rw [h.sizes i hi]
      exact lt_of_le_of_lt (h.length_le hi) h.small
    have hdiff := neg_two_lt_partDiff hsize (h.targets i hi)
    simp only [wp_bind, wp_readCell, wp_pure]
    refine ⟨h.info_lt hi, trivial, ?_⟩
    split
    · next hbetter => exact ⟨hi, .inl hbetter.2⟩
    · next hworse =>
      refine ⟨hr, hinv.imp_right ?_⟩
      rintro ⟨hmax, hempty⟩
      refine ⟨hmax, fun q hq => ?_⟩
      rcases Nat.lt_succ_iff_lt_or_eq.mp hq with hlt | rfl
      · exact hempty q hlt
      · rw [hmax] at hworse
        by_contra hne
        exact hworse ⟨hdiff, Nat.pos_of_ne_zero hne⟩
  · refine ⟨rfl, hpart, ?_⟩
    split
    · exact .inr ⟨rfl, fun q hq => absurd hq (Nat.not_lt_zero q)⟩
    · next hne => exact .inl (Nat.pos_of_ne_zero hne)
  · rintro r _ ⟨rfl, hr, hinv⟩
    rw [wp_pure]
    refine ⟨rfl, hr, hinv.resolve_right ?_⟩
    rintro ⟨-, hempty⟩
    -- line 0 is in some partition
    have hline := h.parts 0 hpos
    have hzero := hempty _ (hP.symm ▸ hline)
    rw [h.sizes _ hline, List.length_eq_zero_iff] at hzero
    have hmem := (h.member _ hline 0).mpr ⟨hpos, rfl⟩
    rw [hzero] at hmem
    cases hmem

/-- The line to evict is the last one of the list of a partition with lines. -/
theorem rank_spec (h : Sound P n xs s) (hpos : 0 < n) (hpart : part < P) :
    wp (rank part) (fun id s' => s' = s ∧ ∃ q < P, 0 < (s.partInfo.cell q).size ∧
      (xs q).getLast? = some id) s := by
  rw [rank, wp_bind]
  refine wp_mono (victimPart_spec h hpos hpart) ?_
  rintro q _ ⟨rfl, hq, hsize⟩
  have hlinked := h.lists.linked q hq
  simp only [wp_bind, wp_readCell, wp_ensure]
  refine ⟨h.info_lt hq, hsize, by rw [h.sizes q hq, hlinked.elems], ?_⟩
  rw [hlinked.tail]
  cases hlast : (xs q).getLast? with
  | none =>
    rw [List.getLast?_eq_none_iff] at hlast
    rw [h.sizes q hq, hlast] at hsize
    cases hsize
  | some id => exact ⟨id, _, rfl, rfl, q, hq, hsize, hlast⟩

/-- New targets, and nothing else. -/
theorem setPartitionSizes_cells (hpartitions : s.partitions = P) (hinfos : P ≤ s.partInfo.length)
    (sizes : ℕ → ℕ) :
    wp (setPartitionSizes sizes) (fun _ s' => s' = { s with partInfo := s'.partInfo } ∧
      s'.partInfo.length = s.partInfo.length ∧ ∀ q < P, s'.partInfo.cell q = { s.partInfo.cell q with
        targetSize := sizes q * s.numLines % 2 ^ 32 / s.numBuckets }) s := by
  simp only [setPartitionSizes, wp_bind, wp_observe]
  refine wp_mono (wp_forUpTo (fun k _ s' => s' = { s with partInfo := s'.partInfo } ∧
    s'.partInfo.length = s.partInfo.length ∧ (∀ q < k, s'.partInfo.cell q = { s.partInfo.cell q with
      targetSize := sizes q * s.numLines % 2 ^ 32 / s.numBuckets }) ∧
    ∀ q, k ≤ q → s'.partInfo.cell q = s.partInfo.cell q) ?_ ?_) ?_
  · rintro p _ s' hp ⟨hsame, hlen, hdone, htodo⟩
    rw [hpartitions] at hp
    rw [wp_modifyCell]
    refine ⟨by rw [hlen]; exact lt_of_lt_of_le hp hinfos, by rw [hsame], hlen, fun q hq => ?_,
      fun q hq => ?_⟩
    · rcases Nat.lt_succ_iff_lt_or_eq.mp hq with hlt | rfl
      · exact (set_cell_of_ne _ _ _ hlt.ne).trans (hdone q hlt)
      · rw [← htodo q le_rfl]
        exact set_cell_self ..
    · exact (set_cell_of_ne _ _ _ (by omega)).trans (htodo q (by omega))
  · exact ⟨rfl, rfl, fun q hq => absurd hq (Nat.not_lt_zero q), fun _ _ => rfl⟩
  · rintro _ s' ⟨hsame, hlen, hdone, -⟩
    exact ⟨hsame, hlen, fun q hq => hdone q (hpartitions ▸ hq)⟩

theorem setPartitionSizes_spec (h : Sound P n xs s) (sizes : ℕ → ℕ) :
    wp (setPartitionSizes sizes) (fun _ s' => Sound P n xs s') s := by
  refine wp_mono (setPartitionSizes_cells h.partitions h.infos sizes) ?_
  rintro _ s' ⟨hsame, hlen, hcells⟩
  refine ⟨by rw [hsame]; exact h.partitions, by rw [hsame]; exact h.numLines, by rw [hlen]; exact h.infos,
    by rw [hsame]; exact h.cells, by rw [hsame]; exact h.monitors, h.small, fun q hq => ?_,
    ⟨fun q hq => ?_, h.lists.apart⟩, by rw [hsame]; exact h.member, by rw [hsame]; exact h.parts,
    fun q hq => ?_⟩
  · rw [hcells q hq]
    exact lt_of_le_of_lt (Nat.div_le_self ..) (Nat.mod_lt _ (by decide))
  · have hnodes : s'.nodes = s.nodes := by rw [hsame]
    rw [hnodes, hcells q hq]
    exact h.lists.linked q hq
  · rw [hcells q hq]
    exact h.sizes q hq

/-- A partition without lines evicts from itself when all the others are at least
twice their target below it, and fails the assertion. -/
theorem rank_fails (hpartitions : s.partitions = P) (hinfos : P ≤ s.partInfo.length) (hpart : part < P)
    (hempty : (s.partInfo.cell part).size = 0)
    (hbelow : ∀ q < P, 0 < (s.partInfo.cell q).size → partDiff (s.partInfo.cell q).toPartInfo ≤ -2) :
    rank part s = .error .emptyPartition := by
  have hvictim : wp (victimPart part) (fun q s' => s = s' ∧ q = part) s := by
    simp only [victimPart, wp_bind, wp_observe, wp_readCell]
    refine ⟨lt_of_lt_of_le hpart hinfos, wp_mono (wp_forUpTo (fun _ r s' => s = s' ∧
      r = (-2, part)) ?_ ?_) ?_⟩
    · rintro q _ _ hq ⟨rfl, rfl⟩
      rw [hpartitions] at hq
      simp only [wp_bind, wp_readCell, wp_pure]
      refine ⟨lt_of_lt_of_le hq hinfos, trivial, if_neg ?_⟩
      rintro ⟨hlt, hsize⟩
      exact absurd (hbelow q hq hsize) (not_le.mpr hlt)
    · rw [if_pos hempty]
      exact ⟨rfl, rfl⟩
    · rintro r _ ⟨rfl, rfl⟩
      rw [wp_pure]
      exact ⟨rfl, rfl⟩
  refine bind_error hvictim ?_
  rintro _ _ ⟨rfl, rfl⟩
  have hread : wp (readCell partInfo _ PartFailure.outside) (fun i s' => s = s' ∧ i.size = 0) s :=
    (wp_readCell ..).mpr ⟨lt_of_lt_of_le hpart hinfos, rfl, hempty⟩
  refine bind_error hread ?_
  rintro i _ ⟨rfl, hi⟩
  rw [hi]
  rfl

end Policy

section Construction

variable {P n : ℕ}

/-- All lines are in the list of partition 0, the last one first. -/
def initialLists (n : ℕ) : ℕ → List LineId := fun q => if q = 0 then (List.range n).reverse else []

/-- The policy while its lines are pushed on the first list. -/
structure Building (P n k : ℕ) (s : IdealLRUPartReplPolicy) : Prop where
  partitions : s.partitions = P
  numLines : s.numLines = n
  infos : s.partInfo.length = P + 1
  cells : s.array.length = n
  monitors : P ≤ s.monitors
  targets : ∀ q ≤ P, (s.partInfo.cell q).targetSize = n / P
  linked : ∀ q ≤ P, Linked s.nodes q (s.partInfo.cell q).lruList (initialLists k q)
  free : ∀ i, k ≤ i → s.nodes i = Node.free
  parts : ∀ i < k, (s.array.cell i).p = 0
  sizes : ∀ q ≤ P, (s.partInfo.cell q).size = (initialLists k q).length

theorem initialLists_succ (k : ℕ) : initialLists (k + 1) 0 = k :: initialLists k 0 := by
  simp only [initialLists, if_true, List.range_succ, List.reverse_append, List.reverse_singleton,
    List.singleton_append]

theorem initialLists_of_ne {k q : ℕ} (hq : q ≠ 0) : initialLists k q = [] := if_neg hq

/-- One more line. -/
theorem push_building {k : ℕ} {s : IdealLRUPartReplPolicy} (hsmall : n < 2 ^ 32) (hk : k < n)
    (h : Building P n k s) {numBuckets : ℕ} (hbuckets : s.numBuckets = numBuckets) :
    wp (do
        modifyCell array k (fun _ => ⟨0, true⟩) .badCandidate
        listPushFront 0 k
        modifyCell partInfo 0 (fun i => { i with size := inc64 i.size }) .outside)
      (fun _ s' => Building P n (k + 1) s' ∧ s'.numBuckets = numBuckets) s := by
  have hzero : 0 < s.partInfo.length := by
    rw [h.infos]
    exact P.succ_pos
  have hlinked := h.linked 0 P.zero_le
  obtain ⟨nodes, L, hrun, hl, hframe⟩ := pushFront_spec hlinked (h.free k le_rfl)
  rw [wp_bind, wp_modifyCell]
  refine ⟨by rw [h.cells]; exact hk, ?_⟩
  rw [wp_bind]
  have hzero' : 0 < ({ s with array := s.array.set k ⟨0, true⟩ } :
      IdealLRUPartReplPolicy).partInfo.length := hzero
  refine wp_mono (listMethod_spec hzero' hrun) ?_
  rintro _ s₁ ⟨hk₁, hnodes, hlist, hcells⟩
  have hsame := hk₁.same
  have hother : ∀ q, q ≠ 0 → ∀ v, (s₁.partInfo.set 0 v).cell q = s.partInfo.cell q := fun q hq v =>
    (set_cell_of_ne _ _ _ hq).trans (hcells q hq)
  rw [wp_modifyCell]
  refine ⟨by rw [hk₁.length]; exact hzero, ?_, by rw [hsame]; exact hbuckets⟩
  refine ⟨by rw [hsame]; exact h.partitions, by rw [hsame]; exact h.numLines, hk₁.length.trans h.infos,
    by rw [hsame]; exact h.cells, by rw [hsame]; exact h.monitors, fun q hq => ?_, fun q hq => ?_,
    fun i hi => ?_, fun i hi => ?_, fun q hq => ?_⟩
  · change ((s₁.partInfo.set 0 _).cell q).targetSize = _
    by_cases hq0 : q = 0
    · rw [hq0, set_cell_self]
      exact (congrArg PartInfo.targetSize (hk₁.infos 0)).trans (h.targets 0 P.zero_le)
    · rw [hother q hq0]
      exact h.targets q hq
  · change Linked s₁.nodes q ((s₁.partInfo.set 0 _).cell q).lruList _
    by_cases hq0 : q = 0
    · rw [hq0, set_cell_self, initialLists_succ, hnodes]
      dsimp only
      rw [hlist]
      exact hl
    · have hempty := h.linked q hq
      rw [initialLists_of_ne hq0] at hempty
      rw [hother q hq0, initialLists_of_ne hq0]
      exact hempty.congr (by simp)
  · change s₁.nodes i = _
    have hnot : i ∉ k :: initialLists k 0 := by
      rw [← initialLists_succ, initialLists, if_pos rfl, List.mem_reverse, List.mem_range]
      omega
    rw [hnodes, hframe i hnot]
    exact h.free i (by omega)
  · rw [hsame]
    change ((s.array.set k _).cell i).p = 0
    rcases Nat.lt_succ_iff_lt_or_eq.mp hi with hlt | rfl
    · rw [set_cell_of_ne _ _ _ hlt.ne]
      exact h.parts i hlt
    · rw [set_cell_self]
  · change ((s₁.partInfo.set 0 _).cell q).size = _
    by_cases hq0 : q = 0
    · have hsize : (s₁.partInfo.cell 0).size = k := by
        rw [congrArg PartInfo.size (hk₁.infos 0)]
        refine (h.sizes 0 P.zero_le).trans ?_
        rw [initialLists, if_pos rfl, List.length_reverse, List.length_range]
      rw [hq0, set_cell_self, initialLists, if_pos rfl, List.length_reverse, List.length_range]
      dsimp only
      rw [hsize]
      exact inc64_of_lt hk (by omega)
    · rw [hother q hq0, initialLists_of_ne hq0]
      have hsize := h.sizes q hq
      rwa [initialLists_of_ne hq0] at hsize

/-- With one entry of `partInfo` behind those of the partitions, the constructor
puts all the lines in partition 0. -/
theorem construct_building (P numBuckets : ℕ) (hsmall : n < 2 ^ 32) :
    wp construct (fun _ s => Building P n n s ∧ s.numBuckets = numBuckets)
      (allocated P n numBuckets (P + 1) P) := by
  simp only [construct, wp_bind, wp_observe]
  refine wp_mono (wp_forUpTo (fun k _ s => s = { allocated P n numBuckets (P + 1) P with
    partInfo := s.partInfo } ∧ s.partInfo.length = P + 1 ∧
    ∀ q < k, s.partInfo.cell q = ⟨⟨0, n / P⟩, InList.empty⟩) ?_ ?_) ?_
  · rintro p _ s hp ⟨hsame, hlen, hcells⟩
    rw [wp_modifyCell]
    refine ⟨by rw [hlen]; exact hp, by rw [hsame], hlen, fun q hq => ?_⟩
    rcases Nat.lt_succ_iff_lt_or_eq.mp hq with hlt | rfl
    · exact (set_cell_of_ne _ _ _ hlt.ne).trans (hcells q hlt)
    · exact set_cell_self ..
  · exact ⟨rfl, rfl, fun q hq => absurd hq (Nat.not_lt_zero q)⟩
  · rintro _ s ⟨hsame, hlen, hcells⟩
    have hinit : Building P n 0 s := by
      refine ⟨by rw [hsame]; rfl, by rw [hsame]; rfl, hlen, by rw [hsame]; rfl, by rw [hsame]; exact le_rfl,
        fun q hq => ?_, fun q hq => ?_, fun i _ => by rw [hsame]; rfl,
        fun i hi => absurd hi (Nat.not_lt_zero i), fun q hq => ?_⟩
      · rw [hcells q (Nat.lt_succ_of_le hq)]
      · have hnil : initialLists 0 q = [] := by simp [initialLists]
        rw [hcells q (Nat.lt_succ_of_le hq), hnil]
        exact linked_empty _ _
      · have hnil : initialLists 0 q = [] := by simp [initialLists]
        rw [hcells q (Nat.lt_succ_of_le hq), hnil]
        rfl
    refine wp_forUpTo (fun k _ s' => Building P n k s' ∧ s'.numBuckets = numBuckets) ?_
      ⟨hinit, by rw [hsame]; rfl⟩
    rintro k _ s' hk ⟨h', hbuckets⟩
    exact push_building hsmall hk h' hbuckets

theorem mem_initialLists (n q i : ℕ) : i ∈ initialLists n q ↔ i < n ∧ q = 0 := by
  unfold initialLists
  split
  · next hq => rw [List.mem_reverse, List.mem_range, and_iff_left hq]
  · next hq => simp [hq]

theorem sound_of_building {s : IdealLRUPartReplPolicy} (h : Building P n n s) (hparts : 0 < P)
    (hsmall : n < 2 ^ 31) : Sound P n (initialLists n) s := by
  refine ⟨h.partitions, h.numLines, by rw [h.infos]; exact P.le_succ, h.cells, h.monitors, hsmall,
    fun q hq => ?_, ⟨fun q hq => h.linked q hq.le, fun q _ r _ i hi hi' => ?_⟩, fun q _ i => ?_,
    fun i hi => ?_, fun q hq => h.sizes q hq.le⟩
  · rw [h.targets q hq.le]
    have hdiv := Nat.div_le_self n P
    omega
  · rw [((mem_initialLists n q i).mp hi).2, ((mem_initialLists n r i).mp hi').2]
  · rw [mem_initialLists]
    refine and_congr_right fun hi => ?_
    rw [h.parts i hi]
    exact eq_comm
  · rw [h.parts i hi]
    exact hparts

end Construction

/-- The array, the insertion under way, and when each line was last updated. -/
structure Driven where
  array : IdealLRUPartArray
  pending : Option (Address × LineId)
  stamp : LineId → ℕ
  clock : ℕ

/-- The state after an update of a line. -/
def Driven.updated (s : Driven) (array : IdealLRUPartArray) (id : LineId) : Driven :=
  { s with
    array := array
    stamp := Function.update s.stamp id s.clock
    clock := s.clock + 1 }

/-- The calls of a cache and its partitioner; the mapper answers `part`. -/
inductive Op where
  | lookup (part : ℕ) (lineAddr : Address) (updateReplacement : Bool)
  | preinsert (part : ℕ) (lineAddr : Address)
  | postinsert (part : ℕ)
  | setPartitionSizes (sizes : ℕ → ℕ)

/-- One call. Non-zero addresses are inserted after a lookup of them has missed,
and the two halves of an insertion alternate. -/
def step (P : ℕ) : Except PartFailure Driven → Op → Option (Except PartFailure Driven)
  | .error _, _ => none
  | .ok s, .lookup part lineAddr updateReplacement =>
    if part < P then
      some ((lookup part lineAddr updateReplacement s.array).map fun r =>
        match s.array.lineMap lineAddr, updateReplacement with
        | some id, true => s.updated r.2 id
        | _, _ => { s with array := r.2 })
    else none
  | .ok s, .preinsert part lineAddr =>
    if part < P ∧ lineAddr ≠ 0 ∧ s.array.lineMap lineAddr = none ∧ s.pending = none then
      some ((preinsert part s.array).map fun r =>
        { s with array := r.2, pending := some (lineAddr, r.1.1) })
    else none
  | .ok s, .postinsert part =>
    match s.pending with
    | none => none
    | some (lineAddr, id) =>
      if part < P then
        some ((postinsert part lineAddr id s.array).map fun r =>
          { s.updated r.2 id with pending := none })
      else none
  | .ok s, .setPartitionSizes sizes =>
    some ((policy (setPartitionSizes sizes) s.array).map fun r => { s with array := r.2 })

/-- The invariant of the runs. -/
structure Inv (P n : ℕ) (s : Driven) : Prop where
  sound : ∃ xs, Sound P n xs s.array.rp ∧
    ∀ q < P, (xs q).Pairwise fun i j => s.stamp j < s.stamp i
  stamps : ∀ i < n, s.stamp i < s.clock
  length : s.array.lineAddrs.length = n
  mapped : IdealLRURuns.Inverse n s.array.lineMap s.array.lineAddrs
  pending : ∀ a id, s.pending = some (a, id) → a ≠ 0 ∧ id < n ∧ s.array.lineMap a = none

section Runs

variable {P n part : ℕ} {s : Driven} {id : LineId}

/-- The updated line becomes the most recent one of its list. -/
theorem moved_recent {xs : ℕ → List LineId} {stamp : LineId → ℕ} {clock : ℕ} {new : ℕ}
    (hnodup : ∀ q < P, (xs q).Nodup)
    (hsorted : ∀ q < P, (xs q).Pairwise fun i j => stamp j < stamp i)
    (hstamps : ∀ q < P, ∀ i ∈ xs q, stamp i < clock) :
    ∀ q < P, (moved xs id new q).Pairwise fun i j =>
      Function.update stamp id clock j < Function.update stamp id clock i := by
  intro q hq
  have hne : ∀ i ∈ (xs q).erase id, i ≠ id := fun i hi => ((hnodup q hq).mem_erase_iff.mp hi).1
  have hrest : ((xs q).erase id).Pairwise fun i j =>
      Function.update stamp id clock j < Function.update stamp id clock i := by
    refine ((hsorted q hq).sublist List.erase_sublist).imp_of_mem fun hi hj hlt => ?_
    rw [Function.update_of_ne (hne _ hi), Function.update_of_ne (hne _ hj)]
    exact hlt
  unfold moved
  split
  · refine List.pairwise_cons.mpr ⟨fun i hi => ?_, hrest⟩
    rw [Function.update_self, Function.update_of_ne (hne i hi)]
    exact hstamps q hq i (List.mem_of_mem_erase hi)
  · exact hrest

/-- What the invariant says of the lists and the times. -/
def Recent (P n : ℕ) (rp : IdealLRUPartReplPolicy) (stamp : LineId → ℕ) (clock : ℕ) : Prop :=
  (∃ xs, Sound P n xs rp ∧ ∀ q < P, (xs q).Pairwise fun i j => stamp j < stamp i) ∧
    ∀ i < n, stamp i < clock

/-- An update makes its line the most recent one. -/
theorem update_recent {rp : IdealLRUPartReplPolicy} {stamp : LineId → ℕ} {clock : ℕ}
    (h : Recent P n rp stamp clock) (hid : id < n) (hpart : part < P) :
    wp (update part id) (fun _ rp' =>
      Recent P n rp' (Function.update stamp id clock) (clock + 1)) rp := by
  obtain ⟨⟨xs, hxs, hsorted⟩, hstamps⟩ := h
  refine wp_mono (update_spec hxs hid hpart) ?_
  rintro _ rp' ⟨q, hq, hmoved⟩
  refine ⟨⟨_, hmoved, moved_recent (fun q hq => (hxs.lists.linked q hq).nodup) hsorted
    fun q hq i hi => hstamps i ((hxs.member q hq i).mp hi).1⟩, fun i hi => ?_⟩
  by_cases hii : i = id
  · rw [hii, Function.update_self]
    exact Nat.lt_succ_self _
  · rw [Function.update_of_ne hii]
    exact Nat.lt_succ_of_lt (hstamps i hi)

theorem lookup_inv (h : Inv P n s) (hpart : part < P) (a : Address) (u : Bool) :
    ∃ s', (lookup part a u s.array).map (fun r =>
      match s.array.lineMap a, u with
      | some id, true => s.updated r.2 id
      | _, _ => { s with array := r.2 }) = .ok s' ∧ Inv P n s' := by
  have hsame : Inv P n { s with array := s.array } := h
  cases hmap : s.array.lineMap a with
  | none =>
    have hrun : wp (lookup part a u) (fun _ s' => s' = s.array) s.array := by
      simp only [lookup, wp_bind, wp_observe, hmap, wp_pure]
    obtain ⟨r, _, hrun, rfl⟩ := wp_map hrun (fun r => ({ s with array := r.2 } : Driven))
    exact ⟨_, hrun, hsame⟩
  | some id =>
    obtain ⟨-, hid, -⟩ := (h.mapped a id).mp hmap
    cases u with
    | false =>
      have hrun : wp (lookup part a false) (fun _ s' => s' = s.array) s.array := by
        simp only [lookup, wp_bind, wp_observe, hmap, Bool.false_eq_true, if_false, wp_pure]
      obtain ⟨r, _, hrun, rfl⟩ := wp_map hrun (fun r => ({ s with array := r.2 } : Driven))
      exact ⟨_, hrun, hsame⟩
    | true =>
      have hrun : wp (lookup part a true) (fun _ s' => ∃ rp, s' = { s.array with rp := rp } ∧
          Recent P n rp (Function.update s.stamp id s.clock) (s.clock + 1)) s.array := by
        simp only [lookup, wp_bind, wp_observe, hmap, if_true, wp_policy, wp_pure]
        refine wp_mono (update_recent ⟨h.sound, h.stamps⟩ hid hpart) ?_
        exact fun _ rp hrecent => ⟨rp, rfl, hrecent⟩
      obtain ⟨r, _, hrun, rp, rfl, hrecent⟩ := wp_map hrun (fun r => s.updated r.2 id)
      exact ⟨_, hrun, hrecent.1, hrecent.2, h.length, h.mapped, h.pending⟩

theorem preinsert_inv (h : Inv P n s) (hpos : 0 < n) (hpart : part < P) {a : Address} (ha : a ≠ 0)
    (hmiss : s.array.lineMap a = none) :
    ∃ s', (preinsert part s.array).map (fun r =>
      ({ s with array := r.2, pending := some (a, r.1.1) } : Driven)) = .ok s' ∧ Inv P n s' := by
  obtain ⟨xs, hxs, hsorted⟩ := h.sound
  have hrun : wp (preinsert part) (fun r s' => s' = s.array ∧ r.1 < n) s.array := by
    simp only [preinsert, wp_bind, wp_policy, wp_readCell, wp_pure]
    refine wp_mono (rank_spec hxs hpos hpart) ?_
    rintro id rp ⟨rfl, q, hq, -, hlast⟩
    have hid := ((hxs.member q hq id).mp (List.mem_of_getLast? hlast)).1
    exact ⟨by rw [h.length]; exact hid, rfl, hid⟩
  obtain ⟨r, _, hrun, rfl, hid⟩ := wp_map hrun (fun r =>
    ({ s with array := r.2, pending := some (a, r.1.1) } : Driven))
  refine ⟨_, hrun, h.sound, h.stamps, h.length, h.mapped, ?_⟩
  rintro b id ⟨⟩
  exact ⟨ha, hid, hmiss⟩

theorem postinsert_inv (h : Inv P n s) (hpart : part < P) {a : Address}
    (hpending : s.pending = some (a, id)) :
    ∃ s', (postinsert part a id s.array).map (fun r =>
      ({ s.updated r.2 id with pending := none } : Driven)) = .ok s' ∧ Inv P n s' := by
  obtain ⟨ha, hid, hmiss⟩ := h.pending a id hpending
  obtain ⟨xs, hxs, hsorted⟩ := h.sound
  have hlen : id < s.array.lineAddrs.length := by rwa [h.length]
  have hrun : wp (postinsert part a id) (fun _ s' => ∃ rp, s' = { s.array with
      lineMap := Function.update (Function.update s.array.lineMap (s.array.lineAddrs.cell id) none) a
        (some id)
      lineAddrs := s.array.lineAddrs.set id a
      rp := rp } ∧ Recent P n rp (Function.update s.stamp id s.clock) (s.clock + 1)) s.array := by
    simp only [postinsert, wp_bind, wp_readCell, wp_change, wp_observe, wp_ensure, wp_modifyCell,
      wp_policy]
    refine ⟨hlen, IdealLRURuns.erased_misses hmiss, hlen, wp_mono (replaced_spec hxs hid) ?_⟩
    intro _ rp₁ h₁
    refine wp_mono (update_recent ⟨⟨xs, h₁, hsorted⟩, h.stamps⟩ hid hpart) ?_
    exact fun _ rp hrecent => ⟨rp, rfl, hrecent⟩
  obtain ⟨r, _, hrun, rp, rfl, hrecent⟩ := wp_map hrun (fun r =>
    ({ s.updated r.2 id with pending := none } : Driven))
  exact ⟨_, hrun, hrecent.1, hrecent.2, h.length, h.mapped.insert ha hmiss hid, by simp⟩

/-- No call fails, and every call keeps the invariant. -/
theorem step_inv (hpos : 0 < n) {op : Op} {r : Except PartFailure Driven} (h : Inv P n s)
    (hs : step P (.ok s) op = some r) : ∃ s', r = .ok s' ∧ Inv P n s' := by
  cases op with
  | lookup part a u =>
    simp only [step, Option.ite_none_right_eq_some, Option.some.injEq] at hs
    obtain ⟨hpart, rfl⟩ := hs
    exact lookup_inv h hpart a u
  | preinsert part a =>
    simp only [step, Option.ite_none_right_eq_some, Option.some.injEq] at hs
    obtain ⟨⟨hpart, ha, hmiss, -⟩, rfl⟩ := hs
    exact preinsert_inv h hpos hpart ha hmiss
  | postinsert part =>
    simp only [step] at hs
    cases hpending : s.pending with
    | none =>
      rw [hpending] at hs
      cases hs
    | some x =>
      rw [hpending] at hs
      simp only [Option.ite_none_right_eq_some, Option.some.injEq] at hs
      obtain ⟨hpart, rfl⟩ := hs
      exact postinsert_inv h hpart hpending
  | setPartitionSizes sizes =>
    simp only [step, Option.some.injEq] at hs
    subst hs
    obtain ⟨xs, hxs, hsorted⟩ := h.sound
    have hrun : wp (policy (setPartitionSizes sizes)) (fun _ s' => ∃ rp,
        s' = { s.array with rp := rp } ∧ Sound P n xs rp) s.array := by
      rw [wp_policy]
      exact wp_mono (setPartitionSizes_spec hxs sizes) fun _ rp h' => ⟨rp, rfl, h'⟩
    obtain ⟨r, _, hrun, rp, rfl, hrp⟩ := wp_map hrun (fun r => ({ s with array := r.2 } : Driven))
    exact ⟨_, hrun, ⟨xs, hrp, hsorted⟩, h.stamps, h.length, h.mapped, h.pending⟩

end Runs

/-- What holds between calls: the map and the addresses are inverse, the sizes are
the lengths of the lists and the numbers of their lines, and the line to evict is
the least recently updated one of a partition with lines. -/
structure Partitioned (P n : ℕ) (s : Driven) : Prop where
  inverse : ∀ a i, a ≠ 0 →
    (s.array.lineMap a = some i ↔ i < n ∧ s.array.lineAddrs.cell i = a)
  lists : ∀ q < P, ∃ xs, Linked s.array.rp.nodes q (s.array.rp.partInfo.cell q).lruList xs ∧
    (s.array.rp.partInfo.cell q).size = xs.length
  counts : ∀ q < P, (s.array.rp.partInfo.cell q).size =
    countOf n (fun i => (s.array.rp.array.cell i).p) q
  shared : ((Finset.range P).sum fun q => (s.array.rp.partInfo.cell q).size) = n
  ranks : ∀ part < P, ∃ id q, rank part s.array.rp = .ok (id, s.array.rp) ∧ q < P ∧
    0 < (s.array.rp.partInfo.cell q).size ∧ id < n ∧ (s.array.rp.array.cell id).p = q ∧
    ∀ j < n, (s.array.rp.array.cell j).p = q → s.stamp id ≤ s.stamp j

section Properties

variable {P n : ℕ} {s : Driven}

theorem partitioned_of_inv (hpos : 0 < n) (h : Inv P n s) : Partitioned P n s := by
  obtain ⟨xs, hxs, hsorted⟩ := h.sound
  refine ⟨fun a i ha => ?_, fun q hq => ⟨xs q, hxs.lists.linked q hq, hxs.sizes q hq⟩,
    fun q hq => hxs.count hq, ?_, fun part hpart => ?_⟩
  · exact (h.mapped a i).trans (and_iff_right ha)
  · refine (Finset.sum_congr rfl fun q hq => hxs.count (Finset.mem_range.mp hq)).trans ?_
    exact sum_countOf hxs.parts
  · obtain ⟨id, _, hrun, rfl, q, hq, hsize, hlast⟩ := rank_spec hxs hpos hpart
    have hmem := (hxs.member q hq id).mp (List.mem_of_getLast? hlast)
    refine ⟨id, q, hrun, hq, hsize, hmem.1, hmem.2, fun j hj hjq => ?_⟩
    have hjmem := (hxs.member q hq j).mpr ⟨hj, hjq⟩
    -- the last line of the list is older than all the others
    obtain ⟨pre, hpre⟩ := List.getLast?_eq_some_iff.mp hlast
    have hpair := hsorted q hq
    rw [hpre] at hjmem hpair
    rcases List.mem_append.mp hjmem with hj | hj
    · exact ((List.pairwise_append.mp hpair).2.2 j hj id List.mem_cons_self).le
    · rw [List.mem_singleton.mp hj]

end Properties

/-- The array over a policy that has just been constructed; the lines are as old
as the list of partition 0 says. -/
def start (n : ℕ) (rp : IdealLRUPartReplPolicy) : Driven where
  array := IdealLRUPartArray.new n rp
  pending := none
  stamp := fun i => i
  clock := n

theorem start_inv {P n : ℕ} {rp : IdealLRUPartReplPolicy} (h : Sound P n (initialLists n) rp) :
    Inv P n (start n rp) := by
  refine ⟨⟨initialLists n, h, fun q _ => ?_⟩, fun i hi => hi, rfl, fun a i => ?_, fun _ _ h => by cases h⟩
  · unfold initialLists
    split
    · exact List.pairwise_reverse.mpr List.pairwise_lt_range
    · exact List.Pairwise.nil
  · exact ⟨(fun h => by cases h), fun hi => absurd hi.2.2.symm hi.1⟩

/-- With at least one line, the ideal array conforms to a fully associative cache
with true LRU replacement. With fewer than `2 ^ 31` lines, so that the sizes
are positive as `int32_t`, the partitioned array keeps its tables and lists in
step and evicts the least recently updated line of a partition with lines. -/
theorem ideal_arrays (n : ℕ) (hpos : 0 < n) (hlines : n < 2 ^ 32) :
    (∃ s, IdealLRU.construct (IdealLRU.allocated n) = .ok ((), s) ∧ ∀ ops,
      Conformance.Conforms IdealLRU.step (IdealLRU.LRUCache.spec n) ⟨s, none⟩ ⟨[], none⟩ ops) ∧
    (n < 2 ^ 31 → ∀ P numBuckets, 0 < P →
      ∃ rp, construct (allocated P n numBuckets (P + 1) P) = .ok ((), rp) ∧
        ∀ ops r, run (step P) (.ok (start n rp)) ops = some r →
          ∃ s, r = .ok s ∧ Partitioned P n s) := by
  refine ⟨IdealLRURuns.lru_refines hpos hlines, fun hsmall P numBuckets hparts => ?_⟩
  obtain ⟨_, rp, hrun, hbuilding, -⟩ := construct_building P numBuckets hlines
  refine ⟨rp, hrun, fun ops r hr => ?_⟩
  have hstep : ∀ (x : Except PartFailure Driven) op x', (∃ s, x = .ok s ∧ Inv P n s) →
      step P x op = some x' → ∃ s, x' = .ok s ∧ Inv P n s := by
    rintro _ op x' ⟨s, rfl, hs⟩ hstep
    exact step_inv hpos hs hstep
  have hinit := start_inv (sound_of_building hbuilding hparts hsmall)
  obtain ⟨s, rfl, hs⟩ := run_invariant hstep ⟨_, rfl, hinit⟩ hr
  exact ⟨s, rfl, partitioned_of_inv hpos hs⟩

theorem fourLines_ideal :
    (∃ s, IdealLRU.construct (IdealLRU.allocated 4) = .ok ((), s) ∧ ∀ ops,
      Conformance.Conforms IdealLRU.step (IdealLRU.LRUCache.spec 4) ⟨s, none⟩ ⟨[], none⟩ ops) ∧
    ∃ rp, construct (allocated 2 4 4 3 2) = .ok ((), rp) ∧
      ∀ ops r, run (step 2) (.ok (start 4 rp)) ops = some r → ∃ s, r = .ok s ∧ Partitioned 2 4 s := by
  obtain ⟨hlru, hpart⟩ := ideal_arrays 4 (by decide) (by decide)
  exact ⟨hlru, hpart (by decide) 2 4 (by decide)⟩

/-- A partition that takes all the targets from one of `2 ^ 31` lines cannot evict:
the size of the other is negative as an `int32_t`. -/
theorem empty_partition_chosen : ∃ rp, construct (allocated 2 (2 ^ 31) 1 3 2) = .ok ((), rp) ∧
    run (step 2) (.ok (start (2 ^ 31) rp))
      [.setPartitionSizes fun p => p, .preinsert 1 64] = some (.error .emptyPartition) := by
  obtain ⟨_, rp, hrun, h, hbuckets⟩ := construct_building (n := 2 ^ 31) 2 1 (by decide)
  refine ⟨rp, hrun, ?_⟩
  obtain ⟨_, rp', hresize, hsame, hlen, hcells⟩ := setPartitionSizes_cells h.partitions
    (by rw [h.infos]; decide) fun p => p
  have hsize₀ : (rp.partInfo.cell 0).size = 2 ^ 31 := by
    rw [h.sizes 0 (by decide), initialLists, if_pos rfl, List.length_reverse, List.length_range]
  have hsize₁ : (rp.partInfo.cell 1).size = 0 := by
    rw [h.sizes 1 (by decide), initialLists_of_ne (by decide)]
    rfl
  have hrank : rank 1 rp' = .error .emptyPartition := by
    refine rank_fails (P := 2) (by rw [hsame]; exact h.partitions) (by rw [hlen, h.infos]; decide) (by decide)
      (by rw [hcells 1 (by decide)]; exact hsize₁) fun q hq hsize => ?_
    rcases Nat.lt_succ_iff_lt_or_eq.mp hq with hq | rfl
    · obtain rfl : q = 0 := by omega
      have hdiff : sub32 (2 ^ 31) 0 = -(2 ^ 31 : ℕ) := by decide
      rw [hcells 0 (by decide), partDiff]
      dsimp only
      rw [hsize₀, h.numLines, hbuckets, Nat.zero_mul, Nat.zero_mod, Nat.zero_div, hdiff]
      have hone : roundDouble ((inc64 0 : ℕ) : ℚ) = 1 := by
        have h1 : inc64 0 = 1 := rfl
        rw [h1, roundDouble_natCast (by decide), Nat.cast_one]
      rw [hone, div_one, Int.cast_neg, Int.cast_natCast, roundDouble_neg_natCast (by decide)]
      norm_num
    · rw [hcells 1 (by decide)] at hsize
      exact absurd hsize (by rw [hsize₁]; decide)
  have hstep₁ : step 2 (.ok (start (2 ^ 31) rp)) (.setPartitionSizes fun p => p) =
      some (.ok (start (2 ^ 31) rp')) := by
    have hpolicy : policy (setPartitionSizes fun p => p) (IdealLRUPartArray.new (2 ^ 31) rp) =
        .ok ((), IdealLRUPartArray.new (2 ^ 31) rp') := by
      unfold policy
      rw [show (IdealLRUPartArray.new (2 ^ 31) rp).rp = rp from rfl, hresize]
      rfl
    show some ((policy (setPartitionSizes fun p => p) (IdealLRUPartArray.new (2 ^ 31) rp)).map _) = _
    rw [hpolicy]
    rfl
  have hstep₂ : step 2 (.ok (start (2 ^ 31) rp')) (.preinsert 1 64) =
      some (.error .emptyPartition) := by
    have hpre : preinsert 1 (start (2 ^ 31) rp').array = .error .emptyPartition := by
      have hpolicy : policy (rank 1) (start (2 ^ 31) rp').array = .error .emptyPartition := by
        unfold policy
        rw [show (start (2 ^ 31) rp').array.rp = rp' from rfl, hrank]
        rfl
      change ((policy (rank 1) (start (2 ^ 31) rp').array).bind _) = _
      rw [hpolicy]
      rfl
    rw [step, if_pos ⟨by decide, by decide, rfl, rfl⟩, hpre]
    rfl
  rw [run, hstep₁, Option.bind_some, run, hstep₂]
  rfl

end Zsim.IdealLRUPartRuns
