import Zsim.Lookahead
import Zsim.VantageFrames
import Zsim.VantageMisses

/-!
# Smoothed transients of the Vantage policy

With smoothed transients a growing partition gets its new lines one by one, and
each of them is taken from a partition that is above its long-term target. The
short-term targets always add up to what they added up to at first, so there is
such a partition as long as the long-term targets add up to no more than that.
-/

namespace Zsim.VantageTransients

open WeakestPre MemoryHierarchy CheckedTables PartPolicy DoubleRounding Outcomes Frames GuardedRuns Vantage
  VantageRuns VantageRounds VantageFrames VantageMisses

/-- The two targets of a partition. -/
def goalOf (i : VantagePartInfo) : ℕ × ℕ := (i.targetSize, i.longTermTargetSize)

/-- The two targets of each partition. -/
def goals (s : VantageReplPolicy) : ℕ → ℕ × ℕ := fun q => goalOf (s.partInfo.cell q)

/-- How many lines may be taken from a partition. -/
def spare (g : ℕ × ℕ) : ℕ := g.1 - g.2

/-- Targets of `n` partitions that fit an `int32_t`. -/
structure Small (n : ℕ) (g : ℕ → ℕ × ℕ) : Prop where
  short : ∀ q < n, (g q).1 < 2 ^ 31
  long : ∀ q < n, (g q).2 < 2 ^ 31
  total : (Finset.range n).sum (fun q => spare (g q)) < 2 ^ 32

section Left

variable {i : VantagePartInfo}

theorem int32_eq (n : ℕ) : WayPart.int32 n = if n < 2 ^ 31 then (n : ℤ) else n - 2 ^ 32 := rfl

theorem left_eq (hshort : i.targetSize < 2 ^ 31) (hlong : i.longTermTargetSize < 2 ^ 31) :
    i.left = (i.targetSize : ℤ) - i.longTermTargetSize := by
  rw [VantagePartInfo.left, int32_eq, sub64]
  by_cases hle : i.longTermTargetSize ≤ i.targetSize
  · rw [if_pos hle, Nat.mod_eq_of_lt (by omega), if_pos (by omega)]
    omega
  · have hwrap : (i.targetSize + 2 ^ 64 - i.longTermTargetSize) % 2 ^ 32 =
        i.targetSize + 2 ^ 32 - i.longTermTargetSize := by omega
    rw [if_neg hle, hwrap, if_neg (by omega)]
    omega

/-- What `takeOneLine` counts of a partition. -/
theorem left_toNat (hshort : i.targetSize < 2 ^ 31) (hlong : i.longTermTargetSize < 2 ^ 31) :
    i.left.toNat = spare (goalOf i) := by
  rw [left_eq hshort hlong, spare, goalOf]
  dsimp only
  omega

end Left

section Lines

variable {E : PartFailure → Prop} {s s' : VantageReplPolicy} {draw : ℕ → ℕ}

/-- The lines that may be taken from the first `n` partitions. -/
def supply (s : VantageReplPolicy) (n : ℕ) : ℕ := (Finset.range n).sum fun q => spare (goals s q)

/-- One line less for a partition. -/
def taken (s : VantageReplPolicy) (q : ℕ) : VantageReplPolicy :=
  putPart s q { s.partInfo.cell q with targetSize := (s.partInfo.cell q).targetSize - 1 }

theorem supply_succ (n : ℕ) : supply s (n + 1) = supply s n + spare (goals s n) :=
  Finset.sum_range_succ ..

theorem supply_le {m n : ℕ} (h : m ≤ n) : supply s m ≤ supply s n :=
  Finset.sum_le_sum_of_subset (Finset.range_mono h)

/-- Where there is something to take, a line is taken from a partition above its
long-term target. -/
theorem takeOneLine_takes (hE : E .outside) (hsmooth : s.smoothTransients = true)
    (hsmall : Small s.partitions (goals s)) (hpos : 0 < supply s s.partitions)
    (hdraw : ∀ n, 0 < n → draw n < n) :
    ends E (takeOneLine draw) (fun _ s' => ∃ q < s.partitions, (goals s q).2 < (goals s q).1 ∧
      s' = taken s q) s := by
  have htotal : supply s s.partitions < 2 ^ 32 := hsmall.total
  have hcount : ∀ q < s.partitions, (s.partInfo.cell q).left.toNat = spare (goals s q) := fun q hq =>
    left_toNat (hsmall.short q hq) (hsmall.long q hq)
  rw [takeOneLine, ends_bind, ends_observe, ends_bind, ends_ensure]
  refine ⟨fun _ => ?_, fun hno => absurd hsmooth hno⟩
  rw [ends_bind]
  refine ends_mono (ends_forUpTo (fun p n s' => s' = s ∧ n = supply s p) ?_ ⟨rfl, rfl⟩) fun n s₁ h₁ => ?_
  · intro p n s' hp h'
    obtain ⟨rfl, rfl⟩ := h'
    rw [ends_bind, ends_readCell]
    refine ⟨fun _ => ⟨rfl, ?_⟩, fun _ => hE⟩
    have hle := @supply_le s' (p + 1) s'.partitions hp
    rw [supply_succ] at hle ⊢
    rw [hcount p hp, Nat.mod_eq_of_lt (by omega)]
  · obtain ⟨rfl, rfl⟩ := h₁
    rw [ends_bind, ends_ensure]
    refine ⟨fun _ => ?_, fun hno => absurd hpos hno⟩
    have hlt := hdraw _ hpos
    rw [ends_bind]
    refine ends_mono (ends_forUpTo (fun p (r : ℕ × Bool) s' =>
      (r.2 = false ∧ s' = s₁ ∧ r.1 = supply s₁ p ∧ supply s₁ p ≤ draw (supply s₁ s₁.partitions)) ∨
        (r.2 = true ∧ ∃ q < s₁.partitions, (goals s₁ q).2 < (goals s₁ q).1 ∧ s' = taken s₁ q)) ?_ ?_)
      fun r s' h' => ?_
    · intro p r s' hp h'
      rw [ends_ite]
      split
      · next hdone =>
        obtain ⟨hgo, -⟩ | htaken := h'
        · rw [hdone] at hgo
          cases hgo
        · exact Or.inr htaken
      · next hgo =>
        obtain ⟨-, rfl, hsum, hle⟩ | ⟨hdone, -⟩ := h'
        · rw [ends_bind, ends_readCell]
          refine ⟨fun hcell => ?_, fun _ => hE⟩
          have hnext := @supply_le s' (p + 1) s'.partitions hp
          rw [supply_succ] at hnext
          have hcur : (r.1 + (s'.partInfo.cell p).left.toNat) % 2 ^ 32 = supply s' (p + 1) := by
            rw [hsum, hcount p hp, supply_succ, Nat.mod_eq_of_lt (by omega)]
          dsimp only
          rw [hcur, ends_ite]
          split
          · next hfound =>
            obtain ⟨hleft, hhit⟩ := hfound
            rw [left_eq (hsmall.short p hp) (hsmall.long p hp)] at hleft
            have habove : (goals s' p).2 < (goals s' p).1 := by
              simp only [goals, goalOf]
              omega
            have hdec : dec64 (s'.partInfo.cell p).targetSize = (s'.partInfo.cell p).targetSize - 1 :=
              dec64_of_pos (by omega)
            rw [ends_bind, ends_modifyCell_of_lt hcell, ends_pure, hdec]
            exact Or.inr ⟨rfl, p, hp, habove, rfl⟩
          · next hnot =>
            rw [ends_pure]
            refine Or.inl ⟨rfl, rfl, rfl, ?_⟩
            by_contra hlt
            have hspare : 0 < spare (goals s' p) := by
              rw [supply_succ] at hlt
              omega
            have hleft : 0 < (s'.partInfo.cell p).left := by
              rw [← hcount p hp] at hspare
              omega
            exact hnot ⟨hleft, not_le.mp hlt⟩
        · exact absurd hdone hgo
    · exact Or.inl ⟨rfl, rfl, rfl, Nat.zero_le _⟩
    · rw [ends_ensure]
      obtain ⟨-, -, -, hle⟩ | ⟨hdone, htaken⟩ := h'
      · omega
      · exact ⟨fun _ => htaken, fun hno => absurd hdone hno⟩

/-- The sum of the short-term targets. -/
def shortSum (s : VantageReplPolicy) : ℕ := (Finset.range s.partitions).sum fun q => (goals s q).1

/-- The sum of the long-term targets. -/
def longSum (s : VantageReplPolicy) : ℕ := (Finset.range s.partitions).sum fun q => (goals s q).2

theorem shortSum_le : shortSum s ≤ longSum s + supply s s.partitions := by
  rw [shortSum, longSum, supply, ← Finset.sum_add_distrib]
  refine Finset.sum_le_sum fun q _ => ?_
  rw [spare]
  omega

theorem goals_put (p : ℕ) (i : VantagePartInfo) :
    goals (putPart s p i) = Function.update (goals s) p (goalOf i) :=
  TableCounts.cell_set s.partInfo p i goalOf

/-- `n` lines have been taken since `s₁`. -/
structure Taking (s₁ : VantageReplPolicy) (n : ℕ) (s : VantageReplPolicy) : Prop where
  settings : settings s = settings s₁
  long : ∀ q, (goals s q).2 = (goals s₁ q).2
  short : ∀ q, (goals s q).1 ≤ (goals s₁ q).1
  floor : ∀ q, min (goals s₁ q).1 (goals s₁ q).2 ≤ (goals s q).1
  total : shortSum s + n = shortSum s₁

theorem Taking.refl (s : VantageReplPolicy) : Taking s 0 s :=
  ⟨rfl, fun _ => rfl, fun _ => le_rfl, fun _ => min_le_left _ _, rfl⟩

section Taking

variable {s₁ : VantageReplPolicy} {n : ℕ}

theorem Taking.partitions (h : Taking s₁ n s) : s.partitions = s₁.partitions :=
  congrArg (fun c => c.1) h.settings

theorem Taking.smooth (h : Taking s₁ n s) : s.smoothTransients = s₁.smoothTransients :=
  congrArg (fun c => c.2.2.2) h.settings

theorem Taking.long_eq (h : Taking s₁ n s) : longSum s = longSum s₁ := by
  rw [longSum, longSum, h.partitions]
  exact Finset.sum_congr rfl fun q _ => h.long q

theorem Taking.small (h : Taking s₁ n s) (hsmall : Small s₁.partitions (goals s₁)) :
    Small s.partitions (goals s) := by
  rw [h.partitions]
  refine ⟨fun q hq => (h.short q).trans_lt (hsmall.short q hq), fun q hq => ?_, ?_⟩
  · rw [h.long]
    exact hsmall.long q hq
  · refine lt_of_le_of_lt (Finset.sum_le_sum fun q _ => ?_) hsmall.total
    have hshort := h.short q
    have hlong := h.long q
    rw [spare, spare]
    omega

/-- One more line is taken from a partition above its long-term target. -/
theorem Taking.next {q : ℕ} (h : Taking s₁ n s) (hq : q < s.partitions)
    (habove : (goals s q).2 < (goals s q).1) : Taking s₁ (n + 1) (taken s q) := by
  have hgoals : goals (taken s q) = Function.update (goals s) q ((goals s q).1 - 1, (goals s q).2) :=
    goals_put ..
  refine ⟨h.settings, fun r => ?_, fun r => ?_, fun r => ?_, ?_⟩
  · rw [hgoals]
    by_cases hr : r = q
    · rw [hr, Function.update_self]
      exact h.long q
    · rw [Function.update_of_ne hr]
      exact h.long r
  · rw [hgoals]
    by_cases hr : r = q
    · rw [hr, Function.update_self]
      exact (Nat.sub_le _ _).trans (h.short q)
    · rw [Function.update_of_ne hr]
      exact h.short r
  · rw [hgoals]
    by_cases hr : r = q
    · have hlong := h.long q
      rw [hr, Function.update_self]
      dsimp only
      omega
    · rw [Function.update_of_ne hr]
      exact h.floor r
  · have hmove := @TableCounts.sum_move s.partitions q (fun r => (goals s r).1)
      (fun r => (goals (taken s q) r).1) hq fun r hr => by
        rw [hgoals, Function.update_of_ne hr]
    have hone : (goals (taken s q) q).1 = (goals s q).1 - 1 := by
      rw [hgoals, Function.update_self]
    have hsum : shortSum (taken s q) = (Finset.range s.partitions).sum fun r => (goals (taken s q) r).1 := rfl
    have htotal := h.total
    rw [shortSum] at htotal
    omega

theorem Taking.supply_pos (h : Taking s₁ n s) {m : ℕ} (hn : n < m)
    (hcover : longSum s₁ + m ≤ shortSum s₁) : 0 < supply s s.partitions := by
  have hle := @shortSum_le s
  have hlong := h.long_eq
  have htotal := h.total
  omega

/-- Lines can be taken while the long-term targets leave room for it. -/
theorem takes {draws : ℕ → ℕ → ℕ} {m : ℕ} (hE : E .outside) (hsmooth : s₁.smoothTransients = true)
    (hsmall : Small s₁.partitions (goals s₁)) (hcover : longSum s₁ + m ≤ shortSum s₁)
    (hdraw : ∀ i n, 0 < n → draws i n < n) :
    ends E (forUpTo (fun i _ => takeOneLine (draws i)) m ()) (fun _ s' => Taking s₁ m s') s₁ := by
  refine ends_forUpTo (fun n _ s' => Taking s₁ n s') (fun i _ s' hi h' => ?_) (Taking.refl s₁)
  refine ends_mono (takeOneLine_takes hE (h'.smooth.trans hsmooth) (h'.small hsmall)
    (h'.supply_pos hi hcover) (hdraw i)) fun _ s'' h'' => ?_
  obtain ⟨q, hq, habove, rfl⟩ := h''
  exact h'.next hq habove

end Taking
/-- The long-term target that `setPartitionSizes` computes. -/
def goalSize (s : VantageReplPolicy) (sizes : ℕ → ℕ) (p : ℕ) : ℕ :=
  s.totalSize * sizes p % 2 ^ 32 / s.partGranularity

/-- What is left of a partition of these targets when it is resized to `n`. -/
structure Resized (g : ℕ × ℕ) (n : ℕ) (r : VantagePartInfo × ℕ) : Prop where
  long : (goalOf r.1).2 = n
  short : (goalOf r.1).1 = g.1 + r.2
  bound : (goalOf r.1).1 ≤ max g.1 n
  lines : r.2 ≤ n

theorem resize_goals (i : VantagePartInfo) {n : ℕ} (hn : n < 2 ^ 32) :
    Resized (goalOf i) n (resize true n i) := by
  rw [resize, if_pos rfl]
  dsimp only
  split
  · next hlt =>
    have hmax : max i.targetSize (min n (inc64 i.size)) ≤ n := max_le hlt.le (min_le_left _ _)
    have hmod : max i.targetSize (min n (inc64 i.size)) % 2 ^ 32 =
        max i.targetSize (min n (inc64 i.size)) := Nat.mod_eq_of_lt (hmax.trans_lt hn)
    have hge : i.targetSize ≤ max i.targetSize (min n (inc64 i.size)) := le_max_left _ _
    rw [hmod, sub64, if_pos hge]
    refine ⟨rfl, ?_, hmax.trans (le_max_right _ _), (Nat.sub_le _ _).trans hmax⟩
    exact (Nat.add_sub_of_le hge).symm
  · exact ⟨rfl, rfl, le_max_left _ _, Nat.zero_le n⟩

/-- The first `p` partitions have been resized since `s`, and `n` lines are to be
taken away for them. -/
structure Resizing (sizes : ℕ → ℕ) (s : VantageReplPolicy) (p n : ℕ) (s₁ : VantageReplPolicy) : Prop where
  settings : settings s₁ = settings s
  rest : ∀ q, p ≤ q → goals s₁ q = goals s q
  long : ∀ q < p, (goals s₁ q).2 = goalSize s sizes q
  floor : ∀ q, (goals s q).1 ≤ (goals s₁ q).1
  bound : ∀ q < p, (goals s₁ q).1 ≤ max (goals s q).1 (goalSize s sizes q)
  total : shortSum s₁ = shortSum s + n
  lines : n ≤ (Finset.range p).sum (goalSize s sizes)

section Resizing

variable {s₁ : VantageReplPolicy} {sizes : ℕ → ℕ} {n p : ℕ}

theorem Resizing.refl (sizes : ℕ → ℕ) (s : VantageReplPolicy) : Resizing sizes s 0 0 s :=
  ⟨rfl, fun _ _ => rfl, fun q hq => absurd hq (Nat.not_lt_zero q), fun _ => le_rfl,
    fun q hq => absurd hq (Nat.not_lt_zero q), rfl, Nat.zero_le _⟩

theorem Resizing.partitions (h : Resizing sizes s p n s₁) : s₁.partitions = s.partitions :=
  congrArg (fun c => c.1) h.settings

/-- The next partition is resized. -/
theorem Resizing.next (h : Resizing sizes s p n s₁) (hp : p < s.partitions) {r : VantagePartInfo × ℕ}
    (hr : Resized (goals s p) (goalSize s sizes p) r) :
    Resizing sizes s (p + 1) (n + r.2) (putPart s₁ p r.1) := by
  have hgoals : goals (putPart s₁ p r.1) = Function.update (goals s₁) p (goalOf r.1) := goals_put ..
  have hself : goals (putPart s₁ p r.1) p = goalOf r.1 := by
    rw [hgoals, Function.update_self]
  have hother : ∀ q, q ≠ p → goals (putPart s₁ p r.1) q = goals s₁ q := by
    intro q hq
    rw [hgoals, Function.update_of_ne hq]
  refine ⟨h.settings, fun q hq => ?_, fun q hq => ?_, fun q => ?_, fun q hq => ?_, ?_, ?_⟩
  · rw [hother q (by omega)]
    exact h.rest q (by omega)
  · by_cases hqp : q = p
    · rw [hqp, hself]
      exact hr.long
    · rw [hother q hqp]
      exact h.long q (by omega)
  · by_cases hqp : q = p
    · rw [hqp, hself, hr.short]
      exact Nat.le_add_right _ _
    · rw [hother q hqp]
      exact h.floor q
  · by_cases hqp : q = p
    · rw [hqp, hself]
      exact hr.bound
    · rw [hother q hqp]
      exact h.bound q (by omega)
  · have hmove := @TableCounts.sum_move s.partitions p (fun q => (goals s₁ q).1)
      (fun q => (goals (putPart s₁ p r.1) q).1) hp fun q hq => congrArg Prod.fst (hother q hq)
    have hsum : shortSum (putPart s₁ p r.1) =
        (Finset.range s.partitions).sum fun q => (goals (putPart s₁ p r.1) q).1 := by
      rw [shortSum, ← h.partitions]
      rfl
    have htotal := h.total
    rw [shortSum, h.partitions] at htotal
    rw [hself, hr.short, h.rest p le_rfl] at hmove
    omega
  · rw [Finset.sum_range_succ]
    exact add_le_add h.lines hr.lines

/-- The loop of `setPartitionSizes` over the partitions. -/
theorem resizes (hE : E .outside) (hsmooth : s.smoothTransients = true)
    (hsmall : (Finset.range s.partitions).sum (goalSize s sizes) < 2 ^ 32) :
    ends E (forUpTo (fun p n => do
      let i ← readCell partInfo p .outside
      let r := resize s.smoothTransients (s.totalSize * sizes p % 2 ^ 32 / s.partGranularity) i
      modifyCell partInfo p (fun _ => r.1) .outside
      pure ((n + r.2) % 2 ^ 32)) s.partitions 0)
      (fun n s₁ => Resizing sizes s s.partitions n s₁) s := by
  refine ends_forUpTo (fun p n s₁ => Resizing sizes s p n s₁) (fun p n s₁ hp h₁ => ?_) (Resizing.refl sizes s)
  rw [ends_bind, ends_readCell]
  refine ⟨fun _ => ?_, fun _ => hE⟩
  rw [ends_bind, ends_modifyCell]
  refine ⟨fun _ => ?_, fun _ => hE⟩
  have hgoal : goalSize s sizes p < 2 ^ 32 :=
    (Nat.div_le_self _ _).trans_lt (Nat.mod_lt _ (by norm_num))
  have hcell : goalOf (s₁.partInfo.cell p) = goals s p := h₁.rest p le_rfl
  have hresized := resize_goals (s₁.partInfo.cell p) hgoal
  rw [hcell] at hresized
  have hnext := h₁.next hp hresized
  have hle : (Finset.range (p + 1)).sum (goalSize s sizes) ≤ (Finset.range s.partitions).sum (goalSize s sizes) :=
    Finset.sum_le_sum_of_subset (Finset.range_mono hp)
  have hlines := hnext.lines
  rw [ends_pure, hsmooth, Nat.mod_eq_of_lt ?_]
  · exact hnext
  · change n + (resize true (goalSize s sizes p) (s₁.partInfo.cell p)).2 < 2 ^ 32
    omega

end Resizing

/-- The long-term targets leave room for each other. -/
structure Steady (s : VantageReplPolicy) : Prop where
  smooth : s.smoothTransients = true
  cover : longSum s ≤ shortSum s
  small : shortSum s < 2 ^ 31

/-- Nothing is lost between the partitions, and those that grow do so up to their
long-term target. -/
structure Conserves (s s' : VantageReplPolicy) : Prop where
  total : shortSum s' = shortSum s
  grows : ∀ q < s.partitions, (goals s q).1 < (goals s' q).2 →
    (goals s q).1 ≤ (goals s' q).1 ∧ (goals s' q).1 ≤ (goals s' q).2

/-- The long-term targets a call is to set are covered by the present targets. -/
def Affordable (s : VantageReplPolicy) (sizes : ℕ → ℕ) : Prop :=
  (Finset.range s.partitions).sum (goalSize s sizes) ≤ shortSum s

/-- A random choice of one of `n` lines. -/
def FairDraw (draw : ℕ → ℕ) : Prop := ∀ n, 0 < n → draw n < n

theorem le_sum {n q : ℕ} {f : ℕ → ℕ} (hq : q < n) : f q ≤ (Finset.range n).sum f :=
  Finset.single_le_sum (fun _ _ => Nat.zero_le _) (Finset.mem_range.mpr hq)

theorem supply_le_shortSum : supply s s.partitions ≤ shortSum s :=
  Finset.sum_le_sum fun q _ => Nat.sub_le (goals s q).1 (goals s q).2

/-- Targets whose sums are small are small. -/
theorem small_of_sums (hshort : shortSum s < 2 ^ 32) (hone : ∀ q < s.partitions, (goals s q).1 < 2 ^ 31)
    (hlong : longSum s < 2 ^ 31) : Small s.partitions (goals s) := by
  refine ⟨hone, fun q hq => ?_, supply_le_shortSum.trans_lt hshort⟩
  exact (@le_sum _ q (fun r => (goals s r).2) hq).trans_lt hlong

theorem Steady.short_lt (h : Steady s) {q : ℕ} (hq : q < s.partitions) : (goals s q).1 < 2 ^ 31 :=
  (@le_sum _ q (fun r => (goals s r).1) hq).trans_lt h.small

/-- Repartitioning to targets that are covered. -/
theorem setPartitionSizes_conserves {draws : ℕ → ℕ → ℕ} {sizes : ℕ → ℕ} (hE : E .outside) (h : Steady s)
    (hafford : Affordable s sizes) (hdraw : ∀ i, FairDraw (draws i)) :
    ends E (setPartitionSizes sizes draws) (fun _ s' => Steady s' ∧ Conserves s s') s := by
  have hsmall := h.small
  have hgoals : (Finset.range s.partitions).sum (goalSize s sizes) < 2 ^ 31 := hafford.trans_lt hsmall
  rw [setPartitionSizes, ends_bind, ends_observe, ends_bind]
  refine ends_mono (resizes hE h.smooth (by omega)) fun n s₁ h₁ => ?_
  have hlines := h₁.lines
  have htotal := h₁.total
  have hlong₁ : longSum s₁ = (Finset.range s.partitions).sum (goalSize s sizes) := by
    rw [longSum, h₁.partitions]
    exact Finset.sum_congr rfl fun q hq => h₁.long q (Finset.mem_range.mp hq)
  have hsmall₁ : Small s₁.partitions (goals s₁) := by
    refine small_of_sums (by omega) (fun q hq => ?_) (by omega)
    rw [h₁.partitions] at hq
    have hgoal := (@le_sum _ q (goalSize s sizes) hq).trans_lt hgoals
    exact (h₁.bound q hq).trans_lt (max_lt (h.short_lt hq) hgoal)
  have hsmooth₁ : s₁.smoothTransients = true :=
    (congrArg (fun c => c.2.2.2) h₁.settings).trans h.smooth
  unfold Affordable at hafford
  refine ends_mono (takes hE hsmooth₁ hsmall₁ (by omega) hdraw) fun _ s' h' => ?_
  have htotal' := h'.total
  have hlong' := h'.long_eq
  refine ⟨⟨h'.smooth.trans hsmooth₁, by omega, by omega⟩, by omega, fun q hq hgrow => ?_⟩
  have hgoal := (h'.long q).trans (h₁.long q hq)
  have hbound := h₁.bound q hq
  have hmax : max (goals s q).1 (goalSize s sizes q) = (goals s' q).2 := by
    rw [hgoal] at hgrow ⊢
    exact max_eq_right hgrow.le
  have hlong₁ := h'.long q
  have hfloor₁ := h₁.floor q
  have hfloor := h'.floor q
  have hshort := h'.short q
  omega

end Lines

/-- The failures that have nothing to do with the supply of lines. -/
def Supplied (e : PartFailure) : Prop := e ≠ .noLinesLeft ∧ e ≠ .smoothTransients

instance : DecidablePred Supplied := fun e =>
  inferInstanceAs (Decidable (e ≠ .noLinesLeft ∧ e ≠ .smoothTransients))

section Programs

variable {s s' s₁ : VantageReplPolicy} {id : LineId} {part : ℕ} {draw : ℕ → ℕ} {e : PartFailure}
  {control : VantagePartInfo → Option Setpoint}

theorem Supplied.ne {e' : PartFailure} (h' : Supplied e') (h : ¬ Supplied e) : e' ≠ e :=
  fun heq => h (heq ▸ h')

theorem supplied_outside : Supplied .outside := by decide

theorem supplied_badCandidate : Supplied .badCandidate := by decide

theorem uncounted_goalOf : Uncounted goalOf :=
  ⟨fun _ _ => rfl, fun _ _ => rfl, fun _ _ => rfl, fun _ _ => rfl, fun _ _ => rfl, fun _ _ => rfl⟩

theorem avoids_part (h : ¬ Supplied e) (p : ℕ) (f : VantagePartInfo → VantagePartInfo) :
    Avoids e (modifyCell partInfo p f .outside : Act Unit) := .modifyCell _ _ _ (supplied_outside.ne h)

theorem avoids_readPart (h : ¬ Supplied e) (p : ℕ) : Avoids e (readCell partInfo p .outside : Act _) :=
  .readCell _ _ (supplied_outside.ne h)

theorem avoids_line (h : ¬ Supplied e) (id : LineId) (f : LineInfo → LineInfo) :
    Avoids e (modifyCell array id f .badCandidate : Act Unit) :=
  .modifyCell _ _ _ (supplied_badCandidate.ne h)

theorem avoids_readLine (h : ¬ Supplied e) (id : LineId) :
    Avoids e (readCell array id .badCandidate : Act _) := .readCell _ _ (supplied_badCandidate.ne h)

theorem avoids_touch (h : ¬ Supplied e) (p : ℕ) : Avoids e (touch partInfo p : Act Unit) :=
  .bind (avoids_readPart h p) fun _ => .pure _

theorem avoids_hitUpdate (h : ¬ Supplied e) : Avoids e (hitUpdate part id) := by
  refine .bind (.observe _) fun _ => .bind (avoids_readLine h _) fun _ => .bind (.ite ?_ (.pure _)) fun _ => ?_
  · exact .bind (avoids_line h _ _) fun _ => .bind (avoids_part h _ _) fun _ =>
      .bind (avoids_part h _ _) fun _ => avoids_part h _ _
  · exact .bind (.observe _) fun _ => .bind (avoids_line h _ _) fun _ => .bind (.change _) fun _ =>
      .bind (avoids_readLine h _) fun _ => avoids_touch h _

theorem avoids_insertLine (h : ¬ Supplied e) : Avoids e (insertLine part id) :=
  .bind (.observe _) fun _ => .bind (avoids_readLine h _) fun _ => .bind (avoids_line h _ _) fun _ =>
    .bind (.change _) fun _ => .bind (avoids_part h _ _) fun _ => .bind (avoids_part h _ _) fun _ =>
    .bind (avoids_line h _ _) fun _ => .bind (avoids_part h _ _) fun _ =>
    .bind (avoids_part h _ _) fun _ => .bind (avoids_part h _ _) fun _ => avoids_touch h _

theorem avoids_phase (h : ¬ Supplied e) (phaseCycles : ℕ) (s : VantageReplPolicy) :
    Avoids e (if s.lastUpdateCycle < phaseCycles then do
        forUpTo (fun p _ => touch partInfo p) (s.partitions + 1) ()
        change fun s => { s with lastUpdateCycle := phaseCycles }
      else pure () : Act Unit) :=
  .ite (.bind (.forUpTo (fun p _ => avoids_touch h p) _ _) fun _ => .change _) (.pure _)

theorem avoids_adjustTimestamp (h : ¬ Supplied e) : Avoids e (adjustTimestamp id) :=
  .bind (avoids_readLine h _) fun _ => .bind (avoids_readPart h _) fun _ => .bind (avoids_line h _ _) fun _ =>
    .bind (avoids_part h _ _) fun _ => .bind (avoids_readPart h _) fun _ =>
    .ite (avoids_part h _ _) (.pure _)

theorem avoids_replaced (h : ¬ Supplied e) : Avoids e (replaced id) :=
  .bind (.change _) fun _ => .bind (.observe _) fun _ => avoids_line h _ _

theorem avoids_considerDemotion (h : ¬ Supplied e) : Avoids e (considerDemotion control id) := by
  have hslope : PartFailure.slope ≠ e := Supplied.ne (by decide) h
  refine .bind (.observe _) fun s => .bind (avoids_readLine h _) fun l => .ite (.pure _) ?_
  refine .bind (avoids_readPart h _) fun _ => .ite (.pure _) (.bind (.ite ?_ (.pure _)) fun _ => ?_)
  · exact .bind (.observe _) fun _ => .bind (avoids_part h _ _) fun _ => .bind (avoids_line h _ _) fun _ =>
      .bind (avoids_part h _ _) fun _ => avoids_part h _ _
  · refine .bind (avoids_part h _ _) fun _ => .bind (avoids_readPart h _) fun i => .ite ?_ (.pure _)
    cases control i with
    | none => exact .abort hslope
    | some sp => exact avoids_part h _ _

theorem keeps_considerDemotion : Keeps (view goalOf) (considerDemotion control id) := by
  refine .bind (.observe _) fun s => .bind (.readCell _ _ _) fun l => .ite (.pure _) ?_
  refine .bind (.readCell _ _ _) fun _ => .ite (.pure _)
    (.bind (.ite (keeps_demote uncounted_goalOf) (.pure _)) fun _ => ?_)
  refine .bind (keeps_part _ _ fun _ => rfl) fun _ => .bind (.readCell _ _ _) fun i => .ite ?_ (.pure _)
  cases control i with
  | none => exact .abort _
  | some sp => exact keeps_part _ _ fun _ => rfl

theorem avoids_rank (h : ¬ Supplied e) (lineAddr : Address) (cands : List LineId) :
    Avoids e (rank control lineAddr cands) := by
  have hmany : PartFailure.manyCandidates ≠ e := Supplied.ne (by decide) h
  have hnone : PartFailure.noCandidate ≠ e := Supplied.ne (by decide) h
  have hcand : ∀ i, Avoids e (readCell candList i .badCandidate : Act LineId) := fun i =>
    .readCell _ _ (supplied_badCandidate.ne h)
  refine .bind (.change _) fun _ => .bind (.foldlM (fun _ id => ?_) _ _) fun _ => ?_
  · exact .bind (.observe _) fun _ => .bind (.ensure hmany) fun _ =>
      .bind (.modifyCell _ _ _ (supplied_badCandidate.ne h)) fun _ => .change _
  · refine .bind (.observe _) fun _ => .bind (.ensure hnone) fun _ => .bind (.ensure hmany) fun _ =>
      .bind (.forUpTo (fun i _ => .bind (hcand i) fun _ => avoids_considerDemotion h) _ _) fun _ =>
      .bind (hcand 0) fun _ => .bind (.forUpTo (fun i r => .ite (.pure _) ?_) _ _) fun _ =>
      .bind (.ensure (supplied_badCandidate.ne h)) fun _ => .pure _
    exact .bind (hcand i) fun _ => .bind (avoids_readLine h _) fun _ =>
      .bind (.ensure (supplied_badCandidate.ne h)) fun _ => .bind (avoids_readLine h _) fun _ => .pure _

theorem keeps_rank (lineAddr : Address) (cands : List LineId) :
    Keeps (view goalOf) (rank control lineAddr cands) := by
  rw [rank_eq]
  refine .bind (keeps_candidates lineAddr cands) fun _ => .bind (.observe _) fun _ => .bind (.ensure _)
    fun _ => .bind (.ensure _) fun _ => .bind
    (.forUpTo (fun i _ => .bind (.readCell _ _ _) fun _ => keeps_considerDemotion) _ _) fun _ =>
    .bind (.readCell _ _ _) fun _ => .bind (.forUpTo (fun i r => .ite (.pure _) ?_) _ _) fun _ =>
    .bind (.ensure _) fun _ => .pure _
  exact .bind (.readCell _ _ _) fun _ => .bind (.readCell _ _ _) fun _ => .bind (.ensure _) fun _ =>
    .bind (.readCell _ _ _) fun _ => .pure _

/-- What is said of the targets is said of the view of them. -/
theorem sums_of_view (h : view goalOf s' = view goalOf s) : goals s' = goals s ∧
    s'.partitions = s.partitions ∧ s'.smoothTransients = s.smoothTransients ∧
      shortSum s' = shortSum s ∧ longSum s' = longSum s := by
  have hgoals : goals s' = goals s := congrArg Prod.snd h
  have hparts : s'.partitions = s.partitions := congrArg (fun v => v.1.1) h
  have hsmooth : s'.smoothTransients = s.smoothTransients := congrArg (fun v => v.1.2.2.2) h
  refine ⟨hgoals, hparts, hsmooth, ?_, ?_⟩
  · rw [shortSum, shortSum, hgoals, hparts]
  · rw [longSum, longSum, hgoals, hparts]

theorem Steady.kept (h : Steady s) (hview : view goalOf s' = view goalOf s) : Steady s' := by
  obtain ⟨-, -, hsmooth, hshort, hlong⟩ := sums_of_view hview
  refine ⟨hsmooth.trans h.smooth, ?_, ?_⟩
  · rw [hshort, hlong]
    exact h.cover
  · rw [hshort]
    exact h.small

theorem Conserves.refl (s : VantageReplPolicy) : Conserves s s :=
  ⟨rfl, fun _ _ hgrow => ⟨le_rfl, hgrow.le⟩⟩

/-- Steps that do not move the targets may come before and after. -/
theorem Conserves.between {s₂ : VantageReplPolicy} (h : Conserves s₁ s₂)
    (hbefore : view goalOf s₁ = view goalOf s) (hafter : view goalOf s' = view goalOf s₂) :
    Conserves s s' := by
  obtain ⟨hgoals₁, hparts₁, -, hshort₁, -⟩ := sums_of_view hbefore
  obtain ⟨hgoals₂, -, -, hshort₂, -⟩ := sums_of_view hafter
  constructor
  · rw [hshort₂, h.total, hshort₁]
  · intro q hq hgrow
    rw [hgoals₂, ← hgoals₁] at *
    exact h.grows q (hparts₁.symm ▸ hq) hgrow

/-- The partition `p` has been given a line. -/
structure Given (p : ℕ) (s s₁ : VantageReplPolicy) : Prop where
  settings : settings s₁ = settings s
  given : goals s₁ = Function.update (goals s) p ((goals s p).1 + 1, (goals s p).2)

section Given

variable {p : ℕ}

theorem Given.self (h : Given p s s₁) : goals s₁ p = ((goals s p).1 + 1, (goals s p).2) := by
  rw [h.given, Function.update_self]

theorem Given.other (h : Given p s s₁) {q : ℕ} (hq : q ≠ p) :
    goals s₁ q = goals s q := by
  rw [h.given, Function.update_of_ne hq]

theorem Given.partitions (h : Given p s s₁) : s₁.partitions = s.partitions :=
  congrArg (fun c => c.1) h.settings

theorem Given.long_eq (h : Given p s s₁) : longSum s₁ = longSum s := by
  rw [longSum, longSum, h.partitions]
  refine Finset.sum_congr rfl fun q _ => ?_
  by_cases hq : q = p
  · rw [hq, h.self]
  · rw [h.other hq]

theorem Given.short_eq (h : Given p s s₁) (hp : p < s.partitions) :
    shortSum s₁ = shortSum s + 1 := by
  have hmove := @TableCounts.sum_move s.partitions p (fun q => (goals s q).1)
    (fun q => (goals s₁ q).1) hp fun q hq => congrArg Prod.fst (h.other hq)
  rw [h.self] at hmove
  rw [shortSum, shortSum, h.partitions]
  omega

/-- The line given to a growing partition is taken from another one. -/
theorem Given.conserves (h : Given p s s₁) (hs : Steady s) (hp : p < s.partitions)
    (hgrow : (goals s p).1 < (goals s p).2) (hdraw : FairDraw draw) :
    ends Supplied (takeOneLine draw) (fun _ s' => Steady s' ∧ Conserves s s') s₁ := by
  have hcover := hs.cover
  have hsmall := hs.small
  have hshort := h.short_eq hp
  have hlong := h.long_eq
  have hsupply := @shortSum_le s₁
  have hsmooth : s₁.smoothTransients = true :=
    (congrArg (fun c => c.2.2.2) h.settings).trans hs.smooth
  have hone : ∀ q < s₁.partitions, (goals s₁ q).1 < 2 ^ 31 := by
    intro q hq
    rw [h.partitions] at hq
    by_cases hqp : q = p
    · have hle := @le_sum _ p (fun r => (goals s r).2) hp
      have hsum : (Finset.range s.partitions).sum (fun r => (goals s r).2) =
          longSum s := rfl
      rw [hqp, h.self]
      dsimp only at hle ⊢
      omega
    · rw [h.other hqp]
      exact hs.short_lt hq
  have hsmall₁ : Small s₁.partitions (goals s₁) :=
    small_of_sums (by omega) hone (by omega)
  refine ends_mono (takeOneLine_takes supplied_outside hsmooth hsmall₁ (by omega) hdraw) fun _ s' h' => ?_
  obtain ⟨q, hq, habove, rfl⟩ := h'
  have htaking := (Taking.refl s₁).next hq habove
  have htotal := htaking.total
  have hlong' := htaking.long_eq
  refine ⟨⟨htaking.smooth.trans hsmooth, by omega, by omega⟩, by omega, fun r hr hgrows => ?_⟩
  have hlongr := htaking.long r
  have hfloor := htaking.floor r
  have hle := htaking.short r
  by_cases hrp : r = p
  · subst hrp
    rw [h.self] at hlongr hfloor hle
    dsimp only at hlongr hfloor hle
    omega
  · rw [h.other hrp] at hlongr hfloor hle
    omega

end Given

/-- A fill gives its partition a line at most, and takes one for it. -/
theorem missUpdate_conserves (h : Steady s) (hpart : part < s.partitions) (hdraw : FairDraw draw) :
    ends Supplied (missUpdate part draw id) (fun _ s' => Steady s' ∧ Conserves s s') s := by
  rw [missUpdate, ends_bind]
  refine ends_mono ((keeps_insertLine uncounted_goalOf).within fun e he => avoids_insertLine he)
    fun _ s₁ h₁ => ?_
  obtain ⟨-, hparts₁, -⟩ := sums_of_view h₁
  have hsteady := h.kept h₁
  have hpart₁ : part < s₁.partitions := hparts₁.symm ▸ hpart
  rw [ends_bind, ends_observe, ends_bind, ends_readCell]
  refine ⟨fun _ => ?_, fun _ => supplied_outside⟩
  rw [ends_ite]
  split
  · next hgrow =>
    rw [ends_bind, ends_ensure]
    refine ⟨fun _ => ?_, fun hno => absurd hsteady.smooth hno⟩
    rw [ends_bind, ends_modifyCell]
    refine ⟨fun _ => ?_, fun _ => supplied_outside⟩
    have hlt : (s₁.partInfo.cell part).targetSize < 2 ^ 31 := hsteady.short_lt hpart₁
    have hgiven : Given part s₁ (putPart s₁ part
        { s₁.partInfo.cell part with targetSize := inc64 (s₁.partInfo.cell part).targetSize }) := by
      rw [inc64_of_lt (Nat.lt_succ_self _) (by omega)]
      exact ⟨rfl, goals_put ..⟩
    refine ends_mono (hgiven.conserves hsteady hpart₁ hgrow hdraw) fun _ s' h' => ?_
    exact ⟨h'.1, h'.2.between h₁ rfl⟩
  · exact ⟨hsteady, (Conserves.refl s₁).between h₁ rfl⟩

/-- A program that does not move the targets. -/
theorem kept_conserves {m : Act Unit} (h : Steady s) (hkeeps : Keeps (view goalOf) m)
    (havoids : ∀ e, ¬ Supplied e → Avoids e m) :
    ends Supplied m (fun _ s' => Steady s' ∧ Conserves s s') s :=
  ends_mono (hkeeps.within havoids) fun _ _ h' => ⟨h.kept h', (Conserves.refl s).between rfl h'⟩

theorem keeps_adjustTimestamp : Keeps (view goalOf) (adjustTimestamp id) :=
  .bind (.readCell _ _ _) fun _ => .bind (.readCell _ _ _) fun _ => .bind (keeps_line _ _) fun _ =>
    .bind (keeps_part _ _ fun _ => rfl) fun _ => .bind (.readCell _ _ _) fun _ =>
    .ite (keeps_part _ _ fun _ => rfl) (.pure _)

/-- An access moves the targets if it is a fill. -/
theorem update_conserves (h : Steady s) (hpart : part < s.partitions) (hdraw : FairDraw draw)
    (phaseCycles : ℕ) : ends Supplied (update part phaseCycles draw id)
      (fun _ s' => Steady s' ∧ Conserves s s') s := by
  rw [update, ends_bind, ends_observe, ends_bind]
  refine ends_mono ((@keeps_phase _ goalOf phaseCycles s).within fun e he => avoids_phase he phaseCycles s)
    fun _ s₁ h₁ => ?_
  obtain ⟨-, hparts₁, -⟩ := sums_of_view h₁
  rw [ends_bind, ends_readCell]
  refine ⟨fun _ => ?_, fun _ => supplied_badCandidate⟩
  have haccess : ends Supplied (if 0 < (s₁.array.cell id).ts then hitUpdate part id
      else missUpdate part draw id) (fun _ s' => Steady s' ∧ Conserves s₁ s') s₁ := by
    rw [ends_ite]
    split
    · exact kept_conserves (h.kept h₁) (keeps_hitUpdate uncounted_goalOf) fun e he => avoids_hitUpdate he
    · exact missUpdate_conserves (h.kept h₁) (hparts₁.symm ▸ hpart) hdraw
  rw [ends_bind]
  refine ends_mono haccess fun _ s₂ h₂ => ?_
  obtain ⟨hsteady, hconserves⟩ := h₂
  rw [ends_bind, ends_readCell]
  refine ⟨fun _ => ?_, fun _ => supplied_badCandidate⟩
  have hrest : Keeps (view goalOf) (do
      monitorAccess (fun s => s.monitors) (s₂.array.cell id).p
      adjustTimestamp id : Act Unit) := .bind (keeps_monitor _) fun _ => keeps_adjustTimestamp
  have havoids : ∀ e, ¬ Supplied e → Avoids e (do
      monitorAccess (fun s => s.monitors) (s₂.array.cell id).p
      adjustTimestamp id : Act Unit) := fun e he =>
    .bind (.bind (.observe _) fun _ => .ensure (supplied_outside.ne he)) fun _ => avoids_adjustTimestamp he
  refine ends_mono (hrest.within havoids) fun _ s' h' => ?_
  exact ⟨hsteady.kept h', hconserves.between h₁ h'⟩

end Programs

/-- What the claims of a call are: it neither runs out of lines nor loses any. -/
def Smoothly : Except PartFailure VantageReplPolicy → Op →
    Except PartFailure VantageReplPolicy → Prop
  | .ok s, _, .ok s' => Conserves s s'
  | .ok _, _, .error e => Supplied e
  | .error _, _, _ => True

/-- New sizes are covered by the targets they replace, and random choices are choices. -/
def Covered : Except PartFailure VantageReplPolicy → Op → Prop
  | .ok s, .setPartitionSizes sizes draw => Affordable s sizes ∧ ∀ i, FairDraw (draw i)
  | .ok _, .update _ _ draw _ => FairDraw draw
  | _, _ => True

section Runs

variable {s : VantageReplPolicy} {P lines assoc granularity portion slack aperture : ℕ}

/-- One call. -/
theorem perform_conserves (h : Steady s) {op : Op} (hlegal : Legal s op) (hcovered : Covered (.ok s) op) :
    ends Supplied (perform op) (fun _ s' => Steady s' ∧ Conserves s s') s := by
  cases op with
  | rank lineAddr cands control =>
    refine kept_conserves h (.bind (keeps_rank lineAddr cands) fun _ => .pure _) fun e he => ?_
    exact .bind (avoids_rank he lineAddr cands) fun _ => .pure _
  | replaced id => exact kept_conserves h keeps_replaced fun e he => avoids_replaced he
  | update part phaseCycles draw id => exact update_conserves h hlegal.1 hcovered phaseCycles
  | setPartitionSizes sizes draw =>
    exact setPartitionSizes_conserves supplied_outside h hcovered.1 hcovered.2

theorem keeps_construct : Keeps settings (construct portion slack aperture) := by
  have hpart : ∀ p f, Keeps settings (modifyCell partInfo p f .outside : Act Unit) := fun p f =>
    .modifyCell (fun _ => rfl) _
  exact .bind (.ensure _) fun _ => .bind (.ensure _) fun _ => .bind (.ensure _) fun _ =>
    .bind (.observe _) fun _ => .bind (.observe _) fun _ => .bind (.forUpTo (fun i _ => hpart _ _) _ _)
    fun _ => .bind (hpart _ _) fun _ => .bind (hpart _ _) fun _ =>
    .forUpTo (fun _ _ => .modifyCell (fun _ => rfl) _) _ _

/-- The constructor gives all partitions the same targets. -/
theorem construct_targets
    (h : construct portion slack aperture (allocated P lines assoc granularity true P) = .ok ((), s)) :
    portion ≤ 100 ∧ settings s = (P, lines, granularity, true) ∧
      shortSum s = P * (targetManagedSize lines portion / P) ∧
      longSum s = P * (targetManagedSize lines portion / P) := by
  have hsettings : settings s = (P, lines, granularity, true) := keeps_construct _ () s h
  have hparts : s.partitions = P := congrArg (fun c => c.1) hsettings
  have hends : ends (fun _ => True) (construct portion slack aperture) (fun _ s' => portion ≤ 100 ∧
      ∀ q < P, goals s' q = (targetManagedSize lines portion / P, targetManagedSize lines portion / P))
      (allocated P lines assoc granularity true P) := by
    simp only [construct, ends_bind, ends_ensure, ends_observe]
    refine ⟨fun hportion => ⟨fun _ => ⟨fun _ => ?_, fun _ => trivial⟩, fun _ => trivial⟩, fun _ => trivial⟩
    refine ends_of_wp (wp_mono (initialise_cores _ rfl rfl) fun _ s' h' => ⟨hportion, fun q hq => ?_⟩)
    have hcore := h'.2.2.1 q hq
    have hshort := congrArg (fun i => i.targetSize) hcore
    have hlong := congrArg (fun i => i.longTermTargetSize) hcore
    exact Prod.ext hshort hlong
  unfold ends at hends
  rw [h] at hends
  obtain ⟨hportion, hgoals⟩ := hends
  refine ⟨hportion, hsettings, ?_, ?_⟩
  · rw [shortSum, hparts, Finset.sum_congr rfl fun q hq => congrArg Prod.fst (hgoals q (Finset.mem_range.mp hq)),
      Finset.sum_const, Finset.card_range, nsmul_eq_mul, Nat.cast_id]
  · rw [longSum, hparts, Finset.sum_congr rfl fun q hq => congrArg Prod.snd (hgoals q (Finset.mem_range.mp hq)),
      Finset.sum_const, Finset.card_range, nsmul_eq_mul, Nat.cast_id]

theorem construct_steady (hlines : lines < 2 ^ 31)
    (h : construct portion slack aperture (allocated P lines assoc granularity true P) = .ok ((), s)) :
    Steady s := by
  obtain ⟨hportion, hsettings, hshort, hlong⟩ := construct_targets h
  have hmanaged : targetManagedSize lines portion ≤ lines := targetManagedSize_le (by omega) hportion
  have hle := Nat.mul_div_le (targetManagedSize lines portion) P
  exact ⟨congrArg (fun c => c.2.2.2) hsettings, by omega, by omega⟩

/-- From the initial state, calls that set only targets that are covered never run
out of lines, and no call loses any. -/
theorem transients_conserve (hlines : lines < 2 ^ 31)
    (h : construct portion slack aperture (allocated P lines assoc granularity true P) = .ok ((), s))
    {ops : List Op} (hcovered : EveryStep step (fun r op _ => Covered r op) (.ok s) ops) :
    EveryStep step Smoothly (.ok s) ops := by
  have hinit : Holds Steady (.ok s) := by
    intro s₀ hs₀
    obtain rfl := Except.ok.inj hs₀
    exact construct_steady hlines h
  refine hcovered.everyStep (fun r op r' hr hs hop => ?_) hinit
  cases r with
  | error e => cases hs
  | ok s₁ =>
    obtain ⟨hlegal, rfl⟩ := step_spec hs
    have hends := perform_conserves (hr s₁ rfl) hlegal hop
    unfold ends at hends
    cases hperform : perform op s₁ with
    | error e =>
      rw [hperform] at hends
      exact ⟨fun s' hs' => (nomatch hs'), hends⟩
    | ok x =>
      rw [hperform] at hends
      exact ⟨fun s' hs' => Except.ok.inj hs' ▸ hends.1, hends.2⟩

theorem targetManagedSize_all : targetManagedSize 4 100 = 4 := by
  have hone : roundDouble ((100 : ℕ) / 100) = (1 : ℕ) := by
    rw [Nat.cast_ofNat, div_self (by norm_num)]
    exact_mod_cast @roundDouble_natCast 1 (by norm_num)
  rw [targetManagedSize, hone, Nat.cast_one, mul_one, roundDouble_natCast (by norm_num), Nat.floor_natCast]

/-- Two partitions of a cache of four lines, of which one gets a line of the other
with its next fill. -/
theorem twoParts_conserve : ∃ s, construct 100 10 50 (allocated 2 4 4 4 true 2) = .ok ((), s) ∧
    EveryStep step Smoothly (.ok s) [.setPartitionSizes (fun p => if p = 0 then 3 else 1) fun _ _ => 0,
      .update 0 0 (fun _ => 0) 0] := by
  obtain ⟨⟨⟩, s, h, -⟩ := @construct_spec 2 4 4 true 4 (by norm_num) 100 10 50 le_rfl (by norm_num) (by norm_num)
  obtain ⟨-, hsettings, hshort, -⟩ := construct_targets h
  rw [targetManagedSize_all] at hshort
  have hafford : Affordable s fun p => if p = 0 then 3 else 1 := by
    have hparts : s.partitions = 2 := congrArg (fun c => c.1) hsettings
    have hlines : s.totalSize = 4 := congrArg (fun c => c.2.1) hsettings
    have hgranularity : s.partGranularity = 4 := congrArg (fun c => c.2.2.1) hsettings
    rw [Affordable, hshort, hparts, Finset.sum_range_succ, Finset.sum_range_one]
    simp [goalSize, hlines, hgranularity]
  have hdraw : FairDraw fun _ => 0 := fun _ hpos => hpos
  refine ⟨s, h, transients_conserve (by norm_num) h fun r _ => ⟨⟨hafford, fun _ => hdraw⟩, ?_⟩⟩
  cases r with
  | error e => exact fun _ _ => ⟨trivial, trivial⟩
  | ok s' => exact fun _ _ => ⟨hdraw, trivial⟩

theorem two_partitions_lt : 2 < 2 ^ 32 := by decide

/-- The partitioner of two partitions of three buckets, as it is created for this policy. -/
def twoBuckets : Lookahead.LookaheadPartitioner where
  numPartitions := 2
  buckets := 3
  minAlloc := 1
  allocPortion := roundDouble ((85 : ℕ) / 100)
  forbidden := none
  numPartitions_lt := two_partitions_lt
  buckets_lt := by decide
  buckets_pos := by decide
  portion_nonneg := roundDouble_nonneg (by positivity)
  product_lt := by
    have hportion := @roundDouble_le ((85 : ℕ) / 100) 1 (by norm_num) (by positivity) (by norm_num)
    have hproduct := @roundDouble_le (roundDouble ((85 : ℕ) / 100) * (3 : ℕ)) 3
      (by push_cast at hportion ⊢; linarith) (mul_nonneg (roundDouble_nonneg (by positivity)) (by norm_num))
      (by norm_num)
    exact hproduct.trans_lt (by norm_num)

theorem targetManagedSize_three : targetManagedSize 3 85 = 2 := by
  have hportion : roundDouble ((85 : ℕ) / 100) = (7656119366529843 : ℤ) * (2 : ℚ) ^ (-1 - 52 : ℤ) := by
    refine roundDouble_down ?_ ?_ ?_ ?_ <;> norm_num
  have hproduct : roundDouble ((3 : ℕ) * roundDouble ((85 : ℕ) / 100)) =
      (5742089524897382 : ℤ) * (2 : ℚ) ^ (1 - 52 : ℤ) := by
    rw [hportion]
    refine roundDouble_down ?_ ?_ ?_ ?_ <;> norm_num
  rw [targetManagedSize, hproduct, Nat.floor_eq_iff (by positivity)]
  norm_num

theorem twoBuckets_budget : twoBuckets.budget = 2 := by
  rw [← targetManagedSize_three, targetManagedSize, mul_comm]
  rfl

/-- How a run from the first targets ends. -/
def failureFrom (target : ℕ) (ops : List Op) : Option PartFailure :=
  (initialise target (allocated 2 3 3 3 true 2)).toOption.bind fun x =>
    (run step (.ok x.2) ops).bind fun r =>
      match r with
      | .ok _ => none
      | .error e => some e

theorem run_of_failure {target : ℕ} {ops : List Op} {op : Op} {e : PartFailure}
    (h : failureFrom target (ops ++ [op]) = some e) :
    ∃ s s₁, initialise target (allocated 2 3 3 3 true 2) = .ok ((), s) ∧
      run step (.ok s) ops = some (.ok s₁) ∧ step (.ok s₁) op = some (.error e) := by
  obtain ⟨⟨⟨⟩, s⟩, hinit, hrun⟩ := Option.bind_eq_some_iff.mp h
  obtain ⟨r, hrun, hend⟩ := Option.bind_eq_some_iff.mp hrun
  obtain ⟨r₁, hrun₁, hrest⟩ := run_append.mp hrun
  obtain ⟨r₂, hstep, hnil⟩ := run_cons.mp hrest
  cases hnil
  cases r₁ with
  | error e₁ => cases hstep
  | ok s₁ =>
    cases r with
    | ok s₂ => cases hend
    | error e₁ =>
      cases hend
      refine ⟨s, s₁, ?_, hrun₁, hstep⟩
      cases hi : initialise target (allocated 2 3 3 3 true 2) with
      | error e₁ =>
        rw [hi] at hinit
        cases hinit
      | ok y =>
        rw [hi] at hinit
        cases hinit
        rfl

/-- Both partitions are given both buckets, and after the first fill no partition is
above its long-term target. -/
theorem supply_runs_out : ∃ s t, construct 85 10 50 (allocated 2 3 3 3 true 2) = .ok ((), s) ∧
    twoBuckets.partition Lookahead.noMisses 0 (fun _ => 0) = .ok ((), t) ∧
    ¬ EveryStep step Smoothly (.ok s) [.setPartitionSizes t fun _ _ => 0,
      .rank 0 [0] fun _ => some .keep, .replaced 0, .update 0 0 (fun _ => 0) 0] := by
  have hfails : failureFrom 1 ([.setPartitionSizes (Function.update (Function.update (fun _ => 0) 0 2) 1 2)
      fun _ _ => 0, .rank 0 [0] fun _ => some .keep, .replaced 0] ++ [.update 0 0 (fun _ => 0) 0]) =
        some .noLinesLeft := by
    decide +kernel
  obtain ⟨s, s₁, hinit, hrun, hlast⟩ := run_of_failure hfails
  refine ⟨s, Function.update (Function.update (fun _ => 0) 0 2) 1 2, ?_, ?_, fun hevery => ?_⟩
  · rw [construct_eq (by decide) (by decide) (by decide)]
    dsimp only [allocated] at hinit ⊢
    rw [targetManagedSize_three]
    exact hinit
  · rw [Lookahead.LookaheadPartitioner.partition, twoBuckets_budget]
    rfl
  · have hsmooth := @EveryStep.at _ _ _ _ _ _ _ [_, _, _] [] _ hevery hrun hlast
    exact hsmooth.1 rfl

end Runs
end Zsim.VantageTransients
