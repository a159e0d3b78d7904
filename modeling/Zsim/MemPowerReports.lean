import Zsim.GuardedRuns
import Zsim.MemDataBus
import Zsim.MemPowerDown

/-!
# Power reports over runs of a detailed memory channel

Accesses and the estimates at the phase ends visit the ranks in turn. An estimate charges a rank without an
access, so the next visit starts from the same access again, unless the rank was in power-down before the
phase end that the visit names. In a run of careful calls no cycle is charged twice, and the assertions on the
counters hold.
-/

namespace Zsim.MemPowerReports

open WeakestPre Outcomes CheckedTables GuardedRuns DetailedMemParams MemAddressMap MemChannel MemPowerDown

/-- The parameters with those of the background power. -/
structure PowerParam extends MemParam where
  VDD1 : UInt32
  IDD2P : UInt32
  IDD2N : UInt32
  IDD3P : UInt32
  IDD3N : UInt32
  chipCountPerRank : UInt32

inductive PowerFailure where
  /-- A failure of the channel. -/
  | channel (e : MemFailure)
  /-- `assert(lastMemCycle < memCycle)`. -/
  | span
  /-- The assertion of `GetBackGroundEnergy` on the counters. -/
  | background
  deriving DecidableEq

/-- The channel, with the counters that `SaveBackgroundCycles` kept. The cycle up to which each rank has been
counted, that of its last access or of the last estimate, and the cycle of the last instantaneous estimate are
history that no function reads. -/
structure Meter where
  chnl : MemChannelBase
  prev : ℕ → Counters
  counted : ℕ → ℕ
  estimated : ℕ

def Meter.new (myId : UInt32) : Meter := ⟨.new myId, fun _ => (0, 0, 0), fun _ => 0, 0⟩

abbrev PowerAct (α : Type) := Prog Meter PowerFailure α

/-- Run an action on the channel. -/
def onChnl {α : Type} (m : Act α) : PowerAct α := fun s =>
  match m s.chnl with
  | .ok (a, d) => .ok (a, { s with chnl := d })
  | .error e => .error (.channel e)

theorem ends_onChnl {α : Type} {E : PowerFailure → Prop} (m : Act α) (Q : α → Meter → Prop) (s : Meter) :
    ends E (onChnl m) Q s ↔ ends (fun e => E (.channel e)) m (fun a d => Q a { s with chnl := d }) s.chnl := by
  unfold ends onChnl
  cases m s.chnl <;> rfl

section Model

variable (p : PowerParam)

/-- What `PeriodicUpdatePower` does on a rank. -/
def visit (phaseCycle lastPhaseCycle : ℕ) : RankAct Unit := do
  let refreshNum ← UpdateRefreshNum p.toMemParam phaseCycle
  UpdatePowerDownCycle p.toMemParam phaseCycle lastPhaseCycle refreshNum
  UpdateLastRefreshCycle p.toMemParam refreshNum

/-- `PeriodicUpdatePower`. -/
def PeriodicUpdatePower (phaseCycle lastPhaseCycle : ℕ) : Act Unit :=
  forUpTo (fun i _ => do
    let s ← observe fun s => s
    if (s.ranks i).lastAccessCycle < phaseCycle then onRank i (visit p phaseCycle lastPhaseCycle)
    else pure ()) p.rankCount.toNat ()

/-- The cycles of a rank that `GetBackGroundEnergy` reports on. -/
def backgroundCycles (r : MemRankBase) (prev : Counters) (tickCycle lastMemCycle : ℕ) (bInstant : Bool) : Counters :=
  if p.powerDownCycle = 0 then (0, 0, 0)
  else if bInstant = false then counters r
  else if r.lastAccessCycle < lastMemCycle then (tickCycle, 0, 0)
  else counters r - prev

/-- The power of a rank, averaged over the cycles of the report. -/
def backgroundPower (cycles : Counters) (tickCycle : ℕ) : ℕ :=
  let actvStandbyCycle := tickCycle - total cycles
  p.VDD1.toNat * (cycles.1 * p.IDD2P.toNat) / tickCycle +
    p.VDD1.toNat * (cycles.2.1 * p.IDD3P.toNat) / tickCycle +
    p.VDD1.toNat * (cycles.2.2 * p.IDD2N.toNat) / tickCycle +
    p.VDD1.toNat * (actvStandbyCycle * p.IDD3N.toNat) / tickCycle

/-- `SaveBackgroundCycles`. -/
def SaveBackgroundCycles (rank : ℕ) : PowerAct Unit :=
  change fun m => { m with prev := Function.update m.prev rank (counters (m.chnl.ranks rank)) }

/-- One rank of `GetBackGroundEnergy`. -/
def rankEnergy (tickCycle lastMemCycle : ℕ) (bInstant : Bool) (rank power : ℕ) : PowerAct ℕ := do
  let m ← observe fun m => m
  let cycles := backgroundCycles p (m.chnl.ranks rank) (m.prev rank) tickCycle lastMemCycle bInstant
  if p.powerDownCycle ≠ 0 ∧ bInstant = true then SaveBackgroundCycles rank else pure ()
  ensure (total cycles ≤ tickCycle) .background
  pure (power + backgroundPower p cycles tickCycle)

/-- `GetBackGroundEnergy`. -/
def GetBackGroundEnergy (memCycle lastMemCycle : ℕ) (bInstant : Bool) : PowerAct ℕ := do
  ensure (lastMemCycle < memCycle) .span
  let tickCycle := if bInstant then memCycle - lastMemCycle else memCycle
  let power ← forUpTo (rankEnergy p tickCycle lastMemCycle bInstant) p.rankCount.toNat 0
  pure (power * p.chipCountPerRank.toNat / 1000)

/-- The part of `EstimatePowers` on the background power of a channel: accumulated, and in the last phase. -/
def EstimatePowers (memCycle lastMemCycle : ℕ) (curAvgPowerReport : Bool) : PowerAct (ℕ × ℕ) := do
  ensure (lastMemCycle < memCycle) .span
  onChnl (PeriodicUpdatePower p memCycle lastMemCycle)
  change fun m => { m with counted := fun _ => memCycle }
  let accPower ← GetBackGroundEnergy p memCycle lastMemCycle false
  if curAvgPowerReport then do
    let curPower ← GetBackGroundEnergy p memCycle lastMemCycle true
    change fun m => { m with estimated := memCycle }
    pure (accPower, curPower)
  else pure (accPower, 0)

inductive Call where
  | simulate (x : Access)
  | estimate (memCycle lastMemCycle : ℕ) (curAvgPowerReport : Bool)

def Call.cycle : Call → ℕ
  | .simulate x => x.arrivalCycle
  | .estimate memCycle _ _ => memCycle

def Call.lastPhaseCycle : Call → ℕ
  | .simulate x => x.lastPhaseCycle
  | .estimate _ lastMemCycle _ => lastMemCycle

/-- An estimate spans some cycles. -/
def Call.Spans : Call → Prop
  | .simulate _ => True
  | .estimate memCycle lastMemCycle _ => lastMemCycle < memCycle

instance : DecidablePred Call.Spans
  | .simulate _ => .isTrue trivial
  | .estimate memCycle lastMemCycle _ => inferInstanceAs (Decidable (lastMemCycle < memCycle))

def perform : Call → PowerAct Unit
  | .simulate x => do
    let _ ← onChnl (LatencySimulate p.toMemParam x.lineAddr x.arrivalCycle x.lastPhaseCycle x.type)
    change fun m => { m with
      counted := Function.update m.counted (AddressMap p.toMemParam x.lineAddr).rank.toNat x.arrivalCycle }
  | .estimate memCycle lastMemCycle curAvgPowerReport => do
    let _ ← EstimatePowers p memCycle lastMemCycle curAvgPowerReport
    pure ()

/-- The channel after a call; none if an assertion failed. -/
def step (m : Meter) (c : Call) : Option Meter := ((perform p c m).map fun r => r.2).toOption

/-- The cycles and the phase ends of the calls do not decrease. -/
structure InOrder (calls : List Call) : Prop where
  cycles : (calls.map Call.cycle).Pairwise (· ≤ ·)
  phases : (calls.map Call.lastPhaseCycle).Pairwise (· ≤ ·)
  spans : ∀ c ∈ calls, c.Spans

/-- The condition on a call: the visits it makes are careful, and an instantaneous estimate reaches back to the
last one. -/
def CarefulCall (m : Meter) : Call → Prop
  | .simulate x =>
    let rank := (AddressMap p.toMemParam x.lineAddr).rank.toNat
    Careful p.toMemParam (m.chnl.ranks rank) (m.counted rank) x.arrivalCycle x.lastPhaseCycle
  | .estimate memCycle lastMemCycle curAvgPowerReport =>
    (∀ i < p.rankCount.toNat, (m.chnl.ranks i).lastAccessCycle < memCycle →
      Careful p.toMemParam (m.chnl.ranks i) (m.counted i) memCycle lastMemCycle) ∧
    (curAvgPowerReport = true → lastMemCycle ≤ m.estimated)

instance (m : Meter) : DecidablePred (CarefulCall p m)
  | .simulate _ => inferInstanceAs (Decidable (Careful _ _ _ _ _))
  | .estimate _ _ _ => inferInstanceAs (Decidable (_ ∧ _))

/-- Every failure but those of the assertions on the counters and on the spans of estimates. -/
def Tolerated : PowerFailure → Prop
  | .channel e => NotPowerDown e
  | .span => False
  | .background => False

/-- What the counters promise at a call: it fails none of their assertions, no subtraction wraps around, no
counter of a rank decreases, and they stay within the cycles elapsed. -/
structure CountsOnce (m : Meter) (c : Call) : Prop where
  asserted : ∀ e, perform p c m = .error e → Tolerated e
  unwrapped : ∀ i < p.rankCount.toNat, ∀ d ∈ subtractions p.toMemParam (m.chnl.ranks i) c.cycle c.lastPhaseCycle
    ((m.chnl.ranks i).refreshesDue p.toMemParam c.cycle), d.2 ≤ d.1
  grown : ∀ m', step p m c = some m' → ∀ i < p.rankCount.toNat,
    counters (m.chnl.ranks i) ≤ counters (m'.chnl.ranks i) ∧ total (counters (m'.chnl.ranks i)) ≤ c.cycle

end Model

section Visits

variable {p : MemParam} {s s₁ s₂ : MemChannelBase} {rank counted arrivalCycle lastPhaseCycle : ℕ}

/-- One rank is visited, and the counters of the others stay. -/
structure Visited (s s' : MemChannelBase) (rank counted arrivalCycle : ℕ) : Prop where
  grows : Grows (s.ranks rank) (s'.ranks rank) counted arrivalCycle
  others : ∀ i ≠ rank, counters (s'.ranks i) = counters (s.ranks i)

theorem Visited.keeps (h : Visited s s₁ rank counted arrivalCycle)
    (hsame : ∀ i, counters (s₂.ranks i) = counters (s₁.ranks i)) : Visited s s₂ rank counted arrivalCycle where
  grows := by
    constructor
    · rw [hsame]
      exact h.grows.counters
    · rw [hsame]
      exact h.grows.total
  others i hi := (hsame i).trans (h.others i hi)

/-- What leaves the counters of a rank alone leaves those of the channel alone. -/
theorem onRank_keeps {α : Type} {m : RankAct α} (hm : Keeps m) (h : Visited s s₁ rank counted arrivalCycle) :
    ends NotPowerDown (onRank rank m) (fun _ s₂ => Visited s s₂ rank counted arrivalCycle) s₁ := by
  refine ends_mono (onRank_ends (hm (s₁.ranks rank))) fun _ s₂ h₂ => h.keeps fun i => ?_
  by_cases hi : i = rank
  · rw [hi]
    exact h₂.1
  · rw [h₂.2 i hi]

/-- An access with a careful visit. -/
theorem schedule_visits (hpd : p.powerDownCycle ≠ 0) (loc : Location) (type : MemAccessType)
    (h : Careful p (s.ranks loc.rank.toNat) counted arrivalCycle lastPhaseCycle) (hcounted : counted ≤ arrivalCycle)
    (htotal : loc.rank.toNat < p.rankCount.toNat → total (counters (s.ranks loc.rank.toNat)) ≤ counted) :
    ends NotPowerDown (schedule p loc arrivalCycle lastPhaseCycle type)
      (fun _ s' => Visited s s' loc.rank.toNat counted arrivalCycle) s := by
  unfold schedule
  dsimp only
  simp only [ends_bind, ends_observe, ends_ensure, ends_pure]
  refine ⟨fun hrank => ⟨fun _ => ?_, fun _ h => by cases h⟩, fun _ h => by cases h⟩
  refine ends_mono (onRank_ends (updateRefreshNum_ends _)) fun due s₁ hends => ?_
  obtain ⟨⟨hdue, totalNum, hr₁⟩, ho₁⟩ := hends
  have hcareful : Careful p (s₁.ranks loc.rank.toNat) counted arrivalCycle lastPhaseCycle := by
    rw [hr₁]
    exact ⟨h.once, h.refresh⟩
  have hdue₁ : due = (s₁.ranks loc.rank.toNat).refreshesDue p arrivalCycle := by
    rw [hdue, hr₁]
    rfl
  have htotal₁ : total (counters (s₁.ranks loc.rank.toNat)) ≤ counted := by
    rw [hr₁]
    exact htotal hrank
  rw [hdue₁]
  refine ends_mono (onRank_ends (hcareful.updatePowerDownCycle hpd hcounted htotal₁)) fun _ s₂ hends => ?_
  obtain ⟨hgrows, ho₂⟩ := hends
  have h₂ : Visited s s₂ loc.rank.toNat counted arrivalCycle := by
    constructor
    · rw [hr₁] at hgrows
      exact ⟨hgrows.counters, hgrows.total⟩
    · intro i hi
      rw [ho₂ i hi, ho₁ i hi]
  refine ends_mono (onRank_keeps keeps_updateLastRefreshCycle h₂) fun _ s₃ h₃ => ?_
  refine ends_mono (onRank_keeps keeps_openRow h₃) fun opened s₄ h₄ => ?_
  refine ends_mono (onRank_keeps (keeps_rdwrStart opened) h₄) fun start s₅ h₅ => ?_
  refine ⟨fun _ => ⟨fun _ => ?_, fun _ h => by cases h⟩, fun _ h => by cases h⟩
  refine ends_mono (onRank_keeps (keeps_access _ _) h₅) fun _ s₆ h₆ => ?_
  refine ends_mono (onRank_keeps (keeps_closeRow _) h₆) fun _ s₇ h₇ => ?_
  refine ends_mono (updateDataBusCycle_ranks p (fun h => by cases h) _ _ s₇) fun _ s₈ h₈ => h₇.keeps fun i => ?_
  rw [h₈]

theorem latencySimulate_visits (hpd : p.powerDownCycle ≠ 0) {x : Access}
    (h : Careful p (s.ranks (AddressMap p x.lineAddr).rank.toNat) counted x.arrivalCycle x.lastPhaseCycle)
    (hcounted : counted ≤ x.arrivalCycle)
    (htotal : (AddressMap p x.lineAddr).rank.toNat < p.rankCount.toNat →
      total (counters (s.ranks (AddressMap p x.lineAddr).rank.toNat)) ≤ counted) :
    ends NotPowerDown (LatencySimulate p x.lineAddr x.arrivalCycle x.lastPhaseCycle x.type)
      (fun _ s' => Visited s s' (AddressMap p x.lineAddr).rank.toNat counted x.arrivalCycle) s := by
  simp only [LatencySimulate, locate, ends_bind, ends_observe, ends_ensure, ends_pure]
  constructor
  · exact fun _ => schedule_visits hpd _ _ h hcounted htotal
  · exact fun _ h => by cases h

end Visits

section Estimates

variable {p : PowerParam} {r r' : MemRankBase} {prev : Counters} {m : Meter} {s : MemChannelBase}
  {counted estimated arrivalCycle memCycle lastMemCycle : ℕ}

/-- What the counters of a rank keep to: the cycles that were counted, and the saved counters before them. -/
structure Booked (r : MemRankBase) (prev : Counters) (counted estimated : ℕ) : Prop where
  within : total (counters r) ≤ counted
  saved : prev ≤ counters r
  since : total (counters r) + estimated ≤ total prev + counted

theorem Booked.grows (h : Booked r prev counted estimated) (hgrows : Grows r r' counted arrivalCycle) :
    Booked r' prev arrivalCycle estimated := by
  have hwithin := h.within
  have hsince := h.since
  have htotal := hgrows.total
  constructor
  · omega
  · exact h.saved.trans hgrows.counters
  · omega

theorem visit_grows (h : Careful p.toMemParam r counted memCycle lastMemCycle) (hpd : p.powerDownCycle ≠ 0)
    (hcounted : counted ≤ memCycle) (htotal : total (counters r) ≤ counted) :
    ends NotPowerDown (visit p memCycle lastMemCycle) (fun _ r' => Grows r r' counted memCycle) r := by
  rw [visit, ends_bind]
  refine ends_mono (updateRefreshNum_ends r) fun due r₁ hends => ?_
  obtain ⟨hdue, totalNum, hr₁⟩ := hends
  have hcareful : Careful p.toMemParam r₁ counted memCycle lastMemCycle := by
    rw [hr₁]
    exact ⟨h.once, h.refresh⟩
  have hdue₁ : due = r₁.refreshesDue p.toMemParam memCycle := by
    rw [hdue, hr₁]
    rfl
  have htotal₁ : total (counters r₁) ≤ counted := by
    rw [hr₁]
    exact htotal
  rw [hdue₁, ends_bind]
  refine ends_mono (hcareful.updatePowerDownCycle hpd hcounted htotal₁) fun _ r₂ hgrows => ?_
  refine ends_mono (keeps_updateLastRefreshCycle r₂) fun _ r₃ h₃ => ?_
  rw [hr₁] at hgrows
  constructor
  · rw [h₃]
    exact hgrows.counters
  · rw [h₃]
    exact hgrows.total

/-- A periodic update visits the ranks without an access after its cycle. -/
theorem periodicUpdatePower_grows (hpd : p.powerDownCycle ≠ 0) {countedOf : ℕ → ℕ}
    (hcounted : ∀ i < p.rankCount.toNat, countedOf i ≤ memCycle)
    (htotal : ∀ i < p.rankCount.toNat, total (counters (s.ranks i)) ≤ countedOf i)
    (hcareful : ∀ i < p.rankCount.toNat, (s.ranks i).lastAccessCycle < memCycle →
      Careful p.toMemParam (s.ranks i) (countedOf i) memCycle lastMemCycle) :
    ends NotPowerDown (PeriodicUpdatePower p memCycle lastMemCycle)
      (fun _ s' => ∀ i < p.rankCount.toNat, Grows (s.ranks i) (s'.ranks i) (countedOf i) memCycle) s := by
  have hloop := @ends_forUpTo MemChannelBase MemFailure Unit NotPowerDown
    (fun i _ => do
      let s ← observe fun s => s
      if (s.ranks i).lastAccessCycle < memCycle then onRank i (visit p memCycle lastMemCycle)
      else pure ())
    (fun k _ s' => k ≤ p.rankCount.toNat → (∀ i < k, Grows (s.ranks i) (s'.ranks i) (countedOf i) memCycle) ∧
      ∀ i, k ≤ i → s'.ranks i = s.ranks i) p.rankCount.toNat () s
  refine ends_mono (hloop (fun k _ s₁ hk hinv => ?_) fun _ => ?_) fun _ s' h => (h le_rfl).1
  · obtain ⟨hbefore, hafter⟩ := hinv (Nat.le_of_lt hk)
    have hrank := hafter k le_rfl
    rw [ends_bind, ends_observe, ends_ite, hrank]
    split
    · next hidle =>
      have hvisit := visit_grows (hcareful k hk hidle) hpd (hcounted k hk) (htotal k hk)
      rw [← hrank] at hvisit
      refine ends_mono (onRank_ends hvisit) fun _ s₂ ⟨hgrows, hothers⟩ _ => ⟨fun i hi => ?_, fun i hi => ?_⟩
      · rcases Nat.lt_succ_iff_lt_or_eq.mp hi with hlt | heq
        · rw [hothers i (Nat.ne_of_lt hlt)]
          exact hbefore i hlt
        · rw [heq, ← hrank]
          exact hgrows
      · rw [hothers i (Nat.ne_of_gt hi), hafter i (Nat.le_of_succ_le hi)]
    · intro _
      constructor
      · intro i hi
        rcases Nat.lt_succ_iff_lt_or_eq.mp hi with hlt | heq
        · exact hbefore i hlt
        · rw [heq, hrank]
          exact ⟨le_rfl, Nat.add_le_add_left (hcounted k hk) _⟩
      · exact fun i hi => hafter i (Nat.le_of_succ_le hi)
  · exact ⟨fun i hi => absurd hi (Nat.not_lt_zero i), fun _ _ => rfl⟩

/-- What was saved and what was counted since add up. -/
theorem total_sub {c d : Counters} (h : d ≤ c) : total (c - d) + total d = total c := by
  obtain ⟨h₁, h₂, h₃⟩ := h
  have h₁ : d.1 ≤ c.1 := h₁
  have h₂ : d.2.1 ≤ c.2.1 := h₂
  have h₃ : d.2.2 ≤ c.2.2 := h₃
  simp only [total, Prod.fst_sub, Prod.snd_sub]
  omega

/-- The cycles of an instantaneous estimate fit into its span. -/
theorem Booked.instant_le (h : Booked r prev memCycle estimated) (hspan : lastMemCycle ≤ estimated) :
    total (backgroundCycles p r prev (memCycle - lastMemCycle) lastMemCycle true) ≤ memCycle - lastMemCycle := by
  have hsince := h.since
  have hsum := total_sub h.saved
  unfold backgroundCycles
  split
  · exact Nat.zero_le _
  rw [if_neg (by decide)]
  split
  · exact le_rfl
  · omega

/-- The counters of the first ranks are saved. -/
def saved (m : Meter) (k : ℕ) : Meter :=
  { m with prev := fun i => if i < k then counters (m.chnl.ranks i) else m.prev i }

theorem saved_succ (m : Meter) (k : ℕ) : { saved m k with
    prev := Function.update (saved m k).prev k (counters (m.chnl.ranks k)) } = saved m (k + 1) := by
  have hprev : Function.update (saved m k).prev k (counters (m.chnl.ranks k)) = (saved m (k + 1)).prev := by
    funext i
    unfold saved
    dsimp only
    rcases Nat.lt_trichotomy i k with hlt | heq | hgt
    · rw [Function.update_of_ne (Nat.ne_of_lt hlt), if_pos hlt, if_pos (Nat.lt_succ_of_lt hlt)]
    · rw [heq, Function.update_self, if_pos k.lt_succ_self]
    · rw [Function.update_of_ne (Nat.ne_of_gt hgt), if_neg (Nat.not_lt_of_gt hgt),
        if_neg (Nat.not_lt_of_ge hgt)]
  rw [hprev]
  rfl

/-- The accumulated estimate changes nothing. -/
theorem accumulated_ends (hlt : lastMemCycle < memCycle)
    (h : ∀ i < p.rankCount.toNat, total (counters (m.chnl.ranks i)) ≤ memCycle) :
    ends Tolerated (GetBackGroundEnergy p memCycle lastMemCycle false) (fun _ m' => m' = m) m := by
  simp only [GetBackGroundEnergy, ends_bind, ends_ensure]
  constructor
  · intro _
    refine ends_mono (@ends_forUpTo _ _ _ _ _ (fun _ _ m' => m' = m) _ _ _ (fun k power m₁ hk h₁ => ?_) rfl)
      fun _ _ h => h
    have hbackground : total (backgroundCycles p (m.chnl.ranks k) (m.prev k) memCycle lastMemCycle false) ≤ memCycle := by
      unfold backgroundCycles
      split
      · exact Nat.zero_le _
      · rw [if_pos rfl]
        exact h k hk
    simp only [rankEnergy, ends_bind, ends_observe, ends_ite, ends_ensure, ends_pure, h₁]
    rw [if_neg (by simp)]
    exact ⟨fun _ => trivial, fun hne => hne hbackground⟩
  · exact fun hne => hne hlt

/-- The instantaneous estimate saves the counters of all ranks. -/
theorem instantaneous_ends (hpd : p.powerDownCycle ≠ 0) (hlt : lastMemCycle < memCycle)
    (h : ∀ i < p.rankCount.toNat, Booked (m.chnl.ranks i) (m.prev i) memCycle m.estimated)
    (hspan : lastMemCycle ≤ m.estimated) :
    ends Tolerated (GetBackGroundEnergy p memCycle lastMemCycle true)
      (fun _ m' => m' = saved m p.rankCount.toNat) m := by
  simp only [GetBackGroundEnergy, ends_bind, ends_ensure]
  constructor
  · intro _
    refine ends_mono (@ends_forUpTo _ _ _ _ _ (fun k _ m' => m' = saved m k) _ _ _ (fun k power m₁ hk h₁ => ?_) rfl)
      fun _ _ h => h
    have hbackground := @Booked.instant_le p _ _ _ _ lastMemCycle (h k hk) hspan
    have hprev : (saved m k).prev k = m.prev k := if_neg (Nat.lt_irrefl k)
    simp only [rankEnergy, SaveBackgroundCycles, ends_bind, ends_observe, ends_ite, ends_ensure, ends_pure,
      ends_change, h₁]
    rw [if_pos ⟨hpd, trivial⟩, hprev]
    exact ⟨fun _ => saved_succ m k, fun hne => hne hbackground⟩
  · exact fun hne => hne hlt

end Estimates

section Runs

variable {p : PowerParam} {m m' : Meter} {c : Call} {cs : List Call}

/-- Every rank is booked, up to a cycle that the calls still to come do not precede. -/
structure Inv (p : PowerParam) (cs : List Call) (m : Meter) : Prop where
  booked : ∀ i < p.rankCount.toNat, Booked (m.chnl.ranks i) (m.prev i) (m.counted i) m.estimated
  ahead : ∀ c ∈ cs, ∀ i, m.counted i ≤ c.cycle
  ordered : InOrder cs

theorem inv_new (p : PowerParam) (myId : UInt32) (hordered : InOrder cs) : Inv p cs (.new myId) where
  booked _ _ := ⟨le_rfl, le_rfl, le_rfl⟩
  ahead _ _ _ := Nat.zero_le _
  ordered := hordered

theorem InOrder.tail (h : InOrder (c :: cs)) : InOrder cs where
  cycles := (List.pairwise_cons.mp h.cycles).2
  phases := (List.pairwise_cons.mp h.phases).2
  spans := (List.forall_mem_cons.mp h.spans).2

theorem InOrder.le (h : InOrder (c :: cs)) : ∀ d ∈ cs, c.cycle ≤ d.cycle :=
  fun _ hd => (List.pairwise_cons.mp h.cycles).1 _ (List.mem_map_of_mem hd)

/-- What a call ends in: the counters have grown within the cycles elapsed. -/
structure Done (p : PowerParam) (c : Call) (cs : List Call) (m m' : Meter) : Prop where
  inv : Inv p cs m'
  grown : ∀ i < p.rankCount.toNat, counters (m.chnl.ranks i) ≤ counters (m'.chnl.ranks i) ∧
    total (counters (m'.chnl.ranks i)) ≤ c.cycle

theorem simulate_ends (hpd : p.powerDownCycle ≠ 0) {x : Access} (hinv : Inv p (.simulate x :: cs) m)
    (hcareful : CarefulCall p m (.simulate x)) :
    ends Tolerated (perform p (.simulate x)) (fun _ m' => Done p (.simulate x) cs m m') m := by
  have hahead := hinv.ahead _ List.mem_cons_self
  have hvisits := @latencySimulate_visits p.toMemParam m.chnl _ hpd x hcareful (hahead _)
    fun hrank => (hinv.booked _ hrank).within
  unfold perform
  rw [ends_bind, ends_onChnl]
  refine ends_mono hvisits fun _ s' hvisited => ?_
  rw [ends_change]
  generalize (AddressMap p.toMemParam x.lineAddr).rank.toNat = rank at hvisited ⊢
  have hbooked : ∀ i < p.rankCount.toNat, Booked (s'.ranks i) (m.prev i)
      (Function.update m.counted rank x.arrivalCycle i) m.estimated ∧
      counters (m.chnl.ranks i) ≤ counters (s'.ranks i) := by
    intro i hi
    by_cases hrank : i = rank
    · rw [hrank, Function.update_self]
      exact ⟨(hinv.booked rank (hrank ▸ hi)).grows hvisited.grows, hvisited.grows.counters⟩
    · have hother := hvisited.others i hrank
      have hbook := hinv.booked i hi
      rw [Function.update_of_ne hrank]
      constructor
      · exact ⟨hother ▸ hbook.within, hother ▸ hbook.saved, hother ▸ hbook.since⟩
      · exact le_of_eq hother.symm
  have hcounted : ∀ i, Function.update m.counted rank x.arrivalCycle i ≤ x.arrivalCycle := by
    intro i
    by_cases hrank : i = rank
    · rw [hrank, Function.update_self]
    · rw [Function.update_of_ne hrank]
      exact hahead i
  constructor
  · refine ⟨fun i hi => (hbooked i hi).1, fun d hd i => ?_, hinv.ordered.tail⟩
    exact (hcounted i).trans (hinv.ordered.le d hd)
  · exact fun i hi => ⟨(hbooked i hi).2, (hbooked i hi).1.within.trans (hcounted i)⟩

theorem estimate_ends (hpd : p.powerDownCycle ≠ 0) {memCycle lastMemCycle : ℕ} {cur : Bool}
    (hinv : Inv p (.estimate memCycle lastMemCycle cur :: cs) m)
    (hcareful : CarefulCall p m (.estimate memCycle lastMemCycle cur)) :
    ends Tolerated (perform p (.estimate memCycle lastMemCycle cur))
      (fun _ m' => Done p (.estimate memCycle lastMemCycle cur) cs m m') m := by
  have hahead := hinv.ahead _ List.mem_cons_self
  have hspan : lastMemCycle < memCycle := hinv.ordered.spans _ List.mem_cons_self
  have hlater := hinv.ordered.le
  have hperiodic := @periodicUpdatePower_grows p m.chnl memCycle lastMemCycle hpd m.counted (fun i _ => hahead i)
    (fun i hi => (hinv.booked i hi).within) hcareful.1
  simp only [perform, EstimatePowers, ends_bind, ends_ensure, ends_onChnl, ends_change, ends_pure]
  refine ⟨fun _ => ?_, fun hne => hne hspan⟩
  refine ends_mono hperiodic fun _ s' hgrows => ?_
  have hbooked : ∀ i < p.rankCount.toNat, Booked (s'.ranks i) (m.prev i) memCycle m.estimated :=
    fun i hi => (hinv.booked i hi).grows (hgrows i hi)
  have hgrown : ∀ i < p.rankCount.toNat, counters (m.chnl.ranks i) ≤ counters (s'.ranks i) ∧
      total (counters (s'.ranks i)) ≤ memCycle := fun i hi => ⟨(hgrows i hi).counters, (hbooked i hi).within⟩
  refine ends_mono (accumulated_ends hspan fun i hi => (hgrown i hi).2) fun accPower m₂ h₂ => ?_
  rw [h₂, ends_ite]
  split
  · next hcur =>
    simp only [ends_bind, ends_change, ends_pure]
    refine ends_mono (instantaneous_ends hpd hspan hbooked (hcareful.2 hcur)) fun curPower m₃ h₃ => ?_
    rw [h₃]
    refine ⟨⟨fun i hi => ?_, fun d hd _ => hlater d hd, hinv.ordered.tail⟩, hgrown⟩
    have hprev : (saved { m with chnl := s', counted := fun _ => memCycle } p.rankCount.toNat).prev i =
        counters (s'.ranks i) := if_pos hi
    dsimp only
    rw [hprev]
    exact ⟨(hgrown i hi).2, le_rfl, le_rfl⟩
  · exact ⟨⟨hbooked, fun d hd _ => hlater d hd, hinv.ordered.tail⟩, hgrown⟩

/-- A careful call keeps the books and the promise. -/
theorem Inv.call (hpd : p.powerDownCycle ≠ 0) (hinv : Inv p (c :: cs) m) (hcareful : CarefulCall p m c) :
    CountsOnce p m c ∧ ∀ m', step p m c = some m' → Inv p cs m' := by
  have hends : ends Tolerated (perform p c) (fun _ m' => Done p c cs m m') m := by
    cases c with
    | simulate x => exact simulate_ends hpd hinv hcareful
    | estimate memCycle lastMemCycle cur => exact estimate_ends hpd hinv hcareful
  have hdone : ∀ m', step p m c = some m' → Done p c cs m m' := fun _ hstep => of_performed hends hstep
  refine ⟨⟨fun e he => ?_, fun i _ => subtractions_le, fun m' h' => (hdone m' h').grown⟩,
    fun m' h' => (hdone m' h').inv⟩
  unfold ends at hends
  rw [he] at hends
  exact hends

/-- In every run of careful calls no cycle is charged twice: no assertion on the counters fails, they never
decrease and stay within the cycles elapsed, and no subtraction wraps around. -/
theorem counts_once (hpd : p.powerDownCycle ≠ 0) (myId : UInt32) {calls : List Call} (hordered : InOrder calls)
    (hcareful : EveryAttempt (step p) (CarefulCall p) (.new myId) calls) :
    EveryAttempt (step p) (CountsOnce p) (.new myId) calls :=
  hcareful.everyAttempt (fun _ _ _ hinv hc => hinv.call hpd hc) (inv_new p myId hordered)

/-- Two ranks of eight banks, with currents of their chips. -/
def twoRanks : PowerParam := { MemDataBus.twoRanks with
  VDD1 := 15
  IDD2P := 12
  IDD2N := 40
  IDD3P := 30
  IDD3N := 55
  chipCountPerRank := 8 }

/-- Reads, a write after a refresh, and estimates long after the accesses before them. -/
def reports : List Call :=
  [.simulate ⟨0, 100, 0, .READ⟩, .estimate 1000 0 true, .simulate ⟨0, 1200, 1000, .READ⟩,
    .simulate ⟨0, 1210, 1000, .READ⟩, .estimate 2000 1000 true, .estimate 6000 2000 true,
    .simulate ⟨0, 6100, 6000, .WRITE⟩]

theorem counts_once_reports : EveryAttempt (step twoRanks) (CountsOnce twoRanks) (.new 0) reports := by
  have hordered : InOrder reports := by
    constructor <;> decide
  exact counts_once (by decide) 0 hordered (by decide +kernel)

/-- A run in which the assertion of `UpdatePowerDownCycle` fails. -/
theorem not_everyAttempt (hfails : (run (step p) m cs).map (fun m₁ => (perform p c m₁).map fun _ => ()) =
    some (.error (.channel .powerDown))) : ¬EveryAttempt (step p) (CountsOnce p) m (cs ++ [c]) := by
  intro h
  obtain ⟨m₁, hrun, herror⟩ := Option.map_eq_some_iff.mp hfails
  have hcounts := (h.at hrun).asserted
  cases hr : perform p c m₁ with
  | ok x =>
    rw [hr] at herror
    cases herror
  | error e =>
    rw [hr] at herror
    cases herror
    exact hcounts _ hr rfl

/-- An estimate while the rank waits for its power-down, and an access in the cycle of a phase end. -/
def revisits : List (List Call × Call) :=
  [([.simulate ⟨0, 100, 0, .READ⟩, .estimate 170 0 true], .simulate ⟨0, 175, 170, .READ⟩),
    ([.estimate 100 0 true], .simulate ⟨0, 100, 100, .READ⟩)]

/-- The next visit charges again what the estimate has charged. -/
theorem charged_twice : twoRanks.powerDownCycle ≠ 0 ∧ ∀ x ∈ revisits, InOrder (x.1 ++ [x.2]) ∧
    ¬EveryAttempt (step twoRanks) (CountsOnce twoRanks) (.new 0) (x.1 ++ [x.2]) := by
  unfold revisits
  rw [List.forall_mem_cons, List.forall_mem_singleton]
  refine ⟨by decide, ⟨?_, not_everyAttempt ?_⟩, ⟨?_, not_everyAttempt ?_⟩⟩
  · constructor <;> decide
  · decide +kernel
  · constructor <;> decide
  · decide +kernel

end Runs

end Zsim.MemPowerReports
