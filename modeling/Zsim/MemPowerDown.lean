import Mathlib.Algebra.Group.Prod
import Mathlib.Algebra.Order.Group.Unbundled.Basic
import Zsim.MemChannel

/-!
# The power-down counters of a rank

Each visit of a rank charges its counters with the cycles since the last access, or since the last phase end
when the rank was in power-down before it. A rank remembers its last access but not its last visit. What a
visit charges fits into the cycles since the last visit when it starts no earlier.
-/

namespace Zsim.MemPowerDown

open WeakestPre Outcomes DetailedMemParams MemAddressMap MemChannel

/-- Idle power-down, active power-down and idle standby. -/
abbrev Counters := ℕ × ℕ × ℕ

def total (c : Counters) : ℕ := c.1 + c.2.1 + c.2.2

def counters (r : MemRankBase) : Counters := (r.idlePowerDownCycle, r.actvPowerDownCycle, r.idleStandbyCycle)

/-- The rank after a charge. -/
def charged (r : MemRankBase) (d : Counters) : MemRankBase :=
  { r with
    idlePowerDownCycle := r.idlePowerDownCycle + d.1
    actvPowerDownCycle := r.actvPowerDownCycle + d.2.1
    idleStandbyCycle := r.idleStandbyCycle + d.2.2 }

section Charge

variable (p : MemParam) (r : MemRankBase)

/-- The cycle after which the rank is in power-down without a further access. -/
def idleAt : ℕ := r.lastAccessCycle + p.powerDownCycle.toNat

/-- `lastPowerDownCycle` as `UpdatePowerDownCycle` leaves it. -/
def lastPowerDownCycle (lastPhaseCycle : ℕ) : ℕ := if idleAt p r < lastPhaseCycle then lastPhaseCycle else idleAt p r

/-- `powerDownCycle` as `UpdatePowerDownCycle` leaves it. -/
def powerDownCycle (lastPhaseCycle : ℕ) : ℕ := if idleAt p r < lastPhaseCycle then 0 else p.powerDownCycle.toNat

def refreshEndCycle1 : ℕ := r.lastRefreshCycle + p.tREFI.toNat

def refreshEndCycle2 (refreshNum : ℕ) : ℕ := r.lastRefreshCycle + p.tREFI.toNat * refreshNum % 2 ^ 32

/-- What `UpdatePowerDownCycle` adds to the counters. -/
def charge (arrivalCycle lastPhaseCycle refreshNum : ℕ) : Counters :=
  if r.lastAccessCycle = 0 ∧ lastPhaseCycle = 0 then (arrivalCycle, 0, 0)
  else if arrivalCycle ≤ r.lastAccessCycle then (0, 0, 0)
  else if arrivalCycle ≤ lastPowerDownCycle p r lastPhaseCycle then
    if p.openPolicy then
      (0, 0, (p.bankCount.toNat - r.GetActiveBankCount p) * (arrivalCycle - r.lastAccessCycle) / p.bankCount.toNat)
    else (0, 0, arrivalCycle - r.lastAccessCycle)
  else if p.openPolicy then
    r.openPowerDown p arrivalCycle (lastPowerDownCycle p r lastPhaseCycle) (powerDownCycle p r lastPhaseCycle) refreshNum
  else (arrivalCycle - lastPowerDownCycle p r lastPhaseCycle, 0, powerDownCycle p r lastPhaseCycle)

/-- The subtractions of unsigned numbers that `UpdatePowerDownCycle` makes: from what, and what. -/
def subtractions (arrivalCycle lastPhaseCycle refreshNum : ℕ) : List (ℕ × ℕ) :=
  (p.bankCount.toNat, r.GetActiveBankCount p) ::
    if r.lastAccessCycle = 0 ∧ lastPhaseCycle = 0 ∨ arrivalCycle ≤ r.lastAccessCycle then []
    else if arrivalCycle ≤ lastPowerDownCycle p r lastPhaseCycle then [(arrivalCycle, r.lastAccessCycle)]
    else (arrivalCycle, lastPowerDownCycle p r lastPhaseCycle) ::
      if p.openPolicy ∧ refreshNum ≠ 0 then
        (arrivalCycle, refreshEndCycle2 p r refreshNum) :: (refreshNum, 1) ::
          if lastPowerDownCycle p r lastPhaseCycle < refreshEndCycle1 p r then
            [(refreshEndCycle1 p r, lastPowerDownCycle p r lastPhaseCycle)]
          else []
      else []

/-- The condition on a visit of a rank that has been counted up to some cycle. What was counted after the last
access must lie before the last phase end, with the rank in power-down by then, and the visit after it. With the
open policy, refreshes that are due at a visit after the power-down must fit 32 bits, and the first of them must
end after the power-down, or at least after what was counted, with an open bank. -/
structure Careful (counted arrivalCycle lastPhaseCycle : ℕ) : Prop where
  once : r.lastAccessCycle < counted →
    idleAt p r < lastPhaseCycle ∧ counted ≤ lastPhaseCycle ∧ lastPhaseCycle < arrivalCycle
  refresh : p.openPolicy = true → max (idleAt p r) lastPhaseCycle < arrivalCycle →
    0 < r.refreshesDue p arrivalCycle →
      p.tREFI.toNat * r.refreshesDue p arrivalCycle < 2 ^ 32 ∧
        (max (idleAt p r) lastPhaseCycle ≤ refreshEndCycle1 p r ∨
          counted ≤ refreshEndCycle1 p r ∧ (idleAt p r < lastPhaseCycle ∨ 0 < r.GetActiveBankCount p))

instance (counted arrivalCycle lastPhaseCycle : ℕ) : Decidable (Careful p r counted arrivalCycle lastPhaseCycle) :=
  decidable_of_iff (_ ∧ _) ⟨fun h => ⟨h.1, h.2⟩, fun h => ⟨h.once, h.refresh⟩⟩

end Charge

section Bounds

variable {p : MemParam} {r : MemRankBase} {counted arrivalCycle lastPhaseCycle refreshNum : ℕ}

theorem activeBankCount_le (p : MemParam) (r : MemRankBase) : r.GetActiveBankCount p ≤ p.bankCount.toNat := by
  have hle := @List.countP_le_length _ (fun i => (r.banks i).isOpen) (List.range p.bankCount.toNat)
  rwa [List.length_range] at hle

theorem lastPowerDownCycle_eq (p : MemParam) (r : MemRankBase) (lastPhaseCycle : ℕ) :
    lastPowerDownCycle p r lastPhaseCycle = max (idleAt p r) lastPhaseCycle := by
  unfold lastPowerDownCycle
  split <;> omega

/-- The refreshes that are due ended before the visit. -/
theorem refreshEnd_le (hdue : 0 < r.refreshesDue p arrivalCycle) :
    refreshEndCycle2 p r (r.refreshesDue p arrivalCycle) ≤ arrivalCycle := by
  unfold refreshEndCycle2
  unfold MemRankBase.refreshesDue at hdue ⊢
  by_cases hrefresh : r.lastRefreshCycle ≤ arrivalCycle
  · rw [if_pos hrefresh]
    have hmod := Nat.mod_le ((arrivalCycle - r.lastRefreshCycle) / p.tREFI.toNat) (2 ^ 32)
    have hmul := Nat.mul_le_mul_left p.tREFI.toNat hmod
    have hdiv := Nat.mul_div_le (arrivalCycle - r.lastRefreshCycle) p.tREFI.toNat
    have hwrap := Nat.mod_le
      (p.tREFI.toNat * ((arrivalCycle - r.lastRefreshCycle) / p.tREFI.toNat % 2 ^ 32)) (2 ^ 32)
    omega
  · rw [if_neg hrefresh] at hdue
    exact absurd hdue (Nat.lt_irrefl 0)

/-- No subtraction wraps around. -/
theorem subtractions_le : ∀ d ∈ subtractions p r arrivalCycle lastPhaseCycle (r.refreshesDue p arrivalCycle),
    d.2 ≤ d.1 := by
  have hactive := activeBankCount_le p r
  unfold subtractions
  rw [List.forall_mem_cons]
  constructor
  · exact hactive
  split
  · exact fun d hd => absurd hd List.not_mem_nil
  · next haccess =>
    split
    · rw [List.forall_mem_singleton]
      change r.lastAccessCycle ≤ arrivalCycle
      omega
    · next hidle =>
      rw [List.forall_mem_cons]
      constructor
      · change lastPowerDownCycle p r lastPhaseCycle ≤ arrivalCycle
        omega
      split
      · next hrefresh =>
        have hdue := Nat.pos_of_ne_zero hrefresh.2
        rw [List.forall_mem_cons, List.forall_mem_cons]
        refine ⟨refreshEnd_le hdue, hdue, ?_⟩
        split
        · next hend =>
          rw [List.forall_mem_singleton]
          exact Nat.le_of_lt hend
        · exact fun d hd => absurd hd List.not_mem_nil
      · exact fun d hd => absurd hd List.not_mem_nil

/-- Shares that are rounded down do not exceed the whole. -/
theorem shares_le {b u v w m : ℕ} (h : 0 < b → u + v + w ≤ b * m) : u / b + v / b + w / b ≤ m := by
  rcases Nat.eq_zero_or_pos b with hzero | hpos
  · rw [hzero, Nat.div_zero, Nat.div_zero, Nat.div_zero]
    exact Nat.zero_le m
  · calc u / b + v / b + w / b ≤ (u + v) / b + w / b := Nat.add_le_add_right Nat.div_add_div_le_add_div _
      _ ≤ (u + v + w) / b := Nat.div_add_div_le_add_div
      _ ≤ m := Nat.div_le_of_le_mul (h hpos)

/-- The wait for the power-down starts after what was counted. -/
theorem Careful.starts (h : Careful p r counted arrivalCycle lastPhaseCycle) :
    counted + powerDownCycle p r lastPhaseCycle ≤ lastPowerDownCycle p r lastPhaseCycle := by
  have honce := h.once
  unfold powerDownCycle lastPowerDownCycle
  have hidle : idleAt p r = r.lastAccessCycle + p.powerDownCycle.toNat := rfl
  split <;> omega

/-- Without a refresh, the idle and the active banks share the power-down and the idle ones the wait. -/
theorem openPowerDown_of_none {last wait : ℕ} :
    total (r.openPowerDown p arrivalCycle last wait 0) ≤ arrivalCycle - last + wait := by
  have hsplit : p.bankCount.toNat - r.GetActiveBankCount p + r.GetActiveBankCount p = p.bankCount.toNat :=
    Nat.sub_add_cancel (activeBankCount_le p r)
  unfold MemRankBase.openPowerDown total
  rw [if_pos rfl]
  refine shares_le fun _ => ?_
  have hwait := Nat.mod_le ((p.bankCount.toNat - r.GetActiveBankCount p) * wait) (2 ^ 32)
  have hidle := Nat.mul_le_mul_right wait (Nat.sub_le p.bankCount.toNat (r.GetActiveBankCount p))
  calc (p.bankCount.toNat - r.GetActiveBankCount p) * (arrivalCycle - last) +
        r.GetActiveBankCount p * (arrivalCycle - last) +
        (p.bankCount.toNat - r.GetActiveBankCount p) * wait % 2 ^ 32
      ≤ p.bankCount.toNat * (arrivalCycle - last) + p.bankCount.toNat * wait := by
        rw [← Nat.add_mul, hsplit]
        exact Nat.add_le_add_left (hwait.trans hidle) _
    _ = p.bankCount.toNat * (arrivalCycle - last + wait) := (Nat.mul_add _ _ _).symm

/-- What the refreshes take after the first one and the cycles after the last one add up. -/
theorem after_first_refresh (hpos : 0 < refreshNum) (hfits : p.tREFI.toNat * refreshNum < 2 ^ 32)
    (hend : refreshEndCycle2 p r refreshNum ≤ arrivalCycle) :
    (refreshNum - 1) * p.tREFI.toNat % 2 ^ 32 + (arrivalCycle - refreshEndCycle2 p r refreshNum) =
      arrivalCycle - refreshEndCycle1 p r ∧ refreshEndCycle1 p r ≤ arrivalCycle := by
  have hprev : p.tREFI.toNat * refreshNum = (refreshNum - 1) * p.tREFI.toNat + p.tREFI.toNat := by
    rw [← Nat.succ_mul, Nat.succ_eq_add_one, Nat.sub_add_cancel hpos, Nat.mul_comm]
  unfold refreshEndCycle2 at hend ⊢
  unfold refreshEndCycle1
  rw [Nat.mod_eq_of_lt hfits] at hend ⊢
  rw [Nat.mod_eq_of_lt (by omega)]
  omega

/-- With refreshes, the cycles after the first one count once for all banks. -/
theorem openPowerDown_of_refresh {last wait : ℕ} (hpos : 0 < refreshNum)
    (hfits : p.tREFI.toNat * refreshNum < 2 ^ 32) (hend : refreshEndCycle2 p r refreshNum ≤ arrivalCycle)
    (hlast : last < arrivalCycle) (hstart : counted + wait ≤ last)
    (hfirst : last ≤ refreshEndCycle1 p r ∨
      counted ≤ refreshEndCycle1 p r ∧ (wait = 0 ∨ 0 < r.GetActiveBankCount p)) :
    total (r.openPowerDown p arrivalCycle last wait refreshNum) ≤ arrivalCycle - counted := by
  obtain ⟨hafter, hfirst_le⟩ := after_first_refresh hpos hfits hend
  have hactive := activeBankCount_le p r
  have hwait := Nat.mod_le ((p.bankCount.toNat - r.GetActiveBankCount p) * wait) (2 ^ 32)
  unfold MemRankBase.openPowerDown total
  rw [if_neg (Nat.ne_of_gt hpos)]
  refine shares_le fun hbanks => ?_
  change (_ * (refreshEndCycle1 p r - last) + (_ + (arrivalCycle - refreshEndCycle2 p r refreshNum))) +
    _ * (refreshEndCycle1 p r - last) + _ ≤ _
  rw [hafter]
  generalize p.bankCount.toNat = bankCount at *
  generalize r.GetActiveBankCount p = active at *
  generalize refreshEndCycle1 p r = first at *
  obtain ⟨idle, rfl⟩ := Nat.exists_eq_add_of_le hactive
  rw [Nat.add_sub_cancel_left] at hwait ⊢
  have hshare : idle * wait % 2 ^ 32 ≤ (active + idle) * wait :=
    hwait.trans (Nat.mul_le_mul_right wait (Nat.le_add_left idle active))
  by_cases hlate : last ≤ first
  · -- all banks are charged up to the refresh
    calc idle * (first - last) + (arrivalCycle - first) + active * (first - last) + idle * wait % 2 ^ 32
        ≤ (active + idle) * (first - last) + (active + idle) * (arrivalCycle - first) + (active + idle) * wait := by
          have hall := Nat.le_mul_of_pos_left (arrivalCycle - first) hbanks
          rw [Nat.add_mul active idle (first - last)]
          omega
      _ = (active + idle) * (first - last + (arrivalCycle - first) + wait) := by
          rw [Nat.mul_add, Nat.mul_add]
      _ ≤ (active + idle) * (arrivalCycle - counted) := Nat.mul_le_mul_left _ (by omega)
  · -- one bank's share is charged from the refresh on, the other banks wait
    obtain ⟨hcounted, hopen⟩ := hfirst.resolve_left hlate
    have hnone : first - last = 0 := Nat.sub_eq_zero_of_le (Nat.le_of_not_le hlate)
    rw [hnone, Nat.mul_zero, Nat.mul_zero]
    have hbound : idle * wait + (arrivalCycle - first) ≤ (active + idle) * (arrivalCycle - counted) := by
      rcases hopen with hzero | hopen
      · rw [hzero, Nat.mul_zero, Nat.zero_add]
        exact (Nat.sub_le_sub_left hcounted _).trans (Nat.le_mul_of_pos_left _ hbanks)
      · calc idle * wait + (arrivalCycle - first)
            ≤ idle * (arrivalCycle - counted) + active * (arrivalCycle - counted) := by
              have hopenShare := Nat.le_mul_of_pos_left (arrivalCycle - counted) hopen
              have hwaitShare := @Nat.mul_le_mul_left wait (arrivalCycle - counted) idle (by omega)
              omega
          _ = (active + idle) * (arrivalCycle - counted) := by
              rw [Nat.add_mul, Nat.add_comm]
    omega

/-- A careful visit charges no more than the cycles since the last one. -/
theorem Careful.charge_le (h : Careful p r counted arrivalCycle lastPhaseCycle) (hcounted : counted ≤ arrivalCycle) :
    total (charge p r arrivalCycle lastPhaseCycle (r.refreshesDue p arrivalCycle)) + counted ≤ arrivalCycle := by
  have hstarts := h.starts
  have hrefresh := h.refresh
  rw [← lastPowerDownCycle_eq] at hrefresh
  have honce : lastPowerDownCycle p r lastPhaseCycle < arrivalCycle ∨ counted ≤ r.lastAccessCycle := by
    have honce := h.once
    unfold lastPowerDownCycle
    split <;> omega
  unfold charge
  split
  · next hfirst =>
    have hzero : ¬r.lastAccessCycle < counted := by
      intro hlt
      have := h.once hlt
      omega
    simp only [total]
    omega
  split
  · simp only [total]
    omega
  split
  · next haccess hidle =>
    have hfresh := honce.resolve_left (Nat.not_lt.mpr hidle)
    split
    · have hshare : (p.bankCount.toNat - r.GetActiveBankCount p) * (arrivalCycle - r.lastAccessCycle) /
          p.bankCount.toNat ≤ arrivalCycle - r.lastAccessCycle :=
        Nat.div_le_of_le_mul (Nat.mul_le_mul_right _ (Nat.sub_le _ _))
      simp only [total]
      omega
    · simp only [total]
      omega
  · next haccess hidle =>
    have hlast := Nat.lt_of_not_le hidle
    split
    · next hopen =>
      rcases Nat.eq_zero_or_pos (r.refreshesDue p arrivalCycle) with hnone | hdue
      · rw [hnone]
        have := @openPowerDown_of_none p r arrivalCycle (lastPowerDownCycle p r lastPhaseCycle)
          (powerDownCycle p r lastPhaseCycle)
        omega
      · obtain ⟨hfits, hfirst⟩ := hrefresh hopen hlast hdue
        have hnowait : idleAt p r < lastPhaseCycle → powerDownCycle p r lastPhaseCycle = 0 := fun hlt => if_pos hlt
        have := openPowerDown_of_refresh hdue hfits (refreshEnd_le hdue) hlast hstarts
          (hfirst.imp_right (And.imp_right (Or.imp_left hnowait)))
        omega
    · simp only [total]
      omega

end Bounds

section Rank

variable {p : MemParam} {r : MemRankBase} {counted arrivalCycle lastPhaseCycle refreshNum row bank : ℕ}
  {rowHit : Bool} {type : MemAccessType}

/-- Every failure but those of the assertions of `UpdatePowerDownCycle`. -/
def NotPowerDown (e : MemFailure) : Prop := e ≠ .powerDown

/-- No counter of the rank decreases, and together they grow by the cycles since the last visit at most. -/
structure Grows (r r' : MemRankBase) (counted arrivalCycle : ℕ) : Prop where
  counters : counters r ≤ counters r'
  total : total (MemPowerDown.counters r') + counted ≤ total (MemPowerDown.counters r) + arrivalCycle

theorem updateRefreshNum_ends (r : MemRankBase) : ends NotPowerDown (UpdateRefreshNum p arrivalCycle)
    (fun n r' => n = r.refreshesDue p arrivalCycle ∧ ∃ totalNum, r' = { r with refreshNum := totalNum }) r := by
  simp only [UpdateRefreshNum, ends_bind, ends_observe, ends_ensure, ends_change, ends_pure]
  constructor
  · exact fun _ => ⟨trivial, _, rfl⟩
  · exact fun _ hne => by cases hne

/-- A charge that fits below the cycle of the visit is booked. -/
theorem updatePowerDownCycle_charges {E : MemFailure → Prop} (hpd : p.powerDownCycle ≠ 0)
    (hend : 0 < refreshNum → refreshEndCycle2 p r refreshNum ≤ arrivalCycle)
    (hfits : total (counters r) + total (charge p r arrivalCycle lastPhaseCycle refreshNum) ≤ arrivalCycle) :
    ends E (UpdatePowerDownCycle p arrivalCycle lastPhaseCycle refreshNum)
      (fun _ r' => r' = charged r (charge p r arrivalCycle lastPhaseCycle refreshNum)) r := by
  unfold UpdatePowerDownCycle
  rw [ends_ite, if_pos hpd]
  simp only [ends_bind, ends_observe, ends_ensure, ends_change]
  constructor
  · intro _
    constructor
    · intro _
      refine ⟨fun _ => ⟨fun _ => ⟨fun _ => rfl, ?_⟩, ?_⟩, ?_⟩
      · exact fun hne => absurd (Nat.le_add_right _ _) hne
      · exact fun hne => absurd (Nat.le_add_right _ _) hne
      · exact fun hne => absurd (Nat.le_add_right _ _) hne
    · intro hne
      refine absurd ?_ hne
      have hsum : total (counters (charged r (charge p r arrivalCycle lastPhaseCycle refreshNum))) ≤ arrivalCycle := by
        simp only [total, counters, charged] at hfits ⊢
        omega
      exact hsum
  · intro hne
    exact absurd (fun hguard => hend (Nat.pos_of_ne_zero hguard.2.2.2)) hne

/-- A careful visit of a rank whose counters are within what was counted. -/
theorem Careful.updatePowerDownCycle (h : Careful p r counted arrivalCycle lastPhaseCycle)
    (hpd : p.powerDownCycle ≠ 0) (hcounted : counted ≤ arrivalCycle) (htotal : total (counters r) ≤ counted) :
    ends NotPowerDown (UpdatePowerDownCycle p arrivalCycle lastPhaseCycle (r.refreshesDue p arrivalCycle))
      (fun _ r' => Grows r r' counted arrivalCycle) r := by
  have hcharge := h.charge_le hcounted
  refine ends_mono (updatePowerDownCycle_charges hpd refreshEnd_le (by omega)) fun _ r' hr' => ?_
  rw [hr']
  generalize charge p r arrivalCycle lastPhaseCycle (r.refreshesDue p arrivalCycle) = d at *
  constructor
  · exact ⟨Nat.le_add_right _ _, Nat.le_add_right _ _, Nat.le_add_right _ _⟩
  · simp only [total, counters, charged] at hcharge ⊢
    omega

/-- What leaves the power-down counters alone, and fails none of their assertions. -/
def Keeps {α : Type} (m : RankAct α) : Prop := ∀ r, ends NotPowerDown m (fun _ r' => counters r' = counters r) r

theorem Keeps.bind {α β : Type} {m : RankAct α} {f : α → RankAct β} (hm : Keeps m) (hf : ∀ a, Keeps (f a)) :
    Keeps (m >>= f) := by
  intro r
  rw [ends_bind]
  refine ends_mono (hm r) fun a r₁ h₁ => ?_
  exact ends_mono (hf a r₁) fun _ _ h₂ => h₂.trans h₁

theorem keeps_updateLastRefreshCycle : Keeps (UpdateLastRefreshCycle p refreshNum) := by
  intro r
  simp [UpdateLastRefreshCycle, NotPowerDown, ends_ite, counters]

theorem keeps_calcIntraIssueCycle : Keeps (CalcIntraIssueCycle p rowHit type arrivalCycle refreshNum) := by
  intro r
  simp [-bind_pure_comp, CalcIntraIssueCycle, counters]

theorem keeps_issuePrecharge (issuedCycle : ℕ) : Keeps (IssuePrecharge bank issuedCycle) := by
  intro r
  simp [IssuePrecharge, NotPowerDown, counters, MemRankBase.modifyBank]

theorem keeps_issueActivate (issuedCycle : ℕ) : Keeps (IssueActivate p bank row issuedCycle) := by
  intro r
  simp [IssueActivate, NotPowerDown, counters, MemRankBase.modifyBank]

theorem keeps_calcActConst (issuableCycle : ℕ) : Keeps (CalcActConst p bank issuableCycle) := by
  intro r
  simp [-bind_pure_comp, CalcActConst, NotPowerDown, ends_ite]

theorem keeps_openPolicyStart : Keeps (openPolicyStart p rowHit type arrivalCycle refreshNum bank) := by
  unfold openPolicyStart
  split
  · exact fun _ => rfl
  · refine keeps_calcIntraIssueCycle.bind fun issueCycle r => ?_
    rw [ends_bind, ends_observe, ends_ite]
    split
    · simp only [ends_bind, ends_ensure]
      exact ⟨fun _ => keeps_issuePrecharge _ r, fun _ h => by cases h⟩
    · rfl

theorem keeps_closedPolicyStart : Keeps (closedPolicyStart p rowHit type arrivalCycle refreshNum row bank) := by
  intro r
  simp [-bind_pure_comp, closedPolicyStart, CalcIntraIssueCycle, NotPowerDown, ends_ite, counters]

theorem keeps_openRow : Keeps (openRow p rowHit type arrivalCycle refreshNum row bank) := by
  unfold openRow
  apply Keeps.bind
  · split
    · exact keeps_openPolicyStart
    · exact keeps_closedPolicyStart
  · intro opened
    rcases opened with ⟨_ | issuableCycle, continuous⟩
    · exact fun _ => rfl
    · refine (keeps_calcActConst issuableCycle).bind fun actIssueCycle => ?_
      refine (keeps_issueActivate actIssueCycle).bind fun _ r => ?_
      simp [-bind_pure_comp, NotPowerDown]

theorem keeps_rdwrStart (opened : Option ℕ × Bool) : Keeps (rdwrStart p opened rowHit type arrivalCycle refreshNum) := by
  intro r
  rcases opened with ⟨_ | _, _ | _⟩ <;>
    simp [-bind_pure_comp, rdwrStart, NotPowerDown, CalcIntraIssueCycle, counters]

theorem keeps_access (accessCycle issuedCycle : ℕ) :
    Keeps (MemRankBase.access accessCycle issuedCycle row bank type) := by
  intro r
  simp [MemRankBase.access, NotPowerDown, counters, MemRankBase.modifyBank]

theorem keeps_closeRow (rdwrIssueCycle : ℕ) : Keeps (closeRow p type bank rdwrIssueCycle) := by
  intro r
  unfold closeRow
  rw [ends_ite]
  split
  · simp only [ends_bind, ends_observe, ends_ensure]
    exact ⟨fun _ => keeps_issuePrecharge _ r, fun _ h => by cases h⟩
  · rfl

end Rank

end Zsim.MemPowerDown
