import Zsim.CacheEventGraphs

/-!
# The candidate lookups of a timing cache

The loop that builds the lookups of a replacement ends in the first turn by which the fringe sizes, each modulo
2^32, have reached the number of lookups. Where the rounded-up division does not overflow there is such a turn.
-/

namespace Zsim.CacheEventGraphs

section Arithmetic

theorem toNat_min (a b : UInt32) : (min a b).toNat = min a.toNat b.toNat := by
  have hmin : min a b = if a ≤ b then a else b := rfl
  rw [hmin]
  split
  · next hle => exact (min_eq_left (UInt32.le_iff_toNat_le.mp hle)).symm
  · next hle => exact (min_eq_right (not_le.mp (mt UInt32.le_iff_toNat_le.mpr hle)).le).symm

end Arithmetic

section Turns

variable (c : TimingCache)

/-- `fringeAccs` in a turn. -/
def TimingCache.fringe : ℕ → UInt32
  | 0 => c.ways - 1
  | turn + 1 => fringe turn * (c.ways - 1)

/-- The fringe sizes of the turns before it. -/
def TimingCache.reached : ℕ → ℕ
  | 0 => 0
  | turn + 1 => reached turn + (c.fringe turn).toNat

/-- The number of turns that reach all lookups. -/
def TimingCache.Turns (turns : ℕ) : Prop := IsLeast {n | c.replLookups.toNat ≤ c.reached n} turns

/-- `accsSoFar` before a turn. -/
def TimingCache.soFar (turn : ℕ) : UInt32 := .ofNat (min c.replLookups.toNat (c.reached turn))

/-- The event that a turn builds. -/
def TimingCache.lookupEvent (minStartCycle turn : ℕ) : TimingEvent where
  kind := .replAccess turn
  preDelay := if turn = 0 then c.tagLat else 0
  postDelay := c.lookupPostDelay (c.fringe turn)
  minStartCycle := minStartCycle
  accsLeft := min (c.fringe turn) (c.replLookups - c.soFar turn)

variable {c}

theorem toNat_soFar (turn : ℕ) : (c.soFar turn).toNat = min c.replLookups.toNat (c.reached turn) := by
  have hlt := c.replLookups.toNat_lt
  exact UInt32.toNat_ofNat_of_lt (by simp only [UInt32.size]; omega)

theorem soFar_le (turn : ℕ) : c.soFar turn ≤ c.replLookups := by
  rw [UInt32.le_iff_toNat_le, toNat_soFar]
  exact min_le_left ..

/-- What a turn adds is at most what is left. -/
theorem toNat_accs (turn : ℕ) : (min (c.fringe turn) (c.replLookups - c.soFar turn)).toNat =
    min (c.fringe turn).toNat (c.replLookups.toNat - c.reached turn) := by
  rw [toNat_min, UInt32.toNat_sub_of_le _ _ (soFar_le turn), toNat_soFar]
  omega

theorem soFar_succ (turn : ℕ) :
    c.soFar turn + min (c.fringe turn) (c.replLookups - c.soFar turn) = c.soFar (turn + 1) := by
  have hlt := c.replLookups.toNat_lt
  rw [← UInt32.toNat_inj, UInt32.toNat_add, toNat_accs, toNat_soFar, toNat_soFar, TimingCache.reached,
    Nat.mod_eq_of_lt] <;> omega

theorem fringe_succ (turn : ℕ) : c.fringe turn * (c.ways - 1) = c.fringe (turn + 1) := rfl

theorem soFar_lt_iff (turn : ℕ) : c.soFar turn < c.replLookups ↔ c.reached turn < c.replLookups.toNat := by
  rw [UInt32.lt_iff_toNat_lt, toNat_soFar]
  omega

/-- After a turn that adds none there is no other that does. -/
theorem reached_of_fringe_eq_zero {turn : ℕ} (hzero : c.fringe turn = 0) (k : ℕ) :
    c.fringe (turn + k) = 0 ∧ c.reached (turn + k) = c.reached turn := by
  induction k with
  | zero => exact ⟨hzero, rfl⟩
  | succ k ih =>
    constructor
    · rw [← Nat.add_assoc, TimingCache.fringe, ih.1, UInt32.zero_mul]
    · rw [← Nat.add_assoc, TimingCache.reached, ih.1, ih.2]
      rfl

variable {turns : ℕ}

/-- Each turn before the last adds an access. -/
theorem TimingCache.Turns.fringe_pos (h : c.Turns turns) {turn : ℕ} (hlt : turn < turns) :
    0 < (c.fringe turn).toNat := by
  by_contra hzero
  have hfringe : c.fringe turn = 0 := UInt32.toNat_inj.mp (by simpa using hzero)
  have hstays := (reached_of_fringe_eq_zero hfringe (turns - turn)).2
  rw [Nat.add_sub_cancel' hlt.le] at hstays
  have hall : c.replLookups.toNat ≤ c.reached turns := h.1
  exact Nat.not_le.mpr hlt (h.2 (hall.trans hstays.le))

theorem TimingCache.Turns.reached_lt (h : c.Turns turns) {turn : ℕ} (hlt : turn < turns) :
    c.reached turn < c.replLookups.toNat :=
  not_le.mp fun hle => Nat.not_le.mpr hlt (h.2 hle)

theorem TimingCache.Turns.le_reached (h : c.Turns turns) {turn : ℕ} (hle : turn ≤ turns) :
    turn ≤ c.reached turn := by
  induction turn with
  | zero => exact Nat.zero_le _
  | succ turn ih =>
    have hfringe := h.fringe_pos hle
    have hprev := ih (Nat.le_of_succ_le hle)
    simp only [TimingCache.reached]
    omega

theorem TimingCache.Turns.le_replLookups (h : c.Turns turns) : turns ≤ c.replLookups.toNat := by
  cases turns with
  | zero => exact Nat.zero_le _
  | succ turn =>
    have hge := h.le_reached (Nat.le_succ turn)
    exact Nat.lt_of_le_of_lt hge (h.reached_lt (Nat.lt_succ_self turn))

/-- The loop from any turn on. -/
theorem TimingCache.Turns.candidateLookups_from (h : c.Turns turns) (minStartCycle : ℕ) {fuel turn : ℕ}
    (hle : turn ≤ turns) (hfuel : turns - turn < fuel) :
    c.candidateLookups minStartCycle fuel turn (c.soFar turn) (c.fringe turn) =
      some ((List.range' turn (turns - turn)).map (c.lookupEvent minStartCycle)) := by
  induction fuel generalizing turn with
  | zero => omega
  | succ fuel ih =>
    rw [TimingCache.candidateLookups]
    rcases Nat.lt_or_eq_of_le hle with hlt | heq
    · have hmore := (soFar_lt_iff turn).mpr (h.reached_lt hlt)
      have hzero : c.soFar turn ≠ 0 ↔ turn ≠ 0 := by
        have hreached := h.reached_lt hlt
        have hge := h.le_reached hle
        rw [ne_eq, ← UInt32.toNat_inj, toNat_soFar]
        cases turn with
        | zero => simp [TimingCache.reached]
        | succ turn =>
          simp only [UInt32.toNat_zero]
          omega
      have hrest := ih hlt (by omega)
      have hcount : turns - turn = turns - (turn + 1) + 1 := by omega
      rw [if_pos hmore]
      dsimp only
      rw [soFar_succ, fringe_succ, hrest, hcount, List.range'_succ, Option.map_some, List.map_cons]
      simp only [TimingCache.lookupEvent, hzero, ite_not]
    · have hend := mt (soFar_lt_iff turn).mp (not_lt.mpr (heq ▸ h.1))
      rw [if_neg hend, heq, Nat.sub_self]
      rfl

/-- The lookups that the loop builds. -/
theorem TimingCache.Turns.candidateLookups_eq (h : c.Turns turns) (minStartCycle : ℕ) :
    c.candidateLookups minStartCycle (c.replLookups.toNat + 1) 0 0 (c.ways - 1) =
      some ((List.range turns).map (c.lookupEvent minStartCycle)) := by
  have hzero : c.soFar 0 = 0 := by
    simp [TimingCache.soFar, TimingCache.reached]
  have hall := h.candidateLookups_from minStartCycle (Nat.zero_le turns)
    (Nat.lt_succ_of_le ((Nat.sub_le ..).trans h.le_replLookups))
  rw [hzero] at hall
  rw [List.range_eq_range']
  exact hall

/-- The loop ends in some turn once the fringe sizes reach all lookups. -/
theorem exists_turns {n : ℕ} (h : c.replLookups.toNat ≤ c.reached n) : ∃ turns, c.Turns turns := by
  classical
  have hexists : ∃ n, c.replLookups.toNat ≤ c.reached n := ⟨n, h⟩
  exact ⟨Nat.find hexists, Nat.find_spec hexists, fun m hm => Nat.find_min' hexists hm⟩

end Turns

section Ways

variable {c : TimingCache} (hways : 2 ≤ c.ways.toNat)

include hways

theorem toNat_ways_sub_one : (c.ways - 1).toNat = c.ways.toNat - 1 := by
  rw [UInt32.toNat_sub_of_le _ _ (UInt32.le_iff_toNat_le.mpr (by simpa using Nat.le_of_succ_le hways))]
  rfl

theorem toNat_replLookups_quotient : ((c.cands + (c.ways - 1)) / c.ways).toNat =
    (c.cands.toNat + (c.ways.toNat - 1)) % 2 ^ 32 / c.ways.toNat := by
  rw [UInt32.toNat_div, UInt32.toNat_add, toNat_ways_sub_one hways]

/-- A replacement path has a lookup. -/
theorem replLookups_ne_zero (hcands : c.ways < c.cands) : c.replLookups ≠ 0 := by
  intro hzero
  have hone : (c.cands + (c.ways - 1)) / c.ways = 1 := by
    rw [TimingCache.replLookups] at hzero
    exact sub_eq_zero.mp hzero
  have hquotient := toNat_replLookups_quotient hways
  rw [hone, UInt32.toNat_one] at hquotient
  have hlt := UInt32.lt_iff_toNat_lt.mp hcands
  have hcands' := c.cands.toNat_lt
  have hways' := c.ways.toNat_lt
  rcases Nat.lt_or_ge (c.cands.toNat + (c.ways.toNat - 1)) (2 ^ 32) with hsmall | hlarge
  · have htwo : 2 ≤ (c.cands.toNat + (c.ways.toNat - 1)) / c.ways.toNat :=
      (Nat.le_div_iff_mul_le (by omega)).mpr (by omega)
    rw [Nat.mod_eq_of_lt hsmall] at hquotient
    omega
  · -- the sum wraps to less than the ways
    rw [Nat.mod_eq_sub_mod hlarge, Nat.mod_eq_of_lt (by omega), Nat.div_eq_of_lt (by omega)] at hquotient
    cases hquotient

theorem toNat_fringe (turn : ℕ) (hlt : (c.ways.toNat - 1) ^ (turn + 1) < 2 ^ 32) :
    (c.fringe turn).toNat = (c.ways.toNat - 1) ^ (turn + 1) := by
  induction turn with
  | zero =>
    rw [pow_one]
    exact toNat_ways_sub_one hways
  | succ turn ih =>
    have hle : (c.ways.toNat - 1) ^ (turn + 1) ≤ (c.ways.toNat - 1) ^ (turn + 1 + 1) :=
      Nat.pow_le_pow_right (by omega) (Nat.le_succ _)
    rw [← fringe_succ, UInt32.toNat_mul, ih (hle.trans_lt hlt), toNat_ways_sub_one hways, ← pow_succ,
      Nat.mod_eq_of_lt hlt]

/-- The lookups are fewer than the candidates over the ways. -/
theorem replLookups_mul_le (hcands : c.ways < c.cands) (hsum : c.cands.toNat + c.ways.toNat ≤ 2 ^ 32) :
    c.replLookups.toNat * c.ways.toNat < c.cands.toNat := by
  have hlt := UInt32.lt_iff_toNat_lt.mp hcands
  have hquotient := toNat_replLookups_quotient hways
  rw [Nat.mod_eq_of_lt (by omega)] at hquotient
  have hone : 1 ≤ (c.cands.toNat + (c.ways.toNat - 1)) / c.ways.toNat :=
    (Nat.le_div_iff_mul_le (by omega)).mpr (by omega)
  have hle : (1 : UInt32) ≤ (c.cands + (c.ways - 1)) / c.ways := by
    rw [UInt32.le_iff_toNat_le, hquotient]
    exact hone
  have hmul := Nat.div_mul_le_self (c.cands.toNat + (c.ways.toNat - 1)) c.ways.toNat
  rw [TimingCache.replLookups, UInt32.toNat_sub_of_le _ _ hle, hquotient, UInt32.toNat_one, Nat.sub_mul]
  omega

/-- The loop ends where the candidates and the ways do not overflow 32 bits. -/
theorem exists_turns_of_le (hcands : c.ways < c.cands) (hsum : c.cands.toNat + c.ways.toNat ≤ 2 ^ 32) :
    ∃ turns, c.Turns turns := by
  have hlookups := replLookups_mul_le hways hcands hsum
  have hlast := c.cands.toNat_lt
  rcases Nat.lt_or_ge 2 c.ways.toNat with hmany | htwo
  · -- the last fringe that does not wrap is as large as all lookups
    have hlow := Nat.pow_log_le_self (c.ways.toNat - 1) (x := 2 ^ 32 - 1) (by omega)
    have hhigh := Nat.lt_pow_succ_log_self (b := c.ways.toNat - 1) (by omega) (2 ^ 32 - 1)
    have hpos : 0 < Nat.log (c.ways.toNat - 1) (2 ^ 32 - 1) := Nat.log_pos (by omega) (by omega)
    obtain ⟨turn, hturn⟩ := Nat.exists_eq_succ_of_ne_zero hpos.ne'
    rw [hturn, Nat.succ_eq_add_one] at hlow hhigh
    have hfringe := toNat_fringe hways turn (by omega)
    apply exists_turns (n := turn + 1)
    rw [TimingCache.reached, hfringe]
    by_contra hless
    have hmore : (c.ways.toNat - 1) ^ (turn + 1) + 1 ≤ c.replLookups.toNat := by omega
    have hmul := Nat.mul_le_mul_right c.ways.toNat hmore
    have hpow : (c.ways.toNat - 1) ^ (turn + 1 + 1) ≤ (c.ways.toNat - 1) ^ (turn + 1) * c.ways.toNat := by
      rw [pow_succ]
      exact Nat.mul_le_mul_left _ (Nat.sub_le ..)
    rw [Nat.add_mul] at hmul
    omega
  · -- with two ways each turn adds one access
    have hone : ∀ turn, c.reached turn = turn := by
      have hfringe : c.ways.toNat - 1 = 1 := by omega
      intro turn
      induction turn with
      | zero => rfl
      | succ turn ih =>
        have hvalue := toNat_fringe hways turn (by rw [hfringe, one_pow]; omega)
        rw [TimingCache.reached, ih, hvalue, hfringe, one_pow]
    exact exists_turns (hone c.replLookups.toNat).ge

end Ways

end Zsim.CacheEventGraphs
