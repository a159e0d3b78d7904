import Zsim.PolicyRuns
import Zsim.Selection
import Mathlib.Data.Prod.Lex
import Mathlib.Tactic.Ring

/-!
# Least recently used lines

Every access stamps its line with the time. A ranking packs the validity of a
line, its sharers and its stamp into one score of 64 bits, and looks for the
least score with a loop whose variable holds 32 of them. What the loop compares
is thus the low half of the scores.
-/

namespace Zsim.LRU

open MemoryHierarchy DrivenArrays GuardedRuns PolicyRuns Selection

/-- `LRUReplPolicy`. -/
structure LRUReplPolicy where
  timestamp : ℕ
  array : LineId → ℕ

namespace LRUReplPolicy

/-- The constructor. -/
def init : LRUReplPolicy := ⟨1, fun _ => 0⟩

/-- `LRUReplPolicy::update`; the timestamp has 64 bits. -/
def update (s : LRUReplPolicy) (id : LineId) : LRUReplPolicy where
  timestamp := (s.timestamp + 1) % 2 ^ 64
  array := Function.update s.array id s.timestamp

/-- `LRUReplPolicy::replaced`. -/
def replaced (s : LRUReplPolicy) (id : LineId) : LRUReplPolicy :=
  { s with array := Function.update s.array id 0 }

/-- `sharersAware? cc->numSharers(id) : 0`. -/
def sharers (sharersAware : Bool) (cc : CCView) (id : LineId) : ℕ :=
  if sharersAware = true then cc.numSharers id else 0

/-- `array[id]*cc->isValid(id)`. -/
def age (s : LRUReplPolicy) (cc : CCView) (id : LineId) : ℕ := s.array id * (cc.isValid id).toNat

/-- What `score` computes, before it is cut to 64 bits. -/
def weight (sharersAware : Bool) (s : LRUReplPolicy) (cc : CCView) (id : LineId) : ℕ :=
  sharers sharersAware cc id * s.timestamp + s.age cc id

/-- `score`. -/
def score (sharersAware : Bool) (s : LRUReplPolicy) (cc : CCView) (id : LineId) : ℕ :=
  s.weight sharersAware cc id % 2 ^ 64

/-- `uint32_t s = score(*ci)`. -/
def lowScore (sharersAware : Bool) (s : LRUReplPolicy) (cc : CCView) (id : LineId) : ℕ :=
  s.score sharersAware cc id % 2 ^ 32

/-- The loop of `rank`. -/
def scan (low : LineId → ℕ) : List LineId → LineId → ℕ → LineId
  | [], bestCand, _ => bestCand
  | c :: cands, bestCand, bestScore =>
    scan low cands (if low c < bestScore then c else bestCand) (min (low c) bestScore)

/-- `LRUReplPolicy::rank`. -/
def rank (sharersAware : Bool) (s : LRUReplPolicy) (cc : CCView) (cands : List LineId) : LineId :=
  scan (s.lowScore sharersAware cc) cands (2 ^ 32 - 1) (2 ^ 64 - 1)

/-- What the comment on `score` prioritizes by: a line that is not valid counts
0, then the sharers, then the timestamp. -/
def key (sharersAware : Bool) (s : LRUReplPolicy) (cc : CCView) (id : LineId) : ℕ ×ₗ ℕ ×ₗ ℕ :=
  toLex ((cc.isValid id).toNat, toLex (sharers sharersAware cc id, s.age cc id))

end LRUReplPolicy

/-- The policy interface of `LRUReplPolicy<sharersAware>`. -/
def lru (sharersAware : Bool) : ReplPolicy LRUReplPolicy where
  update s id _ := s.update id
  replaced s id := s.replaced id
  rankCands s cc _ cands := some (s.rank sharersAware cc cands, s)

section Rank

variable {low : LineId → ℕ} {seen cands : List LineId} {c : LineId}

theorem scan_firstLeast (h : FirstLeast low seen c) :
    FirstLeast low (seen ++ cands) (LRUReplPolicy.scan low cands c (low c)) := by
  induction cands generalizing seen c with
  | nil => rwa [List.append_nil]
  | cons d cands ih =>
    have hturn := h.snoc d
    have hscore : min (low d) (low c) = low (if low d < low c then d else c) := by
      by_cases hd : low d < low c
      · rw [if_pos hd, Nat.min_eq_left hd.le]
      · rw [if_neg hd, Nat.min_eq_right (not_lt.mp hd)]
    have hrest := ih hturn
    rw [List.append_assoc, List.singleton_append] at hrest
    rw [LRUReplPolicy.scan, hscore]
    exact hrest

/-- Every score is below the initial one, so the first candidate is taken. -/
theorem scan_first (hlow : ∀ d, low d < 2 ^ 32) (hne : cands ≠ []) :
    FirstLeast low cands (LRUReplPolicy.scan low cands (2 ^ 32 - 1) (2 ^ 64 - 1)) := by
  cases cands with
  | nil => exact absurd rfl hne
  | cons d cands =>
    have hd := hlow d
    have hlt : low d < 2 ^ 64 - 1 := by omega
    rw [LRUReplPolicy.scan, if_pos hlt, Nat.min_eq_left hlt.le]
    exact scan_firstLeast firstLeast_singleton

theorem rank_firstLeast (sharersAware : Bool) (s : LRUReplPolicy) (cc : CCView) (hne : cands ≠ []) :
    FirstLeast (s.lowScore sharersAware cc) cands (s.rank sharersAware cc cands) :=
  scan_first (fun _ => Nat.mod_lt _ (by decide)) hne

end Rank

/-- Stamps that differ, but for the lines that have none. -/
def Distinct (ts : LineId → ℕ) : Prop := ∀ i j, ts i = ts j → i = j ∨ ts i = 0

/-- Every stamp is in the past and was given once. -/
structure Stamped (s : LRUReplPolicy) : Prop where
  past : ∀ i, s.array i < s.timestamp
  distinct : Distinct s.array

section Runs

variable {sharersAware : Bool} {numLines : ℕ} {s s' : LRUReplPolicy} {i : LineId}

theorem stamped_init : Stamped .init := ⟨fun _ => Nat.zero_lt_one, fun _ _ _ => Or.inr rfl⟩

theorem Stamped.update (h : Stamped s) (hlt : s.timestamp + 1 < 2 ^ 64) : Stamped (s.update i) := by
  have hpast := h.past
  constructor
  · intro j
    have hj := hpast j
    simp only [LRUReplPolicy.update, Nat.mod_eq_of_lt hlt]
    by_cases hji : j = i
    · rw [hji, Function.update_self]
      omega
    · rw [Function.update_of_ne hji]
      omega
  · intro j k hjk
    have hj := hpast j
    have hk := hpast k
    simp only [LRUReplPolicy.update] at hjk ⊢
    by_cases hji : j = i
    · by_cases hki : k = i
      · exact Or.inl (hji.trans hki.symm)
      · rw [hji, Function.update_self, Function.update_of_ne hki] at hjk
        omega
    · by_cases hki : k = i
      · rw [hki, Function.update_self, Function.update_of_ne hji] at hjk
        omega
      · rw [Function.update_of_ne hji, Function.update_of_ne hki] at hjk
        rw [Function.update_of_ne hji]
        exact h.distinct j k hjk

theorem Stamped.replaced (h : Stamped s) : Stamped (s.replaced i) := by
  constructor
  · intro j
    have hj := h.past j
    simp only [LRUReplPolicy.replaced]
    by_cases hji : j = i
    · rw [hji, Function.update_self]
      exact Nat.zero_lt_of_lt hj
    · rw [Function.update_of_ne hji]
      exact hj
  · intro j k hjk
    simp only [LRUReplPolicy.replaced] at hjk ⊢
    by_cases hji : j = i
    · rw [hji, Function.update_self]
      exact Or.inr rfl
    · rw [Function.update_of_ne hji] at hjk ⊢
      by_cases hki : k = i
      · rw [hki, Function.update_self] at hjk
        exact Or.inr hjk
      · rw [Function.update_of_ne hki] at hjk
        exact h.distinct j k hjk

/-- A call takes the time on by one at most. -/
theorem callStep_stamped {op : PolicyOp} (h : Stamped s) (hlt : s.timestamp + 1 < 2 ^ 64)
    (hs : callStep (lru sharersAware) numLines s op = some s') :
    Stamped s' ∧ s'.timestamp ≤ s.timestamp + 1 := by
  cases op with
  | hit id req =>
    obtain ⟨-, rfl⟩ := callStep_hit.mp hs
    exact ⟨h.update hlt, Nat.mod_le _ _⟩
  | rank cc req cands =>
    obtain ⟨-, i, hi⟩ := callStep_rank.mp hs
    cases hi
    exact ⟨h, Nat.le_succ _⟩
  | fill id req =>
    obtain ⟨-, rfl⟩ := callStep_fill.mp hs
    exact ⟨h.replaced.update hlt, Nat.mod_le _ _⟩

/-- The stamps are good until the timestamp wraps. -/
theorem run_stamped {ops : List PolicyOp} (h : Stamped s) (hlt : s.timestamp + ops.length < 2 ^ 64)
    (hr : run (callStep (lru sharersAware) numLines) s ops = some s') : Stamped s' := by
  induction ops generalizing s with
  | nil =>
    cases hr
    exact h
  | cons op ops ih =>
    obtain ⟨s₁, hs₁, hrest⟩ := run_cons.mp hr
    rw [List.length_cons] at hlt
    obtain ⟨h₁, hle⟩ := callStep_stamped h (by omega) hs₁
    exact ih h₁ (by omega) hrest

end Runs

/-- What the cache promises of its lines: one that is not valid has no sharers,
and a valid one has been updated since it was replaced. -/
structure Promised (s : LRUReplPolicy) (cc : CCView) (cands : List LineId) : Prop where
  sharers : ∀ c ∈ cands, cc.isValid c = false → cc.numSharers c = 0
  updated : ∀ c ∈ cands, cc.isValid c = true → s.array c ≠ 0

section Order

variable {sharersAware : Bool} {s : LRUReplPolicy} {cc : CCView} {cands : List LineId}
  {c d : LineId}

open LRUReplPolicy

/-- The packing keeps the order: a stamp is below the time, so it never makes up
for a sharer. -/
theorem weight_lt (hs : Stamped s) (h : Promised s cc cands) (hc : c ∈ cands) (hd : d ∈ cands)
    (hlt : s.key sharersAware cc c < s.key sharersAware cc d) :
    s.weight sharersAware cc c < s.weight sharersAware cc d := by
  have hnone : ∀ i ∈ cands, cc.isValid i = false → sharers sharersAware cc i = 0 := by
    intro i hi hinvalid
    unfold sharers
    split
    · exact h.sharers i hi hinvalid
    · rfl
  have hage : s.age cc c < s.timestamp := by
    have hle : (cc.isValid c).toNat ≤ 1 := Bool.toNat_le _
    have hstamp := hs.past c
    calc s.age cc c ≤ s.array c * 1 := Nat.mul_le_mul_left _ hle
      _ < s.timestamp := by omega
  unfold weight
  simp only [key, Prod.Lex.toLex_lt_toLex] at hlt
  obtain hvalid | ⟨-, hless⟩ := hlt
  · -- a line that is not valid weighs nothing
    have hcd : cc.isValid c = false ∧ cc.isValid d = true := by
      cases hvc : cc.isValid c <;> cases hvd : cc.isValid d <;> simp [hvc, hvd] at hvalid ⊢
    have hpos : 0 < s.age cc d := by
      rw [age, hcd.2, Bool.toNat_true, Nat.mul_one]
      exact Nat.pos_of_ne_zero (h.updated d hd hcd.2)
    have hzero : s.age cc c = 0 := by rw [age, hcd.1, Bool.toNat_false, Nat.mul_zero]
    rw [hnone c hc hcd.1, hzero]
    omega
  · obtain hshare | ⟨hshare, hlater⟩ := hless
    · calc sharers sharersAware cc c * s.timestamp + s.age cc c
          < sharers sharersAware cc c * s.timestamp + s.timestamp := Nat.add_lt_add_left hage _
        _ = (sharers sharersAware cc c + 1) * s.timestamp := by ring
        _ ≤ sharers sharersAware cc d * s.timestamp := Nat.mul_le_mul_right _ hshare
        _ ≤ sharers sharersAware cc d * s.timestamp + s.age cc d := Nat.le_add_right _ _
    · rw [hshare]
      exact Nat.add_lt_add_left hlater _

/-- Weights of 32 bits are compared as they are. -/
theorem agrees_of_small (hne : cands ≠ []) (hs : Stamped s) (h : Promised s cc cands)
    (hsmall : ∀ c ∈ cands, s.weight sharersAware cc c < 2 ^ 32) :
    Agrees (s.key sharersAware cc) (s.lowScore sharersAware cc) cands := by
  obtain ⟨x, hx⟩ := exists_least (s.key sharersAware cc) hne
  have hlow : ∀ c ∈ cands, s.lowScore sharersAware cc c = s.weight sharersAware cc c := by
    intro c hc
    have hc' := hsmall c hc
    rw [lowScore, score, Nat.mod_mod_of_dvd _ (Nat.pow_dvd_pow 2 (by decide)), Nat.mod_eq_of_lt hc']
  refine agrees_of_lt hx fun y hy hlt => ?_
  rw [hlow x hx.1, hlow y hy]
  exact weight_lt hs h hx.1 hy hlt

end Order

open LRUReplPolicy in
/-- A ranking returns a least candidate exactly when the low halves of the
scores agree with the order. They do while no candidate weighs 2^32, in every
state that a run reaches before the timestamp wraps. -/
theorem lru_least_iff (sharersAware : Bool) :
    (∀ s cc req cands, cands ≠ [] →
      ((∃ i, (lru sharersAware).rankCands s cc req cands = some (i, s) ∧
          Least (s.key sharersAware cc) cands i) ↔
        Agrees (s.key sharersAware cc) (s.lowScore sharersAware cc) cands)) ∧
    ∀ numLines ops s, run (callStep (lru sharersAware) numLines) .init ops = some s →
      ops.length < 2 ^ 64 - 1 → ∀ cc cands, cands ≠ [] → Promised s cc cands →
        (∀ c ∈ cands, s.weight sharersAware cc c < 2 ^ 32) →
          Agrees (s.key sharersAware cc) (s.lowScore sharersAware cc) cands := by
  constructor
  · intro s cc req cands hne
    rw [← least_iff_agrees (rank_firstLeast sharersAware s cc hne)]
    constructor
    · intro ⟨i, hi, hleast⟩
      cases hi
      exact hleast
    · intro hleast
      exact ⟨_, rfl, hleast⟩
  · intro numLines ops s hrun hlen cc cands hne hpromised hsmall
    have hs : Stamped s := run_stamped stamped_init (by simp only [init]; omega) hrun
    exact agrees_of_small hne hs hpromised hsmall

section Wrap

open LRUReplPolicy

/-- Valid lines without sharers. -/
def unshared : CCView := ⟨fun _ => 0, fun _ => true⟩

/-- Of two lines that are filled in turn, a least one is evicted. -/
theorem lru_evicts_least : ∃ s i,
    run (callStep (lru true) 2) .init [.fill 0 (fetch 1), .fill 1 (fetch 2)] = some s ∧
      (lru true).rankCands s unshared (fetch 3) [1, 0] = some (i, s) ∧
        Least (s.key true unshared) [1, 0] i := by
  obtain ⟨hiff, hagrees⟩ := lru_least_iff true
  have hrun : run (callStep (lru true) 2) .init [.fill 0 (fetch 1), .fill 1 (fetch 2)] =
      some (((LRUReplPolicy.init.replaced 0).update 0).replaced 1 |>.update 1) := rfl
  have hsmall := hagrees 2 _ _ hrun (by decide) unshared [1, 0] (by decide)
    ⟨fun _ _ _ => rfl, by decide⟩ (by decide)
  obtain ⟨i, hi, hleast⟩ := (hiff _ unshared (fetch 3) [1, 0] (by decide)).mpr hsmall
  exact ⟨_, i, hrun, hi, hleast⟩

/-- Hits on line 0 alone. -/
theorem run_hits {n : ℕ} {s : LRUReplPolicy} (req : MemReq) (hlt : s.timestamp + n + 1 < 2 ^ 64) :
    ∃ s', run (callStep (lru false) 2) s (List.replicate (n + 1) (.hit 0 req)) = some s' ∧
      s'.timestamp = s.timestamp + n + 1 ∧ s'.array 0 = s.timestamp + n := by
  induction n generalizing s with
  | zero =>
    refine ⟨s.update 0, rfl, Nat.mod_eq_of_lt hlt, ?_⟩
    simp only [LRUReplPolicy.update, Function.update_self, Nat.add_zero]
  | succ n ih =>
    have htime : (s.update 0).timestamp = s.timestamp + 1 := Nat.mod_eq_of_lt (by omega)
    obtain ⟨s', hrun, ht, ha⟩ := @ih (s.update 0) (by omega)
    have hhit : callStep (lru false) 2 s (.hit 0 req) = some (s.update 0) := rfl
    refine ⟨s', ?_, by omega, by omega⟩
    rw [List.replicate_succ]
    exact run_cons.mpr ⟨_, hhit, hrun⟩

/-- Line 0 is last used at time 2^32 - 1, and line 1 at 2^32. The low half of
the later stamp is 0, and the later line is evicted. -/
theorem lru_evicts_later : ¬ ∀ (sharersAware : Bool) numLines ops s,
    run (callStep (lru sharersAware) numLines) .init ops = some s →
      ∀ cc req cands, cands ≠ [] → Promised s cc cands →
        ∃ i, (lru sharersAware).rankCands s cc req cands = some (i, s) ∧
          Least (s.key sharersAware cc) cands i := by
  intro h
  obtain ⟨s, hrun, htime, h0⟩ := @run_hits (2 ^ 32 - 2) .init (fetch 0) (by decide)
  have hhit : callStep (lru false) 2 s (.hit 1 (fetch 0)) = some (s.update 1) := rfl
  have hlast : run (callStep (lru false) 2) s [.hit 1 (fetch 0)] = some (s.update 1) :=
    run_cons.mpr ⟨_, hhit, rfl⟩
  have hrun' := run_append.mpr ⟨s, hrun, hlast⟩
  have h0' : (s.update 1).array 0 = 2 ^ 32 - 1 := h0
  have h1' : (s.update 1).array 1 = 2 ^ 32 := htime
  have hupdated : ∀ c ∈ [0, 1], unshared.isValid c = true → (s.update 1).array c ≠ 0 := by
    intro c hc _
    simp only [List.mem_cons, List.not_mem_nil, or_false] at hc
    obtain rfl | rfl := hc <;> omega
  obtain ⟨i, hi, -, hleast⟩ := h false 2 _ _ hrun' unshared (fetch 0) [0, 1] (by decide)
    ⟨fun _ _ _ => rfl, hupdated⟩
  have hlow : ∀ c, (s.update 1).lowScore false unshared c = (s.update 1).array c % 2 ^ 64 % 2 ^ 32 := by
    intro c
    simp [lowScore, score, weight, sharers, age, unshared]
  have hvictim : (s.update 1).rank false unshared [0, 1] = 1 := by
    simp only [rank, scan, hlow, h0', h1']
    decide
  have hi' : i = 1 := by
    have hsome : some (LRUReplPolicy.rank false (s.update 1) unshared [0, 1], s.update 1) =
        some (i, s.update 1) := hi
    rw [hvictim] at hsome
    exact (congrArg Prod.fst (Option.some.inj hsome)).symm
  have hle := hleast 0 (by simp)
  rw [hi'] at hle
  simp only [key, age, unshared, h0', h1'] at hle
  exact absurd hle (by decide)

end Wrap
end Zsim.LRU
