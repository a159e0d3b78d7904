import Zsim.VictimRules

/-!
# Candidates that are listed twice

A walk of the zcache may come back to a line. The re-reference rankings age
every place of the list, so a repeated line gets older than the others: the
victim and the predictions are those of the list without repetitions only if
the line is at 3 already, or if saturation hides the difference.
-/

namespace Zsim.RepeatedCandidates

open MemoryHierarchy Ageing VictimRules

section Lists

variable {α : Type} [DecidableEq α]

/-- Induction on the list without the repetitions of its head. -/
theorem eraseDups_induction {P : List α → Prop} (nil : P [])
    (cons : ∀ a l, P (l.filter fun b => !b == a) → P (a :: l)) (l : List α) : P l := by
  induction hn : l.length using Nat.strong_induction_on generalizing l with
  | _ n ih =>
    cases l with
    | nil => exact nil
    | cons a l =>
      have hle := List.length_filter_le (fun b => !b == a) l
      rw [List.length_cons] at hn
      exact cons a l (ih _ (by omega) _ rfl)

/-- The first of the elements with a property does not depend on repetitions. -/
theorem find?_eraseDups (p : α → Bool) (l : List α) : l.eraseDups.find? p = l.find? p := by
  induction l using eraseDups_induction with
  | nil => rfl
  | cons a l ih =>
    rw [List.eraseDups_cons, List.find?_cons, List.find?_cons, ih, List.find?_filter]
    cases hp : p a with
    | true => rfl
    | false =>
      refine List.find?_congr fun b _ => ?_
      by_cases hb : b = a
      · simp [hb, hp]
      · simp [hb]

theorem nodup_eraseDups (l : List α) : l.eraseDups.Nodup := by
  induction l using eraseDups_induction with
  | nil => exact List.nodup_nil
  | cons a l ih =>
    rw [List.eraseDups_cons, List.nodup_cons]
    constructor
    · intro ha
      have hmem := List.of_mem_filter (List.mem_eraseDups.mp ha)
      simp at hmem
    · exact ih

/-- Repetitions can be removed before or after a selection. -/
theorem filter_eraseDups (p : α → Bool) (l : List α) :
    l.eraseDups.filter p = (l.filter p).eraseDups := by
  induction l using eraseDups_induction with
  | nil => rfl
  | cons a l ih =>
    rw [List.eraseDups_cons, List.filter_cons, List.filter_cons, ih, List.filter_filter]
    cases hp : p a with
    | true =>
      rw [if_pos rfl, if_pos rfl, List.eraseDups_cons, List.filter_filter]
      have hcomm : (l.filter fun b => p b && !b == a) = l.filter fun b => (!b == a) && p b :=
        List.filter_congr fun b _ => Bool.and_comm ..
      rw [hcomm]
    | false =>
      rw [if_neg Bool.false_ne_true, if_neg Bool.false_ne_true]
      have hskip : (l.filter fun b => p b && !b == a) = l.filter p := by
        refine List.filter_congr fun b _ => ?_
        by_cases hb : b = a
        · simp [hb, hp]
        · simp [hb]
      rw [hskip]

end Lists

section Counters

variable {v : LineId → ℕ} {l : List LineId} {i i' k k' : ℕ}

/-- The predictions and repetitions of a list that ages like the list without
repetitions: a candidate is at 3 from the start, no candidate is repeated, or
saturation hides what the repetitions add. -/
def Unnoticed (v : LineId → ℕ) (l : List LineId) : Prop :=
  (∃ c ∈ l, 3 ≤ v c) ∨ l.Nodup ∨
  ((∃ c ∈ l, v c = 2) ∧ ∀ c ∈ l, 1 < l.count c → v c = 2) ∨
  (∀ c ∈ l, v c = 1 ∧ 2 ≤ l.count c ∨ v c = 0 ∧ l.count c = 2) ∨
  ∀ c ∈ l, v c = 0 ∧ 3 ≤ l.count c

theorem count_eraseDups {c : LineId} (hc : c ∈ l) : l.eraseDups.count c = 1 :=
  List.nodup_iff_count_eq_one.mp (nodup_eraseDups l) c (List.mem_eraseDups.mpr hc)

/-- The same line is evicted and the same predictions are left behind when, and
only when, every candidate ages alike in both lists. -/
theorem same_iff (hle : ∀ c ∈ l, v c ≤ 3) (h : FirstRipe 3 v l k i)
    (h' : FirstRipe 3 v l.eraseDups k' i') :
    (i' = i ∧ aged 3 v l.eraseDups k' = aged 3 v l k) ↔
      ∀ c ∈ l, min 3 (v c + k') = min 3 (v c + k * l.count c) := by
  constructor
  · intro hsame c hc
    have hvc := hle c hc
    have hcount := count_eraseDups hc
    have hat := congrFun hsame.2 c
    unfold aged at hat
    rw [hcount, Nat.mul_one] at hat
    omega
  · intro hsame
    constructor
    · have hfound := h'.found
      rw [find?_eraseDups] at hfound
      have hfind : l.find? (fun c => 3 ≤ v c + k' * l.eraseDups.count c) =
          l.find? (fun c => 3 ≤ v c + k * l.count c) := by
        refine List.find?_congr fun c hc => decide_eq_decide.mpr ?_
        have hat := hsame c hc
        rw [count_eraseDups hc, Nat.mul_one]
        omega
      rw [hfind, h.found] at hfound
      exact (Option.some.inj hfound).symm
    · funext c
      by_cases hc : c ∈ l
      · have hat := hsame c hc
        unfold aged
        rw [count_eraseDups hc, Nat.mul_one, hat]
      · rw [aged_of_notMem hc, aged_of_notMem (mt List.mem_eraseDups.mp hc)]

/-- The rounds of both lists are decided by the counters. -/
structure Rounds (v : LineId → ℕ) (l : List LineId) (k k' : ℕ) : Prop where
  pos : ∀ c ∈ l, 1 ≤ l.count c
  before : ∀ c ∈ l, v c + (k - 1) * l.count c < 3
  ripe : ∃ c ∈ l, 3 ≤ v c + k * l.count c
  before' : ∀ c ∈ l, v c + (k' - 1) < 3
  ripe' : ∃ c ∈ l, 3 ≤ v c + k'

theorem rounds_of_ripe (hlow : ∀ c ∈ l, v c < 3) (h : FirstRipe 3 v l k i)
    (h' : FirstRipe 3 v l.eraseDups k' i') : Rounds v l k k' := by
  have hi' : i' ∈ l := List.mem_eraseDups.mp h'.mem
  refine ⟨fun c hc => List.one_le_count_iff.mpr hc, fun c hc => ?_, ⟨i, h.mem, h.ripe⟩,
    fun c hc => ?_, i', hi', ?_⟩
  · cases k with
    | zero => simpa using hlow c hc
    | succ k => exact h.before k (Nat.lt_succ_self k) c hc
  · cases k' with
    | zero => exact hlow c hc
    | succ k' =>
      have hbefore := h'.before k' (Nat.lt_succ_self k') c (List.mem_eraseDups.mpr hc)
      rw [count_eraseDups hc, Nat.mul_one] at hbefore
      exact hbefore
  · have hripe := h'.ripe
    rw [count_eraseDups hi', Nat.mul_one] at hripe
    exact hripe

/-- Both lists need one to three rounds. -/
theorem Rounds.bounds (hr : Rounds v l k k') : (k = 1 ∨ k = 2 ∨ k = 3) ∧ (k' = 1 ∨ k' = 2 ∨ k' = 3) := by
  obtain ⟨c, hc, hripe⟩ := hr.ripe
  obtain ⟨c', hc', hripe'⟩ := hr.ripe'
  have hcount := hr.pos c hc
  have hbefore := hr.before c hc
  have hlow := hr.before' c hc
  have hbefore' := hr.before' c' hc'
  have hmul : (k - 1) * 1 ≤ (k - 1) * l.count c := Nat.mul_le_mul_left _ hcount
  constructor
  · have hpos : k ≠ 0 := by
      intro hzero
      rw [hzero, Nat.zero_mul] at hripe
      omega
    omega
  · omega

/-- Candidates age alike only in the listed cases. -/
theorem unnoticed_of_same (hr : Rounds v l k k')
    (hsame : ∀ c ∈ l, min 3 (v c + k') = min 3 (v c + k * l.count c)) : Unnoticed v l := by
  obtain ⟨c₁, hc₁, hripe⟩ := hr.ripe'
  have hcount₁ := hr.pos c₁ hc₁
  have hlow₁ := hr.before c₁ hc₁
  have hlow₁' := hr.before' c₁ hc₁
  have hnodup : (∀ c ∈ l, l.count c = 1) → Unnoticed v l := fun hcount =>
    .inr (.inl (List.nodup_iff_count_eq_one.mpr hcount))
  obtain ⟨hk, hk'⟩ := hr.bounds
  obtain hk' | hk' | hk' := hk'
  · subst hk'
    refine .inr (.inr (.inl ⟨⟨c₁, hc₁, by omega⟩, fun c hc hcount => ?_⟩))
    have hat := hsame c hc
    have hlow := hr.before c hc
    have hlow' := hr.before' c hc
    obtain hk | hk | hk := hk
    all_goals
      subst hk
      omega
  · subst hk'
    obtain hk | hk | hk := hk
    · subst hk
      refine .inr (.inr (.inr (.inl fun c hc => ?_)))
      have hat := hsame c hc
      have hlow' := hr.before' c hc
      omega
    · subst hk
      refine hnodup fun c hc => ?_
      have hat := hsame c hc
      have hlow := hr.before c hc
      have hlow' := hr.before' c hc
      have hcount := hr.pos c hc
      omega
    · subst hk
      omega
  · subst hk'
    obtain hk | hk | hk := hk
    · subst hk
      refine .inr (.inr (.inr (.inr fun c hc => ?_)))
      have hat := hsame c hc
      have hlow' := hr.before' c hc
      omega
    · subst hk
      refine .inr (.inr (.inr (.inl fun c hc => ?_)))
      have hat := hsame c hc
      have hlow := hr.before c hc
      have hlow' := hr.before' c hc
      omega
    · subst hk
      refine hnodup fun c hc => ?_
      have hlow := hr.before c hc
      have hcount := hr.pos c hc
      omega

/-- In the listed cases the rounds of both lists and the repetitions hide
each other. -/
theorem same_of_unnoticed (hr : Rounds v l k k') (hun : Unnoticed v l) {c : LineId} (hc : c ∈ l) :
    min 3 (v c + k') = min 3 (v c + k * l.count c) := by
  obtain ⟨c₀, hc₀, hripe⟩ := hr.ripe
  obtain ⟨c₁, hc₁, hripe'⟩ := hr.ripe'
  have hcount := hr.pos c hc
  have hlow := hr.before c hc
  have hlow' := hr.before' c hc
  have hlow₀' := hr.before' c₀ hc₀
  have hlow₁ := hr.before c₁ hc₁
  have hcount₁ := hr.pos c₁ hc₁
  -- the candidates that are ripe first decide the rounds
  have hrounds : ∀ {P : LineId → Prop}, (∀ d ∈ l, P d) → P c ∧ P c₀ ∧ P c₁ :=
    fun h => ⟨h c hc, h c₀ hc₀, h c₁ hc₁⟩
  obtain ⟨hk, hk'⟩ := hr.bounds
  obtain htop | hnodup | ⟨⟨d, hd, htwo⟩, hrep⟩ | hpairs | htriples := hun
  · obtain ⟨d, hd, htop⟩ := htop
    have hlow_d := hr.before' d hd
    omega
  · obtain ⟨h, h₀, h₁⟩ := hrounds (List.nodup_iff_count_eq_one.mp hnodup)
    rw [h] at hlow ⊢
    rw [h₀] at hripe
    rw [h₁] at hlow₁
    omega
  · have hlow_d := hr.before d hd
    have hlow_d' := hr.before' d hd
    have hcount_d := hr.pos d hd
    have hrep_c := hrep c hc
    obtain hk | hk | hk := hk
    all_goals
      subst hk
      omega
  · obtain ⟨h, h₀, h₁⟩ := hrounds hpairs
    obtain hk | hk | hk := hk
    all_goals
      subst hk
      omega
  · obtain ⟨h, h₀, h₁⟩ := hrounds htriples
    obtain hk | hk | hk := hk
    all_goals
      subst hk
      omega

/-- The first ripe candidates of both lists and the predictions they leave
agree exactly when the repetitions are not noticed. -/
theorem same_iff_unnoticed (hle : ∀ c ∈ l, v c ≤ 3) (h : FirstRipe 3 v l k i)
    (h' : FirstRipe 3 v l.eraseDups k' i') :
    (i' = i ∧ aged 3 v l.eraseDups k' = aged 3 v l k) ↔ Unnoticed v l := by
  rw [same_iff hle h h']
  by_cases htop : ∃ c ∈ l, 3 ≤ v c
  · obtain ⟨c, hc, hc3⟩ := htop
    have hk : k = 0 := h.rounds_eq unripe_zero ⟨c, hc, by omega⟩
    have hk' : k' = 0 := h'.rounds_eq unripe_zero ⟨c, List.mem_eraseDups.mpr hc, by omega⟩
    rw [hk, hk']
    constructor
    · intro _
      exact .inl ⟨c, hc, hc3⟩
    · intro _ d _
      rw [Nat.zero_mul]
  · have hlow : ∀ c ∈ l, v c < 3 := fun c hc => not_le.mp fun hge => htop ⟨c, hc, hge⟩
    have hr := rounds_of_ripe hlow h h'
    exact ⟨unnoticed_of_same hr, fun hun c hc => same_of_unnoticed hr hun hc⟩

end Counters

section StaticPrediction

open SRRIP SRRIPReplPolicy

variable {s s' : SRRIPReplPolicy} {l : List LineId} {p : LineId → Bool}

/-- Candidates above 3 are neither found nor aged. -/
theorem rankRound_filter (hp : ∀ c, s.rrpvArray c ≤ 3 ↔ p c = true) :
    s.rankRound l = s.rankRound (l.filter p) := by
  have hfind : (l.filter p).find? (fun c => s.rrpvArray c == 3) =
      l.find? (fun c => s.rrpvArray c == 3) := by
    rw [List.find?_filter]
    refine List.find?_congr fun c _ => ?_
    by_cases hc : s.rrpvArray c = 3
    · simp [hc, (hp c).mp hc.le]
    · simp [hc]
  have hage : age 3 s.rrpvArray (l.filter p) = age 3 s.rrpvArray l := by
    funext c
    rw [age_eq, age_eq]
    by_cases hc : p c = true
    · rw [List.count_filter hc]
    · have hgt : 3 < s.rrpvArray c := not_le.mp fun hle => hc ((hp c).mp hle)
      omega
  unfold SRRIPReplPolicy.rankRound
  rw [hfind, hage]

theorem rank_filter (s : SRRIPReplPolicy) (l : List LineId) :
    s.rank l = s.rank (l.filter fun c => s.rrpvArray c ≤ 3) := by
  have hsearch : ∀ fuel s', (∀ c, s'.rrpvArray c ≤ 3 ↔ decide (s.rrpvArray c ≤ 3) = true) →
      search (rankRound l) fuel s' =
        search (rankRound (l.filter fun c => s.rrpvArray c ≤ 3)) fuel s' := by
    intro fuel
    induction fuel with
    | zero => exact fun _ _ => rfl
    | succ fuel ih =>
      intro s' hs'
      rw [search, search, ← rankRound_filter hs']
      cases hround : s'.rankRound l with
      | inl b => rfl
      | inr s'' =>
        refine ih s'' fun c => ?_
        have hs'' : s''.rrpvArray = age 3 s'.rrpvArray l := by
          unfold SRRIPReplPolicy.rankRound at hround
          split at hround
          · cases hround
          · cases hround
            rfl
        rw [← hs' c, hs'', age_eq]
        omega
  exact hsearch 4 s fun c => decide_eq_true_iff.symm

theorem srrip_same_iff (s : SRRIPReplPolicy) (l : List LineId) :
    s.rank l.eraseDups = s.rank l ↔
      Unnoticed s.rrpvArray (l.filter fun c => s.rrpvArray c ≤ 3) := by
  rw [rank_filter s l.eraseDups, rank_filter s l, filter_eraseDups]
  have hle : ∀ c ∈ l.filter fun c => s.rrpvArray c ≤ 3, s.rrpvArray c ≤ 3 := by
    intro c hc
    have hkept := List.of_mem_filter hc
    exact of_decide_eq_true hkept
  by_cases hnil : (l.filter fun c => s.rrpvArray c ≤ 3) = []
  · rw [hnil]
    exact ⟨fun _ => .inr (.inl List.nodup_nil), fun _ => rfl⟩
  · obtain ⟨c, hc⟩ := List.exists_mem_of_ne_nil _ hnil
    have hne := List.ne_nil_of_mem (List.mem_eraseDups.mpr hc)
    have hle' : ∀ c ∈ (l.filter fun c => s.rrpvArray c ≤ 3).eraseDups, s.rrpvArray c ≤ 3 :=
      fun c hc => hle c (List.mem_eraseDups.mp hc)
    obtain ⟨i, k, hk, hripe, hsearch⟩ := SRRIP.rank_exact hle hnil
    obtain ⟨i', k', hk', hripe', hsearch'⟩ := SRRIP.rank_exact hle' hne
    rw [← same_iff_unnoticed hle hripe hripe', SRRIPReplPolicy.rank, SRRIPReplPolicy.rank, hsearch,
      hsearch', if_pos hk, if_pos hk', Option.some.injEq, Prod.mk.injEq, SRRIPReplPolicy.mk.injEq,
      and_iff_left rfl]

end StaticPrediction

section SignaturePrediction

open SHiP SHIPReplPolicy

variable {s : SHIPReplPolicy} {l : List LineId} {bestCand : LineId} {bestScore : ℕ}

/-- A score above 3 is never the maximum that ends the search. -/
theorem scan_above (hmax : s.maxRPV = 3) (hbest : 3 < bestScore) :
    ∃ best, s.scan l bestCand bestScore = .inr best ∧ 3 < best.2 := by
  induction l generalizing bestCand bestScore with
  | nil => exact ⟨(bestCand, bestScore), rfl, hbest⟩
  | cons d l ih =>
    simp only [SHIPReplPolicy.scan, hmax]
    by_cases hscore : bestScore ≤ s.array d
    · have hd : 3 < s.array d := hbest.trans_le hscore
      simp only [if_pos hscore, if_neg hd.ne']
      exact ih hd
    · simp only [if_neg hscore, if_neg hbest.ne']
      exact ih hbest

/-- The first candidate at 3 or above it decides. -/
theorem scan_top (hmax : s.maxRPV = 3) {c : LineId} (hc : l.find? (fun c => 3 ≤ s.array c) = some c)
    (hbest : bestScore < 3) :
    (s.array c = 3 ∧ s.scan l bestCand bestScore = .inl c) ∨
      s.array c ≠ 3 ∧ ∃ best, s.scan l bestCand bestScore = .inr best ∧ 3 < best.2 := by
  induction l generalizing bestCand bestScore with
  | nil => cases hc
  | cons d l ih =>
    simp only [SHIPReplPolicy.scan, hmax]
    by_cases hd : 3 ≤ s.array d
    · have hscore : bestScore ≤ s.array d := hbest.le.trans hd
      simp only [List.find?_cons, hd, decide_true, Option.some.injEq] at hc
      subst hc
      by_cases hhit : s.array d = 3
      · exact .inl ⟨hhit, by simp only [if_pos hscore, if_pos hhit]⟩
      · refine .inr ⟨hhit, ?_⟩
        simp only [if_pos hscore, if_neg hhit]
        exact scan_above hmax (lt_of_le_of_ne hd (Ne.symm hhit))
    · rw [List.find?_cons_of_neg (by simpa using hd)] at hc
      by_cases hscore : bestScore ≤ s.array d
      · have hhit : s.array d ≠ 3 := fun heq => hd heq.ge
        simp only [if_pos hscore, if_neg hhit]
        exact ih hc (not_le.mp hd)
      · simp only [if_neg hscore, if_neg hbest.ne]
        exact ih hc hbest

/-- A candidate at 3 or above it leaves no round to age in: the first one is
evicted, or the search does not end. -/
theorem rank_of_top (hmax : s.maxRPV = 3) {c : LineId}
    (hc : l.find? (fun c => 3 ≤ s.array c) = some c) :
    s.rank l = if s.array c = 3 then some (c, s) else none := by
  unfold SHIPReplPolicy.rank
  rw [search]
  cases (scan_top hmax hc (Nat.succ_pos 2) : _ ∨ s.array c ≠ 3 ∧ ∃ best, s.scan l (2 ^ 32 - 1) 0 = _ ∧ _) with
  | inl hhit =>
    obtain ⟨hthree, hscan⟩ := hhit
    simp only [SHIPReplPolicy.rankRound, hscan, if_pos hthree]
  | inr habove =>
    obtain ⟨hthree, best, hscan, hgt⟩ := habove
    simp only [SHIPReplPolicy.rankRound, hscan, if_neg hthree]
    have hnext : ∀ r : SHIPReplPolicy.Ranking, r.policy.maxRPV = 3 ∧ 3 < r.bestScore →
        ∃ r', SHIPReplPolicy.rankRound l r = .inr r' ∧ r'.policy.maxRPV = 3 ∧ 3 < r'.bestScore := by
      intro r hr
      obtain ⟨best', hscan', hgt'⟩ := @scan_above r.policy l r.bestCand r.bestScore hr.1 hr.2
      refine ⟨⟨{ r.policy with array := age 3 r.policy.array l }, best'.1, best'.2⟩, ?_, hr.1, hgt'⟩
      simp only [SHIPReplPolicy.rankRound, hscan']
    exact search_none hnext 4 ⟨hmax, hgt⟩

theorem ship_same_iff (hmax : s.maxRPV = 3) (l : List LineId) :
    s.rank l.eraseDups = s.rank l ↔ Unnoticed s.array l := by
  cases htop : l.find? (fun c => 3 ≤ s.array c) with
  | some c =>
    have htop' : l.eraseDups.find? (fun c => 3 ≤ s.array c) = some c := by
      rw [find?_eraseDups, htop]
    rw [rank_of_top hmax htop, rank_of_top hmax htop']
    have hc : 3 ≤ s.array c := by
      have hfound := List.find?_some htop
      exact of_decide_eq_true hfound
    exact ⟨fun _ => .inl ⟨c, List.mem_of_find?_eq_some htop, hc⟩, fun _ => rfl⟩
  | none =>
    have hle : ∀ c ∈ l, s.array c ≤ 3 := by
      intro c hc
      have hlow := List.find?_eq_none.mp htop c hc
      rw [decide_eq_true_iff] at hlow
      omega
    cases l with
    | nil => exact ⟨fun _ => .inr (.inl List.nodup_nil), fun _ => rfl⟩
    | cons d l =>
      have hne : (d :: l).eraseDups ≠ [] := List.ne_nil_of_mem (List.mem_eraseDups.mpr List.mem_cons_self)
      have hle' : ∀ c ∈ (d :: l).eraseDups, s.array c ≤ 3 := fun c hc => hle c (List.mem_eraseDups.mp hc)
      obtain ⟨i, k, hk, hripe, hsearch⟩ := SHiP.rank_exact hmax hle (List.cons_ne_nil d l)
      obtain ⟨i', k', hk', hripe', hsearch'⟩ := SHiP.rank_exact hmax hle' hne
      rw [← same_iff_unnoticed hle hripe hripe', SHIPReplPolicy.rank, SHIPReplPolicy.rank, hsearch,
        hsearch', if_pos (by omega), if_pos (by omega), Option.some.injEq, Prod.mk.injEq,
        SHIPReplPolicy.mk.injEq]
      simp only [true_and, and_true]

end SignaturePrediction

/-- For every candidate list and every state, each ranking evicts the same line
and leaves the same predictions as for the list without later repetitions, or
answers neither list, exactly when the repetitions are not noticed. A
prediction above 3 is passed over by the one and stops the other. -/
theorem repetitions_unnoticed_iff (s : SRRIP.SRRIPReplPolicy) {t : SHiP.SHIPReplPolicy}
    (ht : t.maxRPV = 3) (l : List LineId) :
    (s.rank l.eraseDups = s.rank l ↔ Unnoticed s.rrpvArray (l.filter fun c => s.rrpvArray c ≤ 3)) ∧
      (t.rank l.eraseDups = t.rank l ↔ Unnoticed t.array l) :=
  ⟨srrip_same_iff s l, ship_same_iff ht l⟩

/-- The predictions of three lines. -/
def threeLines : LineId → ℕ
  | 0 => 1
  | 1 => 2
  | _ => 0

/-- A list in which the line at 2 is repeated next to others that are not. -/
theorem repetitions_unnoticed_at_two :
    (⟨threeLines, fun _ => false⟩ : SRRIP.SRRIPReplPolicy).rank [1, 0, 1].eraseDups =
      (⟨threeLines, fun _ => false⟩ : SRRIP.SRRIPReplPolicy).rank [1, 0, 1] := by
  have hiff := (repetitions_unnoticed_iff ⟨threeLines, fun _ => false⟩
    (t:=.init 3 7 16384) rfl [1, 0, 1]).1
  refine hiff.mpr (.inr (.inr (.inl ⟨⟨1, by decide, rfl⟩, ?_⟩)))
  decide

/-- The walk seeds lines 0 and 1 and finds lines 2 and 0 behind them. Line 0 is
listed twice and ages from 1 to 3 in the round in which line 1 does; it is
evicted in the place of line 1. -/
theorem repetition_noticed :
    ((⟨threeLines, fun _ => false⟩ : SRRIP.SRRIPReplPolicy).rank [0, 1, 2, 0]).map Prod.fst = some 0 ∧
    ((⟨threeLines, fun _ => false⟩ : SRRIP.SRRIPReplPolicy).rank [0, 1, 2, 0].eraseDups).map Prod.fst =
      some 1 ∧
    (({ SHiP.SHIPReplPolicy.init 3 7 16384 with array := threeLines } : SHiP.SHIPReplPolicy).rank
      [0, 1, 2, 0]).map Prod.fst = some 0 ∧
    (({ SHiP.SHIPReplPolicy.init 3 7 16384 with array := threeLines } : SHiP.SHIPReplPolicy).rank
      [0, 1, 2, 0].eraseDups).map Prod.fst = some 1 := by
  refine ⟨rfl, rfl, rfl, rfl⟩

end Zsim.RepeatedCandidates
