import Zsim.Ageing
import Zsim.HitHistory
import Zsim.PolicyRuns
import Mathlib.Data.List.Find
import Mathlib.Data.List.Range

/-!
# Expected hit counts

Every line carries a re-reference prediction, the hits of its block so far and
the further hits expected of it. A block that leaves, or that reaches seven
hits, enters its count in the hit history table; a block that is filled expects
the average of the counts found there. The ranking takes the first candidate
with score -3, which expects no hit and is predicted in the distant future, and
ages every line of the cache while there is none.
-/

namespace Zsim.EHC

open MemoryHierarchy DrivenArrays GuardedRuns PolicyRuns Ageing HitHistory

/-- `EHCReplPolicy`; the array of `RPVMeta` is the pair of `RPV` and `lineAddr`. -/
structure EHCReplPolicy where
  numLines : ℕ
  RPV : LineId → ℤ
  lineAddr : LineId → Address
  CHCArray : LineId → ℕ
  EFHArray : LineId → ℕ
  HHT : Table ℕ

namespace EHCReplPolicy

/-- The constructor. -/
def init (maxRPV : ℤ) (numLines : ℕ) : EHCReplPolicy where
  numLines := numLines
  RPV _ := maxRPV
  lineAddr _ := 0
  CHCArray _ := 0
  EFHArray _ := 1
  HHT := empty

/-- The rounded average of the last four hit counts. -/
def average (hitCountQueue : Fin 4 → ℕ) : ℕ :=
  (hitCountQueue 0 + hitCountQueue 1 + hitCountQueue 2 + hitCountQueue 3 + 2) / 4

/-- What a block of the address is expected to be hit. -/
def expectedHits (HHT : Table ℕ) (lineAddr : Address) : ℕ :=
  match searchHHT HHT (tagOf lineAddr) (indexOf lineAddr) with
  | none => 1
  | some way => average (HHT (indexOf lineAddr) way).hitCountQueue

/-- `EHCReplPolicy::update`; the counters are bytes. -/
def update (s : EHCReplPolicy) (id : LineId) (req : MemReq) : EHCReplPolicy :=
  if s.RPV id = -1 then
    { s with
      RPV := Function.update s.RPV id 2
      lineAddr := Function.update s.lineAddr id req.lineAddr
      CHCArray := Function.update s.CHCArray id 0
      EFHArray := Function.update s.EFHArray id (expectedHits s.HHT req.lineAddr) }
  else
    let hits := (s.CHCArray id + 1) % 256
    { s with
      RPV := Function.update s.RPV id 0
      CHCArray := Function.update s.CHCArray id (if hits = 7 then 0 else hits)
      HHT := if hits = 7 then updateHHT s.HHT req.lineAddr hits else s.HHT
      EFHArray := Function.update s.EFHArray id ((s.EFHArray id + 255) % 256) }

/-- `EHCReplPolicy::replaced`. -/
def replaced (s : EHCReplPolicy) (id : LineId) : EHCReplPolicy :=
  { s with
    RPV := Function.update s.RPV id (-1)
    HHT := updateHHT s.HHT (s.lineAddr id) (s.CHCArray id) }

/-- `score`. -/
def score (s : EHCReplPolicy) (id : LineId) : ℤ := s.EFHArray id - s.RPV id

/-- The local variables of `rank`, which outlive a round. -/
structure Ranking where
  policy : EHCReplPolicy
  bestCand : LineId
  bestScore : ℤ

/-- The first loop of a round: the answer, or the best candidate so far. -/
def scan (s : EHCReplPolicy) : List LineId → LineId → ℤ → LineId ⊕ (LineId × ℤ)
  | [], bestCand, bestScore => .inr (bestCand, bestScore)
  | c :: cands, bestCand, bestScore =>
    let best := if s.score c ≤ bestScore then (c, s.score c) else (bestCand, bestScore)
    if best.2 = -3 then .inl best.1 else scan s cands best.1 best.2

/-- The other two loops of a round: every line of the cache is at 3, or ages. -/
def ageAll (s : EHCReplPolicy) : EHCReplPolicy :=
  { s with RPV := age 3 s.RPV (List.range s.numLines) }

/-- One round of `rank`. -/
def rankRound (cands : List LineId) (r : Ranking) : (LineId × EHCReplPolicy) ⊕ Ranking :=
  match r.policy.scan cands r.bestCand r.bestScore with
  | .inl bestCand => .inl (bestCand, r.policy)
  | .inr best =>
    if ∀ i < r.policy.numLines, r.policy.RPV i = 3 then .inl (best.1, r.policy)
    else .inr ⟨r.policy.ageAll, best.1, best.2⟩

/-- `EHCReplPolicy::rank`. Three rounds age every line to 3, so the fourth is
the last that can be needed. -/
def rank (s : EHCReplPolicy) (cands : List LineId) : Option (LineId × EHCReplPolicy) :=
  search (rankRound cands) 4 ⟨s, 2 ^ 32 - 1, 2 ^ 31 - 1⟩

end EHCReplPolicy

/-- The policy interface of `EHCReplPolicy`. -/
def ehc : ReplPolicy EHCReplPolicy where
  update s id req := s.update id req
  replaced s id := s.replaced id
  rankCands s _ _ cands := s.rank cands

/-- Bounds on the counters of the lines and of the table. -/
structure Within (numLines CHC queue EFH : ℕ) (s : EHCReplPolicy) : Prop where
  numLines : s.numLines = numLines
  RPV : ∀ i, 0 ≤ s.RPV i ∧ s.RPV i ≤ 3
  CHC : ∀ i, s.CHCArray i ≤ CHC
  queue : Everywhere (fun _ _ hits => hits ≤ queue) s.HHT
  EFH : ∀ i, s.EFHArray i ≤ EFH

section Bounds

variable {numLines C Q E : ℕ} {s : EHCReplPolicy} {id : LineId} {req : MemReq}

theorem forall_update {α : Type} (p : α → Prop) {v : LineId → α} {x : α} (h : ∀ i, p (v i))
    (hx : p x) (i : LineId) : p (Function.update v id x i) := by
  by_cases hi : i = id
  · subst hi
    rwa [Function.update_self]
  · rw [Function.update_of_ne hi]
    exact h i

theorem within_init (hE : 1 ≤ E) : Within numLines C Q E (.init 3 numLines) := by
  have hRPV : (0 : ℤ) ≤ 3 ∧ (3 : ℤ) ≤ 3 := by omega
  exact ⟨rfl, fun _ => hRPV, fun _ => Nat.zero_le C, fun _ _ _ => Nat.zero_le Q, fun _ => hE⟩

/-- A call of `update` that no `replaced` precedes. -/
theorem update_hit (h : s.RPV id ≠ -1) : s.update id req =
    { s with
      RPV := Function.update s.RPV id 0
      CHCArray := Function.update s.CHCArray id
        (if (s.CHCArray id + 1) % 256 = 7 then 0 else (s.CHCArray id + 1) % 256)
      HHT := if (s.CHCArray id + 1) % 256 = 7 then
          updateHHT s.HHT req.lineAddr ((s.CHCArray id + 1) % 256) else s.HHT
      EFHArray := Function.update s.EFHArray id ((s.EFHArray id + 255) % 256) } :=
  if_neg h

/-- A fill enters the count of the old block before it looks for the new one's. -/
theorem update_replaced : (s.replaced id).update id req =
    { s with
      RPV := Function.update s.RPV id 2
      lineAddr := Function.update s.lineAddr id req.lineAddr
      CHCArray := Function.update s.CHCArray id 0
      HHT := updateHHT s.HHT (s.lineAddr id) (s.CHCArray id)
      EFHArray := Function.update s.EFHArray id (EHCReplPolicy.expectedHits
        (updateHHT s.HHT (s.lineAddr id) (s.CHCArray id)) req.lineAddr) } := by
  have hRPV : (s.replaced id).RPV id = -1 := Function.update_self ..
  rw [EHCReplPolicy.update, if_pos hRPV]
  simp only [EHCReplPolicy.replaced, Function.update_idem]

/-- A hit may count up to the byte's end, and down to zero. -/
theorem Within.hit (h : Within numLines C Q E s) (hC : C = 6 ∨ C = 255) (hQ : 7 ≤ Q)
    (hE : 0 < s.EFHArray id ∨ 255 ≤ E) : Within numLines C Q E (s.update id req) := by
  have hRPV : s.RPV id ≠ -1 := by
    have hnonneg := (h.RPV id).1
    omega
  have hchc := h.CHC id
  have hefh := h.EFH id
  rw [update_hit hRPV]
  refine ⟨h.numLines, forall_update (fun v => 0 ≤ v ∧ v ≤ 3) h.RPV (by omega),
    forall_update (· ≤ C) h.CHC ?_, ?_, forall_update (· ≤ E) h.EFH (by omega)⟩
  · split <;> omega
  · dsimp only
    split
    · next h7 => exact everywhere_updateHHT (fun _ _ => Nat.zero_le Q) h.queue (h7 ▸ hQ)
    · exact h.queue

/-- A fill takes its expectation from the table. -/
theorem Within.fill (h : Within numLines C Q E s) (hCQ : C ≤ Q) (hQE : Q ≤ E) (hE : 1 ≤ E) :
    Within numLines C Q E ((s.replaced id).update id req) := by
  have hqueue : Everywhere (fun _ _ hits => hits ≤ Q)
      (updateHHT s.HHT (s.lineAddr id) (s.CHCArray id)) :=
    everywhere_updateHHT (fun _ _ => Nat.zero_le Q) h.queue ((h.CHC id).trans hCQ)
  rw [update_replaced]
  refine ⟨h.numLines, forall_update (fun v => 0 ≤ v ∧ v ≤ 3) h.RPV (by decide),
    forall_update (· ≤ C) h.CHC (Nat.zero_le C), hqueue, forall_update (· ≤ E) h.EFH ?_⟩
  unfold EHCReplPolicy.expectedHits
  split
  · exact hE
  · next way _ =>
    have h0 := hqueue (indexOf req.lineAddr) way 0
    have h1 := hqueue (indexOf req.lineAddr) way 1
    have h2 := hqueue (indexOf req.lineAddr) way 2
    have h3 := hqueue (indexOf req.lineAddr) way 3
    simp only [EHCReplPolicy.average]
    omega

end Bounds

namespace EHCReplPolicy

/-- Every line after some rounds of ageing. -/
def aged (s : EHCReplPolicy) (rounds : ℕ) : EHCReplPolicy :=
  { s with RPV := fun i => if i < s.numLines then min 3 (s.RPV i + rounds) else s.RPV i }

/-- The candidate expects no hit and has the greatest prediction. -/
def Dead (s : EHCReplPolicy) (rounds : ℕ) (c : LineId) : Prop :=
  s.EFHArray c = 0 ∧ 3 ≤ s.RPV c + rounds

instance (s : EHCReplPolicy) (rounds : ℕ) (c : LineId) : Decidable (s.Dead rounds c) :=
  inferInstanceAs (Decidable (_ ∧ _))

/-- One step of the scan without its early answer. -/
def better (s : EHCReplPolicy) (best : LineId × ℤ) (c : LineId) : LineId × ℤ :=
  if s.score c ≤ best.2 then (c, s.score c) else best

/-- The line `rank` evicts: the first candidate that expects no hit and has
been predicted for longest, or, when each expects some, the last of those that
expect fewest. -/
def Evicts (s : EHCReplPolicy) (cands : List LineId) (i : LineId) : Prop :=
  (∃ rounds, (∀ k < rounds, ∀ c ∈ cands, ¬ s.Dead k c) ∧
    cands.find? (fun c => s.Dead rounds c) = some i) ∨
  (∀ c ∈ cands, 0 < s.EFHArray c) ∧ ∃ earlier later, cands = earlier ++ i :: later ∧
    (∀ c ∈ cands, s.EFHArray i ≤ s.EFHArray c) ∧ ∀ c ∈ later, s.EFHArray i < s.EFHArray c

end EHCReplPolicy

section Ranking

variable {numLines C Q E : ℕ} {s s' : EHCReplPolicy} {cands l : List LineId} {i j : LineId}
  {b : LineId × ℤ} {rounds : ℕ}

/-- While no score has been -3 the scan looks for the first one that is. -/
theorem scan_eq (hlow : ∀ c ∈ l, -3 ≤ s.score c) (hb : -3 < b.2) :
    s.scan l b.1 b.2 = match l.find? (fun c => s.score c == -3) with
      | some c => .inl c
      | none => .inr (l.foldl s.better b) := by
  induction l generalizing b with
  | nil => rfl
  | cons c l ih =>
    obtain ⟨hc, hl⟩ := List.forall_mem_cons.mp hlow
    rw [EHCReplPolicy.scan, List.foldl_cons, ← EHCReplPolicy.better]
    by_cases hdead : s.score c = -3
    · have hbest : s.better b c = (c, -3) := by
        rw [EHCReplPolicy.better, if_pos (by omega), hdead]
      simp [hbest, hdead]
    · have hbest : -3 < (s.better b c).2 := by
        unfold EHCReplPolicy.better
        split
        · exact lt_of_le_of_ne hc (Ne.symm hdead)
        · exact hb
      rw [List.find?_cons_of_neg (by simpa using hdead), ← ih hl hbest]
      exact if_neg hbest.ne'

/-- The best of a list is the last of the least scores, if any reaches the
score to beat. -/
theorem foldl_better (l : List LineId) (b : LineId × ℤ) :
    (l.foldl s.better b = b ∧ ∀ c ∈ l, b.2 < s.score c) ∨
    ∃ earlier i later, l.foldl s.better b = (i, s.score i) ∧ l = earlier ++ i :: later ∧
      s.score i ≤ b.2 ∧ (∀ c ∈ l, s.score i ≤ s.score c) ∧ ∀ c ∈ later, s.score i < s.score c := by
  induction l generalizing b with
  | nil => exact .inl ⟨rfl, nofun⟩
  | cons c l ih =>
    rw [List.foldl_cons]
    by_cases hle : s.score c ≤ b.2
    · rw [EHCReplPolicy.better, if_pos hle]
      rcases ih (c, s.score c) with ⟨heq, hlt⟩ | ⟨earlier, i, later, heq, hl, hi, hmin, hlater⟩
      · exact .inr ⟨[], c, l, heq, rfl, hle,
          List.forall_mem_cons.mpr ⟨le_rfl, fun d hd => (hlt d hd).le⟩, hlt⟩
      · exact .inr ⟨c :: earlier, i, later, heq, by rw [hl, List.cons_append], hi.trans hle,
          List.forall_mem_cons.mpr ⟨hi, hmin⟩, hlater⟩
    · rw [EHCReplPolicy.better, if_neg hle]
      rw [not_le] at hle
      rcases ih b with ⟨heq, hlt⟩ | ⟨earlier, i, later, heq, hl, hi, hmin, hlater⟩
      · exact .inl ⟨heq, List.forall_mem_cons.mpr ⟨hle, hlt⟩⟩
      · exact .inr ⟨c :: earlier, i, later, heq, by rw [hl, List.cons_append], hi,
          List.forall_mem_cons.mpr ⟨hi.trans hle.le, hmin⟩, hlater⟩

/-- What the ranking rests on: predictions from 0 to 3, and expectations that
are bytes. -/
structure Ready (numLines : ℕ) (s : EHCReplPolicy) : Prop where
  RPV : ∀ i < numLines, 0 ≤ s.RPV i ∧ s.RPV i ≤ 3
  EFH : ∀ i < numLines, s.EFHArray i ≤ 255
  numLines : s.numLines = numLines

theorem Within.ready (h : Within numLines C Q E s) (hE : E ≤ 255) : Ready numLines s :=
  ⟨fun i _ => h.RPV i, fun i _ => (h.EFH i).trans hE, h.numLines⟩

theorem aged_zero (h : Ready numLines s) : s.aged 0 = s := by
  have hRPV : (s.aged 0).RPV = s.RPV := by
    funext i
    simp only [EHCReplPolicy.aged]
    split
    · next hi =>
      have h3 := (h.RPV i (h.numLines ▸ hi)).2
      omega
    · rfl
  exact congrArg (fun RPV => { s with RPV := RPV }) hRPV

/-- One more round. -/
theorem ageAll_aged (s : EHCReplPolicy) (rounds : ℕ) :
    (s.aged rounds).ageAll = s.aged (rounds + 1) := by
  have hRPV : (s.aged rounds).ageAll.RPV = (s.aged (rounds + 1)).RPV := by
    funext i
    simp only [EHCReplPolicy.ageAll, age_of_nodup List.nodup_range, EHCReplPolicy.aged,
      List.mem_range]
    by_cases hlt : i < s.numLines
    · simp only [hlt, if_true, true_and]
      split <;> omega
    · simp [hlt]
  exact congrArg (fun RPV => { s with RPV := RPV }) hRPV

theorem Within.aged (h : Within numLines C Q E s) : Within numLines C Q E (s.aged rounds) := by
  refine ⟨h.numLines, fun i => ?_, h.CHC, h.queue, h.EFH⟩
  obtain ⟨h0, h3⟩ := h.RPV i
  simp only [EHCReplPolicy.aged]
  split <;> omega

theorem Ready.aged (h : Ready numLines s) : Ready numLines (s.aged rounds) := by
  refine ⟨fun i hi => ?_, h.EFH, h.numLines⟩
  obtain ⟨h0, h3⟩ := h.RPV i hi
  simp only [EHCReplPolicy.aged]
  split <;> omega

/-- A score of -3 is a dead candidate. -/
theorem score_aged (h : Ready numLines s) (hi : i < numLines) :
    (s.aged rounds).score i = -3 ↔ s.Dead rounds i := by
  have h3 := (h.RPV i hi).2
  rw [← h.numLines] at hi
  simp only [EHCReplPolicy.score, EHCReplPolicy.aged, EHCReplPolicy.Dead, if_pos hi]
  omega

theorem dead_of_found (h : cands.find? (fun c => s.Dead rounds c) = some i) : s.Dead rounds i := by
  have hi := List.find?_some h
  exact of_decide_eq_true hi

/-- What the ranking does: it evicts the line the counters of the candidates
tell, and ages every line of the cache until a candidate is dead or nothing is
left to age. -/
structure Ranked (s : EHCReplPolicy) (cands : List LineId) (i : LineId) (s' : EHCReplPolicy)
    (rounds : ℕ) : Prop where
  policy : s' = s.aged rounds
  evicts : s.Evicts cands i
  before : ∀ k < rounds, ∀ c ∈ cands, ¬ s.Dead k c
  ended : (∃ c ∈ cands, s.Dead rounds c) ∨ ∀ i < s.numLines, 3 ≤ s.RPV i + rounds

/-- The state of the ranking after some rounds. -/
structure Seeking (s : EHCReplPolicy) (cands : List LineId) (rounds : ℕ)
    (r : EHCReplPolicy.Ranking) : Prop where
  policy : r.policy = s.aged rounds
  before : ∀ k < rounds, ∀ c ∈ cands, ¬ s.Dead k c
  count : rounds ≤ 3
  bestScore : -3 < r.bestScore
  /-- Ageing only lowers scores, so the score to beat is always reached. -/
  reached : ∃ c ∈ cands, (s.aged rounds).score c ≤ r.bestScore

/-- The scan of a round. -/
theorem Seeking.scan {r : EHCReplPolicy.Ranking} (h : Ready numLines s)
    (hlt : ∀ c ∈ cands, c < numLines) (hr : Seeking s cands rounds r) :
    r.policy.scan cands r.bestCand r.bestScore =
      match cands.find? (fun c => s.Dead rounds c) with
      | some c => .inl c
      | none => .inr (cands.foldl (s.aged rounds).better (r.bestCand, r.bestScore)) := by
  have hlow : ∀ c ∈ cands, -3 ≤ (s.aged rounds).score c := by
    intro c hc
    have h3 := (h.aged : Ready numLines (s.aged rounds)).RPV c (hlt c hc)
    simp only [EHCReplPolicy.score]
    omega
  have hfind : cands.find? (fun c => (s.aged rounds).score c == -3) =
      cands.find? (fun c => s.Dead rounds c) := by
    refine List.find?_congr fun c hc => ?_
    rw [Bool.eq_iff_iff, beq_iff_eq, decide_eq_true_iff]
    exact score_aged h (hlt c hc)
  rw [hr.policy, ← hfind]
  exact scan_eq (b:=(r.bestCand, r.bestScore)) hlow hr.bestScore

/-- A round that answers. -/
theorem Seeking.done {r : EHCReplPolicy.Ranking} (h : Ready numLines s)
    (hlt : ∀ c ∈ cands, c < numLines) (hr : Seeking s cands rounds r)
    (ha : EHCReplPolicy.rankRound cands r = .inl (i, s')) : Ranked s cands i s' rounds := by
  simp only [EHCReplPolicy.rankRound, hr.scan h hlt] at ha
  cases hf : cands.find? (fun c => s.Dead rounds c) with
  | some c =>
    rw [hf] at ha
    cases ha
    exact ⟨hr.policy, .inl ⟨rounds, hr.before, hf⟩, hr.before,
      .inl ⟨i, List.mem_of_find?_eq_some hf, dead_of_found hf⟩⟩
  | none =>
    have hnone : ∀ c ∈ cands, ¬ s.Dead rounds c := fun c hc =>
      of_decide_eq_false (by simpa using List.find?_eq_none.mp hf c hc)
    rw [hf] at ha
    dsimp only at ha
    split at ha
    · next hall =>
      cases ha
      have htop : ∀ j < numLines, 3 ≤ s.RPV j + rounds := by
        intro j hj
        rw [← h.numLines] at hj
        have h3 := hall j (by rw [hr.policy]; exact hj)
        rw [hr.policy] at h3
        simp only [EHCReplPolicy.aged, if_pos hj] at h3
        omega
      have hscore : ∀ c ∈ cands, (s.aged rounds).score c = s.EFHArray c - 3 := by
        intro c hc
        have hc' := hlt c hc
        have h3 := htop c hc'
        rw [← h.numLines] at hc'
        simp only [EHCReplPolicy.score, EHCReplPolicy.aged, if_pos hc']
        omega
      have hpos : ∀ c ∈ cands, 0 < s.EFHArray c := by
        intro c hc
        by_contra h0
        exact hnone c hc ⟨by omega, htop c (hlt c hc)⟩
      refine ⟨hr.policy, .inr ⟨hpos, ?_⟩, hr.before, .inr fun j hj => htop j (h.numLines ▸ hj)⟩
      rcases foldl_better (s:=s.aged rounds) cands (r.bestCand, r.bestScore) with
        ⟨-, habove⟩ | ⟨earlier, i, later, heq, hl, -, hmin, hlater⟩
      · obtain ⟨c, hc, hle⟩ := hr.reached
        exact absurd (habove c hc) (not_lt.mpr hle)
      · rw [heq]
        have hi : i ∈ cands := hl ▸ List.mem_append_right _ List.mem_cons_self
        refine ⟨earlier, later, hl, fun c hc => ?_, fun c hc => ?_⟩
        · have hle := hmin c hc
          rw [hscore i hi, hscore c hc] at hle
          dsimp only
          omega
        · have hcmem : c ∈ cands := hl ▸ List.mem_append_right _ (List.mem_cons_of_mem _ hc)
          have hlt' := hlater c hc
          rw [hscore i hi, hscore c hcmem] at hlt'
          dsimp only
          omega
    · cases ha

/-- A round that ages the cache. -/
theorem Seeking.next {r r' : EHCReplPolicy.Ranking} (h : Ready numLines s)
    (hlt : ∀ c ∈ cands, c < numLines) (hr : Seeking s cands rounds r)
    (ha : EHCReplPolicy.rankRound cands r = .inr r') : Seeking s cands (rounds + 1) r' := by
  simp only [EHCReplPolicy.rankRound, hr.scan h hlt] at ha
  cases hf : cands.find? (fun c => s.Dead rounds c) with
  | some c =>
    rw [hf] at ha
    cases ha
  | none =>
    have hnone : ∀ c ∈ cands, ¬ s.Dead rounds c := fun c hc =>
      of_decide_eq_false (by simpa using List.find?_eq_none.mp hf c hc)
    rw [hf] at ha
    dsimp only at ha
    split at ha
    · cases ha
    · next hall =>
      cases ha
      have hbefore : ∀ k < rounds + 1, ∀ c ∈ cands, ¬ s.Dead k c := by
        intro k hk
        rcases Nat.lt_succ_iff_lt_or_eq.mp hk with hk | rfl
        · exact hr.before k hk
        · exact hnone
      have hcount : rounds + 1 ≤ 3 := by
        by_contra hge
        refine hall fun j hj => ?_
        rw [hr.policy] at hj
        have h0 := (h.RPV j (h.numLines ▸ hj)).1
        rw [hr.policy]
        simp only [EHCReplPolicy.aged] at hj ⊢
        rw [if_pos hj]
        omega
      have hlower : ∀ c, (s.aged (rounds + 1)).score c ≤ (s.aged rounds).score c := by
        intro c
        simp only [EHCReplPolicy.score, EHCReplPolicy.aged]
        split <;> omega
      rw [← hr.policy] at hlower
      have hpolicy : r.policy.ageAll = s.aged (rounds + 1) := by rw [hr.policy, ageAll_aged]
      rcases foldl_better (s:=s.aged rounds) cands (r.bestCand, r.bestScore) with
        ⟨heq, -⟩ | ⟨earlier, i, later, heq, hl, -, -, -⟩
      · rw [heq]
        obtain ⟨c, hc, hle⟩ := hr.reached
        rw [← hr.policy] at hle
        exact ⟨hpolicy, hbefore, hcount, hr.bestScore, c, hc, (hlower c).trans hle⟩
      · rw [heq]
        have hi : i ∈ cands := hl ▸ List.mem_append_right _ List.mem_cons_self
        have hscore : -3 < (s.aged rounds).score i := by
          refine lt_of_le_of_ne ?_ fun h3 => hnone i hi ((score_aged h (hlt i hi)).mp h3.symm)
          have h3 := (h.aged : Ready numLines (s.aged rounds)).RPV i (hlt i hi)
          simp only [EHCReplPolicy.score]
          omega
        rw [← hr.policy] at hscore ⊢
        exact ⟨hpolicy, hbefore, hcount, hscore, i, hi, hlower i⟩

/-- The ranking answers with a candidate, in the round in which it finds it. -/
theorem rank_exact (h : Ready numLines s) (hne : cands ≠ []) (hlt : ∀ c ∈ cands, c < numLines) :
    ∃ i s' rounds, rounds < 4 ∧ Ranked s cands i s' rounds ∧
      ∀ fuel, search (EHCReplPolicy.rankRound cands) fuel ⟨s, 2 ^ 32 - 1, 2 ^ 31 - 1⟩ =
        if rounds < fuel then some (i, s') else none := by
  obtain ⟨c₀, hc₀⟩ := List.exists_mem_of_ne_nil cands hne
  have hstart : Seeking s cands 0 ⟨s, 2 ^ 32 - 1, 2 ^ 31 - 1⟩ := by
    refine ⟨(aged_zero h).symm, nofun, Nat.zero_le 3,
      show (-3 : ℤ) < 2 ^ 31 - 1 by decide, c₀, hc₀, ?_⟩
    have hefh := h.EFH c₀ (hlt c₀ hc₀)
    have hrpv := (h.RPV c₀ (hlt c₀ hc₀)).1
    rw [aged_zero h, EHCReplPolicy.score]
    dsimp only
    omega
  have hdone : ∀ k r b, Seeking s cands k r → EHCReplPolicy.rankRound cands r = .inl b →
      Ranked s cands b.1 b.2 k := fun k r b hr hb => hr.done h hlt hb
  obtain ⟨k, b, hk, hranked, hsearch⟩ := search_exact (n:=4) hdone
    (fun k r r' hr hr' => hr.next h hlt hr') (fun r hr => absurd hr.count (by decide)) hstart
  exact ⟨b.1, b.2, k, hk, hranked, hsearch⟩

/-- The ranking always answers, with a candidate. -/
theorem rank_spec (h : Within numLines C Q E s) (hE : E ≤ 255) (hne : cands ≠ [])
    (hlt : ∀ c ∈ cands, c < numLines) :
    ∃ i s' rounds, s.rank cands = some (i, s') ∧ Ranked s cands i s' rounds := by
  obtain ⟨i, s', rounds, hk, hranked, hsearch⟩ := rank_exact (h.ready hE) hne hlt
  exact ⟨i, s', rounds, (hsearch 4).trans (if_pos hk), hranked⟩

theorem EHCReplPolicy.Evicts.mem (h : s.Evicts cands i) : i ∈ cands := by
  rcases h with ⟨rounds, -, hf⟩ | ⟨-, earlier, later, rfl, -⟩
  · exact List.mem_of_find?_eq_some hf
  · exact List.mem_append_right _ List.mem_cons_self

/-- The evicted line is determined. -/
theorem EHCReplPolicy.Evicts.unique (hi : s.Evicts cands i) (hj : s.Evicts cands j) : i = j := by
  have hpos : ∀ {rounds k : ℕ} {c : LineId}, (∀ k < rounds, ∀ c ∈ cands, ¬ s.Dead k c) →
      cands.find? (fun c => s.Dead k c) = some c → rounds ≤ k := by
    intro rounds k c hbefore hf
    by_contra hlt
    exact hbefore k (not_le.mp hlt) c (List.mem_of_find?_eq_some hf) (dead_of_found hf)
  have hexpects : ∀ {k : ℕ} {c : LineId}, (∀ c ∈ cands, 0 < s.EFHArray c) →
      cands.find? (fun c => s.Dead k c) ≠ some c := by
    intro k c hall hf
    exact (hall c (List.mem_of_find?_eq_some hf)).ne' (dead_of_found hf).1
  rcases hi with ⟨k, hk, hfi⟩ | ⟨hall, e, l, hei, hmini, hlatei⟩
  · rcases hj with ⟨k', hk', hfj⟩ | ⟨hall, -⟩
    · obtain rfl : k = k' := le_antisymm (hpos hk hfj) (hpos hk' hfi)
      exact Option.some.inj (hfi.symm.trans hfj)
    · exact absurd hfi (hexpects hall)
  · rcases hj with ⟨k', -, hfj⟩ | ⟨-, e', l', hej, hminj, hlatej⟩
    · exact absurd hfj (hexpects hall)
    · have hi : i ∈ cands := hei ▸ List.mem_append_right _ List.mem_cons_self
      have hj : j ∈ cands := hej ▸ List.mem_append_right _ List.mem_cons_self
      have hle := hmini j hj
      have hge := hminj i hi
      rcases List.append_eq_append_iff.mp (hei.symm.trans hej) with
        ⟨m, rfl, hm⟩ | ⟨m, rfl, hm⟩
      · cases m with
        | nil => exact (List.cons.inj hm).1
        | cons d m =>
          have hjl : j ∈ l := (List.cons.inj hm).2 ▸ List.mem_append_right _ List.mem_cons_self
          exact absurd (hlatei j hjl) (not_lt.mpr hge)
      · cases m with
        | nil => exact (List.cons.inj hm).1.symm
        | cons d m =>
          have hil : i ∈ l' := (List.cons.inj hm).2 ▸ List.mem_append_right _ List.mem_cons_self
          exact absurd (hlatej i hil) (not_lt.mpr hle)

/-- Only the counters of the candidates decide. -/
theorem EHCReplPolicy.Evicts.congr (h : s.Evicts cands i) (hRPV : ∀ c ∈ cands, s'.RPV c = s.RPV c)
    (hEFH : ∀ c ∈ cands, s'.EFHArray c = s.EFHArray c) : s'.Evicts cands i := by
  have hdead : ∀ k, ∀ c ∈ cands, s'.Dead k c ↔ s.Dead k c := by
    intro k c hc
    rw [EHCReplPolicy.Dead, EHCReplPolicy.Dead, hRPV c hc, hEFH c hc]
  have hi := h.mem
  rcases h with ⟨rounds, hbefore, hf⟩ | ⟨hall, earlier, later, hl, hmin, hlater⟩
  · refine .inl ⟨rounds, fun k hk c hc => (hdead k c hc).not.mpr (hbefore k hk c hc), ?_⟩
    rw [← hf]
    exact List.find?_congr fun c hc => decide_eq_decide.mpr (hdead rounds c hc)
  · refine .inr ⟨fun c hc => hEFH c hc ▸ hall c hc, earlier, later, hl, fun c hc => ?_,
      fun c hc => ?_⟩
    · rw [hEFH c hc, hEFH i hi]
      exact hmin c hc
    · rw [hEFH i hi, hEFH c (hl ▸ List.mem_append_right _ (List.mem_cons_of_mem _ hc))]
      exact hlater c hc

/-- The side condition of the arrays holds in every reachable state. -/
theorem ehc_ranks (numLines : ℕ) : Ranks ehc numLines (Within numLines 255 255 255) where
  update _ _ _ h _ := h.hit (.inr rfl) (by decide) (.inr le_rfl)
  fill _ _ _ h _ := h.fill le_rfl le_rfl (by decide)
  rank _ _ _ _ h hne hlt := by
    obtain ⟨i, s', rounds, hrank, hr⟩ := rank_spec h le_rfl hne hlt
    exact ⟨i, s', hrank, hr.evicts.mem, hr.policy ▸ h.aged⟩

end Ranking

end Zsim.EHC
