import Zsim.Ageing
import Zsim.PolicyRuns
import Mathlib.Data.List.Find
import Mathlib.Data.UInt

/-!
# Signature-based hit prediction

Every block carries the signature of the address it was filled for and an
outcome bit. A table of counters, one for each signature, is raised by hits and
lowered when a block leaves without one. The eviction is recognised through the
line id that `replaced` leaves for the next `update`. Against it stands the
replay of the residencies: what the counters would be if only blocks that were
really resident had been counted.
-/

namespace Zsim.SHiP

open MemoryHierarchy DrivenArrays GuardedRuns PolicyRuns Ageing

/-- `BlockMeta`. -/
structure BlockMeta where
  signature : ℕ
  outcomeBit : Bool
  deriving DecidableEq

/-- `UINT64_MAX`, in `evicted_cacheID` when no line has just been replaced. -/
def noCacheID : ℕ := 2 ^ 64 - 1

/-- `SHIPReplPolicy`. -/
structure SHIPReplPolicy where
  maxRPV : ℕ
  maxSHCTVal : ℕ
  signatureSize : ℕ
  array : LineId → ℕ
  SHCT : ℕ → ℕ
  blockMeta : LineId → BlockMeta
  evictedCacheID : ℕ

namespace SHIPReplPolicy

/-- The constructor; `logBase2` halves until nothing is left. -/
def init (maxRPV maxSHCTVal SHCTsize : ℕ) : SHIPReplPolicy where
  maxRPV := maxRPV
  maxSHCTVal := maxSHCTVal
  signatureSize := SHCTsize.log2
  array _ := maxRPV
  SHCT _ := maxSHCTVal >>> 1
  blockMeta _ := ⟨0, false⟩
  evictedCacheID := noCacheID

/-- `create_signature`, in 64-bit arithmetic. -/
def createSignature (s : SHIPReplPolicy) (lineAddr : Address) : ℕ :=
  let x : UInt64 := .ofNat lineAddr
  let x := (x ^^^ (x >>> 30)) * 0xbf58476d1ce4e5b9
  let x := (x ^^^ (x >>> 27)) * 0x94d049bb133111eb
  let x := x ^^^ (x >>> 31)
  let mask := (1 <<< UInt64.ofNat s.signatureSize) - 1
  (x &&& mask).toNat

/-- The counter of a block that leaves: lowered if the block was not hit. -/
def unlearn (s : SHIPReplPolicy) (b : BlockMeta) : ℕ → ℕ :=
  if b.outcomeBit ≠ true ∧ 0 < s.SHCT b.signature then
    Function.update s.SHCT b.signature (s.SHCT b.signature - 1)
  else s.SHCT

/-- The counter of a block that is hit: raised up to the maximum. -/
def learn (s : SHIPReplPolicy) (b : BlockMeta) : ℕ → ℕ :=
  if s.SHCT b.signature < s.maxSHCTVal then
    Function.update s.SHCT b.signature (s.SHCT b.signature + 1)
  else s.SHCT

/-- `SHIPReplPolicy::update`. -/
def update (s : SHIPReplPolicy) (id : LineId) (req : MemReq) : SHIPReplPolicy :=
  let b := s.blockMeta id
  if s.evictedCacheID = id then
    let SHCT := s.unlearn b
    let signature := s.createSignature req.lineAddr
    { s with
      SHCT := SHCT
      blockMeta := Function.update s.blockMeta id ⟨signature, false⟩
      array := Function.update s.array id
        (if SHCT signature = 0 then s.maxRPV else (s.maxRPV + noCacheID) % 2 ^ 64)
      evictedCacheID := noCacheID }
  else
    { s with
      blockMeta := Function.update s.blockMeta id { b with outcomeBit := true }
      SHCT := s.learn b
      array := Function.update s.array id 0
      evictedCacheID := noCacheID }

/-- `SHIPReplPolicy::replaced`. -/
def replaced (s : SHIPReplPolicy) (id : LineId) : SHIPReplPolicy :=
  { s with evictedCacheID := id }

/-- The local variables of `rank`, which outlive a round. -/
structure Ranking where
  policy : SHIPReplPolicy
  bestCand : LineId
  bestScore : ℕ

/-- The first loop of a round: the answer, or the best candidate so far. -/
def scan (s : SHIPReplPolicy) : List LineId → LineId → ℕ → LineId ⊕ (LineId × ℕ)
  | [], bestCand, bestScore => .inr (bestCand, bestScore)
  | c :: cands, bestCand, bestScore =>
    let best := if bestScore ≤ s.array c then (c, s.array c) else (bestCand, bestScore)
    if best.2 = s.maxRPV then .inl best.1 else scan s cands best.1 best.2

/-- One round of `rank`. -/
def rankRound (cands : List LineId) (r : Ranking) : (LineId × SHIPReplPolicy) ⊕ Ranking :=
  match r.policy.scan cands r.bestCand r.bestScore with
  | .inl bestCand => .inl (bestCand, r.policy)
  | .inr best =>
    .inr ⟨{ r.policy with array := age 3 r.policy.array cands }, best.1, best.2⟩

/-- `SHIPReplPolicy::rank`. The ageing stops at 3, so a fourth round is the
last in which a prediction can have changed. -/
def rank (s : SHIPReplPolicy) (cands : List LineId) : Option (LineId × SHIPReplPolicy) :=
  search (rankRound cands) 5 ⟨s, 2 ^ 32 - 1, 0⟩

end SHIPReplPolicy

/-- The policy interface of `SHIPReplPolicy`. -/
def ship : ReplPolicy SHIPReplPolicy where
  update s id req := s.update id req
  replaced s id := s.replaced id
  rankCands s _ _ cands := s.rank cands

/-- Predictions stay within the two bits the simulator configures. -/
structure InRange (s : SHIPReplPolicy) : Prop where
  maxRPV : s.maxRPV = 3
  array : ∀ i, s.array i ≤ 3

section Ranking

variable {s : SHIPReplPolicy} {id : LineId} {req : MemReq} {cands : List LineId}

theorem inRange_init (maxSHCTVal SHCTsize : ℕ) : InRange (.init 3 maxSHCTVal SHCTsize) :=
  ⟨rfl, fun _ => le_rfl⟩

theorem inRange_update (h : InRange s) : InRange (s.update id req) := by
  have hbound : ∀ v, v ≤ 3 → ∀ i, Function.update s.array id v i ≤ 3 := by
    intro v hv i
    by_cases hi : i = id
    · simpa [hi] using hv
    · rw [Function.update_of_ne hi]
      exact h.array i
  unfold SHIPReplPolicy.update
  dsimp only
  split
  · refine ⟨h.maxRPV, hbound _ ?_⟩
    rw [h.maxRPV]
    split <;> simp [noCacheID]
  · exact ⟨h.maxRPV, hbound 0 (by omega)⟩

/-- While no prediction has been 3 the scan looks for the first one that is. -/
theorem scan_eq (hmax : s.maxRPV = 3) {l : List LineId} (hle : ∀ c ∈ l, s.array c ≤ 3)
    {bestCand : LineId} {bestScore : ℕ} (hbest : bestScore < 3) :
    (∃ c, l.find? (fun c => s.array c == 3) = some c ∧ s.scan l bestCand bestScore = .inl c) ∨
    l.find? (fun c => s.array c == 3) = none ∧
      ∃ best, s.scan l bestCand bestScore = .inr best ∧ best.2 < 3 := by
  induction l generalizing bestCand bestScore with
  | nil => exact .inr ⟨rfl, (bestCand, bestScore), rfl, hbest⟩
  | cons d l ih =>
    have hd := hle d List.mem_cons_self
    have hl := fun c hc => hle c (List.mem_cons_of_mem d hc)
    simp only [SHIPReplPolicy.scan, hmax]
    by_cases hhit : s.array d = 3
    · have hscore : bestScore ≤ s.array d := by omega
      have hfound : (d :: l).find? (fun c => s.array c == 3) = some d := by simp [hhit]
      refine .inl ⟨d, hfound, ?_⟩
      simp only [if_pos hscore, if_pos hhit]
    · have hskip : (d :: l).find? (fun c => s.array c == 3) = l.find? (fun c => s.array c == 3) :=
        List.find?_cons_of_neg (by simpa using hhit)
      rw [hskip]
      by_cases hscore : bestScore ≤ s.array d
      · simp only [if_pos hscore, if_neg hhit]
        exact ih hl (lt_of_le_of_ne hd hhit)
      · simp only [if_neg hscore, if_neg hbest.ne]
        exact ih hl hbest

/-- The state of the ranking after some rounds without a candidate at 3. -/
structure Seeking (s : SHIPReplPolicy) (cands : List LineId) (rounds : ℕ)
    (r : SHIPReplPolicy.Ranking) : Prop where
  policy : r.policy = { s with array := aged 3 s.array cands rounds }
  before : Unripe 3 s.array cands rounds
  bestScore : r.bestScore < 3

/-- The ranking evicts the first candidate that ages to 3, in the round in which
it gets there. -/
theorem rank_exact (hmax : s.maxRPV = 3) (h : ∀ c ∈ cands, s.array c ≤ 3) (hne : cands ≠ []) :
    ∃ i rounds, rounds < 4 ∧ FirstRipe 3 s.array cands rounds i ∧
      ∀ fuel, search (SHIPReplPolicy.rankRound cands) fuel ⟨s, 2 ^ 32 - 1, 0⟩ =
        if rounds < fuel then some (i, { s with array := aged 3 s.array cands rounds })
        else none := by
  have hscan : ∀ k r, Seeking s cands k r →
      (∃ c, cands.find? (fun c => 3 ≤ s.array c + k * cands.count c) = some c ∧
        SHIPReplPolicy.rankRound cands r = .inl (c, r.policy)) ∨
      cands.find? (fun c => 3 ≤ s.array c + k * cands.count c) = none ∧
        ∃ r', SHIPReplPolicy.rankRound cands r = .inr r' ∧ r'.bestScore < 3 ∧
          r'.policy = { r.policy with array := age 3 r.policy.array cands } := by
    intro k r hr
    have hmax' : r.policy.maxRPV = 3 := by rw [hr.policy]; exact hmax
    have hle : ∀ c ∈ cands, r.policy.array c ≤ 3 := by
      intro c hc
      rw [hr.policy]
      exact aged_le (h c hc)
    have hfind : cands.find? (fun c => r.policy.array c == 3) =
        cands.find? (fun c => 3 ≤ s.array c + k * cands.count c) := by
      refine List.find?_congr fun c hc => ?_
      rw [hr.policy, Bool.eq_iff_iff, beq_iff_eq, decide_eq_true_iff]
      exact aged_eq_top (h c hc)
    rw [← hfind]
    unfold SHIPReplPolicy.rankRound
    cases (scan_eq hmax' hle hr.bestScore : _ ∨ _) with
    | inl hsome =>
      obtain ⟨c, hc, heq⟩ := hsome
      exact .inl ⟨c, hc, by rw [heq]⟩
    | inr hnone =>
      obtain ⟨hc, best, heq, hlt⟩ := hnone
      exact .inr ⟨hc, ⟨_, best.1, best.2⟩, by rw [heq], hlt, rfl⟩
  have hdone : ∀ k r (b : LineId × SHIPReplPolicy), Seeking s cands k r →
      SHIPReplPolicy.rankRound cands r = .inl b → FirstRipe 3 s.array cands k b.1 ∧
        b.2 = { s with array := aged 3 s.array cands k } := by
    intro k r b hr hb
    cases hscan k r hr with
    | inl hsome =>
      obtain ⟨c, hc, heq⟩ := hsome
      cases heq.symm.trans hb
      exact ⟨⟨hr.before, hc⟩, hr.policy⟩
    | inr hnone =>
      obtain ⟨-, r', heq, -⟩ := hnone
      exact nomatch heq.symm.trans hb
  have hnext : ∀ k r r', Seeking s cands k r → SHIPReplPolicy.rankRound cands r = .inr r' →
      Seeking s cands (k + 1) r' := by
    intro k r r' hr hb
    cases hscan k r hr with
    | inl hsome =>
      obtain ⟨c, -, heq⟩ := hsome
      exact nomatch heq.symm.trans hb
    | inr hnone =>
      obtain ⟨hc, r₁, heq, hlt, hpolicy⟩ := hnone
      cases heq.symm.trans hb
      refine ⟨?_, hr.before.succ hc, hlt⟩
      rw [hpolicy, hr.policy, age_aged]
  have hlast : ∀ r, ¬ Seeking s cands 4 r := fun r hr => not_unripe hne hr.before
  have hstart : Seeking s cands 0 ⟨s, 2 ^ 32 - 1, 0⟩ := by
    refine ⟨?_, unripe_zero, Nat.succ_pos 2⟩
    rw [aged_zero]
  obtain ⟨k, b, hk, ⟨hripe, hb⟩, hsearch⟩ := search_exact hdone hnext hlast hstart
  refine ⟨b.1, k, hk, hripe, fun fuel => ?_⟩
  rw [hsearch fuel, ← hb]

/-- The ranking answers with a candidate. -/
theorem rank_spec (h : InRange s) (hne : cands ≠ []) :
    ∃ i s', s.rank cands = some (i, s') ∧ i ∈ cands ∧ InRange s' := by
  obtain ⟨i, k, hk, hripe, hsearch⟩ := rank_exact h.maxRPV (fun c _ => h.array c) hne
  exact ⟨i, _, (hsearch 5).trans (if_pos (by omega)), hripe.mem, h.maxRPV,
    fun j => aged_le (h.array j)⟩

/-- The side condition of the arrays holds in every reachable state. -/
theorem ship_ranks (numLines : ℕ) : Ranks ship numLines InRange where
  update _ _ _ h _ := inRange_update h
  fill _ _ _ h _ := inRange_update ⟨h.maxRPV, h.array⟩
  rank _ _ _ _ h hne _ := rank_spec h hne

/-- The ranking moves nothing but predictions. -/
theorem rank_frame {i : LineId} {s' : SHIPReplPolicy} (h : s.rank cands = some (i, s')) :
    ∃ array, s' = { s with array := array } := by
  let Inv (r : SHIPReplPolicy.Ranking) : Prop := ∃ array, r.policy = { s with array := array }
  have hdone : ∀ (r : SHIPReplPolicy.Ranking) (b : LineId × SHIPReplPolicy), Inv r →
      SHIPReplPolicy.rankRound cands r = .inl b → ∃ array, b.2 = { s with array := array } := by
    intro r b hr hb
    simp only [SHIPReplPolicy.rankRound] at hb
    split at hb
    · cases hb
      exact hr
    · cases hb
  have hnext : ∀ r r' : SHIPReplPolicy.Ranking, Inv r →
      SHIPReplPolicy.rankRound cands r = .inr r' → Inv r' := by
    rintro r r' ⟨array, hr⟩ hr'
    simp only [SHIPReplPolicy.rankRound] at hr'
    split at hr'
    · cases hr'
    · cases hr'
      exact ⟨age 3 r.policy.array cands, by rw [hr]⟩
  exact search_result hdone hnext (s:=⟨s, 2 ^ 32 - 1, 0⟩) ⟨s.array, rfl⟩ h

end Ranking

/-- What the counters are to learn from: a hit of a block, and a block that
leaves its line without one. -/
inductive Event where
  | reused (signature : ℕ)
  | dead (signature : ℕ)

/-- The counter of one signature after an event. -/
def Event.count (maxSHCTVal signature v : ℕ) : Event → ℕ
  | reused s => if s = signature ∧ v < maxSHCTVal then v + 1 else v
  | dead s => if s = signature then v - 1 else v

/-- The counter of one signature, counted from the start. -/
def replay (maxSHCTVal : ℕ) (events : List Event) (signature : ℕ) : ℕ :=
  events.foldl (Event.count maxSHCTVal signature) (maxSHCTVal >>> 1)

/-- A policy run with its history. -/
structure Traced where
  state : PolicyState SHIPReplPolicy
  /-- The block in a line: the signature it was filled with and whether it has
  been hit; none in a line that has never been filled. -/
  block : LineId → Option BlockMeta
  events : List Event

namespace Traced

/-- The policy as built, over an empty cache. -/
def init (maxRPV maxSHCTVal SHCTsize : ℕ) : Traced where
  state := ⟨.init maxRPV maxSHCTVal SHCTsize, fun _ => none⟩
  block _ := none
  events := []

/-- What happens to the block of the line that is called for. -/
def told (t : Traced) : PolicyOp → List Event
  | .hit id _ => (t.block id).toList.map fun b => .reused b.signature
  | .rank .. => []
  | .fill id _ => (t.block id).toList.filterMap fun b =>
      if b.outcomeBit then none else some (.dead b.signature)

/-- The blocks after a call. -/
def blocks (t : Traced) : PolicyOp → LineId → Option BlockMeta
  | .hit id _ => Function.update t.block id ((t.block id).map fun b => { b with outcomeBit := true })
  | .rank .. => t.block
  | .fill id req =>
    Function.update t.block id (some ⟨t.state.rp.createSignature req.lineAddr, false⟩)

/-- One call with its history. -/
def step (numLines : ℕ) (t : Traced) (op : PolicyOp) : Option Traced :=
  (policyStep ship numLines t.state op).map fun state => ⟨state, t.blocks op, t.events ++ t.told op⟩

/-- The counters are those the history tells. -/
def Learned (t : Traced) : Prop :=
  ∀ signature, t.state.rp.SHCT signature = replay t.state.rp.maxSHCTVal t.events signature

/-- The call fills a line that holds no block. -/
def fillsEmpty (t : Traced) : PolicyOp → Bool
  | .fill id _ => (t.block id).isNone
  | _ => false

/-- A line without a block is filled only while the counter of signature 0 is
at the floor. -/
def FloorAtEmptyFill (t : Traced) (op : PolicyOp) : Prop :=
  t.fillsEmpty op = true → t.state.rp.SHCT 0 = 0

/-- The metadata of the lines records the blocks. -/
structure Recorded (t : Traced) : Prop where
  noneEvicted : t.state.rp.evictedCacheID = noCacheID
  block : ∀ id b, t.block id = some b → t.state.rp.blockMeta id = b
  empty : ∀ id, t.block id = none →
    t.state.rp.blockMeta id = ⟨0, false⟩ ∧ t.state.resident id = none

end Traced

section Learning

variable {s : SHIPReplPolicy} {t t' : Traced} {id : LineId} {req : MemReq} {b : BlockMeta}
  {numLines : ℕ} {op : PolicyOp}

/-- A hit counts as one. -/
theorem learn_eq (signature : ℕ) : s.learn b signature =
    Event.count s.maxSHCTVal signature (s.SHCT signature) (.reused b.signature) := by
  simp only [SHIPReplPolicy.learn, Event.count]
  by_cases hs : b.signature = signature
  · subst hs
    by_cases hlt : s.SHCT b.signature < s.maxSHCTVal <;> simp [hlt]
  · by_cases hlt : s.SHCT b.signature < s.maxSHCTVal <;>
      simp [hs, hlt, Function.update_of_ne (Ne.symm hs)]

/-- A block that leaves without a hit counts as one. -/
theorem unlearn_eq (hb : b.outcomeBit = false) (signature : ℕ) : s.unlearn b signature =
    Event.count s.maxSHCTVal signature (s.SHCT signature) (.dead b.signature) := by
  simp only [SHIPReplPolicy.unlearn, Event.count, hb]
  by_cases hs : b.signature = signature
  · subst hs
    by_cases hpos : 0 < s.SHCT b.signature
    · simp [hpos]
    · simp [Nat.eq_zero_of_not_pos hpos]
  · by_cases hpos : 0 < s.SHCT b.signature <;>
      simp [hs, hpos, Function.update_of_ne (Ne.symm hs)]

/-- A block that leaves after a hit does not count. -/
theorem unlearn_of_hit (hb : b.outcomeBit = true) : s.unlearn b = s.SHCT := by
  simp [SHIPReplPolicy.unlearn, hb]

/-- The metadata a line starts with counts against signature 0 unless its
counter is at the floor. -/
theorem unlearn_initial (signature : ℕ) : s.unlearn ⟨0, false⟩ signature =
    if signature = 0 then s.SHCT 0 - 1 else s.SHCT signature := by
  rw [unlearn_eq rfl, Event.count]
  by_cases hs : signature = 0
  · subst hs
    simp
  · simp [hs, Ne.symm hs]

/-- A call of `update` that no `replaced` precedes. -/
theorem update_hit (h : s.evictedCacheID ≠ id) : s.update id req =
    { s with
      blockMeta := Function.update s.blockMeta id { s.blockMeta id with outcomeBit := true }
      SHCT := s.learn (s.blockMeta id)
      array := Function.update s.array id 0
      evictedCacheID := noCacheID } :=
  if_neg h

/-- A fill replaces the metadata of the line and lowers at most one counter. -/
theorem update_replaced : ∃ array, (s.replaced id).update id req =
    { s with
      array := array
      SHCT := s.unlearn (s.blockMeta id)
      blockMeta := Function.update s.blockMeta id ⟨s.createSignature req.lineAddr, false⟩
      evictedCacheID := noCacheID } :=
  ⟨_, if_pos rfl⟩

/-- A block and the metadata of its line are recorded together. -/
theorem Traced.Recorded.record (h : t.Recorded)
    (hmeta : t'.state.rp.blockMeta = Function.update t.state.rp.blockMeta id b)
    (hblock : t'.block = Function.update t.block id (some b))
    (hres : ∀ j, j ≠ id → t'.state.resident j = t.state.resident j)
    (hevicted : t'.state.rp.evictedCacheID = noCacheID) : t'.Recorded := by
  refine ⟨hevicted, fun j c hc => ?_, fun j hj => ?_⟩
  · rw [hblock] at hc
    rw [hmeta]
    by_cases hji : j = id
    · subst hji
      simpa using hc
    · rw [Function.update_of_ne hji] at hc ⊢
      exact h.block j c hc
  · rw [hblock] at hj
    have hji : j ≠ id := by
      rintro rfl
      simp at hj
    rw [Function.update_of_ne hji] at hj
    rw [hmeta, Function.update_of_ne hji, hres j hji]
    exact h.empty j hj

/-- After a call the counters are the old ones with what the call tells
counted, except that the fill of a line without a block lowers the counter of
signature 0. The metadata keeps recording the blocks. -/
theorem step_spec (hlines : numLines ≤ 2 ^ 32) (h : t.Recorded)
    (hstep : t.step numLines op = some t') :
    t'.Recorded ∧ t'.state.rp.maxSHCTVal = t.state.rp.maxSHCTVal ∧
      t'.events = t.events ++ t.told op ∧
      ∀ signature, t'.state.rp.SHCT signature =
        if signature = 0 ∧ t.fillsEmpty op = true then t.state.rp.SHCT 0 - 1
        else (t.told op).foldl (Event.count t.state.rp.maxSHCTVal signature)
          (t.state.rp.SHCT signature) := by
  obtain ⟨s', hpolicy, rfl⟩ := Option.map_eq_some_iff.mp hstep
  cases op with
  | rank cc req cands =>
    obtain ⟨-, i, r, hr, rfl⟩ := policyStep_rank.mp hpolicy
    obtain ⟨array, rfl⟩ := rank_frame hr
    exact ⟨⟨h.noneEvicted, h.block, h.empty⟩, rfl, rfl, fun signature => by
      simp [Traced.told, Traced.fillsEmpty]⟩
  | hit id req =>
    obtain ⟨⟨hid, hres⟩, rfl⟩ := policyStep_hit.mp hpolicy
    have hevicted : t.state.rp.evictedCacheID ≠ id := by
      rw [h.noneEvicted]
      exact ((hid.trans_le hlines).trans (show 2 ^ 32 < noCacheID by decide)).ne'
    obtain ⟨b, hb⟩ : ∃ b, t.block id = some b := by
      cases hb : t.block id with
      | none => exact nomatch hres.symm.trans (h.empty id hb).2
      | some b => exact ⟨b, rfl⟩
    have hmeta := h.block id b hb
    have hupdate : t.state.rp.update id req = _ := update_hit hevicted
    rw [hmeta] at hupdate
    simp only [ship, hupdate]
    refine ⟨h.record rfl (by simp [Traced.blocks, hb]) (fun _ _ => rfl) rfl, trivial, trivial,
      fun signature => ?_⟩
    simp [Traced.told, Traced.fillsEmpty, hb, learn_eq]
  | fill id req =>
    obtain ⟨-, rfl⟩ := policyStep_fill.mp hpolicy
    obtain ⟨array, hupdate⟩ : ∃ array, (t.state.rp.replaced id).update id req = _ := update_replaced
    simp only [ship, hupdate]
    refine ⟨h.record rfl rfl (fun j hj => Function.update_of_ne hj _ _) rfl, trivial,
      trivial, fun signature => ?_⟩
    cases hb : t.block id with
    | none => simp [Traced.told, Traced.fillsEmpty, hb, (h.empty id hb).1, unlearn_initial]
    | some b =>
      rw [h.block id b hb]
      cases hhit : b.outcomeBit with
      | true => simp [Traced.told, Traced.fillsEmpty, hb, hhit, unlearn_of_hit]
      | false => simp [Traced.told, Traced.fillsEmpty, hb, hhit, unlearn_eq]

theorem recorded_init (maxRPV maxSHCTVal SHCTsize : ℕ) :
    (Traced.init maxRPV maxSHCTVal SHCTsize).Recorded :=
  ⟨rfl, nofun, fun _ _ => ⟨rfl, rfl⟩⟩

/-- One call keeps a counter equal to its replay, unless it is the counter of
signature 0 and the call fills a line without a block while it can fall. -/
theorem step_counter (hlines : numLines ≤ 2 ^ 32) (h : t.Recorded)
    (hstep : t.step numLines op = some t') {signature : ℕ}
    (hs : t.state.rp.SHCT signature = replay t.state.rp.maxSHCTVal t.events signature) :
    t'.state.rp.SHCT signature = replay t'.state.rp.maxSHCTVal t'.events signature ↔
      (signature = 0 → t.FloorAtEmptyFill op) := by
  obtain ⟨-, hmax, hevents, hcount⟩ := step_spec hlines h hstep
  rw [hcount, hmax, hevents, replay, List.foldl_append, ← replay, ← hs]
  by_cases hempty : t.fillsEmpty op = true
  · have htold : t.told op = [] := by
      cases op with
      | fill id req =>
        have hb : t.block id = none := Option.isNone_iff_eq_none.mp hempty
        simp [Traced.told, hb]
      | hit id req => cases hempty
      | rank cc req cands => cases hempty
    by_cases hsig : signature = 0
    · subst hsig
      simp only [Traced.FloorAtEmptyFill, hempty, htold, and_self, if_true, List.foldl_nil,
        forall_const]
      omega
    · simp [hsig, htold]
  · simp [Traced.FloorAtEmptyFill, hempty]

/-- The counters agree with the replay of the residencies at every point of a
run exactly when no line without a block is filled while the counter of
signature 0 can fall. The counters of the other signatures always agree. -/
theorem counters_replay (numLines maxRPV maxSHCTVal SHCTsize : ℕ) (hlines : numLines ≤ 2 ^ 32)
    (ops : List PolicyOp) :
    (EveryStep (Traced.step numLines) (fun _ _ t' => t'.Learned)
        (.init maxRPV maxSHCTVal SHCTsize) ops ↔
      EveryStep (Traced.step numLines) (fun t op _ => t.FloorAtEmptyFill op)
        (.init maxRPV maxSHCTVal SHCTsize) ops) ∧
    EveryStep (Traced.step numLines) (fun _ _ t' => ∀ signature ≠ 0, t'.state.rp.SHCT signature =
        replay t'.state.rp.maxSHCTVal t'.events signature)
      (.init maxRPV maxSHCTVal SHCTsize) ops := by
  have hinit := recorded_init maxRPV maxSHCTVal SHCTsize
  constructor
  · have hiff : ∀ (t : Traced) op t', t.Recorded ∧ t.Learned → t.step numLines op = some t' →
        (t'.Learned ↔ t.FloorAtEmptyFill op) := by
      rintro t op t' ⟨h, hlearned⟩ hstep
      constructor
      · intro hlearned'
        exact (step_counter hlines h hstep (hlearned 0)).mp (hlearned' 0) rfl
      · intro hfloor signature
        exact (step_counter hlines h hstep (hlearned signature)).mpr fun _ => hfloor
    refine everyStep_iff hiff ?_ ⟨hinit, fun _ => rfl⟩
    intro t op t' h hfloor hstep
    exact ⟨(step_spec hlines h.1 hstep).1, (hiff t op t' h hstep).mpr hfloor⟩
  · let Others (t : Traced) : Prop := ∀ signature ≠ 0,
      t.state.rp.SHCT signature = replay t.state.rp.maxSHCTVal t.events signature
    have hstep : ∀ (t : Traced) op t', t.Recorded ∧ Others t → t.step numLines op = some t' →
        (t'.Recorded ∧ Others t') ∧ Others t' := by
      rintro t op t' ⟨h, hothers⟩ hstep
      have hothers' : Others t' := fun signature hne =>
        (step_counter hlines h hstep (hothers signature hne)).mpr fun h0 => absurd h0 hne
      exact ⟨⟨(step_spec hlines h hstep).1, hothers'⟩, hothers'⟩
    exact everyStep_of_invariant hstep ⟨hinit, fun _ _ => rfl⟩

/-- In a cache of 2048 lines, the run in which a block is filled and hit. -/
theorem counters_replay_hit :
    2048 ≤ 2 ^ 32 ∧ (EveryStep (Traced.step 2048) (fun _ _ t' => t'.Learned) (.init 3 1 16384)
        [.fill 5 (fetch 77), .hit 5 (fetch 77)] ↔
      EveryStep (Traced.step 2048) (fun t op _ => t.FloorAtEmptyFill op) (.init 3 1 16384)
        [.fill 5 (fetch 77), .hit 5 (fetch 77)]) :=
  ⟨by decide, (counters_replay 2048 3 1 16384 (by decide) _).1⟩

/-- The first fill of a line lowers the counter of signature 0, though no block
has left. -/
theorem first_fill_counts :
    ¬ EveryStep (Traced.step 1) (fun _ _ t' => t'.Learned) (.init 3 7 16384)
      [.fill 0 (fetch 77)] := by
  intro h
  obtain ⟨hlearned, -⟩ := h _ rfl
  have hcount := hlearned 0
  revert hcount
  decide

end Learning

end Zsim.SHiP
