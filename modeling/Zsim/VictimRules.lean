import Zsim.EHC
import Zsim.FaithfulRuns
import Zsim.SHiP
import Zsim.SRRIP

/-!
# Which line the rankings evict

Each ranking is a loop without a bound. The expected hit counts evict the first
candidate that expects no hit and is predicted furthest away, or the last of
those that expect fewest; the two re-reference predictions evict the first
candidate of the greatest prediction. How often the loop ages its lines follows
from the line it evicts, so a bound on the rounds only has to be large enough.
-/

namespace Zsim.VictimRules

open MemoryHierarchy DrivenArrays GuardedRuns PolicyRuns Ageing SetAssoc

section ExpectedHits

open EHC EHCReplPolicy

variable {numLines rounds : ℕ} {s s' : EHCReplPolicy} {cands : List LineId} {i : LineId}

/-- The first of the candidates without an expected hit whose prediction is the
greatest among them; it needs all the rounds to reach 3. -/
structure EvictsDead (s : EHCReplPolicy) (cands : List LineId) (rounds : ℕ) (i : LineId) :
    Prop where
  dead : s.EFHArray i = 0
  greatest : ∀ c ∈ cands, s.EFHArray c = 0 → s.RPV c ≤ s.RPV i
  first : ∃ earlier later, cands = earlier ++ i :: later ∧
    ∀ c ∈ earlier, s.EFHArray c = 0 → s.RPV c < s.RPV i
  rounds : (rounds : ℤ) = 3 - s.RPV i

/-- The last of the candidates that expect fewest hits. -/
def EvictsFewest (s : EHCReplPolicy) (cands : List LineId) (i : LineId) : Prop :=
  (∀ c ∈ cands, s.EFHArray i ≤ s.EFHArray c) ∧
    ∃ earlier later, cands = earlier ++ i :: later ∧ ∀ c ∈ later, s.EFHArray i < s.EFHArray c

theorem evictsDead_of_ranked (h : Ready numLines s) (hlt : ∀ c ∈ cands, c < numLines)
    (hr : Ranked s cands i s' rounds) (hdead : ∃ c ∈ cands, s.EFHArray c = 0) :
    EvictsDead s cands rounds i := by
  obtain ⟨c₀, hc₀, h₀⟩ := hdead
  cases hr.evicts with
  | inr hfewest => exact absurd h₀ (hfewest.1 c₀ hc₀).ne'
  | inl hfirst =>
    obtain ⟨k, hbefore, hfound⟩ := hfirst
    have hi : i ∈ cands := List.mem_of_find?_eq_some hfound
    have hripe : s.Dead k i := dead_of_found hfound
    have htop := (h.RPV i (hlt i hi)).2
    -- the round of the answer is the first one after which a candidate is dead
    have hk : k = rounds := by
      have hge : rounds ≤ k := by
        by_contra hlt'
        exact hr.before k (not_le.mp hlt') i hi hripe
      have hle : k ≤ rounds := by
        by_contra hlt'
        have hnone := hbefore rounds (not_le.mp hlt')
        cases hr.ended with
        | inl hsome =>
          obtain ⟨c, hc, hdead⟩ := hsome
          exact hnone c hc hdead
        | inr hall =>
          have hi' : i < s.numLines := h.numLines ▸ hlt i hi
          exact hnone i hi ⟨hripe.1, hall i hi'⟩
      exact Nat.le_antisymm hle hge
    subst hk
    have hlow : ∀ c ∈ cands, s.EFHArray c = 0 → ∀ j < k, s.RPV c + j < 3 := by
      intro c hc hefh j hj
      by_contra hge
      exact hbefore j hj c hc ⟨hefh, not_lt.mp hge⟩
    have hrounds : (k : ℤ) = 3 - s.RPV i := by
      have hge := hripe.2
      by_contra hne
      have hlast := hlow i hi hripe.1 (k - 1) (by omega)
      omega
    obtain ⟨-, earlier, later, hl, hnot⟩ := List.find?_eq_some_iff_append.mp hfound
    refine ⟨hripe.1, fun c hc hefh => ?_, ⟨earlier, later, hl, fun c hc hefh => ?_⟩, hrounds⟩
    · by_contra hgt
      have hc' := (h.RPV c (hlt c hc)).2
      have hlast := hlow c hc hefh (3 - s.RPV c).toNat (by omega)
      omega
    · have hc' : ¬ s.Dead k c := by
        have hno := hnot c hc
        simpa using hno
      have hlt' : s.RPV c + k < 3 := by
        by_contra hge
        exact hc' ⟨hefh, not_lt.mp hge⟩
      omega

theorem evictsFewest_of_ranked (h : Ready numLines s) (hr : Ranked s cands i s' rounds)
    (hexpects : ∀ c ∈ cands, s.EFHArray c ≠ 0) :
    EvictsFewest s cands i ∧ ∀ j < numLines, s'.RPV j = 3 := by
  constructor
  · cases hr.evicts with
    | inl hfirst =>
      obtain ⟨k, -, hfound⟩ := hfirst
      have hdead : s.Dead k i := dead_of_found hfound
      exact absurd hdead.1 (hexpects i (List.mem_of_find?_eq_some hfound))
    | inr hfewest =>
      obtain ⟨-, earlier, later, hl, hmin, hlater⟩ := hfewest
      exact ⟨hmin, earlier, later, hl, hlater⟩
  · intro j hj
    have hj' : j < s.numLines := h.numLines ▸ hj
    have hall : 3 ≤ s.RPV j + rounds := by
      cases hr.ended with
      | inl hsome =>
        obtain ⟨c, hc, hdead⟩ := hsome
        exact absurd hdead.1 (hexpects c hc)
      | inr hall => exact hall j hj'
    rw [hr.policy]
    simp only [EHCReplPolicy.aged, if_pos hj']
    omega

/-- Every run leaves the predictions between 0 and 3. In such a state the
ranking ends, with any bound on its rounds that lets it age `rounds` times. It
evicts the first of the candidates predicted furthest away among those without
an expected hit, or, when each expects some, the last of those that expect
fewest, at a time when every line of the cache is at 3. -/
theorem ehc_victim (numLines : ℕ) :
    (∀ ops s, run (callStep ehc numLines) (.init 3 numLines) ops = some s → Ready numLines s) ∧
    ∀ s cands, Ready numLines s → cands ≠ [] → (∀ c ∈ cands, c < numLines) →
      ∃ i s' rounds, s.rank cands = some (i, s') ∧
        (∀ fuel, search (rankRound cands) fuel ⟨s, 2 ^ 32 - 1, 2 ^ 31 - 1⟩ =
          if rounds < fuel then some (i, s') else none) ∧
        (∀ j < numLines, s'.RPV j = min 3 (s.RPV j + rounds)) ∧
        ((∃ c ∈ cands, s.EFHArray c = 0) → EvictsDead s cands rounds i) ∧
        ((∀ c ∈ cands, s.EFHArray c ≠ 0) →
          EvictsFewest s cands i ∧ ∀ j < numLines, s'.RPV j = 3) := by
  constructor
  · intro ops s hrun
    have hinit : Within numLines 255 255 255 (.init 3 numLines) := within_init (by decide)
    have hstep : ∀ s x s', Within numLines 255 255 255 s → callStep ehc numLines s x = some s' →
        Within numLines 255 255 255 s' := fun s x s' h hs => callStep_inv (ehc_ranks numLines) h hs
    exact (run_invariant hstep hinit hrun).ready le_rfl
  · intro s cands h hne hlt
    obtain ⟨i, s', rounds, hrounds, hr, hsearch⟩ := rank_exact h hne hlt
    refine ⟨i, s', rounds, (hsearch 4).trans (if_pos hrounds), hsearch, fun j hj => ?_,
      evictsDead_of_ranked h hlt hr, evictsFewest_of_ranked h hr⟩
    rw [hr.policy]
    exact if_pos (h.numLines.symm ▸ hj)

/-- In a cache of four lines as built, whose candidates expect one hit each, the
second of two candidates is evicted. -/
theorem ehc_victim_last : ∃ i s', ∃ rounds : ℕ, (EHCReplPolicy.init 3 4).rank [2, 3] = some (i, s') ∧
    EvictsFewest (.init 3 4) [2, 3] i ∧ rounds < 4 ∧ ∀ j < 4, s'.RPV j = min 3 (3 + (rounds : ℤ)) := by
  obtain ⟨hruns, hrank⟩ := ehc_victim 4
  have hready : Ready 4 (.init 3 4) := hruns [] _ rfl
  obtain ⟨i, s', rounds, hi, hsearch, hRPV, -, hfewest⟩ := hrank _ [2, 3] hready (by simp) (by simp)
  have hbound : rounds < 4 := by
    by_contra hge
    have hnone := hsearch 4
    rw [if_neg hge] at hnone
    exact nomatch hi.symm.trans hnone
  have hexpects : ∀ c ∈ [2, 3], (EHCReplPolicy.init 3 4).EFHArray c ≠ 0 := fun _ _ => Nat.one_ne_zero
  exact ⟨i, s', rounds, hi, (hfewest hexpects).1, hbound, hRPV⟩

end ExpectedHits

section Predictions

variable {v : LineId → ℕ} {cands : List LineId} {i : LineId} {rounds : ℕ}

/-- The first of the candidates with the greatest prediction. -/
structure EvictsFirst (v : LineId → ℕ) (cands : List LineId) (i : LineId) : Prop where
  greatest : ∀ c ∈ cands, v c ≤ v i
  first : ∃ earlier later, cands = earlier ++ i :: later ∧ ∀ c ∈ earlier, v c < v i

/-- The predictions of the candidates are raised by the same amount. -/
def raised (v : LineId → ℕ) (cands : List LineId) (n : ℕ) (c : LineId) : ℕ :=
  if c ∈ cands then v c + n else v c

/-- Without repetitions every round raises every candidate once. -/
theorem evictsFirst_of_ripe (h : FirstRipe 3 v cands rounds i) (hcands : cands.Nodup)
    (hle : ∀ c ∈ cands, v c ≤ 3) :
    rounds = 3 - v i ∧ EvictsFirst v cands i ∧ aged 3 v cands rounds = raised v cands (3 - v i) := by
  obtain ⟨hrounds, hgreatest, hfirst⟩ := h.of_nodup hcands hle
  refine ⟨hrounds, ⟨hgreatest, hfirst⟩, funext fun c => ?_⟩
  unfold raised
  by_cases hc : c ∈ cands
  · have hcount : cands.count c = 1 := List.nodup_iff_count_eq_one.mp hcands c hc
    have hci := hgreatest c hc
    have hi := hle i h.mem
    rw [if_pos hc, hrounds, aged, hcount]
    omega
  · rw [if_neg hc, aged_of_notMem hc]

end Predictions

section StaticPrediction

open SRRIP SRRIPReplPolicy FaithfulRuns

variable {s : SRRIPReplPolicy} {id : LineId} {req : MemReq}

/-- No fill is under way: the flags that separate its `update` from a hit are
clear. -/
structure Settled (s : SRRIPReplPolicy) : Prop where
  inRange : InRange s
  notInserted : ∀ i, s.recentlyInserted i = false

theorem settled_init : Settled .init := ⟨inRange_init, fun _ => rfl⟩

/-- A hit predicts the line at 0. -/
theorem update_hit (h : Settled s) :
    s.update id = { s with rrpvArray := Function.update s.rrpvArray id 0 } := by
  have hflags : Function.update s.recentlyInserted id false = s.recentlyInserted := by
    rw [← h.notInserted id, Function.update_eq_self]
  unfold SRRIPReplPolicy.update
  rw [if_pos (h.notInserted id), hflags]

/-- A fill predicts the line at 2, which its own `update` leaves. -/
theorem update_replaced (h : Settled s) :
    (s.replaced id).update id = { s with rrpvArray := Function.update s.rrpvArray id 2 } := by
  have hflag : (s.replaced id).recentlyInserted id = true := Function.update_self ..
  have hflags : Function.update (s.replaced id).recentlyInserted id false = s.recentlyInserted := by
    unfold SRRIPReplPolicy.replaced
    rw [Function.update_idem, ← h.notInserted id, Function.update_eq_self]
  unfold SRRIPReplPolicy.update
  rw [if_neg (by rw [hflag]; exact nofun), hflags]
  rfl

/-- Between calls the flags are clear. -/
theorem settled_ranks (numLines : ℕ) : Ranks srrip numLines Settled where
  update s i _ h _ := by
    have hflags : (s.update i).recentlyInserted = s.recentlyInserted := by rw [update_hit h]
    exact ⟨inRange_update h.inRange, fun j => (congrFun hflags j).trans (h.notInserted j)⟩
  fill s i _ h _ := by
    have hflags : ((s.replaced i).update i).recentlyInserted = s.recentlyInserted := by
      rw [update_replaced h]
    exact ⟨inRange_update (inRange_replaced h.inRange),
      fun j => (congrFun hflags j).trans (h.notInserted j)⟩
  rank s _ _ cands h hne _ := by
    obtain ⟨i, k, hk, hripe, hsearch⟩ := rank_exact (fun c _ => h.inRange c) hne
    exact ⟨i, _, (hsearch 4).trans (if_pos hk), hripe.mem, fun j => aged_le (h.inRange j), h.notInserted⟩

/-- The predictions of a state and what its ranking does. -/
structure RanksAsSpecified (s : SRRIPReplPolicy) : Prop where
  inRange : ∀ i, s.rrpvArray i ≤ 3
  /-- The scan that finds the victim is number `3 - m + 1`, at most the fourth. -/
  rank : ∀ cands : List LineId, cands ≠ [] → cands.Nodup → ∃ i, EvictsFirst s.rrpvArray cands i ∧
    s.rank cands = some (i, { s with rrpvArray := raised s.rrpvArray cands (3 - s.rrpvArray i) }) ∧
    ∀ fuel, search (rankRound cands) fuel s = if 3 - s.rrpvArray i < fuel then
      some (i, { s with rrpvArray := raised s.rrpvArray cands (3 - s.rrpvArray i) }) else none

/-- What a call does to the predictions besides ranking. -/
def Predicts (s : ArrayState SetAssocArray SRRIPReplPolicy) (op : ArrayOp)
    (s' : ArrayState SetAssocArray SRRIPReplPolicy) : Prop :=
  match op with
  | .lookup req updateReplacement => ∀ id, s.array.find req.lineAddr = some id →
      updateReplacement = true → s'.rp.rrpvArray = Function.update s.rp.rrpvArray id 0
  | .preinsert .. => True
  | .postinsert => ∀ ins, s.pending = some ins →
      s'.rp.rrpvArray = Function.update s.rp.rrpvArray ins.lineId 2

theorem ranksAsSpecified (h : Settled s) : RanksAsSpecified s := by
  refine ⟨h.inRange, fun cands hne hcands => ?_⟩
  obtain ⟨i, k, hk, hripe, hsearch⟩ := rank_exact (fun c _ => h.inRange c) hne
  obtain ⟨hrounds, hfirst, hraised⟩ := evictsFirst_of_ripe hripe hcands fun c _ => h.inRange c
  rw [hraised, hrounds] at hsearch
  rw [hrounds] at hk
  exact ⟨i, hfirst, (hsearch 4).trans (if_pos hk), hsearch⟩

theorem predicts {s s' : ArrayState SetAssocArray SRRIPReplPolicy} {op : ArrayOp} (h : Settled s.rp)
    (hstep : step (SetAssocArray.methods srrip) (.ok s) op = some (.ok s')) : Predicts s op s' := by
  cases op with
  | preinsert cc req => trivial
  | lookup req updateReplacement =>
    intro id hid hupdate
    have hs' := (Option.ite_none_left_eq_some.mp hstep).2
    have hrp : s'.rp = s.rp.update id := by
      simp only [SetAssocArray.methods, SetAssocArray.lookup, hid, if_pos hupdate] at hs'
      cases hs'
      rfl
    rw [hrp, update_hit h]
  | postinsert =>
    intro ins hins
    have hrp : s'.rp = (s.rp.replaced ins.lineId).update ins.lineId := by
      simp only [step, hins] at hstep
      cases hstep
      rfl
    rw [hrp, update_replaced h]

/-- In every state that the set-associative array reaches with the policy, no
call has failed, the ranking is as specified, and the next call predicts a line
it hits at 0 and a line it fills at 2. -/
theorem srrip_follows_specification {assoc : ℕ} (k : ℕ) (hash : ℕ → Address → ℕ) (hassoc : 0 < assoc)
    {ops : List ArrayOp} {r : Except ArrayFailure (ArrayState SetAssocArray SRRIPReplPolicy)}
    (hrun : run (step (SetAssocArray.methods srrip))
      (.ok (start (.init (2 ^ k * assoc) assoc hash) .init)) ops = some r) :
    ∃ s, r = .ok s ∧ RanksAsSpecified s.rp ∧ ∀ op r',
      step (SetAssocArray.methods srrip) (.ok s) op = some r' → ∃ s', r' = .ok s' ∧ Predicts s op s' := by
  have himpl : Implements (SetAssocArray.methods srrip) (sized_faithful (2 ^ k * assoc)) Settled :=
    setAssoc_implements (settled_ranks _)
  have hstart : Sound (SetAssoc.sized_faithful (2 ^ k * assoc)) Settled
      (start (.init (2 ^ k * assoc) assoc hash) SRRIPReplPolicy.init) :=
    sound_start ⟨wellPlaced_init hassoc hash, rfl⟩ (fun _ => rfl) settled_init
  obtain ⟨s, rfl, hs⟩ := run_sound himpl hstart hrun
  refine ⟨s, rfl, ranksAsSpecified hs.rp, fun op r' hstep => ?_⟩
  obtain ⟨s', rfl, -⟩ := step_sound himpl hs hstep
  exact ⟨s', rfl, predicts hs.rp hstep⟩

/-- An insertion and a hit in four sets of two lines. -/
theorem srrip_follows_insertion : ∃ r, run (step (SetAssocArray.methods srrip))
    (.ok (start (.init (2 ^ 2 * 2) 2 fun _ a => a) .init))
    [.preinsert ⟨fun _ => 0, fun _ => false⟩ (fetch 5), .postinsert, .lookup (fetch 5) true] =
      some r ∧ ∃ s, r = .ok s ∧ RanksAsSpecified s.rp := by
  obtain ⟨r, hrun⟩ : ∃ r, run (step (SetAssocArray.methods srrip))
      (.ok (start (.init (2 ^ 2 * 2) 2 fun _ a => a) .init))
      [.preinsert ⟨fun _ => 0, fun _ => false⟩ (fetch 5), .postinsert, .lookup (fetch 5) true] =
        some r := ⟨_, rfl⟩
  have htwo : 0 < 2 := by omega
  obtain ⟨s, hs, hranks, -⟩ := srrip_follows_specification 2 _ htwo hrun
  exact ⟨r, hrun, s, hs, hranks⟩

end StaticPrediction

section SignaturePrediction

open SHiP SHIPReplPolicy

variable {numLines maxSHCTVal SHCTsize : ℕ} {s s' : SHIPReplPolicy} {id : LineId} {req : MemReq}

/-- The methods of `SHIPReplPolicy`, in any order. -/
inductive ShipCall where
  | update (id : LineId) (req : MemReq)
  | replaced (id : LineId)
  | rank (cands : List LineId)

/-- One call on a cache of `numLines` lines; the candidates of a set are distinct. -/
def shipStep (numLines : ℕ) (s : SHIPReplPolicy) : ShipCall → Option SHIPReplPolicy
  | .update id req => if id < numLines then some (s.update id req) else none
  | .replaced id => if id < numLines then some (s.replaced id) else none
  | .rank cands =>
    if cands ≠ [] ∧ cands.Nodup ∧ ∀ c ∈ cands, c < numLines then (s.rank cands).map Prod.snd
    else none

/-- The counters are in range, and so is every index into the table. -/
structure TablesInRange (maxSHCTVal SHCTsize : ℕ) (s : SHIPReplPolicy) : Prop where
  array : ∀ id, s.array id ≤ 3
  SHCT : ∀ signature, s.SHCT signature ≤ maxSHCTVal
  signature : ∀ id, (s.blockMeta id).signature < SHCTsize
  created : ∀ lineAddr, s.createSignature lineAddr < SHCTsize
  maxRPV : s.maxRPV = 3
  maxSHCTVal : s.maxSHCTVal = maxSHCTVal

/-- A signature has at most the bits of the mask. -/
theorem createSignature_lt (h : s.signatureSize < 64) (lineAddr : Address) :
    s.createSignature lineAddr < 2 ^ s.signatureSize := by
  have hpos : 0 < 2 ^ s.signatureSize := Nat.two_pow_pos _
  have hlt : 2 ^ s.signatureSize < 2 ^ 64 := Nat.pow_lt_pow_right (by omega) h
  have hsize : (UInt64.ofNat s.signatureSize).toNat % 64 = s.signatureSize := by
    rw [UInt64.toNat_ofNat']
    omega
  have hone : ((1 : UInt64) <<< UInt64.ofNat s.signatureSize).toNat = 2 ^ s.signatureSize := by
    rw [UInt64.toNat_shiftLeft, hsize, UInt64.toNat_one, Nat.one_shiftLeft, Nat.mod_eq_of_lt hlt]
  have hmask : (((1 : UInt64) <<< UInt64.ofNat s.signatureSize) - 1).toNat = 2 ^ s.signatureSize - 1 := by
    rw [UInt64.toNat_sub, hone, UInt64.toNat_one]
    omega
  unfold SHIPReplPolicy.createSignature
  dsimp only
  rw [UInt64.toNat_and, hmask]
  exact Nat.lt_of_le_of_lt Nat.and_le_right (Nat.sub_lt hpos Nat.one_pos)

theorem tablesInRange_init (hpos : 1 ≤ SHCTsize) (hlt : SHCTsize < 2 ^ 64) :
    TablesInRange maxSHCTVal SHCTsize (.init 3 maxSHCTVal SHCTsize) := by
  have hsize : SHCTsize ≠ 0 := by omega
  refine ⟨fun _ => le_rfl, fun _ => ?_, fun _ => hpos, fun lineAddr => ?_, rfl, rfl⟩
  · exact (Nat.shiftRight_eq_div_pow maxSHCTVal 1).trans_le (Nat.div_le_self ..)
  · have hlog : SHCTsize.log2 < 64 := (Nat.log2_lt hsize).mpr hlt
    exact (createSignature_lt hlog lineAddr).trans_le (Nat.log2_self_le hsize)

theorem unlearn_le {n : ℕ} (h : ∀ signature, s.SHCT signature ≤ n) (b : BlockMeta)
    (signature : ℕ) : s.unlearn b signature ≤ n := by
  unfold SHIPReplPolicy.unlearn
  split
  · have hb := h b.signature
    exact EHC.forall_update (· ≤ n) h (by omega) signature
  · exact h signature

theorem learn_le (h : ∀ signature, s.SHCT signature ≤ s.maxSHCTVal) (b : BlockMeta)
    (signature : ℕ) : s.learn b signature ≤ s.maxSHCTVal := by
  unfold SHIPReplPolicy.learn
  split
  · next hlt => exact EHC.forall_update (· ≤ s.maxSHCTVal) h (by omega) signature
  · exact h signature

theorem TablesInRange.update (h : TablesInRange maxSHCTVal SHCTsize s) :
    TablesInRange maxSHCTVal SHCTsize (s.update id req) := by
  have hrange : InRange (s.update id req) := inRange_update ⟨h.maxRPV, h.array⟩
  have hlearn : ∀ signature, s.SHCT signature ≤ s.maxSHCTVal := by
    rw [h.maxSHCTVal]
    exact h.SHCT
  unfold SHIPReplPolicy.update at hrange ⊢
  dsimp only at hrange ⊢
  split
  case isTrue hevicted =>
    rw [if_pos hevicted] at hrange
    refine ⟨hrange.array, unlearn_le h.SHCT _, ?_, h.created, h.maxRPV, h.maxSHCTVal⟩
    exact EHC.forall_update (fun b : BlockMeta => b.signature < SHCTsize) h.signature (h.created _)
  case isFalse hhit =>
    rw [if_neg hhit] at hrange
    refine ⟨hrange.array, fun signature => ?_, ?_, h.created, h.maxRPV, h.maxSHCTVal⟩
    · exact (learn_le hlearn _ signature).trans h.maxSHCTVal.le
    · exact EHC.forall_update (fun b : BlockMeta => b.signature < SHCTsize) h.signature (h.signature id)

/-- What the ranking does: four scans are enough, and nothing but the
predictions of the candidates changes. -/
def ShipRanks (s : SHIPReplPolicy) (cands : List LineId) : Prop :=
  ∃ i, EvictsFirst s.array cands i ∧
    s.rank cands = some (i, { s with array := raised s.array cands (3 - s.array i) }) ∧
    ∀ fuel, search (rankRound cands) fuel ⟨s, 2 ^ 32 - 1, 0⟩ = if 3 - s.array i < fuel then
      some (i, { s with array := raised s.array cands (3 - s.array i) }) else none

theorem TablesInRange.ranks (h : TablesInRange maxSHCTVal SHCTsize s) {cands : List LineId}
    (hne : cands ≠ []) (hcands : cands.Nodup) : ShipRanks s cands := by
  obtain ⟨i, k, hk, hripe, hsearch⟩ := rank_exact h.maxRPV (fun c _ => h.array c) hne
  obtain ⟨hrounds, hfirst, hraised⟩ := evictsFirst_of_ripe hripe hcands fun c _ => h.array c
  rw [hraised, hrounds] at hsearch
  rw [hrounds] at hk
  exact ⟨i, hfirst, (hsearch 5).trans (if_pos (by omega)), hsearch⟩

theorem TablesInRange.step (h : TablesInRange maxSHCTVal SHCTsize s) {call : ShipCall}
    (hstep : shipStep numLines s call = some s') : TablesInRange maxSHCTVal SHCTsize s' := by
  cases call with
  | update id req =>
    obtain ⟨-, hs'⟩ := Option.ite_none_right_eq_some.mp hstep
    cases hs'
    exact h.update
  | replaced id =>
    obtain ⟨-, hs'⟩ := Option.ite_none_right_eq_some.mp hstep
    cases hs'
    exact ⟨h.array, h.SHCT, h.signature, h.created, h.maxRPV, h.maxSHCTVal⟩
  | rank cands =>
    obtain ⟨⟨hne, hcands, -⟩, hs'⟩ := Option.ite_none_right_eq_some.mp hstep
    obtain ⟨i, hfirst, hrank, -⟩ := h.ranks hne hcands
    rw [hrank] at hs'
    cases hs'
    refine ⟨fun c => ?_, h.SHCT, h.signature, h.created, h.maxRPV, h.maxSHCTVal⟩
    have hc := h.array c
    dsimp only [raised]
    split
    · next hmem =>
      have hci := hfirst.greatest c hmem
      omega
    · exact hc

/-- In every state that calls in any order reach, the counters and the indices
into the table are in range, and the ranking evicts the first of the candidates
with the greatest prediction after at most four scans. -/
theorem ship_in_range (numLines maxSHCTVal : ℕ) (hpos : 1 ≤ SHCTsize) (hlt : SHCTsize < 2 ^ 64)
    {calls : List ShipCall}
    (hrun : run (shipStep numLines) (.init 3 maxSHCTVal SHCTsize) calls = some s) :
    TablesInRange maxSHCTVal SHCTsize s ∧
      ∀ cands : List LineId, cands ≠ [] → cands.Nodup → ShipRanks s cands := by
  have hstep : ∀ s x s', TablesInRange maxSHCTVal SHCTsize s → shipStep numLines s x = some s' →
      TablesInRange maxSHCTVal SHCTsize s' := fun s x s' h hs => h.step hs
  have h : TablesInRange maxSHCTVal SHCTsize s := run_invariant hstep (tablesInRange_init hpos hlt) hrun
  exact ⟨h, fun cands hne hcands => h.ranks hne hcands⟩

/-- A fill and a hit in two lines, with a table of five counters. -/
theorem ship_in_range_fill : ∃ s, run (shipStep 2) (.init 3 7 5)
    [.rank [0, 1], .replaced 0, .update 0 (fetch 5), .update 0 (fetch 5)] = some s ∧
      TablesInRange 7 5 s ∧ ShipRanks s [0, 1] := by
  obtain ⟨s, hrun⟩ : ∃ s, run (shipStep 2) (.init 3 7 5)
      [.rank [0, 1], .replaced 0, .update 0 (fetch 5), .update 0 (fetch 5)] = some s := ⟨_, rfl⟩
  have hsize : 1 ≤ 5 ∧ 5 < 2 ^ 64 := by omega
  obtain ⟨hrange, hranks⟩ := ship_in_range 2 7 hsize.1 hsize.2 hrun
  exact ⟨s, hrun, hrange, hranks [0, 1] (by simp) (by simp)⟩

end SignaturePrediction

end Zsim.VictimRules
