import Zsim.SetAssoc
import Zsim.ZCache

/-!
# The calls a policy sees

Both arrays use their policy alike: `update` for the line that holds the
address of a hit, `rankCands` over some lines of the array, `replaced` and
`update` for a line that is filled. A policy run is any sequence of such calls;
every run of either array makes one.
-/

namespace Zsim.PolicyRuns

open MemoryHierarchy CacheArrays DrivenArrays GuardedRuns

variable {σ ρ : Type}

/-- The calls of an array to its policy. -/
inductive PolicyOp where
  | hit (id : LineId) (req : MemReq)
  | rank (cc : CCView) (req : MemReq) (cands : List LineId)
  /-- `replaced` and the `update` that follows it. -/
  | fill (id : LineId) (req : MemReq)

/-- One call, on a cache of `numLines` lines. -/
def callStep (P : ReplPolicy ρ) (numLines : ℕ) : ρ → PolicyOp → Option ρ
  | r, .hit id req => if id < numLines then some (P.update r id req) else none
  | r, .rank cc req cands =>
    if cands ≠ [] ∧ ∀ c ∈ cands, c < numLines then
      (P.rankCands r cc req cands).map Prod.snd
    else none
  | r, .fill id req => if id < numLines then some (P.update (P.replaced r id) id req) else none

/-- A policy and the addresses of the blocks in the lines it ranks. -/
structure PolicyState (ρ : Type) where
  rp : ρ
  /-- None in a line that has never been filled. -/
  resident : LineId → Option Address

/-- A hit is on the line of the block, and a fill replaces the block. -/
def residents (resident : LineId → Option Address) : PolicyOp → Option (LineId → Option Address)
  | .hit id req => if resident id = some req.lineAddr then some resident else none
  | .rank .. => some resident
  | .fill id req => some (Function.update resident id (some req.lineAddr))

/-- One call, with the blocks. -/
def policyStep (P : ReplPolicy ρ) (numLines : ℕ) (s : PolicyState ρ) (op : PolicyOp) :
    Option (PolicyState ρ) :=
  (callStep P numLines s.rp op).bind fun rp =>
    (residents s.resident op).map fun resident => ⟨rp, resident⟩

section Steps

variable {P : ReplPolicy ρ} {numLines : ℕ} {r r' : ρ} {s s' : PolicyState ρ} {id : LineId}
  {req : MemReq} {op : PolicyOp}

theorem callStep_hit : callStep P numLines r (.hit id req) = some r' ↔
    id < numLines ∧ P.update r id req = r' := by
  simp only [callStep, Option.ite_none_right_eq_some, Option.some.injEq]

theorem callStep_rank {cc : CCView} {cands : List LineId} :
    callStep P numLines r (.rank cc req cands) = some r' ↔
      (cands ≠ [] ∧ ∀ c ∈ cands, c < numLines) ∧ ∃ i, P.rankCands r cc req cands = some (i, r') := by
  simp only [callStep, Option.ite_none_right_eq_some, Option.map_eq_some_iff, Prod.exists,
    exists_eq_right]

theorem callStep_fill : callStep P numLines r (.fill id req) = some r' ↔
    id < numLines ∧ P.update (P.replaced r id) id req = r' := by
  simp only [callStep, Option.ite_none_right_eq_some, Option.some.injEq]

/-- A policy that ranks keeps its invariant over every run. -/
theorem callStep_inv {J : ρ → Prop} (hP : Ranks P numLines J) (hr : J r)
    (hstep : callStep P numLines r op = some r') : J r' := by
  cases op with
  | hit id req =>
    obtain ⟨hid, rfl⟩ := callStep_hit.mp hstep
    exact hP.update r id req hr hid
  | rank cc req cands =>
    obtain ⟨hg, i, hi⟩ := callStep_rank.mp hstep
    obtain ⟨i', r₁, hi', -, hJ⟩ := hP.rank r cc req cands hr hg.1 hg.2
    rw [hi] at hi'
    cases hi'
    exact hJ
  | fill id req =>
    obtain ⟨hid, rfl⟩ := callStep_fill.mp hstep
    exact hP.fill r id req hr hid

theorem policyStep_iff : policyStep P numLines s op = some s' ↔
    callStep P numLines s.rp op = some s'.rp ∧ residents s.resident op = some s'.resident := by
  simp only [policyStep, Option.bind_eq_some_iff, Option.map_eq_some_iff]
  constructor
  · rintro ⟨rp, hrp, resident, hres, rfl⟩
    exact ⟨hrp, hres⟩
  · rintro ⟨hrp, hres⟩
    exact ⟨_, hrp, _, hres, rfl⟩

theorem policyStep_hit : policyStep P numLines s (.hit id req) = some s' ↔
    (id < numLines ∧ s.resident id = some req.lineAddr) ∧
      { s with rp := P.update s.rp id req } = s' := by
  simp only [policyStep_iff, callStep_hit, residents, Option.ite_none_right_eq_some,
    Option.some.injEq]
  constructor
  · rintro ⟨⟨hid, hrp⟩, hres, hsame⟩
    exact ⟨⟨hid, hres⟩, by rw [hrp, hsame]⟩
  · rintro ⟨⟨hid, hres⟩, rfl⟩
    exact ⟨⟨hid, rfl⟩, hres, rfl⟩

theorem policyStep_rank {cc : CCView} {cands : List LineId} :
    policyStep P numLines s (.rank cc req cands) = some s' ↔
      (cands ≠ [] ∧ ∀ c ∈ cands, c < numLines) ∧
        ∃ i r, P.rankCands s.rp cc req cands = some (i, r) ∧ { s with rp := r } = s' := by
  simp only [policyStep_iff, callStep_rank, residents, Option.some.injEq]
  constructor
  · rintro ⟨⟨hg, i, hi⟩, hsame⟩
    exact ⟨hg, i, s'.rp, hi, by rw [hsame]⟩
  · rintro ⟨hg, i, r, hi, rfl⟩
    exact ⟨⟨hg, i, hi⟩, rfl⟩

theorem policyStep_fill : policyStep P numLines s (.fill id req) = some s' ↔
    id < numLines ∧ ⟨P.update (P.replaced s.rp id) id req,
      Function.update s.resident id (some req.lineAddr)⟩ = s' := by
  simp only [policyStep_iff, callStep_fill, residents, Option.some.injEq]
  constructor
  · rintro ⟨⟨hid, hrp⟩, hres⟩
    exact ⟨hid, by rw [hrp, hres]⟩
  · rintro ⟨hid, rfl⟩
    exact ⟨⟨hid, rfl⟩, rfl⟩

end Steps

/-- The methods make these calls and no others. -/
structure Drives (D : Methods σ ρ) {A : CacheArray σ} (F : Faithful A) (P : ReplPolicy ρ)
    (numLines : ℕ) : Prop where
  candidates_lt : ∀ s a, F.Inv s → ∀ i ∈ A.candidates s a, i < numLines
  lookup : ∀ s r req u x r', F.Inv s → D.lookup s r req u = .ok (x, r') →
    r' = r ∨ ∃ id, id < numLines ∧ A.line s id = req.lineAddr ∧ r' = P.update r id req
  preinsert : ∀ s r cc req i wb s' r', F.Inv s →
    D.preinsert s r cc req = .ok (i, wb, s', r') →
    A.line s' = A.line s ∧ ∃ cands, cands ≠ [] ∧ (∀ c ∈ cands, c < numLines) ∧
      P.rankCands r cc req cands = some (i, r')
  postinsert : ∀ s r req i s' r', D.postinsert s r req i = .ok (s', r') →
    A.line s' = Function.update (A.line s) i req.lineAddr ∧ r' = P.update (P.replaced r i) i req

section Refinement

variable {D : Methods σ ρ} {A : CacheArray σ} {F : Faithful A} {P : ReplPolicy ρ} {numLines : ℕ}
  {J : ρ → Prop}

/-- What the policy sees of an array: a line that stores 0 holds no block. -/
def view (A : CacheArray σ) (s : ArrayState σ ρ) : PolicyState ρ where
  rp := s.rp
  resident id := if A.line s.array id = 0 then none else some (A.line s.array id)

/-- Every call of the array is at most one call of its policy. -/
theorem step_refines (hd : Drives D F P numLines) {s s' : ArrayState σ ρ}
    (hs : Sound F J s) {op : ArrayOp} (hstep : step D (.ok s) op = some (.ok s')) :
    ∃ ops, run (policyStep P numLines) (view A s) ops = some (view A s') := by
  cases op with
  | lookup req u =>
    simp only [step] at hstep
    split at hstep
    · cases hstep
    · next hne =>
      cases hl : D.lookup s.array s.rp req u with
      | error e => rw [hl] at hstep; cases hstep
      | ok r =>
        rw [hl] at hstep
        obtain rfl : { s with rp := r.2 } = s' := by simpa [Except.map] using hstep
        rcases hd.lookup s.array s.rp req u r.1 r.2 hs.inv hl with hr | ⟨id, hid, hline, hr⟩
        · exact ⟨[], by rw [run, view, view, hr]⟩
        · have hres : (view A s).resident id = some req.lineAddr := by
            simp [view, hline, hne]
          refine ⟨[.hit id req], run_cons.mpr ⟨_, policyStep_hit.mpr ⟨⟨hid, hres⟩, rfl⟩, ?_⟩⟩
          rw [run, view, view, hr]
  | preinsert cc req =>
    simp only [step] at hstep
    split at hstep
    · cases hp : D.preinsert s.array s.rp cc req with
      | error e => rw [hp] at hstep; cases hstep
      | ok r =>
        rw [hp] at hstep
        have heq := Except.ok.inj (Option.some.inj hstep)
        subst heq
        obtain ⟨hline, cands, hne, hlt, hr⟩ := hd.preinsert s.array s.rp cc req r.1 r.2.1 r.2.2.1
          r.2.2.2 hs.inv hp
        refine ⟨[.rank cc req cands], run_cons.mpr ⟨_, policyStep_rank.mpr
          ⟨⟨hne, hlt⟩, r.1, r.2.2.2, hr, rfl⟩, ?_⟩⟩
        simp only [run, view, hline]
    · cases hstep
  | postinsert =>
    simp only [step] at hstep
    split at hstep
    · cases hstep
    · next ins hins =>
      obtain ⟨s₀, harr, hinv, hne, -, hi, -⟩ := hs.pending ins hins
      cases hp : D.postinsert s.array s.rp ins.req ins.lineId with
      | error e => rw [hp] at hstep; cases hstep
      | ok r =>
        rw [hp] at hstep
        have heq := Except.ok.inj (Option.some.inj hstep)
        subst heq
        obtain ⟨hline, hr⟩ := hd.postinsert s.array s.rp ins.req ins.lineId r.1 r.2 hp
        refine ⟨[.fill ins.lineId ins.req], run_cons.mpr ⟨_, policyStep_fill.mpr
          ⟨hd.candidates_lt s₀ _ hinv _ hi, rfl⟩, ?_⟩⟩
        simp only [run, view, hline, hr, Option.some.injEq, PolicyState.mk.injEq, true_and]
        funext id
        by_cases hid : id = ins.lineId
        · subst hid
          simp [hne]
        · simp only [Function.update_of_ne hid]

/-- Every run of the array is a run of its policy. -/
theorem run_refines (h : Implements D F J) (hd : Drives D F P numLines) {s s' : ArrayState σ ρ}
    (hs : Sound F J s) {ops : List ArrayOp} (hr : run (step D) (.ok s) ops = some (.ok s')) :
    ∃ pops, run (policyStep P numLines) (view A s) pops = some (view A s') := by
  induction ops generalizing s with
  | nil =>
    cases hr
    exact ⟨[], rfl⟩
  | cons op ops ih =>
    obtain ⟨r, hstep, hrest⟩ := run_cons.mp hr
    obtain ⟨s₁, rfl, hs₁⟩ := step_sound h hs hstep
    obtain ⟨pops₁, h₁⟩ := step_refines hd hs hstep
    obtain ⟨pops₂, h₂⟩ := ih hs₁ hrest
    exact ⟨pops₁ ++ pops₂, run_append.mpr ⟨_, h₁, h₂⟩⟩

end Refinement

section Instances

variable {P : ReplPolicy ρ} {numLines : ℕ}

theorem setAssoc_drives :
    Drives (SetAssoc.SetAssocArray.methods P) (SetAssoc.sized_faithful numLines) P numLines where
  candidates_lt s a hs i hi := hs.2 ▸ hs.1.cands_lt hi
  lookup s r req u x r' hs hl := by
    have hl : s.lookup P r req u = (x, r') := Except.ok.inj hl
    unfold SetAssoc.SetAssocArray.lookup at hl
    cases hf : s.find req.lineAddr with
    | none =>
      rw [hf] at hl
      cases hl
      exact .inl rfl
    | some id =>
      rw [hf] at hl
      cases hl
      split
      · exact .inr ⟨id, hs.2 ▸ hs.1.cands_lt (SetAssoc.find_mem hf), SetAssoc.find_line hf, rfl⟩
      · exact .inl rfl
  preinsert s r cc req i wb s' r' hs hp := by
    change s.preinsert P r cc req = _ at hp
    unfold SetAssoc.SetAssocArray.preinsert at hp
    cases hr : P.rankCands r cc req (s.cands req.lineAddr) with
    | none => rw [hr] at hp; cases hp
    | some x =>
      rw [hr] at hp
      cases hp
      exact ⟨rfl, s.cands req.lineAddr, SetAssoc.setAssoc_faithful.candidates_ne_nil s _ hs.1,
        fun c hc => hs.2 ▸ hs.1.cands_lt hc, hr⟩
  postinsert s r req i s' r' hp := by
    cases hp
    exact ⟨rfl, rfl⟩

theorem zArray_drives :
    Drives (ZCache.ZArray.methods P) (ZCache.sized_faithful numLines) P numLines where
  candidates_lt s a hs i hi := hs.2 ▸ hs.1.permuted.candidates_lt i hi
  lookup s r req u x r' hs hl := by
    change s.lookup P r req u = _ at hl
    unfold ZCache.ZArray.lookup at hl
    split at hl
    · cases hl
    · cases hf : s.find req.lineAddr with
      | none =>
        rw [hf] at hl
        cases hl
        exact .inl rfl
      | some id =>
        rw [hf] at hl
        cases hl
        split
        · obtain ⟨w, hw, hid⟩ := List.mem_map.mp (List.mem_of_find?_eq_some hf)
          have hlt := hs.1.permuted.lookup_lt (hs.1.permuted.position_lt (a:=req.lineAddr) (List.mem_range.mp hw))
          exact .inr ⟨id, hs.2 ▸ hid ▸ hlt, ZCache.find_line hf, rfl⟩
        · exact .inl rfl
  preinsert s r cc req i wb s' r' hs hp := by
    change s.preinsert P r cc req = _ at hp
    have hcands := ZCache.zArray_faithful.candidates_ne_nil s req.lineAddr hs.1
    have hlt := fun c hc => hs.2 ▸ hs.1.permuted.candidates_lt (a:=req.lineAddr) c hc
    simp only [ZCache.ZArray.preinsert, (hs.1.permuted.walk_spec req.lineAddr).1] at hp
    split at hp
    · cases hp
    · cases hr : P.rankCands r cc req (ZCache.zArray.candidates s req.lineAddr) with
      | none =>
        simp only [ZCache.zArray] at hr
        rw [hr] at hp
        cases hp
      | some x =>
        have hr' := hr
        simp only [ZCache.zArray] at hr
        rw [hr] at hp
        dsimp only at hp
        split at hp
        · cases hp
        · split at hp
          · cases hp
          · cases hp
            exact ⟨rfl, _, hcands, hlt, hr'⟩
  postinsert s r req i s' r' hp := by
    change s.postinsert P r req i = _ at hp
    unfold ZCache.ZArray.postinsert at hp
    split at hp
    · cases hp
    · split at hp
      · cases hp
      · cases hp
        exact ⟨rfl, rfl⟩

end Instances

end Zsim.PolicyRuns
