import Zsim.CacheArrays
import Zsim.GuardedRuns
import Mathlib.Data.Finset.Basic

/-!
# Arrays driven by a replacement policy

The methods of an array call the policy: `update` on hits, `rankCands` while a
line is chosen, `replaced` and `update` on the fill. A run calls the methods in
any order the caches allow. The abstract array is the set of addresses it
holds, and an insertion exchanges the address it reports for the new one. An
array whose methods act as a faithful array does implements that set over
every run, and its assertions hold, for every policy that answers with one of
the candidates it is offered.
-/

namespace Zsim.DrivenArrays

open MemoryHierarchy CacheArrays GuardedRuns

variable {σ ρ : Type}

/-- A core's request for a line it does not hold. -/
def fetch (lineAddr : Address) : MemReq where
  lineAddr := lineAddr
  type := .GETS
  childId := 0
  state := none
  cycle := 0
  initialState := .I
  flags := {}

/-- What a policy may ask the coherence controller. -/
structure CCView where
  numSharers : LineId → ℕ
  isValid : LineId → Bool

/-- `ReplPolicy`, on states `ρ`. -/
structure ReplPolicy (ρ : Type) where
  update : ρ → LineId → MemReq → ρ
  replaced : ρ → LineId → ρ
  /-- The chosen line id, or nothing when the ranking does not return. -/
  rankCands : ρ → CCView → MemReq → List LineId → Option (LineId × ρ)

/-- The side condition on a policy for caches of `numLines` lines, in the
states it can reach. -/
structure Ranks (P : ReplPolicy ρ) (numLines : ℕ) (J : ρ → Prop) : Prop where
  update : ∀ r i req, J r → i < numLines → J (P.update r i req)
  /-- `replaced` and the following `update`, between which nothing happens. -/
  fill : ∀ r i req, J r → i < numLines → J (P.update (P.replaced r i) i req)
  rank : ∀ r cc req cands, J r → cands ≠ [] → (∀ c ∈ cands, c < numLines) →
    ∃ i r', P.rankCands r cc req cands = some (i, r') ∧ i ∈ cands ∧ J r'

/-- The assertions and panics of the arrays. -/
inductive ArrayFailure where
  /-- "ZArray::lookup called with lineAddr==0 -- your app just segfaulted" -/
  | zeroAddress
  /-- The walk reads a candidate it has not written. -/
  | unwrittenCandidate
  /-- The walk expands a line without an address. -/
  | fringeAddr
  /-- The walk does not end. -/
  | endlessWalk
  /-- The walk stops early though every candidate is valid. -/
  | fewCandidates
  /-- The policy's answer is not a line. -/
  | badCandidate
  /-- The policy's answer is not among the candidates. -/
  | noSwaps
  /-- The line to replace has moved since it was chosen. -/
  | movedCandidate
  /-- The policy does not answer. -/
  | noAnswer
  deriving DecidableEq, Repr

/-- The methods of a cache array with its policy. -/
structure Methods (σ ρ : Type) where
  lookup : σ → ρ → MemReq → Bool → Except ArrayFailure (Option LineId × ρ)
  /-- The line to replace, `*wbLineAddr`, and the new states. -/
  preinsert : σ → ρ → CCView → MemReq → Except ArrayFailure (LineId × Address × σ × ρ)
  postinsert : σ → ρ → MemReq → LineId → Except ArrayFailure (σ × ρ)

/-- An insertion between `preinsert` and `postinsert`. -/
structure Insertion where
  req : MemReq
  lineId : LineId
  wbLineAddr : Address

/-- The states of a driven array, with the abstract set it implements. -/
structure ArrayState (σ ρ : Type) where
  array : σ
  rp : ρ
  pending : Option Insertion
  /-- The addresses inserted and not reported as `wbLineAddr` since. -/
  contents : Finset Address

/-- The calls of the caches. -/
inductive ArrayOp where
  | lookup (req : MemReq) (updateReplacement : Bool)
  | preinsert (cc : CCView) (req : MemReq)
  | postinsert

/-- A lookup of the address misses. -/
def Methods.misses (D : Methods σ ρ) (s : ArrayState σ ρ) (req : MemReq) : Bool :=
  match D.lookup s.array s.rp req false with
  | .ok (none, _) => true
  | _ => false

/-- One call. Addresses are not zero, an address is inserted after a lookup of
it has missed, and the two halves of an insertion alternate. -/
def step (D : Methods σ ρ) :
    Except ArrayFailure (ArrayState σ ρ) → ArrayOp → Option (Except ArrayFailure (ArrayState σ ρ))
  | .error _, _ => none
  | .ok s, .lookup req updateReplacement =>
    if req.lineAddr = 0 then none
    else some ((D.lookup s.array s.rp req updateReplacement).map fun r => { s with rp := r.2 })
  | .ok s, .preinsert cc req =>
    if req.lineAddr ≠ 0 ∧ s.pending.isNone = true ∧ D.misses s req = true then
      some ((D.preinsert s.array s.rp cc req).map fun r =>
        { s with
          array := r.2.2.1
          rp := r.2.2.2
          pending := some ⟨req, r.1, r.2.1⟩ })
    else none
  | .ok s, .postinsert =>
    match s.pending with
    | none => none
    | some ins =>
      some ((D.postinsert s.array s.rp ins.req ins.lineId).map fun r =>
        { array := r.1
          rp := r.2
          pending := none
          contents := insert ins.req.lineAddr (s.contents.erase ins.wbLineAddr) })

/-- The methods act as a faithful array does, under the policy's invariant. -/
structure Implements (D : Methods σ ρ) {A : CacheArray σ} (F : Faithful A) (J : ρ → Prop) :
    Prop where
  accepts : ∀ a, a ≠ 0 → F.Accepts a
  lookup : ∀ s r req u, F.Inv s → J r → req.lineAddr ≠ 0 →
    ∃ r', D.lookup s r req u = .ok (A.lookup s req.lineAddr, r') ∧ J r'
  preinsert : ∀ s r cc req, F.Inv s → J r → req.lineAddr ≠ 0 →
    A.lookup s req.lineAddr = none →
    ∃ i r', i ∈ A.candidates s req.lineAddr ∧ J r' ∧
      D.preinsert s r cc req = .ok (i, A.line s i, A.preinsert s req.lineAddr i, r')
  postinsert : ∀ s r req i, F.Inv s → J r → req.lineAddr ≠ 0 →
    A.lookup s req.lineAddr = none → i ∈ A.candidates s req.lineAddr →
    ∃ r', J r' ∧ D.postinsert (A.preinsert s req.lineAddr i) r req i =
      .ok (A.postinsert (A.preinsert s req.lineAddr i) req.lineAddr i, r')

section Contents

variable {A : CacheArray σ} (F : Faithful A) {s : σ} {a b : Address} {i : LineId}

/-- An address is stored exactly where it is found. -/
theorem lookup_iff_line (hs : F.Inv s) (hb : b ≠ 0) :
    (∃ j, A.lookup s b = some j) ↔ ∃ j, A.line s j = b := by
  constructor
  · rintro ⟨j, hj⟩
    exact ⟨j, F.lookup_line s b j hs hj⟩
  · rintro ⟨j, rfl⟩
    exact ⟨j, F.stored_found s j hs hb⟩

/-- The insertion of a missing address exchanges the address of the chosen
line for the new one. -/
theorem insert_contents (hs : F.Inv s) (hacc : F.Accepts a) (hmiss : A.lookup s a = none)
    (hi : i ∈ A.candidates s a) (hb : b ≠ 0) :
    (∃ j, A.lookup (A.postinsert (A.preinsert s a i) a i) b = some j) ↔
      b = a ∨ (b ≠ A.line s i ∧ ∃ j, A.lookup s b = some j) := by
  rw [lookup_iff_line F (F.insert_inv s a i hs hacc hmiss hi) hb, lookup_iff_line F hs hb,
    F.insert_line s a i hs hacc hmiss hi]
  constructor
  · rintro ⟨j, hj⟩
    by_cases hji : j = i
    · rw [hji, Function.update_self] at hj
      exact .inl hj.symm
    · rw [Function.update_of_ne hji] at hj
      refine .inr ⟨?_, j, hj⟩
      rintro rfl
      have hfound := F.stored_found s j hs (hj ▸ hb)
      rw [hj, F.stored_found s i hs hb] at hfound
      exact hji (Option.some.inj hfound).symm
  · rintro (rfl | ⟨hne, j, rfl⟩)
    · exact ⟨i, Function.update_self ..⟩
    · refine ⟨j, Function.update_of_ne ?_ _ _⟩
      rintro rfl
      exact hne rfl

end Contents

section Runs

variable {D : Methods σ ρ} {A : CacheArray σ} {F : Faithful A} {J : ρ → Prop}

/-- The invariant of driven arrays. Between the two halves of an insertion the
array is one that has chosen its victim. -/
structure Sound (F : Faithful A) (J : ρ → Prop) (s : ArrayState σ ρ) : Prop where
  rp : J s.rp
  inv : F.Inv s.array
  pending : ∀ ins, s.pending = some ins → ∃ s₀, s.array = A.preinsert s₀ ins.req.lineAddr ins.lineId ∧
    F.Inv s₀ ∧ ins.req.lineAddr ≠ 0 ∧ A.lookup s₀ ins.req.lineAddr = none ∧
    ins.lineId ∈ A.candidates s₀ ins.req.lineAddr ∧ ins.wbLineAddr = A.line s₀ ins.lineId
  /-- The array implements the set of its contents. -/
  contents : ∀ a, a ∈ s.contents ↔ a ≠ 0 ∧ ∃ i, A.lookup s.array a = some i

/-- No call has failed so far. -/
def Succeeds (F : Faithful A) (J : ρ → Prop) (r : Except ArrayFailure (ArrayState σ ρ)) : Prop :=
  ∃ s, r = .ok s ∧ Sound F J s

/-- No call fails, and every call keeps the invariant. -/
theorem step_sound (h : Implements D F J) {s : ArrayState σ ρ} (hs : Sound F J s) {op : ArrayOp}
    {r : Except ArrayFailure (ArrayState σ ρ)} (hr : step D (.ok s) op = some r) :
    Succeeds F J r := by
  cases op with
  | lookup req u =>
    simp only [step] at hr
    split at hr
    · cases hr
    · next hne =>
      obtain ⟨r', hl, hJ⟩ := h.lookup s.array s.rp req u hs.inv hs.rp hne
      rw [hl] at hr
      exact ⟨_, (Option.some.inj hr).symm, hJ, hs.inv, hs.pending, hs.contents⟩
  | preinsert cc req =>
    simp only [step] at hr
    split at hr
    · next hguard =>
      obtain ⟨hne, -, hmisses⟩ := hguard
      have hmiss : A.lookup s.array req.lineAddr = none := by
        obtain ⟨r', hl, -⟩ := h.lookup s.array s.rp req false hs.inv hs.rp hne
        unfold Methods.misses at hmisses
        rw [hl] at hmisses
        cases ha : A.lookup s.array req.lineAddr with
        | none => rfl
        | some i => simp [ha] at hmisses
      obtain ⟨i, r', hi, hJ, hp⟩ := h.preinsert s.array s.rp cc req hs.inv hs.rp hne hmiss
      rw [hp] at hr
      refine ⟨_, (Option.some.inj hr).symm, hJ, F.preinsert_inv _ _ _ hs.inv, ?_, fun a => ?_⟩
      · rintro ins hins
        cases hins
        exact ⟨s.array, rfl, hs.inv, hne, hmiss, hi, rfl⟩
      · rw [hs.contents, F.preinsert_lookup]
    · cases hr
  | postinsert =>
    simp only [step] at hr
    split at hr
    · cases hr
    · next ins hins =>
      obtain ⟨s₀, harr, hinv, hne, hmiss, hi, hwb⟩ := hs.pending ins hins
      have hacc := h.accepts _ hne
      obtain ⟨r', hJ, hp⟩ := h.postinsert s₀ s.rp ins.req ins.lineId hinv hs.rp hne hmiss hi
      rw [harr, hp] at hr
      refine ⟨_, (Option.some.inj hr).symm, hJ, F.insert_inv _ _ _ hinv hacc hmiss hi, nofun,
        fun a => ?_⟩
      have hold := hs.contents a
      rw [harr, F.preinsert_lookup] at hold
      by_cases ha : a = 0
      · subst ha
        simp [hold, hne.symm]
      · rw [Finset.mem_insert, Finset.mem_erase, hold,
          insert_contents F hinv hacc hmiss hi ha, hwb]
        simp [ha]

/-- Every run succeeds and implements the abstract set. -/
theorem run_sound (h : Implements D F J) {s : ArrayState σ ρ} (hs : Sound F J s)
    {ops : List ArrayOp} {r : Except ArrayFailure (ArrayState σ ρ)}
    (hr : run (step D) (.ok s) ops = some r) : Succeeds F J r := by
  have hstep : ∀ r op r', Succeeds F J r → step D r op = some r' → Succeeds F J r' := by
    rintro _ op r' ⟨s, rfl, hs⟩ hr'
    exact step_sound h hs hr'
  exact run_invariant hstep ⟨s, rfl, hs⟩ hr

end Runs

end Zsim.DrivenArrays
