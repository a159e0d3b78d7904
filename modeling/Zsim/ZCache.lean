import Zsim.DrivenArrays
import Mathlib.Data.List.Range
import Mathlib.GroupTheory.Perm.List
import Mathlib.Data.Set.Function

/-!
# The zcache array

A line can stand at one position of every way, and `lookupArray` says which
line stands where. An insertion walks breadth first from the positions of the
new address over the lines found there to their other positions, lets the
policy choose among the lines met, and moves the lines on the path to the
chosen one a step back each, so that a position of the new address is freed.

The walk may meet a line more than once. The path starts at the first
occurrence of the chosen line, and the parent of a first occurrence is a first
occurrence again, because an earlier copy of the parent would have met the
same child before. So no position repeats on the path and the moves permute
`lookupArray` in one cycle.
-/

namespace Zsim.ZCache

open MemoryHierarchy CacheArrays DrivenArrays GuardedRuns

/-- `ZArray`, with the hash family it was given. -/
structure ZArray where
  /-- Maps line id to address. -/
  array : LineId → Address
  /-- Maps physical position to line id. -/
  lookupArray : ℕ → LineId
  /-- `hf->hash(id, lineAddr)`. -/
  hash : ℕ → Address → ℕ
  numLines : ℕ
  ways : ℕ
  cands : ℕ
  /-- The first `swapArrayLen` elements of `swapArray`. -/
  swapArray : List ℕ

/-- `ZWalkInfo`; a seed has no parent. -/
structure ZWalkInfo where
  pos : ℕ
  lineId : LineId
  parentIdx : Option ℕ

/-- The local variables of the walk. -/
structure Walk where
  /-- The first `numCandidates` elements of `candidates`. -/
  candidates : List ZWalkInfo
  allValid : Bool
  fringeStart : ℕ

namespace ZArray

/-- `numLines/ways`. -/
def numSets (s : ZArray) : ℕ := s.numLines / s.ways

/-- `numSets - 1`. -/
def setMask (s : ZArray) : ℕ := s.numSets - 1

/-- The position of an address in way `w`. -/
def position (s : ZArray) (w : ℕ) (lineAddr : Address) : ℕ :=
  w * s.numSets + (s.hash w lineAddr &&& s.setMask)

/-- The search of `ZArray::lookup`. -/
def find (s : ZArray) (lineAddr : Address) : Option LineId :=
  ((List.range s.ways).map fun w => s.lookupArray (s.position w lineAddr)).find?
    fun id => s.array id == lineAddr

/-- The seeds of the walk. -/
def seeds (s : ZArray) (lineAddr : Address) : Walk where
  candidates := (List.range s.ways).map fun w =>
    ⟨s.position w lineAddr, s.lookupArray (s.position w lineAddr), none⟩
  allValid := (List.range s.ways).all fun w =>
    s.array (s.lookupArray (s.position w lineAddr)) != 0
  fringeStart := 0

/-- One way of the expansion of the fringe line `fringeId`. A revisit of the
line itself is overwritten by the next candidate. -/
def expandWay (s : ZArray) (fringeId : LineId) (fringeAddr : Address) (k : Walk) (w : ℕ) : Walk :=
  let pos := s.position w fringeAddr
  let lineId := s.lookupArray pos
  { k with
    candidates := if lineId ≠ fringeId then k.candidates ++ [⟨pos, lineId, some k.fringeStart⟩]
      else k.candidates
    allValid := k.allValid && s.array lineId != 0 }

/-- The loop that expands the fringe, with the rounds it may still take. -/
def expand (s : ZArray) : ℕ → Walk → Except ArrayFailure Walk
  | fuel, k =>
    if k.candidates.length < s.cands ∧ k.allValid = true then
      match fuel with
      | 0 => .error .endlessWalk
      | fuel + 1 =>
        match k.candidates[k.fringeStart]? with
        | none => .error .unwrittenCandidate
        | some fringe =>
          let fringeAddr := s.array fringe.lineId
          if fringeAddr = 0 then .error .fringeAddr
          else
            let k := (List.range s.ways).foldl (s.expandWay fringe.lineId fringeAddr) k
            s.expand fuel { k with fringeStart := k.fringeStart + 1 }
    else .ok k

/-- The walk for an incoming address; every round adds a candidate. -/
def walk (s : ZArray) (lineAddr : Address) : Except ArrayFailure Walk :=
  s.expand s.cands (s.seeds lineAddr)

/-- The positions from a candidate up to its seed. -/
def swaps (candidates : List ZWalkInfo) : ℕ → Option ℕ → List ℕ
  | 0, _ => []
  | _ + 1, none => []
  | fuel + 1, some idx =>
    match candidates[idx]? with
    | none => []
    | some c => c.pos :: swaps candidates fuel c.parentIdx

/-- The swap array for the policy's choice, from its minimum index on. -/
def swapsFor (s : ZArray) (k : Walk) (bestCandidate : LineId) : List ℕ :=
  swaps k.candidates k.candidates.length
    ((k.candidates.take s.cands).findIdx? fun c => c.lineId == bestCandidate)

/-- The moves of `postinsert` along the swap array. -/
def shift : (ℕ → LineId) → List ℕ → LineId → ℕ → LineId
  | lookupArray, [], _ => lookupArray
  | lookupArray, [p], candidate => Function.update lookupArray p candidate
  | lookupArray, p :: q :: rest, candidate =>
    shift (Function.update lookupArray p (lookupArray q)) (q :: rest) candidate

end ZArray

/-- The empty array the constructor makes. -/
def ZArray.init (numLines ways cands : ℕ) (hash : ℕ → Address → ℕ) : ZArray :=
  ⟨fun _ => 0, id, hash, numLines, ways, cands, []⟩

section Methods

variable {ρ : Type} (P : ReplPolicy ρ)

/-- `ZArray::lookup`. -/
def ZArray.lookup (s : ZArray) (rp : ρ) (req : MemReq) (updateReplacement : Bool) :
    Except ArrayFailure (Option LineId × ρ) :=
  if req.lineAddr = 0 then .error .zeroAddress
  else match s.find req.lineAddr with
    | some id => .ok (some id, if updateReplacement = true then P.update rp id req else rp)
    | none => .ok (none, rp)

/-- `ZArray::preinsert`. -/
def ZArray.preinsert (s : ZArray) (rp : ρ) (cc : CCView) (req : MemReq) :
    Except ArrayFailure (LineId × Address × ZArray × ρ) :=
  match s.walk req.lineAddr with
  | .error e => .error e
  | .ok k =>
    if k.allValid = true ∧ k.candidates.length < s.cands then .error .fewCandidates
    else match P.rankCands rp cc req ((k.candidates.take s.cands).map ZWalkInfo.lineId) with
      | none => .error .noAnswer
      | some (bestCandidate, rp) =>
        if ¬ bestCandidate < s.numLines then .error .badCandidate
        else if s.swapsFor k bestCandidate = [] then .error .noSwaps
        else .ok (bestCandidate, s.array bestCandidate,
          { s with swapArray := s.swapsFor k bestCandidate }, rp)

/-- The moves and the store of `ZArray::postinsert`. -/
def ZArray.store (s : ZArray) (candidate : LineId) (lineAddr : Address) : ZArray :=
  { s with
    lookupArray := ZArray.shift s.lookupArray s.swapArray candidate
    array := Function.update s.array candidate lineAddr }

/-- `ZArray::postinsert`. -/
def ZArray.postinsert (s : ZArray) (rp : ρ) (req : MemReq) (candidate : LineId) :
    Except ArrayFailure (ZArray × ρ) :=
  match s.swapArray.head? with
  | none => .error .noSwaps
  | some p =>
    if s.lookupArray p ≠ candidate then .error .movedCandidate
    else .ok (s.store candidate req.lineAddr, P.update (P.replaced rp candidate) candidate req)

/-- The class with its policy. -/
def ZArray.methods : Methods ZArray ρ where
  lookup s rp req u := s.lookup P rp req u
  preinsert s rp cc req := s.preinsert P rp cc req
  postinsert s rp req i := s.postinsert P rp req i

end Methods

/-- The walk, empty when it fails. -/
def ZArray.walkOf (s : ZArray) (lineAddr : Address) : Walk :=
  match s.walk lineAddr with
  | .ok k => k
  | .error _ => ⟨[], false, 0⟩

/-- The array without its policy; a lookup of 0 finds nothing. -/
def zArray : CacheArray ZArray where
  line s := s.array
  lookup s a := if a = 0 then none else s.find a
  candidates s a := ((s.walkOf a).candidates.take s.cands).map ZWalkInfo.lineId
  preinsert s a i := { s with swapArray := s.swapsFor (s.walkOf a) i }
  postinsert s a i := s.store i a

section Shift

variable {L : ℕ → LineId} {p q : ℕ} {ps : List ℕ} {c v : LineId}

/-- The moves never read the position they start at. -/
theorem shift_update_head (hp : p ∉ ps) :
    ZArray.shift (Function.update L p v) (p :: ps) c = ZArray.shift L (p :: ps) c := by
  cases ps with
  | nil => simp only [ZArray.shift, Function.update_idem]
  | cons q ps =>
    have hqp : q ≠ p := by
      rintro rfl
      exact hp List.mem_cons_self
    simp only [ZArray.shift, Function.update_idem, Function.update_of_ne hqp]

/-- The moves along distinct positions are one cycle. -/
theorem shift_eq_formPerm (hnodup : (p :: ps).Nodup) :
    ZArray.shift L (p :: ps) (L p) = L ∘ (p :: ps).formPerm := by
  induction ps generalizing L p with
  | nil => simp [ZArray.shift]
  | cons q ps ih =>
    obtain ⟨hp, hq⟩ := List.nodup_cons.mp hnodup
    have hpq : p ≠ q := fun h => hp (h ▸ List.mem_cons_self)
    have hswap : L ∘ Equiv.swap p q =
        Function.update (Function.update L p (L q)) q (L p) := by
      funext x
      simp only [Function.comp_apply, Equiv.swap_apply_def]
      by_cases hxq : x = q
      · simp [hxq, hpq.symm]
      · by_cases hxp : x = p
        · simp [hxp, hpq]
        · simp [hxp, hxq]
    have hstep := ih (L:=L ∘ Equiv.swap p q) (p:=q) hq
    rw [Function.comp_apply, Equiv.swap_apply_right, hswap,
      shift_update_head (List.nodup_cons.mp hq).1] at hstep
    rw [ZArray.shift, hstep, ← hswap, List.formPerm_cons_cons]
    rfl

end Shift

/-- What the constructor asserts and every run keeps. -/
structure WellStored (s : ZArray) : Prop where
  ways : 2 ≤ s.ways
  cands : s.ways ≤ s.cands
  lines : s.numLines = s.ways * s.numSets
  sets : ∃ k, s.numSets = 2 ^ k
  /-- `lookupArray` is a permutation of the line ids. -/
  perm : Set.BijOn s.lookupArray (Set.Iio s.numLines) (Set.Iio s.numLines)
  /-- Every stored address stands at one of its own positions. -/
  placed : ∀ i, s.array i ≠ 0 → ∃ w < s.ways, s.lookupArray (s.position w (s.array i)) = i
  unique : ∀ i j, s.array i ≠ 0 → s.array i = s.array j → i = j

/-- What the constructor asserts, and that the swaps only permute `lookupArray`:
all that the walk needs, whatever the lines hold. -/
structure Permuted (s : ZArray) : Prop where
  ways : 2 ≤ s.ways
  cands : s.ways ≤ s.cands
  lines : s.numLines = s.ways * s.numSets
  sets : ∃ k, s.numSets = 2 ^ k
  perm : Set.BijOn s.lookupArray (Set.Iio s.numLines) (Set.Iio s.numLines)

theorem WellStored.permuted {s : ZArray} (h : WellStored s) : Permuted s :=
  ⟨h.ways, h.cands, h.lines, h.sets, h.perm⟩

section Positions

variable {s : ZArray} {a b : Address} {i j : LineId} {v w : ℕ}

theorem Permuted.hash_lt (h : Permuted s) (w : ℕ) (a : Address) :
    s.hash w a &&& s.setMask < s.numSets := by
  obtain ⟨k, hk⟩ := h.sets
  rw [ZArray.setMask, hk, Nat.and_two_pow_sub_one_eq_mod]
  exact Nat.mod_lt _ (Nat.two_pow_pos k)

theorem Permuted.position_lt (h : Permuted s) (hw : w < s.ways) :
    s.position w a < s.numLines := by
  have hlt := h.hash_lt w a
  have hway : (w + 1) * s.numSets ≤ s.ways * s.numSets := Nat.mul_le_mul_right _ hw
  rw [Nat.succ_mul] at hway
  rw [h.lines, ZArray.position]
  omega

/-- Positions in different ways differ. -/
theorem Permuted.position_inj (h : Permuted s) (he : s.position v a = s.position w a) :
    v = w := by
  have hv := h.hash_lt v a
  have hw := h.hash_lt w a
  have hpos : 0 < s.numSets := by omega
  have hdiv : ∀ x, (x * s.numSets + (s.hash x a &&& s.setMask)) / s.numSets = x := fun x => by
    rw [Nat.mul_comm, Nat.mul_add_div hpos, Nat.div_eq_of_lt (h.hash_lt x a), Nat.add_zero]
  rw [← hdiv v, ← hdiv w]
  exact congrArg (· / s.numSets) he

theorem Permuted.lookup_lt (h : Permuted s) {p : ℕ} (hp : p < s.numLines) :
    s.lookupArray p < s.numLines := h.perm.mapsTo hp

theorem Permuted.lookup_inj (h : Permuted s) {p q : ℕ} (hp : p < s.numLines)
    (hq : q < s.numLines) (he : s.lookupArray p = s.lookupArray q) : p = q :=
  h.perm.injOn hp hq he

theorem find_line (h : s.find a = some i) : s.array i = a := by
  simpa using List.find?_some h

/-- A stored address is found. -/
theorem WellStored.find_stored (h : WellStored s) (hi : s.array i ≠ 0) :
    s.find (s.array i) = some i := by
  obtain ⟨w, hw, hl⟩ := h.placed i hi
  cases hf : s.find (s.array i) with
  | none =>
    have hnone := List.find?_eq_none.mp hf i
      (List.mem_map.mpr ⟨w, List.mem_range.mpr hw, hl⟩)
    simp at hnone
  | some j => rw [h.unique i j hi (find_line hf).symm]

/-- A missing address is stored nowhere. -/
theorem WellStored.fresh (h : WellStored s) (ha : a ≠ 0) (hmiss : s.find a = none) (i : LineId) :
    s.array i ≠ a := by
  rintro rfl
  rw [h.find_stored ha] at hmiss
  cases hmiss

end Positions

section Walking

variable {s : ZArray} {a : Address} {k k' : Walk}

/-- The children of a fringe line: its other positions. -/
def children (s : ZArray) (fringeId : LineId) (fringeAddr : Address) (fringe : ℕ) :
    List ZWalkInfo :=
  ((List.range s.ways).filter fun w =>
    s.lookupArray (s.position w fringeAddr) != fringeId).map fun w =>
      ⟨s.position w fringeAddr, s.lookupArray (s.position w fringeAddr), some fringe⟩

/-- One round of the walk appends the children of the fringe line. -/
theorem expandWay_foldl (s : ZArray) (fringeId : LineId) (fringeAddr : Address) (k : Walk) :
    (List.range s.ways).foldl (s.expandWay fringeId fringeAddr) k =
      { candidates := k.candidates ++ children s fringeId fringeAddr k.fringeStart
        allValid := k.allValid && (List.range s.ways).all fun w =>
          s.array (s.lookupArray (s.position w fringeAddr)) != 0
        fringeStart := k.fringeStart } := by
  unfold children
  induction List.range s.ways generalizing k with
  | nil => simp
  | cons w ws ih =>
    rw [List.foldl_cons, ih]
    simp only [ZArray.expandWay, List.filter_cons, List.all_cons, Bool.and_assoc]
    split
    · next hne => simp [hne]
    · next heq => simp [heq]

theorem mem_children {s : ZArray} {fringeId : LineId} {fringeAddr : Address} {f : ℕ}
    {c : ZWalkInfo} : c ∈ children s fringeId fringeAddr f ↔
      ∃ w < s.ways, s.lookupArray (s.position w fringeAddr) ≠ fringeId ∧
        c = ⟨s.position w fringeAddr, s.lookupArray (s.position w fringeAddr), some f⟩ := by
  simp only [children, List.mem_map, List.mem_filter, List.mem_range, bne_iff_ne, and_assoc,
    @eq_comm _ c]

/-- A line stands at one position only, so all ways but one add a candidate. -/
theorem Permuted.length_children (h : Permuted s) (fringeId : LineId) (b : Address) (f : ℕ) :
    s.ways ≤ (children s fringeId b f).length + 1 := by
  have hle : ((List.range s.ways).filter fun w =>
      s.lookupArray (s.position w b) == fringeId).length ≤ 1 := by
    have hmem : ∀ w ∈ (List.range s.ways).filter fun w =>
        s.lookupArray (s.position w b) == fringeId,
        w < s.ways ∧ s.lookupArray (s.position w b) = fringeId := fun w hw => by
      simpa using hw
    have hnodup := List.nodup_range (n:=s.ways) |>.filter fun w =>
      s.lookupArray (s.position w b) == fringeId
    rcases hl : (List.range s.ways).filter fun w =>
      s.lookupArray (s.position w b) == fringeId with _ | ⟨v, _ | ⟨w, ws⟩⟩
    · simp
    · simp
    · rw [hl] at hmem hnodup
      obtain ⟨hv, hvl⟩ := hmem v (by simp)
      obtain ⟨hw, hwl⟩ := hmem w (by simp)
      have hvw := h.position_inj
        (h.lookup_inj (h.position_lt hv) (h.position_lt hw) (hvl.trans hwl.symm))
      simp [hvw] at hnodup
  have hsplit := (List.range s.ways).length_eq_length_filter_add fun w =>
    s.lookupArray (s.position w b) == fringeId
  have hbne : ∀ w, (s.lookupArray (s.position w b) != fringeId) =
      !(s.lookupArray (s.position w b) == fringeId) := fun w => rfl
  simp only [children, List.length_map, hbne]
  rw [List.length_range] at hsplit
  omega

/-- The invariant of the walk for an incoming address. -/
structure Walking (s : ZArray) (a : Address) (k : Walk) : Prop where
  /-- The fringe never catches up with the candidates. -/
  room : k.fringeStart + s.ways ≤ k.candidates.length
  line : ∀ c ∈ k.candidates, c.pos < s.numLines ∧ c.lineId = s.lookupArray c.pos
  valid : k.allValid = true → ∀ c ∈ k.candidates, s.array c.lineId ≠ 0
  seed : ∀ c ∈ k.candidates, c.parentIdx = none → ∃ w < s.ways, c.pos = s.position w a
  child : ∀ (j : ℕ) (c : ZWalkInfo), k.candidates[j]? = some c → ∀ f, c.parentIdx = some f →
    f < j ∧ f < k.fringeStart ∧ ∃ p, k.candidates[f]? = some p ∧ s.array p.lineId ≠ 0 ∧
      c.lineId ≠ p.lineId ∧ ∃ w < s.ways, c.pos = s.position w (s.array p.lineId)
  /-- The children of an earlier candidate come earlier. -/
  ordered : ∀ (i j : ℕ) (c d : ZWalkInfo), i < j → k.candidates[i]? = some c → k.candidates[j]? = some d →
    ∀ f, c.parentIdx = some f → ∃ g, d.parentIdx = some g ∧ f ≤ g
  /-- An expanded line has all its other positions among the candidates. -/
  complete : ∀ f < k.fringeStart, ∀ p : ZWalkInfo, k.candidates[f]? = some p → ∀ w < s.ways,
    s.lookupArray (s.position w (s.array p.lineId)) ≠ p.lineId →
    ∃ (j : ℕ) (c : ZWalkInfo), k.candidates[j]? = some c ∧ c.parentIdx = some f ∧
      c.lineId = s.lookupArray (s.position w (s.array p.lineId))

/-- The seeds start the walk. -/
theorem Permuted.walking_seeds (h : Permuted s) (a : Address) :
    Walking s a (s.seeds a) := by
  have hmem : ∀ c ∈ (s.seeds a).candidates, ∃ w < s.ways,
      c = ⟨s.position w a, s.lookupArray (s.position w a), none⟩ := by
    intro c hc
    obtain ⟨w, hw, rfl⟩ := List.mem_map.mp hc
    exact ⟨w, List.mem_range.mp hw, rfl⟩
  have hroot : ∀ (j : ℕ) (c : ZWalkInfo), (s.seeds a).candidates[j]? = some c →
      c.parentIdx = none := by
    intro j c hc
    obtain ⟨w, -, rfl⟩ := hmem c (List.mem_of_getElem? hc)
    rfl
  refine ⟨?_, fun c hc => ?_, fun hv c hc => ?_, fun c hc _ => ?_, fun j c hc f hf => ?_,
    fun i j c d _ hc _ f hf => ?_, fun f hf => absurd hf (Nat.not_lt_zero f)⟩
  · simp [ZArray.seeds]
  · obtain ⟨w, hw, rfl⟩ := hmem c hc
    exact ⟨h.position_lt hw, rfl⟩
  · obtain ⟨w, hw, rfl⟩ := hmem c hc
    simpa using List.all_eq_true.mp hv w (List.mem_range.mpr hw)
  · obtain ⟨w, hw, rfl⟩ := hmem c hc
    exact ⟨w, hw, rfl⟩
  · rw [hroot j c hc] at hf
    cases hf
  · rw [hroot i c hc] at hf
    cases hf

/-- One round keeps the invariant. -/
theorem Walking.round (h : Permuted s) (hk : Walking s a k) {fringe : ZWalkInfo}
    (hf : k.candidates[k.fringeStart]? = some fringe) (hne : s.array fringe.lineId ≠ 0) :
    Walking s a
      { candidates := k.candidates ++
          children s fringe.lineId (s.array fringe.lineId) k.fringeStart
        allValid := k.allValid && (List.range s.ways).all fun w =>
          s.array (s.lookupArray (s.position w (s.array fringe.lineId))) != 0
        fringeStart := k.fringeStart + 1 } := by
  have hchildren := h.length_children fringe.lineId (s.array fringe.lineId) k.fringeStart
  have hways := h.ways
  have hroom := hk.room
  have hold : ∀ j, j < k.candidates.length → (k.candidates ++
      children s fringe.lineId (s.array fringe.lineId) k.fringeStart)[j]? = k.candidates[j]? :=
    fun j hj => List.getElem?_append_left hj
  -- a candidate of the longer list is an old one or a child of the fringe line
  have hsplit : ∀ (j : ℕ) (c : ZWalkInfo), (k.candidates ++
      children s fringe.lineId (s.array fringe.lineId) k.fringeStart)[j]? = some c →
      (j < k.candidates.length ∧ k.candidates[j]? = some c) ∨
      (k.candidates.length ≤ j ∧
        c ∈ children s fringe.lineId (s.array fringe.lineId) k.fringeStart) := by
    intro j c hc
    by_cases hj : j < k.candidates.length
    · exact .inl ⟨hj, hold j hj ▸ hc⟩
    · rw [List.getElem?_append_right (not_lt.mp hj)] at hc
      exact .inr ⟨not_lt.mp hj, List.mem_of_getElem? hc⟩
  have hparent : ∀ c ∈ children s fringe.lineId (s.array fringe.lineId) k.fringeStart,
      c.parentIdx = some k.fringeStart := by
    intro c hc
    obtain ⟨w, -, -, rfl⟩ := mem_children.mp hc
    rfl
  refine ⟨?_, fun c hc => ?_, fun hv c hc => ?_, fun c hc hroot => ?_, fun j c hc f hcf => ?_,
    fun i j c d hij hc hd f hcf => ?_, fun f hlt p hp w hw hself => ?_⟩
  · simp only [List.length_append]
    omega
  · rcases List.mem_append.mp hc with hc | hc
    · exact hk.line c hc
    · obtain ⟨w, hw, -, rfl⟩ := mem_children.mp hc
      exact ⟨h.position_lt hw, rfl⟩
  · obtain ⟨hv, hnew⟩ := Bool.and_eq_true_iff.mp hv
    rcases List.mem_append.mp hc with hc | hc
    · exact hk.valid hv c hc
    · obtain ⟨w, hw, -, rfl⟩ := mem_children.mp hc
      simpa using List.all_eq_true.mp hnew w (List.mem_range.mpr hw)
  · rcases List.mem_append.mp hc with hc | hc
    · exact hk.seed c hc hroot
    · rw [hparent c hc] at hroot
      cases hroot
  · rcases hsplit j c hc with ⟨hj, hc⟩ | ⟨hj, hc⟩
    · obtain ⟨hfj, hfs, p, hp, hrest⟩ := hk.child j c hc f hcf
      exact ⟨hfj, Nat.lt_succ_of_lt hfs, p, (hold f (hfj.trans hj)).trans hp, hrest⟩
    · rw [hparent c hc] at hcf
      cases hcf
      obtain ⟨w, hw, hself, rfl⟩ := mem_children.mp hc
      exact ⟨by omega, Nat.lt_succ_self _, fringe, (hold _ (by omega)).trans hf, hne, hself,
        w, hw, rfl⟩
  · rcases hsplit j d hd with ⟨hj, hd⟩ | ⟨-, hd⟩
    · exact hk.ordered i j c d hij (hold i (hij.trans hj) ▸ hc) hd f hcf
    · refine ⟨k.fringeStart, hparent d hd, ?_⟩
      rcases hsplit i c hc with ⟨-, hc⟩ | ⟨-, hc⟩
      · exact (hk.child i c hc f hcf).2.1.le
      · rw [hparent c hc] at hcf
        cases hcf
        exact le_rfl
  · replace hlt : f < k.fringeStart + 1 := hlt
    rw [hold f (by omega)] at hp
    by_cases hfs : f = k.fringeStart
    · subst hfs
      rw [hf] at hp
      cases hp
      have hmem := (mem_children (f:=k.fringeStart)).mpr ⟨w, hw, hself, rfl⟩
      obtain ⟨j, hj⟩ := List.mem_iff_getElem?.mp (List.mem_append_right k.candidates hmem)
      exact ⟨j, _, hj, rfl, rfl⟩
    · obtain ⟨j, c, hj, hrest⟩ := hk.complete f (by omega) p hp w hw hself
      have hlt : j < k.candidates.length := (List.getElem?_eq_some_iff.mp hj).1
      exact ⟨j, c, (hold j hlt).trans hj, hrest⟩

/-- The loop ends, with enough candidates or at a line without an address. -/
theorem Permuted.expand_spec (h : Permuted s) (fuel : ℕ) (k : Walk) (hk : Walking s a k)
    (hfuel : s.cands ≤ k.candidates.length + fuel) :
    ∃ k', s.expand fuel k = .ok k' ∧ Walking s a k' ∧
      (k'.allValid = true → s.cands ≤ k'.candidates.length) := by
  induction fuel generalizing k with
  | zero =>
    have hdone : ¬ (k.candidates.length < s.cands ∧ k.allValid = true) := by omega
    exact ⟨k, by rw [ZArray.expand, if_neg hdone], hk, fun _ => hfuel⟩
  | succ fuel ih =>
    rw [ZArray.expand]
    split
    · next hgo =>
      have hways := h.ways
      have hroom := hk.room
      obtain ⟨fringe, hf⟩ : ∃ c, k.candidates[k.fringeStart]? = some c :=
        ⟨_, List.getElem?_eq_getElem (by omega)⟩
      have hne := hk.valid hgo.2 fringe (List.mem_of_getElem? hf)
      have hchildren := h.length_children fringe.lineId (s.array fringe.lineId) k.fringeStart
      simp only [hf, if_neg hne, expandWay_foldl]
      refine ih _ (hk.round h hf hne) ?_
      simp only [List.length_append]
      omega
    · next hdone =>
      exact ⟨k, rfl, hk, fun hv => not_lt.mp fun hlt => hdone ⟨hlt, hv⟩⟩

theorem Permuted.walk_spec (h : Permuted s) (a : Address) :
    s.walk a = .ok (s.walkOf a) ∧ Walking s a (s.walkOf a) ∧
      ((s.walkOf a).allValid = true → s.cands ≤ (s.walkOf a).candidates.length) := by
  obtain ⟨k, hk, hspec⟩ := h.expand_spec s.cands (s.seeds a) (h.walking_seeds a)
    (Nat.le_add_left _ _)
  have hwalk : s.walk a = .ok k := hk
  have hof : s.walkOf a = k := by rw [ZArray.walkOf, hwalk]
  rw [hof]
  exact ⟨hwalk, hspec⟩

end Walking

section Path

variable {s : ZArray} {a : Address} {k : Walk} {c d p : ZWalkInfo} {f j idx : ℕ}

/-- No earlier candidate stands for the same line. -/
def First (cs : List ZWalkInfo) (j : ℕ) (c : ZWalkInfo) : Prop :=
  cs[j]? = some c ∧ ∀ i < j, ∀ d, cs[i]? = some d → d.lineId ≠ c.lineId

/-- The parent of a first occurrence is a first occurrence. -/
theorem Walking.first_parent (hk : Walking s a k) (hc : First k.candidates j c)
    (hf : c.parentIdx = some f) : ∃ p, First k.candidates f p := by
  obtain ⟨hfj, hfs, p, hp, -, hself, w, hw, hpos⟩ := hk.child j c hc.1 f hf
  have hline : c.lineId = s.lookupArray (s.position w (s.array p.lineId)) := by
    rw [← hpos]
    exact (hk.line c (List.mem_of_getElem? hc.1)).2
  refine ⟨p, hp, fun i hi d hd hdp => ?_⟩
  -- an earlier copy of the parent was expanded and met the child's line first
  obtain ⟨j', c', hc', hpar, hline'⟩ := hk.complete i (by omega) d hd w hw (by
    rw [hdp, ← hline]
    exact hself)
  rw [hdp, ← hline] at hline'
  have hle : j ≤ j' := not_lt.mp fun hlt => hc.2 j' hlt c' hc' hline'
  rcases hle.lt_or_eq with hlt | rfl
  · obtain ⟨g, hg, hfg⟩ := hk.ordered j j' c c' hlt hc.1 hc' f hf
    rw [hpar] at hg
    cases hg
    omega
  · rw [hc.1] at hc'
    cases hc'
    rw [hpar] at hf
    cases hf
    omega

/-- The line at position `y` has `x` among its own positions. -/
def MovesTo (s : ZArray) (x y : ℕ) : Prop :=
  s.array (s.lookupArray y) ≠ 0 ∧ ∃ w < s.ways, x = s.position w (s.array (s.lookupArray y))

/-- The positions from candidate `idx`, which is `c`, up to its seed. -/
structure IsPath (s : ZArray) (a : Address) (cs : List ZWalkInfo) (idx : ℕ) (c : ZWalkInfo)
    (ps : List ℕ) : Prop where
  head : ps.head? = some c.pos
  /-- Every position is that of a first occurrence no later than `idx`. -/
  first : ∀ x ∈ ps, ∃ i d, i ≤ idx ∧ First cs i d ∧ d.pos = x
  nodup : ps.Nodup
  moves : ps.IsChain (MovesTo s)
  last : ∀ x ∈ ps.getLast?, ∃ w < s.ways, x = s.position w a

/-- The path of a first occurrence. -/
theorem Walking.isPath (hk : Walking s a k) (fuel : ℕ) (hfuel : idx < fuel)
    (hc : First k.candidates idx c) :
    IsPath s a k.candidates idx c (ZArray.swaps k.candidates fuel (some idx)) := by
  induction fuel generalizing idx c with
  | zero => omega
  | succ fuel ih =>
    have hmem := List.mem_of_getElem? hc.1
    simp only [ZArray.swaps, hc.1]
    cases hpar : c.parentIdx with
    | none =>
      have hnil : ZArray.swaps k.candidates fuel none = [] := by
        cases fuel <;> rfl
      rw [hnil]
      refine ⟨rfl, fun x hx => ?_, List.nodup_singleton _, List.isChain_singleton _, fun x hx => ?_⟩
      · rw [List.mem_singleton] at hx
        exact ⟨idx, c, le_rfl, hc, hx.symm⟩
      · cases hx
        exact hk.seed c hmem hpar
    | some f =>
      obtain ⟨p, hp⟩ := hk.first_parent hc hpar
      obtain ⟨hfi, -, p', hp', hne, hself, w, hw, hpos⟩ := hk.child idx c hc.1 f hpar
      rw [hp.1] at hp'
      cases hp'
      have hrest := ih (by omega) hp
      have hpline := (hk.line p (List.mem_of_getElem? hp.1)).2
      have hnew : c.pos ∉ ZArray.swaps k.candidates fuel (some f) := by
        intro hin
        obtain ⟨i, d, hi, hd, hdpos⟩ := hrest.first c.pos hin
        have hdline := (hk.line d (List.mem_of_getElem? hd.1)).2
        refine hc.2 i (by omega) d hd.1 ?_
        rw [hdline, hdpos, (hk.line c hmem).2]
      have hmoves : MovesTo s c.pos p.pos := by
        rw [MovesTo, ← hpline]
        exact ⟨hne, w, hw, hpos⟩
      refine ⟨rfl, fun x hx => ?_, List.nodup_cons.mpr ⟨hnew, hrest.nodup⟩, ?_, fun x hx => ?_⟩
      · rcases List.mem_cons.mp hx with rfl | hx
        · exact ⟨idx, c, le_rfl, hc, rfl⟩
        · obtain ⟨i, d, hi, hd⟩ := hrest.first x hx
          exact ⟨i, d, by omega, hd⟩
      · refine List.isChain_cons.mpr ⟨fun y hy => ?_, hrest.moves⟩
        rw [hrest.head] at hy
        cases hy
        exact hmoves
      · obtain ⟨y, ys, hys⟩ := List.exists_cons_of_ne_nil
          (show ZArray.swaps k.candidates fuel (some f) ≠ [] from fun hnil => by
            have hhead := hrest.head
            rw [hnil] at hhead
            cases hhead)
        rw [hys, List.getLast?_cons_cons, ← hys] at hx
        exact hrest.last x hx

/-- The swap array for a line the policy was offered. -/
theorem Walking.swapsFor_isPath (hk : Walking s a k) {i : LineId}
    (hi : i ∈ (k.candidates.take s.cands).map ZWalkInfo.lineId) :
    ∃ idx c, c.lineId = i ∧ First k.candidates idx c ∧
      IsPath s a k.candidates idx c (s.swapsFor k i) := by
  obtain ⟨c₀, hc₀, rfl⟩ := List.mem_map.mp hi
  cases hf : (k.candidates.take s.cands).findIdx? fun c => c.lineId == c₀.lineId with
  | none =>
    have hnone := List.findIdx?_eq_none_iff.mp hf c₀ hc₀
    simp at hnone
  | some idx =>
    obtain ⟨hlt, hline, hbefore⟩ := List.findIdx?_eq_some_iff_getElem.mp hf
    have hlt' := hlt
    rw [List.length_take] at hlt'
    have hget : ∀ j, j ≤ idx → (k.candidates.take s.cands)[j]? = k.candidates[j]? := fun j hj =>
      List.getElem?_take_of_lt (by omega)
    have hfirst : First k.candidates idx (k.candidates.take s.cands)[idx] := by
      refine ⟨?_, fun j hj d hd hdl => ?_⟩
      · rw [← hget idx le_rfl, List.getElem?_eq_getElem hlt]
      · rw [← hget j hj.le, List.getElem?_eq_getElem (hj.trans hlt)] at hd
        have hnot := hbefore j hj
        rw [Option.some.inj hd, hdl] at hnot
        exact hnot hline
    refine ⟨idx, _, by simpa using hline, hfirst, ?_⟩
    rw [ZArray.swapsFor, hf]
    exact hk.isPath _ (by omega) hfirst

end Path

section Insertion

variable {s : ZArray} {a : Address} {i : LineId} {cs : List ZWalkInfo} {idx : ℕ} {c : ZWalkInfo}
  {ps : List ℕ}

/-- The state in which `postinsert` finds the array. -/
def ZArray.withSwaps (s : ZArray) (ps : List ℕ) : ZArray := { s with swapArray := ps }

theorem WellStored.withSwaps (h : WellStored s) (ps : List ℕ) : WellStored (s.withSwaps ps) :=
  ⟨h.ways, h.cands, h.lines, h.sets, h.perm, h.placed, h.unique⟩

/-- The moves of an insertion are one cycle of `lookupArray`. -/
theorem IsPath.store_lookupArray (hpath : IsPath s a cs idx c ps)
    (hline : s.lookupArray c.pos = i) :
    ((s.withSwaps ps).store i a).lookupArray = s.lookupArray ∘ ps.formPerm := by
  obtain ⟨rest, rfl⟩ : ∃ rest, ps = c.pos :: rest := List.head?_eq_some_iff.mp hpath.head
  change ZArray.shift s.lookupArray (c.pos :: rest) i = _
  rw [← hline, shift_eq_formPerm hpath.nodup]

/-- A permutation that moves positions of a set only, within it. -/
theorem formPerm_bijOn {n : ℕ} (hps : ∀ p ∈ ps, p < n) :
    Set.BijOn ps.formPerm (Set.Iio n) (Set.Iio n) := by
  refine ⟨fun x hx => ?_, ps.formPerm.injective.injOn, fun y hy => ?_⟩
  · by_cases hmem : x ∈ ps
    · exact hps _ (List.formPerm_apply_mem_of_mem hmem)
    · rwa [Set.mem_Iio, List.formPerm_apply_of_notMem hmem]
  · refine ⟨ps.formPerm.symm y, ?_, ps.formPerm.apply_symm_apply y⟩
    by_cases hmem : ps.formPerm.symm y ∈ ps
    · exact hps _ hmem
    · have hfix := List.formPerm_apply_of_notMem hmem
      rw [ps.formPerm.apply_symm_apply] at hfix
      rwa [← hfix]

/-- The swaps permute `lookupArray`. -/
theorem Permuted.store (h : Permuted s) (hpath : IsPath s a cs idx c ps) (hlt : ∀ p ∈ ps, p < s.numLines)
    (hline : s.lookupArray c.pos = i) : Permuted ((s.withSwaps ps).store i a) := by
  refine ⟨h.ways, h.cands, h.lines, h.sets, ?_⟩
  rw [hpath.store_lookupArray hline]
  exact h.perm.comp (formPerm_bijOn hlt)

/-- Every line that moves lands on one of its own positions. -/
theorem WellStored.placed_store (h : WellStored s) (hpath : IsPath s a cs idx c ps)
    (hlt : ∀ p ∈ ps, p < s.numLines) (hline : s.lookupArray c.pos = i) (j : LineId)
    (hj : ((s.withSwaps ps).store i a).array j ≠ 0) :
    ∃ w < s.ways, s.lookupArray (ps.formPerm
      (s.position w (((s.withSwaps ps).store i a).array j))) = j := by
  by_cases hji : j = i
  · -- the new line takes the seed's position
    subst hji
    obtain ⟨rest, rfl⟩ : ∃ rest, ps = c.pos :: rest := List.head?_eq_some_iff.mp hpath.head
    obtain ⟨w, hw, hlast⟩ := hpath.last _ (List.getLast?_eq_getLast_of_ne_nil (by simp))
    have hself : ((s.withSwaps (c.pos :: rest)).store j a).array j = a := Function.update_self ..
    refine ⟨w, hw, ?_⟩
    rw [hself, ← hlast, List.formPerm_apply_getLast, hline]
  · have hsame : ((s.withSwaps ps).store i a).array j = s.array j := Function.update_of_ne hji _ _
    rw [hsame] at hj ⊢
    obtain ⟨w, hw, hl⟩ := h.placed j hj
    by_cases hmem : s.position w (s.array j) ∈ ps
    · -- a line on the path takes the place of the one after it
      obtain ⟨m, hm, hget⟩ := List.mem_iff_getElem.mp hmem
      cases m with
      | zero =>
        have hhead := hpath.head
        rw [List.head?_eq_getElem?, List.getElem?_eq_getElem hm, hget] at hhead
        rw [← Option.some.inj hhead, hl] at hline
        exact absurd hline hji
      | succ m =>
        obtain ⟨-, v, hv, hpos⟩ := hpath.moves.getElem m hm
        rw [hget, hl] at hpos
        refine ⟨v, hv, ?_⟩
        rw [← hpos, List.formPerm_apply_lt_getElem ps hpath.nodup m hm, hget, hl]
    · exact ⟨w, hw, by rw [List.formPerm_apply_of_notMem hmem, hl]⟩

/-- Storing a missing address along its path keeps every line placed. -/
theorem WellStored.store (h : WellStored s) (ha : a ≠ 0) (hmiss : s.find a = none)
    (hpath : IsPath s a cs idx c ps) (hlt : ∀ p ∈ ps, p < s.numLines)
    (hline : s.lookupArray c.pos = i) : WellStored ((s.withSwaps ps).store i a) := by
  have hlookup := hpath.store_lookupArray hline
  have hself : ((s.withSwaps ps).store i a).array i = a := Function.update_self ..
  have hother : ∀ j, j ≠ i → ((s.withSwaps ps).store i a).array j = s.array j := fun j hj =>
    Function.update_of_ne hj _ _
  refine ⟨h.ways, h.cands, h.lines, h.sets, (h.permuted.store hpath hlt hline).perm, fun j hj => ?_,
    fun j l hj hjl => ?_⟩
  · rw [hlookup]
    exact h.placed_store hpath hlt hline j hj
  · by_cases hji : j = i
    · subst hji
      by_contra hne
      rw [hself, hother l (Ne.symm hne)] at hjl
      exact h.fresh ha hmiss l hjl.symm
    · by_cases hli : l = i
      · subst hli
        rw [hself, hother j hji] at hjl
        exact absurd hjl (h.fresh ha hmiss j)
      · rw [hother j hji, hother l hli] at hjl
        exact h.unique j l (hother j hji ▸ hj) hjl

/-- The path the array takes for a line it offered. -/
theorem Permuted.exists_path (h : Permuted s) (hi : i ∈ zArray.candidates s a) :
    ∃ idx c, IsPath s a (s.walkOf a).candidates idx c (s.swapsFor (s.walkOf a) i) ∧
      s.lookupArray c.pos = i ∧ ∀ p ∈ s.swapsFor (s.walkOf a) i, p < s.numLines := by
  obtain ⟨-, hk, -⟩ := h.walk_spec a
  obtain ⟨idx, c, hc, hfirst, hpath⟩ := hk.swapsFor_isPath hi
  refine ⟨idx, c, hpath, ?_, fun p hp => ?_⟩
  · rw [← hc, (hk.line c (List.mem_of_getElem? hfirst.1)).2]
  · obtain ⟨j, d, -, hd, rfl⟩ := hpath.first p hp
    exact (hk.line d (List.mem_of_getElem? hd.1)).1

theorem zArray_insert_inv (h : WellStored s) (ha : a ≠ 0) (hmiss : s.find a = none)
    (hi : i ∈ zArray.candidates s a) :
    WellStored (zArray.postinsert (zArray.preinsert s a i) a i) := by
  obtain ⟨idx, c, hpath, hline, hlt⟩ := h.permuted.exists_path hi
  exact h.store ha hmiss hpath hlt hline

/-- A lookup of an address that is not zero searches the ways. -/
theorem zArray_lookup_of_ne (ha : a ≠ 0) : zArray.lookup s a = s.find a := if_neg ha

theorem zArray_lookup_zero (s : ZArray) : zArray.lookup s 0 = none := by
  simp [zArray]

/-- The zcache array is faithful. -/
def zArray_faithful : Faithful zArray where
  Inv := WellStored
  Accepts a := a ≠ 0
  lookup_line s a i _ hl := by
    by_cases ha : a = 0
    · rw [ha, zArray_lookup_zero] at hl
      cases hl
    · exact find_line (zArray_lookup_of_ne ha ▸ hl)
  stored_found s i h hi := (zArray_lookup_of_ne hi).trans (h.find_stored hi)
  candidates_ne_nil s a h := by
    obtain ⟨-, hk, -⟩ := h.permuted.walk_spec a
    have hways := h.ways
    have hcands := h.cands
    have hroom := hk.room
    refine List.ne_nil_of_length_pos ?_
    change 0 < (((s.walkOf a).candidates.take s.cands).map ZWalkInfo.lineId).length
    rw [List.length_map, List.length_take]
    omega
  preinsert_line _ _ _ := rfl
  preinsert_lookup _ _ _ := rfl
  preinsert_inv s a i h := h.withSwaps _
  insert_inv s a i h ha hmiss hi := zArray_insert_inv h ha (zArray_lookup_of_ne ha ▸ hmiss) hi
  insert_line _ _ _ _ _ _ _ := rfl
  insert_found s a i h ha hmiss hi := by
    have hinv := zArray_insert_inv h ha (zArray_lookup_of_ne ha ▸ hmiss) hi
    have hline : (zArray.postinsert (zArray.preinsert s a i) a i).array i = a :=
      Function.update_self ..
    have hfound := hinv.find_stored (hline.symm ▸ ha)
    rw [hline] at hfound
    exact (zArray_lookup_of_ne ha).trans hfound
  insert_others s a i b j h ha hmiss hi hb hji := by
    have hinv := zArray_insert_inv h ha (zArray_lookup_of_ne ha ▸ hmiss) hi
    have hb0 : b ≠ 0 := by
      rintro rfl
      rw [zArray_lookup_zero] at hb
      cases hb
    have hline : (zArray.postinsert (zArray.preinsert s a i) a i).array j = b :=
      (Function.update_of_ne hji _ _).trans (find_line (zArray_lookup_of_ne hb0 ▸ hb))
    have hfound := hinv.find_stored (hline.symm ▸ hb0)
    rw [hline] at hfound
    exact (zArray_lookup_of_ne hb0).trans hfound

end Insertion

section Driven

variable {ρ : Type} {P : ReplPolicy ρ} {numLines : ℕ} {J : ρ → Prop}

/-- The array's invariant for a cache of the size its policy was made for. -/
def sized_faithful (numLines : ℕ) : Faithful zArray :=
  { zArray_faithful with
    Inv := fun s => WellStored s ∧ s.numLines = numLines
    lookup_line := fun s a i h => zArray_faithful.lookup_line s a i h.1
    stored_found := fun s i h => zArray_faithful.stored_found s i h.1
    candidates_ne_nil := fun s a h => zArray_faithful.candidates_ne_nil s a h.1
    preinsert_inv := fun s a i h => ⟨zArray_faithful.preinsert_inv s a i h.1, h.2⟩
    insert_inv := fun s a i h hacc hmiss hi =>
      ⟨zArray_faithful.insert_inv s a i h.1 hacc hmiss hi, h.2⟩
    insert_line := fun s a i h => zArray_faithful.insert_line s a i h.1
    insert_found := fun s a i h => zArray_faithful.insert_found s a i h.1
    insert_others := fun s a i b j h => zArray_faithful.insert_others s a i b j h.1 }

/-- The lines the walk offers exist. -/
theorem Permuted.candidates_lt {s : ZArray} {a : Address} (h : Permuted s) :
    ∀ i ∈ zArray.candidates s a, i < s.numLines := by
  intro i hi
  obtain ⟨idx, c, hpath, hline, hlt⟩ := h.exists_path hi
  rw [← hline]
  exact h.lookup_lt (hlt _ (List.mem_of_mem_head? hpath.head))

/-- No assertion of the methods fails under a policy that ranks. -/
theorem zArray_implements (hP : Ranks P numLines J) :
    Implements (ZArray.methods P) (sized_faithful numLines) J where
  accepts _ ha := ha
  lookup s r req u hs hJ hne := by
    change ∃ r', s.lookup P r req u = .ok (zArray.lookup s req.lineAddr, r') ∧ J r'
    rw [ZArray.lookup, if_neg hne, zArray_lookup_of_ne hne]
    cases hf : s.find req.lineAddr with
    | none => exact ⟨r, rfl, hJ⟩
    | some i =>
      have hlt : i < s.numLines := by
        obtain ⟨w, hw, hl⟩ := List.mem_map.mp (List.mem_of_find?_eq_some hf)
        exact hl ▸ hs.1.permuted.lookup_lt (hs.1.permuted.position_lt (List.mem_range.mp hw))
      refine ⟨_, rfl, ?_⟩
      split
      · exact hP.update r i req hJ (hs.2 ▸ hlt)
      · exact hJ
  preinsert s r cc req hs hJ hne _ := by
    obtain ⟨hwalk, hk, henough⟩ := hs.1.permuted.walk_spec req.lineAddr
    obtain ⟨i, r', hrank, hi, hJ'⟩ := hP.rank r cc req (zArray.candidates s req.lineAddr) hJ
      (zArray_faithful.candidates_ne_nil s _ hs.1) fun c hc => hs.2 ▸ hs.1.permuted.candidates_lt c hc
    refine ⟨i, r', hi, hJ', ?_⟩
    obtain ⟨idx, c, hpath, -, -⟩ := hs.1.permuted.exists_path hi
    have hswaps : s.swapsFor (s.walkOf req.lineAddr) i ≠ [] := by
      intro hnil
      have hhead := hpath.head
      rw [hnil] at hhead
      cases hhead
    have hdone : ¬ ((s.walkOf req.lineAddr).allValid = true ∧
        (s.walkOf req.lineAddr).candidates.length < s.cands) :=
      fun hn => absurd hn.2 (not_lt.mpr (henough hn.1))
    change P.rankCands r cc req (((s.walkOf req.lineAddr).candidates.take s.cands).map
      ZWalkInfo.lineId) = some (i, r') at hrank
    change s.preinsert P r cc req = _
    simp only [ZArray.preinsert, hwalk, if_neg hdone, hrank,
      if_neg (not_not.mpr (hs.1.permuted.candidates_lt i hi)), if_neg hswaps]
    rfl
  postinsert s r req i hs hJ hne _ hi := by
    obtain ⟨idx, c, hpath, hline, -⟩ := hs.1.permuted.exists_path hi
    refine ⟨P.update (P.replaced r i) i req, hP.fill r i req hJ (hs.2 ▸ hs.1.permuted.candidates_lt i hi), ?_⟩
    change (s.withSwaps (s.swapsFor (s.walkOf req.lineAddr) i)).postinsert P r req i = _
    have hhead : (s.withSwaps (s.swapsFor (s.walkOf req.lineAddr) i)).swapArray.head? =
        some c.pos := hpath.head
    simp only [ZArray.postinsert, hhead]
    exact if_neg (not_not.mpr hline)

end Driven

end Zsim.ZCache
