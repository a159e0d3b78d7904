import Mathlib.Algebra.Order.Ring.Int
import Zsim.DrivenArrays
import Mathlib.Data.List.Range

/-!
# The set-associative array

The lines of a set are consecutive and an address belongs to the set its hash
selects. The array is faithful: its invariant is that every stored address lies
in its own set and is stored once, which the insertion of a missing address at
a line of its set preserves.
-/

namespace Zsim.SetAssoc

open MemoryHierarchy CacheArrays DrivenArrays GuardedRuns

/-- `SetAssocArray`, with the hash family it was given. -/
structure SetAssocArray where
  array : LineId → Address
  numLines : ℕ
  assoc : ℕ
  /-- `hf->hash(id, lineAddr)`. -/
  hash : ℕ → Address → ℕ

namespace SetAssocArray

/-- `numLines/assoc`. -/
def numSets (s : SetAssocArray) : ℕ := s.numLines / s.assoc

/-- `numSets - 1`. -/
def setMask (s : SetAssocArray) : ℕ := s.numSets - 1

/-- The first line of the address's set. -/
def first (s : SetAssocArray) (lineAddr : Address) : LineId :=
  (s.hash 0 lineAddr &&& s.setMask) * s.assoc

/-- `SetAssocCands(first, first+assoc)`. -/
def cands (s : SetAssocArray) (lineAddr : Address) : List LineId :=
  List.range' (s.first lineAddr) s.assoc

/-- The search of `SetAssocArray::lookup`. -/
def find (s : SetAssocArray) (lineAddr : Address) : Option LineId :=
  (s.cands lineAddr).find? fun id => s.array id == lineAddr

/-- `array[candidate] = lineAddr`. -/
def store (s : SetAssocArray) (candidate : LineId) (lineAddr : Address) : SetAssocArray :=
  { s with array := Function.update s.array candidate lineAddr }

end SetAssocArray

/-- The empty array the constructor makes. -/
def SetAssocArray.init (numLines assoc : ℕ) (hash : ℕ → Address → ℕ) : SetAssocArray :=
  ⟨fun _ => 0, numLines, assoc, hash⟩

section Methods

variable {ρ : Type} (P : ReplPolicy ρ)

/-- `SetAssocArray::lookup`. -/
def SetAssocArray.lookup (s : SetAssocArray) (rp : ρ) (req : MemReq) (updateReplacement : Bool) :
    Option LineId × ρ :=
  match s.find req.lineAddr with
  | some id => (some id, if updateReplacement = true then P.update rp id req else rp)
  | none => (none, rp)

/-- `SetAssocArray::preinsert`. -/
def SetAssocArray.preinsert (s : SetAssocArray) (rp : ρ) (cc : CCView) (req : MemReq) :
    Except ArrayFailure (LineId × Address × SetAssocArray × ρ) :=
  match P.rankCands rp cc req (s.cands req.lineAddr) with
  | none => .error .noAnswer
  | some (candidate, rp) => .ok (candidate, s.array candidate, s, rp)

/-- `SetAssocArray::postinsert`. -/
def SetAssocArray.postinsert (s : SetAssocArray) (rp : ρ) (req : MemReq) (candidate : LineId) :
    SetAssocArray × ρ :=
  let rp := P.replaced rp candidate
  let s := s.store candidate req.lineAddr
  (s, P.update rp candidate req)

/-- The class with its policy. -/
def SetAssocArray.methods : Methods SetAssocArray ρ where
  lookup s rp req u := .ok (s.lookup P rp req u)
  preinsert s rp cc req := s.preinsert P rp cc req
  postinsert s rp req i := .ok (s.postinsert P rp req i)

end Methods

/-- The array without its policy. -/
def setAssocArray : CacheArray SetAssocArray where
  line s := s.array
  lookup s a := s.find a
  candidates s a := s.cands a
  preinsert s _ _ := s
  postinsert s a i := s.store i a

/-- Every stored address lies in its own set, in one line only. -/
structure WellPlaced (s : SetAssocArray) : Prop where
  sets : ∃ k, s.numSets = 2 ^ k
  home : ∀ i, s.array i ≠ 0 → i ∈ s.cands (s.array i)
  unique : ∀ i j, s.array i ≠ 0 → s.array i = s.array j → i = j

section Lookup

variable {s : SetAssocArray} {a b : Address} {i j : LineId}

theorem mem_cands : i ∈ s.cands a ↔ s.first a ≤ i ∧ i < s.first a + s.assoc := by
  simp [SetAssocArray.cands, List.mem_range'_1]

@[simp] theorem store_cands (s : SetAssocArray) (i : LineId) (a b : Address) :
    (s.store i a).cands b = s.cands b := rfl

/-- A power of two is never zero, so the sets have lines. -/
theorem WellPlaced.assoc_pos (h : WellPlaced s) : 0 < s.assoc := by
  obtain ⟨k, hk⟩ := h.sets
  by_contra hz
  have hzero : s.assoc = 0 := by omega
  have hpos := Nat.two_pow_pos k
  rw [← hk, SetAssocArray.numSets, hzero, Nat.div_zero] at hpos
  exact Nat.lt_irrefl 0 hpos

/-- The lines of every set exist. -/
theorem WellPlaced.cands_lt (h : WellPlaced s) (hi : i ∈ s.cands a) : i < s.numLines := by
  obtain ⟨k, hk⟩ := h.sets
  have hmask : s.hash 0 a &&& s.setMask < s.numSets := by
    rw [SetAssocArray.setMask, hk, Nat.and_two_pow_sub_one_eq_mod]
    exact Nat.mod_lt _ (Nat.two_pow_pos k)
  have hsets : s.numSets * s.assoc ≤ s.numLines := Nat.div_mul_le_self _ _
  have hend : s.first a + s.assoc ≤ s.numSets * s.assoc := by
    rw [SetAssocArray.first, ← Nat.succ_mul]
    exact Nat.mul_le_mul_right _ hmask
  exact (mem_cands.mp hi).2.trans_le (hend.trans hsets)

theorem find_line (h : s.find a = some i) : s.array i = a := by
  simpa using List.find?_some h

theorem find_mem (h : s.find a = some i) : i ∈ s.cands a := List.mem_of_find?_eq_some h

/-- A missing address is at no line of its set. -/
theorem line_ne_of_find_none (h : s.find a = none) (hi : i ∈ s.cands a) : s.array i ≠ a := by
  have hnone := List.find?_eq_none.mp h i hi
  simpa using hnone

/-- The only line of the set with the address is the one that is found. -/
theorem find_of_unique (hi : i ∈ s.cands a) (hline : s.array i = a)
    (huniq : ∀ j ∈ s.cands a, s.array j = a → j = i) : s.find a = some i := by
  cases hf : s.find a with
  | none => exact absurd hline (line_ne_of_find_none hf hi)
  | some j => rw [huniq j (find_mem hf) (find_line hf)]

/-- Storing another address elsewhere does not move the first match. -/
theorem find_store_of_ne (hf : s.find b = some j) (hji : j ≠ i) (hba : b ≠ a) :
    (s.store i a).find b = some j := by
  have hpred : ∀ id, ((s.store i a).array id == b) = true →
      (s.array id == b) = true := by
    intro id hid
    simp only [SetAssocArray.store, beq_iff_eq] at hid ⊢
    by_cases hidi : id = i
    · rw [hidi, Function.update_self] at hid
      exact absurd hid.symm hba
    · rwa [Function.update_of_ne hidi] at hid
  have hf' := hf
  simp only [SetAssocArray.find, List.find?_eq_some_iff_append] at hf' ⊢
  obtain ⟨hline, l₁, l₂, hsplit, hbefore⟩ := hf'
  refine ⟨?_, l₁, l₂, hsplit, fun x hx => ?_⟩
  · simpa only [SetAssocArray.store, Function.update_of_ne hji] using hline
  · have hnot := hbefore x hx
    rw [Bool.not_eq_true'] at hnot ⊢
    exact Bool.eq_false_of_not_eq_true fun htrue => by
      rw [hpred x htrue] at hnot
      cases hnot

end Lookup

section Insertion

variable {s : SetAssocArray} {a : Address} {i : LineId}

/-- Storing a missing address in its own set keeps every address placed. -/
theorem WellPlaced.store (h : WellPlaced s) (hmiss : s.find a = none) (hi : i ∈ s.cands a) :
    WellPlaced (s.store i a) := by
  have hself : (s.store i a).array i = a := Function.update_self ..
  have hother : ∀ j, j ≠ i → (s.store i a).array j = s.array j := fun j hj =>
    Function.update_of_ne hj _ _
  -- the new address is nowhere else: a copy would lie in its set and be found
  have hfresh : ∀ j, j ≠ i → a ≠ 0 → s.array j ≠ a := by
    intro j hj ha hja
    have hmem := h.home j (hja ▸ ha)
    rw [hja] at hmem
    exact line_ne_of_find_none hmiss hmem hja
  refine ⟨h.sets, fun j hj => ?_, fun j k hj hjk => ?_⟩
  · rw [store_cands]
    by_cases hji : j = i
    · subst hji
      rwa [hself]
    · rw [hother j hji] at hj ⊢
      exact h.home j hj
  · by_cases hji : j = i
    · subst hji
      by_contra hne
      rw [hself, hother k (Ne.symm hne)] at hjk
      exact hfresh k (Ne.symm hne) (hself ▸ hj) hjk.symm
    · by_cases hki : k = i
      · subst hki
        rw [hself, hother j hji] at hjk
        exact absurd hjk (hfresh j hji (hjk ▸ (hother j hji ▸ hj)))
      · rw [hother j hji, hother k hki] at hjk
        exact h.unique j k (hother j hji ▸ hj) hjk

/-- The set-associative array is faithful. -/
def setAssoc_faithful : Faithful setAssocArray where
  Inv := WellPlaced
  Accepts _ := True
  lookup_line _ _ _ _ h := find_line h
  stored_found s i h hi := find_of_unique (h.home i hi) rfl fun j _ hj => (h.unique i j hi hj.symm).symm
  candidates_ne_nil s a h := by
    exact List.ne_nil_of_mem (mem_cands.mpr ⟨le_rfl, Nat.lt_add_of_pos_right h.assoc_pos⟩)
  preinsert_line _ _ _ := rfl
  preinsert_lookup _ _ _ := rfl
  preinsert_inv _ _ _ h := h
  insert_inv _ _ _ h _ hmiss hi := h.store hmiss hi
  insert_line _ _ _ _ _ _ _ := rfl
  insert_found s a i h _ hmiss hi := by
    refine find_of_unique (s:=s.store i a) hi (Function.update_self ..) fun j hj hja => ?_
    by_contra hji
    have hsame : (s.store i a).array j = s.array j := Function.update_of_ne hji _ _
    exact line_ne_of_find_none hmiss hj (hsame ▸ hja)
  insert_others s a i b j _ _ hmiss _ hb hji := by
    refine find_store_of_ne hb hji ?_
    rintro rfl
    have hnone : s.find b = none := hmiss
    have hsome : s.find b = some j := hb
    rw [hnone] at hsome
    cases hsome

end Insertion

section Driven

variable {ρ : Type} {P : ReplPolicy ρ} {numLines : ℕ} {J : ρ → Prop}

/-- The array's invariant for a cache of the size its policy was made for. -/
def sized_faithful (numLines : ℕ) : Faithful setAssocArray :=
  { setAssoc_faithful with
    Inv := fun s => WellPlaced s ∧ s.numLines = numLines
    lookup_line := fun s a i h => setAssoc_faithful.lookup_line s a i h.1
    stored_found := fun s i h => setAssoc_faithful.stored_found s i h.1
    candidates_ne_nil := fun s a h => setAssoc_faithful.candidates_ne_nil s a h.1
    preinsert_inv := fun _ _ _ h => h
    insert_inv := fun s a i h hacc hmiss hi =>
      ⟨setAssoc_faithful.insert_inv s a i h.1 hacc hmiss hi, h.2⟩
    insert_line := fun s a i h => setAssoc_faithful.insert_line s a i h.1
    insert_found := fun s a i h => setAssoc_faithful.insert_found s a i h.1
    insert_others := fun s a i b j h => setAssoc_faithful.insert_others s a i b j h.1 }

/-- The methods implement the faithful array under every policy that ranks. -/
theorem setAssoc_implements (hP : Ranks P numLines J) :
    Implements (SetAssocArray.methods P) (sized_faithful numLines) J where
  accepts _ _ := trivial
  lookup s r req u hs hJ _ := by
    change ∃ r', Except.ok (s.lookup P r req u) = .ok (s.find req.lineAddr, r') ∧ J r'
    unfold SetAssocArray.lookup
    cases hf : s.find req.lineAddr with
    | none => exact ⟨r, rfl, hJ⟩
    | some i =>
      refine ⟨_, rfl, ?_⟩
      split
      · exact hP.update r i req hJ (hs.2 ▸ hs.1.cands_lt (find_mem hf))
      · exact hJ
  preinsert s r cc req hs hJ _ _ := by
    obtain ⟨i, r', hrank, hi, hJ'⟩ := hP.rank r cc req (s.cands req.lineAddr) hJ
      (setAssoc_faithful.candidates_ne_nil s _ hs.1) fun c hc => hs.2 ▸ hs.1.cands_lt hc
    refine ⟨i, r', hi, hJ', ?_⟩
    change s.preinsert P r cc req = _
    simp only [SetAssocArray.preinsert, hrank]
    rfl
  postinsert s r req i hs hJ _ _ hi :=
    ⟨P.update (P.replaced r i) i req, hP.fill r i req hJ (hs.2 ▸ hs.1.cands_lt hi), rfl⟩

end Driven

end Zsim.SetAssoc
