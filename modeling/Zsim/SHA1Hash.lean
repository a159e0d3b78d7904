import Mathlib.Data.Fin.VecNotation
import Mathlib.Data.List.Range
import Zsim.GuardedRuns

/-!
# The memoised SHA-1 hash

All functions of the family share the words of the last value that was hashed. Each pass hashes a buffer that the
words of the pass before were mixed into, so that the words of a value do not depend on those it replaces. Only
the words that the constructor leaves belong to no value, although the memo says that they are those of zero.
SHA-1 is a parameter. Counts and places are natural numbers.
-/

namespace Zsim.SHA1Hash

open GuardedRuns

/-- The five words of SHA-1 over 16 values. -/
abbrev Digest := (Fin 16 → UInt64) → Fin 5 → UInt32

/-- The fields of the family. -/
structure SHA1HashFamily where
  numFuncs : ℕ
  numPasses : ℕ
  memoizedVal : UInt64
  memoizedHashes : ℕ → UInt32

/-- What the passes work on, the buffer and the words. -/
structure Buffers where
  buffer : Fin 16 → UInt64
  memoizedHashes : ℕ → UInt32

/-- `if (i > 0)`: mixes the words of the pass before into the first five values. -/
def changeSource (i : ℕ) (s : Buffers) : Fin 16 → UInt64 :=
  if 0 < i then fun j =>
    if j.val < 5 then s.buffer j ^^^ (s.memoizedHashes ((i - 1) * 5 + j.val)).toUInt64 else s.buffer j
  else s.buffer

section Family

variable (sha1 : Digest)

/-- A pass of the loop. -/
def pass (i : ℕ) (s : Buffers) : Buffers :=
  let buffer := changeSource i s
  { buffer
    memoizedHashes := fun k =>
      if h : i * 5 ≤ k ∧ k < i * 5 + 5 then sha1 buffer ⟨k - i * 5, by omega⟩ else s.memoizedHashes k }

/-- The buffers after so many passes. -/
def passes (s : Buffers) : ℕ → Buffers
  | 0 => s
  | i + 1 => pass sha1 i (passes s i)

namespace SHA1HashFamily

/-- The constructor. -/
def new (numFunctions : ℕ) : SHA1HashFamily := ⟨numFunctions, numFunctions / 5 + 1, 0, fun _ => 0⟩

/-- `hash` with the family after it; none where the assertion on the function fails. -/
def hash (f : SHA1HashFamily) (id : ℕ) (val : UInt64) : Option (UInt64 × SHA1HashFamily) :=
  if id < f.numFuncs then
    if val = f.memoizedVal then some ((f.memoizedHashes id).toUInt64, f)
    else
      let memoizedHashes := (passes sha1 ⟨fun _ => val, f.memoizedHashes⟩ f.numPasses).memoizedHashes
      some ((memoizedHashes id).toUInt64, { f with memoizedVal := val, memoizedHashes })
  else none

/-- A call, for the family after it. -/
def call (f : SHA1HashFamily) (x : ℕ × UInt64) : Option SHA1HashFamily := (f.hash sha1 x.1 x.2).map Prod.snd

end SHA1HashFamily

/-- The words of a value, computed over an empty table. -/
def words (numFuncs : ℕ) (val : UInt64) : ℕ → UInt32 :=
  (passes sha1 ⟨fun _ => val, fun _ => 0⟩ (numFuncs / 5 + 1)).memoizedHashes

end Family

variable {sha1 : Digest} {f f' : SHA1HashFamily} {n id k : ℕ} {val : UInt64}

/-- The passes overwrite their words before they read them, so that what was there before is lost. -/
theorem passes_agree (val : UInt64) (hashes₁ hashes₂ : ℕ → UInt32) (n : ℕ) :
    (passes sha1 ⟨fun _ => val, hashes₁⟩ n).buffer = (passes sha1 ⟨fun _ => val, hashes₂⟩ n).buffer ∧
      ∀ k < 5 * n, (passes sha1 ⟨fun _ => val, hashes₁⟩ n).memoizedHashes k =
        (passes sha1 ⟨fun _ => val, hashes₂⟩ n).memoizedHashes k := by
  induction n with
  | zero => exact ⟨rfl, fun k hk => absurd hk (by omega)⟩
  | succ n ih =>
    have hsource : changeSource n (passes sha1 ⟨fun _ => val, hashes₁⟩ n) =
        changeSource n (passes sha1 ⟨fun _ => val, hashes₂⟩ n) := by
      unfold changeSource
      by_cases hn : 0 < n
      · rw [if_pos hn, if_pos hn, ih.1]
        funext j
        by_cases hj : j.val < 5
        · rw [if_pos hj, if_pos hj, ih.2 _ (by omega)]
        · rw [if_neg hj, if_neg hj]
      · rw [if_neg hn, if_neg hn, ih.1]
    refine ⟨hsource, fun k hk => ?_⟩
    simp only [passes, pass, hsource]
    by_cases hnew : n * 5 ≤ k ∧ k < n * 5 + 5
    · rw [dif_pos hnew, dif_pos hnew]
    · rw [dif_neg hnew, dif_neg hnew, ih.2 k (by omega)]

/-- What holds of every family of so many functions: its words are those of its value, unless it still has what
the constructor left. -/
structure Memo (sha1 : Digest) (n : ℕ) (f : SHA1HashFamily) : Prop where
  numFuncs : f.numFuncs = n
  numPasses : f.numPasses = n / 5 + 1
  hashes : f = SHA1HashFamily.new n ∨ ∀ k < n, f.memoizedHashes k = words sha1 n f.memoizedVal k

theorem Memo.new (sha1 : Digest) (n : ℕ) : Memo sha1 n (SHA1HashFamily.new n) := ⟨rfl, rfl, .inl rfl⟩

/-- The words that a call with another value than the last one leaves. -/
theorem Memo.computed (h : Memo sha1 n f) (hk : k < n) :
    (passes sha1 ⟨fun _ => val, f.memoizedHashes⟩ f.numPasses).memoizedHashes k = words sha1 n val k := by
  rw [words, h.numPasses]
  exact (passes_agree val f.memoizedHashes (fun _ => 0) (n / 5 + 1)).2 k (by omega)

theorem Memo.call (h : Memo sha1 n f) {x : ℕ × UInt64} (hcall : f.call sha1 x = some f') : Memo sha1 n f' := by
  unfold SHA1HashFamily.call SHA1HashFamily.hash at hcall
  split_ifs at hcall with hid hval
  · cases hcall
    exact h
  · cases hcall
    exact ⟨h.numFuncs, h.numPasses, .inr fun k hk => h.computed hk⟩
  · cases hcall

theorem Memo.run (h : Memo sha1 n f) {calls : List (ℕ × UInt64)}
    (hrun : run (SHA1HashFamily.call sha1) f calls = some f') : Memo sha1 n f' :=
  run_invariant (fun _ _ _ hs hcall => hs.call hcall) h hrun

/-- A call with another value than the last one. -/
theorem Memo.hash_of_ne (h : Memo sha1 n f) (hid : id < n) (hne : val ≠ f.memoizedVal) :
    ∃ f', f.hash sha1 id val = some ((words sha1 n val id).toUInt64, f') ∧ f'.memoizedVal = val := by
  unfold SHA1HashFamily.hash
  rw [if_pos (h.numFuncs ▸ hid), if_neg hne]
  dsimp only
  rw [h.computed hid]
  exact ⟨_, rfl, rfl⟩

/-- A value that is not zero is always answered with its own word, and so is zero where this word is zero. -/
theorem Memo.hash_fst (h : Memo sha1 n f) (hid : id < n) (hval : val ≠ 0 ∨ words sha1 n 0 id = 0) :
    (f.hash sha1 id val).map Prod.fst = some (words sha1 n val id).toUInt64 := by
  by_cases hmemo : val = f.memoizedVal
  · rw [SHA1HashFamily.hash, if_pos (h.numFuncs ▸ hid), if_pos hmemo]
    cases h.hashes with
    | inl hnew =>
      have hzero : val = 0 := hmemo.trans (congrArg SHA1HashFamily.memoizedVal hnew)
      have hword : words sha1 n val id = 0 := by
        rw [hzero]
        exact hval.resolve_left (not_not_intro hzero)
      rw [hword, hnew]
      rfl
    | inr hwords =>
      rw [Option.map_some, hwords id hid, hmemo]
  · have ⟨f', hhash, _⟩ := h.hash_of_ne hid hmemo
    rw [hhash, Option.map_some]

/-- The answer to a value depends on no call before it. -/
def Independent (sha1 : Digest) (n id : ℕ) (val : UInt64) : Prop :=
  ∀ (calls₁ calls₂ : List (ℕ × UInt64)) (f₁ f₂ : SHA1HashFamily),
    run (SHA1HashFamily.call sha1) (SHA1HashFamily.new n) calls₁ = some f₁ →
    run (SHA1HashFamily.call sha1) (SHA1HashFamily.new n) calls₂ = some f₂ →
    (f₁.hash sha1 id val).map Prod.fst = (f₂.hash sha1 id val).map Prod.fst

theorem independent_of_ne_zero (hid : id < n) (hval : val ≠ 0 ∨ words sha1 n 0 id = 0) :
    Independent sha1 n id val := by
  intro calls₁ calls₂ f₁ f₂ h₁ h₂
  rw [((Memo.new sha1 n).run h₁).hash_fst hid hval, ((Memo.new sha1 n).run h₂).hash_fst hid hval]

/-- After a call with another value, zero is answered with its own word. Before, it is answered with zero. -/
theorem ne_zero_of_independent (hid : id < n) (h : Independent sha1 n id val) :
    val ≠ 0 ∨ words sha1 n 0 id = 0 := by
  by_contra hboth
  rw [not_or, not_not] at hboth
  have hnew := Memo.new sha1 n
  have ⟨f₂, hone, hval⟩ := hnew.hash_of_ne hid (by decide : (1 : UInt64) ≠ 0)
  have hcall : (SHA1HashFamily.new n).call sha1 (id, 1) = some f₂ := by
    rw [SHA1HashFamily.call, hone, Option.map_some]
  have ⟨f₃, hzero, _⟩ := (hnew.call hcall).hash_of_ne hid (hval.symm ▸ (by decide : (0 : UInt64) ≠ 1))
  have hfresh : (SHA1HashFamily.new n).hash sha1 id 0 = some (0, SHA1HashFamily.new n) := if_pos hid
  have heq := h [] [(id, 1)] (SHA1HashFamily.new n) f₂ rfl (run_cons.mpr ⟨f₂, hcall, rfl⟩)
  rw [hboth.1, hfresh, hzero, Option.map_some, Option.map_some, Option.some.injEq] at heq
  exact hboth.2 (UInt32.toUInt64_inj.mp (heq.symm : _ = (0 : UInt32).toUInt64))

/-- The lines of a set-associative array that is indexed by a family of its own. -/
structure SetAssocArray where
  array : ℕ → UInt64
  assoc : ℕ
  setMask : ℕ
  hf : SHA1HashFamily

namespace SetAssocArray

/-- The constructor, whose lines are all zero. -/
def new (numLines assoc numFunctions : ℕ) : SetAssocArray :=
  ⟨fun _ => 0, assoc, numLines / assoc - 1, SHA1HashFamily.new numFunctions⟩

/-- The lines of the set that the family gives for an address, with the family after it. -/
def cands (sha1 : Digest) (s : SetAssocArray) (lineAddr : UInt64) : Option (List ℕ × SHA1HashFamily) :=
  (s.hf.hash sha1 0 lineAddr).map fun answer =>
    (List.range' ((answer.1.toNat &&& s.setMask) * s.assoc) s.assoc, answer.2)

/-- `lookup`, which gives the first line of the set with the address. -/
def lookup (sha1 : Digest) (s : SetAssocArray) (lineAddr : UInt64) : Option (Option ℕ × SetAssocArray) :=
  (s.cands sha1 lineAddr).map fun answer =>
    (answer.1.find? fun id => s.array id == lineAddr, { s with hf := answer.2 })

/-- `preinsert` and `postinsert`, with the candidate that the policy ranks first; none where it is no line of
the set. -/
def insert (sha1 : Digest) (s : SetAssocArray) (lineAddr : UInt64) (candidate : ℕ) : Option SetAssocArray :=
  (s.cands sha1 lineAddr).bind fun answer =>
    if candidate ∈ answer.1 then
      some { s with array := Function.update s.array candidate lineAddr, hf := answer.2 }
    else none

/-- What is done with an array. -/
inductive Act where
  | lookup (lineAddr : UInt64)
  | insert (lineAddr : UInt64) (candidate : ℕ)

/-- A call, for the array after it. -/
def perform (sha1 : Digest) (s : SetAssocArray) : Act → Option SetAssocArray
  | .lookup lineAddr => (s.lookup sha1 lineAddr).map Prod.snd
  | .insert lineAddr candidate => s.insert sha1 lineAddr candidate

variable {s s' t : SetAssocArray} {lineAddr : UInt64} {candidate : ℕ}

/-- The shape of an array never changes, and its family keeps its words. -/
structure Indexed (sha1 : Digest) (n assoc setMask : ℕ) (s : SetAssocArray) : Prop where
  assoc : s.assoc = assoc
  setMask : s.setMask = setMask
  memo : Memo sha1 n s.hf

theorem Indexed.cands {assoc setMask : ℕ} (h : Indexed sha1 n assoc setMask s) {answer : List ℕ × SHA1HashFamily}
    (hcands : s.cands sha1 lineAddr = some answer) : Memo sha1 n answer.2 := by
  obtain ⟨word, hhash, rfl⟩ := Option.map_eq_some_iff.mp hcands
  exact h.memo.call (x := (0, lineAddr)) (by rw [SHA1HashFamily.call, hhash, Option.map_some])

theorem Indexed.perform {assoc setMask : ℕ} {act : Act} (h : Indexed sha1 n assoc setMask s)
    (hact : s.perform sha1 act = some s') : Indexed sha1 n assoc setMask s' := by
  cases act with
  | lookup lineAddr =>
    obtain ⟨result, hlookup, rfl⟩ := Option.map_eq_some_iff.mp hact
    obtain ⟨answer, hcands, rfl⟩ := Option.map_eq_some_iff.mp hlookup
    exact ⟨h.assoc, h.setMask, h.cands hcands⟩
  | insert lineAddr candidate =>
    obtain ⟨answer, hcands, hinsert⟩ := Option.bind_eq_some_iff.mp hact
    split_ifs at hinsert with hmem
    cases hinsert
    exact ⟨h.assoc, h.setMask, h.cands hcands⟩

theorem Indexed.run {assoc setMask : ℕ} {acts : List Act} (h : Indexed sha1 n assoc setMask s)
    (hrun : GuardedRuns.run (SetAssocArray.perform sha1) s acts = some s') : Indexed sha1 n assoc setMask s' :=
  run_invariant (fun _ _ _ hs hact => hs.perform hact) h hrun

/-- The set of an address is the same in all states. -/
theorem Indexed.cands_eq {assoc setMask : ℕ} (h : Indexed sha1 n assoc setMask s) (hn : 0 < n)
    (haddr : lineAddr ≠ 0 ∨ words sha1 n 0 0 = 0) :
    (s.cands sha1 lineAddr).map Prod.fst =
      some (List.range' (((words sha1 n lineAddr 0).toUInt64.toNat &&& setMask) * assoc) assoc) := by
  obtain ⟨answer, hhash, hword⟩ := Option.map_eq_some_iff.mp (h.memo.hash_fst hn haddr)
  rw [SetAssocArray.cands, hhash, Option.map_some, Option.map_some, hword, h.assoc, h.setMask]

/-- An address is found as long as the line that it was inserted at has it. -/
def Finds (sha1 : Digest) (n : ℕ) (lineAddr : UInt64) : Prop :=
  ∀ (numLines assoc candidate : ℕ) (acts₁ acts₂ : List Act) (s s' t : SetAssocArray),
    GuardedRuns.run (perform sha1) (new numLines assoc n) acts₁ = some s →
    s.insert sha1 lineAddr candidate = some s' →
    GuardedRuns.run (perform sha1) s' acts₂ = some t →
    t.array candidate = lineAddr → ∃ id, (t.lookup sha1 lineAddr).map Prod.fst = some (some id)

theorem finds_of_ne_zero (hn : 0 < n) (haddr : lineAddr ≠ 0 ∨ words sha1 n 0 0 = 0) :
    Finds sha1 n lineAddr := by
  intro numLines assoc candidate acts₁ acts₂ s s' t h₁ hinsert h₂ hline
  have hnew : Indexed sha1 n assoc (numLines / assoc - 1) (SetAssocArray.new numLines assoc n) :=
    ⟨rfl, rfl, Memo.new sha1 n⟩
  have hs := hnew.run h₁
  have ht := (@Indexed.perform _ _ _ _ _ _ (.insert lineAddr candidate) hs hinsert).run h₂
  have hcands := (hs.cands_eq hn haddr).trans (ht.cands_eq hn haddr).symm
  obtain ⟨answer, hbefore, hinsert⟩ := Option.bind_eq_some_iff.mp hinsert
  split_ifs at hinsert with hmem
  rw [hbefore, Option.map_some] at hcands
  obtain ⟨answer', hafter, hset⟩ := Option.map_eq_some_iff.mp hcands.symm
  have hfind : (answer'.1.find? fun id => t.array id == lineAddr).isSome := by
    rw [List.find?_isSome]
    exact ⟨candidate, hset ▸ hmem, by rw [hline, beq_self_eq_true]⟩
  obtain ⟨id, hid⟩ := Option.isSome_iff_exists.mp hfind
  exact ⟨id, by rw [SetAssocArray.lookup, hafter, Option.map_some, Option.map_some, hid]⟩

end SetAssocArray

/-- The answer to a value depends on no call before it just when the value is not zero, or its word is. An array
then finds it where it was inserted. -/
theorem independent_iff (sha1 : Digest) (val : UInt64) (hid : id < n) :
    (Independent sha1 n id val ↔ val ≠ 0 ∨ words sha1 n 0 id = 0) ∧
      (Independent sha1 n 0 val → SetAssocArray.Finds sha1 n val) :=
  ⟨⟨ne_zero_of_independent hid, independent_of_ne_zero hid⟩, fun h =>
    SetAssocArray.finds_of_ne_zero (Nat.zero_lt_of_lt hid) (ne_zero_of_independent (Nat.zero_lt_of_lt hid) h)⟩

/-- The words of SHA-1 over 128 zero bytes. -/
def zeroDigest : Digest := fun _ => ![0x11f7e40a, 0x9d6e5def, 0xfd11c626, 0xc48a8c2c, 0xe7f9cb5e]

theorem independent_iff_one : 0 < 4 ∧
    (Independent zeroDigest 4 0 1 ↔ (1 : UInt64) ≠ 0 ∨ words zeroDigest 4 0 0 = 0) ∧
      (Independent zeroDigest 4 0 1 → SetAssocArray.Finds zeroDigest 4 1) :=
  ⟨by decide, independent_iff zeroDigest 1 (by decide)⟩

/-- The first call for zero is answered with zero. After a call for another value it is answered with a word. -/
theorem zero_not_independent :
    ((SHA1HashFamily.new 4).hash zeroDigest 0 0).map Prod.fst = some 0 ∧
      (((SHA1HashFamily.new 4).call zeroDigest (0, 1)).bind fun f => (f.hash zeroDigest 0 0).map Prod.fst) =
        some 0x11f7e40a ∧
      ¬ ∀ (sha1 : Digest) (n id : ℕ) (val : UInt64), id < n → Independent sha1 n id val := by
  refine ⟨by decide, by decide, fun h => ?_⟩
  have hword := ne_zero_of_independent (by decide) (h zeroDigest 4 0 0 (by decide))
  exact absurd hword (by decide)

end Zsim.SHA1Hash
