import Mathlib.Algebra.BigOperators.Fin
import Mathlib.Tactic.Abel
import Mathlib.Tactic.Ring
import Zsim.WordBits

/-!
# The H3 hash and its reference

The hash mixes the rows of a random matrix that the input selects. The reference mixes one row a step and turns
its result by one place after each. The hand-unrolled loop mixes eight rows at once and turns each of them by its
number in the block and the result by eight, so that a row ends on the other side of the block's first row than
in the reference.
-/

namespace Zsim.H3Hash

open WordBits Finset

/-- The fields of the family. The constructor bounds the shift. -/
structure H3HashFamily where
  numFuncs : UInt32
  resShift : UInt32
  hMatrix : UInt32 → UInt64
  resShift_le : resShift ≤ 3

/-- The shift for an output of so many bits; none where the constructor panics. -/
def resShiftOf (outputBits : UInt32) : Option UInt32 :=
  if outputBits ≤ 8 then some 3
  else if outputBits ≤ 16 then some 2
  else if outputBits ≤ 32 then some 1
  else if outputBits ≤ 64 then some 0
  else none

theorem resShiftOf_le {outputBits resShift : UInt32} (h : resShiftOf outputBits = some resShift) :
    resShift ≤ 3 := by
  unfold resShiftOf at h
  split_ifs at h <;> cases h <;> decide

/-- A matrix word out of 64 draws, from `first` on. -/
def matrixWord (randInt : ℕ → UInt32) (first : ℕ) : ℕ → UInt64
  | 0 => 0
  | kk + 1 =>
    let val := matrixWord randInt first kk <<< 1
    if randInt (first + kk) % 2 = 0 then val + 1 else val

namespace H3HashFamily

/-- The constructor, which draws the words of the matrix one after another. -/
def new (numFunctions outputBits : UInt32) (randInt : ℕ → UInt32) : Option H3HashFamily :=
  match h : resShiftOf outputBits with
  | none => none
  | some resShift => some ⟨numFunctions, resShift, fun word => matrixWord randInt (64 * word.toNat) 64,
      resShiftOf_le h⟩

variable (f : H3HashFamily)

/-- How many rows a function has, which is also how many bits its hash has. -/
def maxBits : UInt32 := 64 >>> f.resShift

/-- A turn of the unrolled loop. -/
def unrolled (val res : UInt64) (base : UInt32) : UInt64 :=
  let res0 := val &&& f.hMatrix base
  let res1 := val &&& f.hMatrix (base + 1)
  let res2 := val &&& f.hMatrix (base + 2)
  let res3 := val &&& f.hMatrix (base + 3)
  let res4 := val &&& f.hMatrix (base + 4)
  let res5 := val &&& f.hMatrix (base + 5)
  let res6 := val &&& f.hMatrix (base + 6)
  let res7 := val &&& f.hMatrix (base + 7)
  let res := res ^^^ (res0 ^^^ ((res1 <<< 1) ||| (res1 >>> 63)) ^^^ ((res2 <<< 2) ||| (res2 >>> 62))
    ^^^ ((res3 <<< 3) ||| (res3 >>> 61)))
  let res := res ^^^ (((res4 <<< 4) ||| (res4 >>> 60)) ^^^ ((res5 <<< 5) ||| (res5 >>> 59))
    ^^^ ((res6 <<< 6) ||| (res6 >>> 58)) ^^^ ((res7 <<< 7) ||| (res7 >>> 57)))
  (res <<< 8) ||| (res >>> 56)

/-- The result after so many turns of the unrolled loop, whose `x` grows by eight. -/
def unrolledLoop (id : UInt32) (val : UInt64) : ℕ → UInt64
  | 0 => 0
  | turns + 1 => f.unrolled val (unrolledLoop id val turns)
      ((id <<< (6 - f.resShift)) + UInt32.ofNat (8 * turns))

/-- Folds the bits of a result to match the output. -/
def fold (res : UInt64) : UInt64 :=
  if f.resShift = 0 then res
  else if f.resShift = 1 then (res >>> 32) ^^^ res
  else if f.resShift = 2 then
    let res := (res >>> 32) ^^^ res
    (res >>> 16) ^^^ res
  else
    let res := (res >>> 32) ^^^ res
    let res := (res >>> 16) ^^^ res
    (res >>> 8) ^^^ res

/-- `hash`; none where the assertion on the function fails. -/
def hash (id : UInt32) (val : UInt64) : Option UInt64 :=
  if id < f.numFuncs then some (f.fold (f.unrolledLoop id val (f.maxBits.toNat / 8))) else none

/-- The result of the reference loop after so many steps. The rows of a function are where the constructor
put them. -/
def referenceLoop (id : UInt32) (val : UInt64) : ℕ → UInt64
  | 0 => 0
  | x + 1 =>
    let res := referenceLoop id val x ^^^ (val &&& f.hMatrix (id * f.maxBits + UInt32.ofNat x))
    (res <<< 1) ||| (res >>> 63)

/-- The hash as the reference computes it, over all rows of the function. -/
def reference (id : UInt32) (val : UInt64) : UInt64 := f.fold (f.referenceLoop id val f.maxBits.toNat)

/-- A row of a function, and zero for the rows that it has less than 64. -/
def rowOrZero (id : UInt32) (x : ℕ) : UInt64 :=
  if x < f.maxBits.toNat then f.hMatrix (id * f.maxBits + UInt32.ofNat x) else 0

/-- The row as far before the first one of its block as `x` is behind it. -/
def mirrored (x : ℕ) : ℕ := (x + 64 - 2 * (x % 8)) % 64

/-- The rows of a function are the same on both sides of each block's first row. -/
def Symmetric (id : UInt32) : Prop := ∀ x < 64, f.rowOrZero id (mirrored x) = f.rowOrZero id x

instance (id : UInt32) : Decidable (f.Symmetric id) :=
  inferInstanceAs (Decidable (∀ x < 64, f.rowOrZero id (mirrored x) = f.rowOrZero id x))

/-- A hash has at least as many bits as its family was made for. -/
theorem outputBits_le_maxBits {numFunctions outputBits : UInt32} {randInt : ℕ → UInt32} {f : H3HashFamily}
    (h : new numFunctions outputBits randInt = some f) : outputBits ≤ f.maxBits := by
  unfold new at h
  split at h
  · cases h
  · next resShift hshift =>
    cases h
    unfold maxBits
    unfold resShiftOf at hshift
    split_ifs at hshift <;> cases hshift <;> assumption

variable {f} {id : UInt32} {val : UInt64} {x n turns : ℕ} {i p : ZMod 64}

theorem resShift_cases (f : H3HashFamily) :
    f.resShift = 0 ∨ f.resShift = 1 ∨ f.resShift = 2 ∨ f.resShift = 3 := by
  have hle := UInt32.le_iff_toNat_le.mp f.resShift_le
  simp only [← UInt32.toNat_inj]
  change f.resShift.toNat ≤ 3 at hle
  change f.resShift.toNat = 0 ∨ f.resShift.toNat = 1 ∨ f.resShift.toNat = 2 ∨ f.resShift.toNat = 3
  omega

/-- The shift of the function's number is the product with the number of its rows. -/
theorem shiftLeft_eq_mul (f : H3HashFamily) (id : UInt32) : id <<< (6 - f.resShift) = id * f.maxBits := by
  unfold maxBits
  rcases resShift_cases f with h | h | h | h <;> rw [h] <;> apply UInt32.toNat_inj.mp <;>
    rw [UInt32.toNat_shiftLeft, UInt32.toNat_mul, Nat.shiftLeft_eq] <;> rfl

theorem maxBits_cases (f : H3HashFamily) :
    f.maxBits.toNat = 64 ∨ f.maxBits.toNat = 32 ∨ f.maxBits.toNat = 16 ∨ f.maxBits.toNat = 8 := by
  unfold maxBits
  rcases resShift_cases f with h | h | h | h <;> rw [h] <;> decide

/-- Folding loses nothing, as it adds to a result what was shifted down. -/
theorem fold_injective (f : H3HashFamily) : Function.Injective f.fold := by
  have h32 := @add_shift_injective 32 (by decide) (by decide)
  have h16 := @add_shift_injective 16 (by decide) (by decide)
  have h8 := @add_shift_injective 8 (by decide) (by decide)
  unfold fold
  rcases resShift_cases f with h | h | h | h <;> rw [h]
  · exact fun _ _ heq => heq
  · exact h32
  · exact h16.comp h32
  · exact h8.comp (h16.comp h32)

theorem mirrored_lt (x : ℕ) : mirrored x < 64 := Nat.mod_lt _ (by decide)

/-- Where the row that is mirrored to a place comes from. -/
def unmirrored (x : ℕ) : ℕ := (x + 2 * ((8 - x % 8) % 8)) % 64

theorem unmirrored_mirrored (hx : x < 64) : unmirrored (mirrored x) = x := by
  unfold unmirrored mirrored
  omega

theorem mirrored_unmirrored (hx : x < 64) : mirrored (unmirrored x) = x := by
  unfold unmirrored mirrored
  omega

theorem cast_mirrored (x : ℕ) : (mirrored x : ZMod 64) = (x : ZMod 64) - 2 * ((x % 8 : ℕ) : ZMod 64) := by
  have hle : 2 * (x % 8) ≤ x + 64 := by omega
  rw [mirrored, ZMod.natCast_mod, Nat.cast_sub hle, Nat.cast_add, ZMod.natCast_self, Nat.cast_mul,
    Nat.cast_ofNat, add_zero]

theorem unrolled_eq (f : H3HashFamily) (val res : UInt64) (base : UInt32) :
    f.unrolled val res base = rotl
      (res ^^^ (val &&& f.hMatrix base ^^^ rotl (val &&& f.hMatrix (base + UInt32.ofNat 1)) 1 ^^^
        rotl (val &&& f.hMatrix (base + UInt32.ofNat 2)) 2 ^^^
        rotl (val &&& f.hMatrix (base + UInt32.ofNat 3)) 3) ^^^
        (rotl (val &&& f.hMatrix (base + UInt32.ofNat 4)) 4 ^^^
          rotl (val &&& f.hMatrix (base + UInt32.ofNat 5)) 5 ^^^
          rotl (val &&& f.hMatrix (base + UInt32.ofNat 6)) 6 ^^^
          rotl (val &&& f.hMatrix (base + UInt32.ofNat 7)) 7)) 8 := rfl

/-- A turn of the unrolled loop adds eight rows, each turned by its number in the block. -/
theorem bit_unrolled {res : UInt64} {base : UInt32} :
    bit (f.unrolled val res base) i =
      bit res (i - 8) + ∑ k ∈ range 8, bit (val &&& f.hMatrix (base + UInt32.ofNat k)) (i - 8 - k) := by
  have hbase : base + UInt32.ofNat 0 = base := UInt32.add_zero base
  rw [unrolled_eq, bit_rotl (by decide) (by decide)]
  simp only [bit_xor, sum_range_succ, range_zero, sum_empty, hbase, Nat.cast_zero, sub_zero]
  rw [bit_rotl (by decide) (by decide), bit_rotl (by decide) (by decide), bit_rotl (by decide) (by decide),
    bit_rotl (by decide) (by decide), bit_rotl (by decide) (by decide), bit_rotl (by decide) (by decide),
    bit_rotl (by decide) (by decide), Nat.cast_ofNat]
  abel

/-- The exclusive or of the rows that a value selects, each turned so that it starts at its own place behind. -/
def mixed (w : ℕ → UInt64) (place : ℕ → ℕ) (rows : ℕ) (val : UInt64) (i : ZMod 64) : ZMod 2 :=
  ∑ y ∈ range rows, bit (val &&& w y) (i + place y)

theorem bit_referenceLoop : bit (f.referenceLoop id val n) i =
    mixed (fun y => f.hMatrix (id * f.maxBits + UInt32.ofNat y)) (fun y => y) n val (i - n) := by
  induction n generalizing i with
  | zero => exact bit_zero
  | succ n ih =>
    have hturn : f.referenceLoop id val (n + 1) =
        rotl (f.referenceLoop id val n ^^^ (val &&& f.hMatrix (id * f.maxBits + UInt32.ofNat n))) 1 := rfl
    have hplace : i - ((1 : ℕ) : ZMod 64) - n = i - ((n + 1 : ℕ) : ZMod 64) := by
      push_cast
      ring
    rw [hturn, bit_rotl (by decide) (by decide), bit_xor, ih, hplace, mixed, mixed, sum_range_succ,
      ← hplace, sub_add_cancel]

theorem bit_unrolledLoop : bit (f.unrolledLoop id val turns) i =
    mixed (fun y => f.hMatrix (id * f.maxBits + UInt32.ofNat y)) mirrored (8 * turns) val
      (i - (8 * turns : ℕ)) := by
  induction turns generalizing i with
  | zero => exact bit_zero
  | succ turns ih =>
    have hsucc : f.unrolledLoop id val (turns + 1) =
        f.unrolled val (f.unrolledLoop id val turns) (id * f.maxBits + UInt32.ofNat (8 * turns)) := by
      rw [unrolledLoop, shiftLeft_eq_mul]
    have hplace : i - 8 - ((8 * turns : ℕ) : ZMod 64) = i - ((8 * (turns + 1) : ℕ) : ZMod 64) := by
      push_cast
      ring
    rw [hsucc, bit_unrolled, ih, hplace, mixed, mixed, Nat.mul_succ, sum_range_add]
    congr 1
    refine sum_congr rfl fun k hk => ?_
    have hmod : (8 * turns + k) % 8 = k := by
      have := mem_range.mp hk
      omega
    have hrow : id * f.maxBits + UInt32.ofNat (8 * turns) + UInt32.ofNat k =
        id * f.maxBits + UInt32.ofNat (8 * turns + k) := by
      rw [UInt32.ofNat_add, UInt32.add_assoc]
    have hbit : i - 8 - (k : ZMod 64) =
        i - ((8 * (turns + 1) : ℕ) : ZMod 64) + (mirrored (8 * turns + k) : ZMod 64) := by
      rw [cast_mirrored, hmod]
      push_cast
      ring
    rw [hrow, hbit, Nat.mul_succ]

theorem rowOrZero_of_lt (hx : x < f.maxBits.toNat) :
    f.rowOrZero id x = f.hMatrix (id * f.maxBits + UInt32.ofNat x) := if_pos hx

theorem maxBits_le (f : H3HashFamily) : f.maxBits.toNat ≤ 64 := by
  rcases maxBits_cases f with h | h | h | h <;> omega

/-- The rows that a function does not have add nothing. -/
theorem mixed_rowOrZero {place : ℕ → ℕ} :
    mixed (fun y => f.hMatrix (id * f.maxBits + UInt32.ofNat y)) place f.maxBits.toNat val i =
      mixed (f.rowOrZero id) place 64 val i := by
  have hrows : mixed (fun y => f.hMatrix (id * f.maxBits + UInt32.ofNat y)) place f.maxBits.toNat val i =
      mixed (f.rowOrZero id) place f.maxBits.toNat val i := by
    refine sum_congr rfl fun y hy => ?_
    rw [rowOrZero_of_lt (mem_range.mp hy)]
  rw [hrows]
  refine sum_subset (range_subset_range.mpr (maxBits_le f)) fun y _ hy => ?_
  have hzero : f.rowOrZero id y = 0 := if_neg (mem_range.not.mp hy)
  rw [hzero, UInt64.and_zero, bit_zero]

/-- The places of the reference, as the mirrored ones run through all places. -/
theorem mixed_mirrored (w : ℕ → UInt64) :
    mixed (fun y => w (mirrored y)) mirrored 64 val i = mixed w (fun y => y) 64 val i :=
  sum_nbij' mirrored unmirrored (fun y _ => mem_range.mpr (mirrored_lt y))
    (fun y _ => mem_range.mpr (Nat.mod_lt _ (by decide)))
    (fun _ hy => unmirrored_mirrored (mem_range.mp hy)) (fun _ hy => mirrored_unmirrored (mem_range.mp hy))
    (fun _ _ => rfl)

/-- A value with one bit finds it in the one row that starts at the right place. -/
theorem mixed_single {w : ℕ → UInt64} {place : ℕ → ℕ} (hx : x < 64)
    (hplace : ∀ y < 64, (place y : ZMod 64) = (place x : ZMod 64) → y = x) :
    mixed w place 64 (single p) (p - place x) = bit (w x) p := by
  have hsum : mixed w place 64 (single p) (p - place x) =
      bit (single p &&& w x) (p - place x + place x) := by
    refine sum_eq_single_of_mem x (mem_range.mpr hx) fun y hy hne => ?_
    have hother : ¬ p - (place x : ZMod 64) + place y = p := fun h =>
      hne (hplace y (mem_range.mp hy) (by rw [sub_add_eq_add_sub, sub_eq_iff_eq_add] at h; exact add_left_cancel h))
    rw [bit_and, bit_single, if_neg hother, zero_mul]
  rw [hsum, sub_add_cancel, bit_and, bit_single, if_pos rfl, one_mul]

theorem eq_of_cast_eq (hx : x < 64) (hn : n < 64) (h : (n : ZMod 64) = (x : ZMod 64)) : n = x := by
  have hmod := (ZMod.natCast_eq_natCast_iff' n x 64).mp h
  rwa [Nat.mod_eq_of_lt hn, Nat.mod_eq_of_lt hx] at hmod

/-- The rows that are mixed at the places of the reference and at the mirrored ones give the same for every
value just when they are symmetric. -/
theorem mixed_eq_iff : (∀ val i, mixed (f.rowOrZero id) mirrored 64 val i =
    mixed (f.rowOrZero id) (fun y => y) 64 val i) ↔ f.Symmetric id := by
  constructor
  · intro h x hx
    refine bit_ext fun p => ?_
    have hhash := @mixed_single x p (f.rowOrZero id) mirrored hx fun y hy heq => by
      rw [← unmirrored_mirrored hy, eq_of_cast_eq (mirrored_lt x) (mirrored_lt y) heq, unmirrored_mirrored hx]
    have href := @mixed_single (mirrored x) p (f.rowOrZero id) (fun y => y) (mirrored_lt x)
      fun y hy => eq_of_cast_eq (mirrored_lt x) hy
    rw [← hhash, ← href, h]
  · intro h val i
    rw [← mixed_mirrored]
    refine sum_congr rfl fun y hy => ?_
    dsimp only
    rw [h y (mem_range.mp hy)]

theorem bit_loops (f : H3HashFamily) (id : UInt32) (val : UInt64) (i : ZMod 64) :
    bit (f.unrolledLoop id val (f.maxBits.toNat / 8)) i =
        mixed (f.rowOrZero id) mirrored 64 val (i - f.maxBits.toNat) ∧
      bit (f.referenceLoop id val f.maxBits.toNat) i =
        mixed (f.rowOrZero id) (fun y => y) 64 val (i - f.maxBits.toNat) := by
  have hturns : 8 * (f.maxBits.toNat / 8) = f.maxBits.toNat := by
    rcases maxBits_cases f with h | h | h | h <;> rw [h]
  constructor
  · rw [bit_unrolledLoop, hturns, mixed_rowOrZero]
  · rw [bit_referenceLoop, mixed_rowOrZero]

/-- The two loops end with the same result for every value just when the rows are symmetric. -/
theorem loops_eq_iff : (∀ val, f.unrolledLoop id val (f.maxBits.toNat / 8) =
    f.referenceLoop id val f.maxBits.toNat) ↔ f.Symmetric id := by
  rw [← mixed_eq_iff]
  constructor
  · intro h val i
    have hbits := bit_loops f id val (i + f.maxBits.toNat)
    rw [h val, add_sub_cancel_right] at hbits
    rw [← hbits.1, hbits.2]
  · intro h val
    refine bit_ext fun i => ?_
    rw [(bit_loops f id val i).1, (bit_loops f id val i).2, h]

/-- The unrolled hash equals its reference for every input just when the rows of the function are symmetric. -/
theorem hash_eq_reference_iff (f : H3HashFamily) (id : UInt32) :
    (∀ val, f.hash id val = some (f.reference id val)) ↔ id < f.numFuncs ∧ f.Symmetric id := by
  rw [← loops_eq_iff]
  unfold hash reference
  by_cases hid : id < f.numFuncs
  · simp only [hid, if_true, Option.some.injEq, (fold_injective f).eq_iff, true_and]
  · simp only [hid, if_false, reduceCtorEq, forall_const, false_and]

/-- Two rows of which the second one has a bit. -/
def twoRows : H3HashFamily := ⟨1, 0, fun word => if word = 1 then 1 else 0, by decide⟩

/-- The reference turns the second row back to the highest place, the unrolled loop to the second one. -/
theorem hash_ne_reference : twoRows.hash 0 1 = some 2 ∧ twoRows.reference 0 1 = 9223372036854775808 ∧
    ¬ ∀ (f : H3HashFamily) (id : UInt32) (val : UInt64), id < f.numFuncs →
      f.hash id val = some (f.reference id val) := by
  have hhash : twoRows.hash 0 1 = some 2 := by decide +kernel
  have href : twoRows.reference 0 1 = 9223372036854775808 := by decide +kernel
  refine ⟨hhash, href, fun h => ?_⟩
  have heq := h twoRows 0 1 (by decide)
  rw [hhash, href] at heq
  exact absurd heq (by decide)

end H3HashFamily

end Zsim.H3Hash
