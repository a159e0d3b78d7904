import Mathlib.Algebra.Order.Ring.Int
import Mathlib.Algebra.BigOperators.Group.List.Basic
import Mathlib.Data.Nat.Notation

/-!
# Numbers in mixed radix

Fields of given sizes lie one above the other in a number, and above them is what is left. A
number is composed of its digits, and all values of the digits compose to a number.
-/

namespace Zsim.MixedRadix

variable {F : Type} {radix val : F → ℕ} {row row' n : ℕ} {f : F} {fs pre post : List F}

/-- The weight of what is above the fields. -/
def weight (radix : F → ℕ) (fs : List F) : ℕ := (fs.map radix).prod

/-- The digit with some weight. -/
def digit (n weight radix : ℕ) : ℕ := n / weight % radix

/-- The number with the given digits, the lowest first. -/
def compose (radix val : F → ℕ) (row : ℕ) : List F → ℕ
  | [] => row
  | f :: fs => val f + radix f * compose radix val row fs

theorem weight_cons : weight radix (f :: fs) = radix f * weight radix fs := List.prod_cons

theorem weight_append : weight radix (pre ++ post) = weight radix pre * weight radix post := by
  unfold weight
  rw [List.map_append, List.prod_append]

theorem weight_pos (hpos : ∀ f, 0 < radix f) : 0 < weight radix fs := by
  induction fs with
  | nil => exact Nat.zero_lt_one
  | cons f fs ih =>
    rw [weight_cons]
    exact Nat.mul_pos (hpos f) ih

theorem digit_one (n weight : ℕ) : digit n weight 1 = 0 := Nat.mod_one _

theorem digit_mul (n a weight radix : ℕ) : digit n (a * weight) radix = digit (n / a) weight radix := by
  unfold digit
  rw [Nat.div_div_eq_div_mul]

theorem digit_lowest (n radix : ℕ) : digit n 1 radix = n % radix := by
  unfold digit
  rw [Nat.div_one]

/-- A number is composed of its digits. -/
theorem compose_digits
    (hval : ∀ pre f post, fs = pre ++ f :: post → val f = digit n (weight radix pre) (radix f)) :
    compose radix val (n / weight radix fs) fs = n := by
  induction fs generalizing n with
  | nil => exact Nat.div_one n
  | cons f fs ih =>
    have hrest : compose radix val (n / radix f / weight radix fs) fs = n / radix f := by
      refine ih fun pre g post heq => ?_
      have hg := hval (f :: pre) g post (by rw [heq]; rfl)
      rw [weight_cons, digit_mul] at hg
      exact hg
    have hlow : val f = n % radix f := (hval [] f fs rfl).trans (digit_lowest ..)
    rw [Nat.div_div_eq_div_mul, ← weight_cons] at hrest
    rw [compose, hrest, hlow]
    exact Nat.mod_add_div n (radix f)

/-- The lowest digit is read back, and the others above it. -/
theorem compose_cons (hf : val f < radix f) :
    compose radix val row (f :: fs) % radix f = val f ∧
      compose radix val row (f :: fs) / radix f = compose radix val row fs := by
  rw [compose]
  constructor
  · rw [Nat.add_mul_mod_self_left, Nat.mod_eq_of_lt hf]
  · rw [Nat.add_mul_div_left _ _ (Nat.zero_lt_of_lt hf), Nat.div_eq_of_lt hf, Nat.zero_add]

/-- Each digit of a composed number is read back. -/
theorem digit_compose (hval : ∀ g ∈ pre ++ f :: post, val g < radix g) :
    digit (compose radix val row (pre ++ f :: post)) (weight radix pre) (radix f) = val f := by
  induction pre with
  | nil => exact (digit_lowest ..).trans (compose_cons (hval f List.mem_cons_self)).1
  | cons g pre ih =>
    rw [weight_cons, digit_mul, List.cons_append, (compose_cons (hval g List.mem_cons_self)).2]
    exact ih fun y hy => hval y (List.mem_cons_of_mem g hy)

/-- What is above the digits is read back. -/
theorem compose_div (hval : ∀ g ∈ fs, val g < radix g) : compose radix val row fs / weight radix fs = row := by
  induction fs with
  | nil => exact Nat.div_one row
  | cons g fs ih =>
    rw [weight_cons, ← Nat.div_div_eq_div_mul, (compose_cons (hval g List.mem_cons_self)).2]
    exact ih fun y hy => hval y (List.mem_cons_of_mem g hy)

/-- A composed number is as large as what is above its digits allows. -/
theorem compose_lt (hpos : ∀ f, 0 < radix f) (hval : ∀ g ∈ fs, val g < radix g) (hrow : row < row') :
    compose radix val row fs < row' * weight radix fs := by
  rw [← Nat.div_lt_iff_lt_mul (weight_pos hpos), compose_div hval]
  exact hrow

/-- Digits that are zero leave what is above them. -/
theorem compose_zero (hval : ∀ g ∈ fs, val g = 0) : compose radix val row fs = weight radix fs * row := by
  induction fs with
  | nil => exact (Nat.one_mul row).symm
  | cons g fs ih =>
    rw [compose, hval g List.mem_cons_self, Nat.zero_add, ih fun y hy => hval y (List.mem_cons_of_mem g hy),
      weight_cons, Nat.mul_assoc]

theorem compose_append : compose radix val row (pre ++ post) = compose radix val (compose radix val row post) pre := by
  induction pre with
  | nil => rfl
  | cons g pre ih => rw [List.cons_append, compose, compose, ih]

section Bits

variable {width : F → ℕ}

/-- How many bits the fields take. -/
def total (width : F → ℕ) (fs : List F) : ℕ := (fs.map width).sum

theorem total_cons : total width (f :: fs) = width f + total width fs := List.sum_cons

theorem weight_bits : weight (fun f => 2 ^ width f) fs = 2 ^ total width fs := by
  induction fs with
  | nil => rfl
  | cons f fs ih => rw [weight_cons, total_cons, ih, Nat.pow_add]

end Bits

end Zsim.MixedRadix
