import Mathlib.Data.List.Basic
import Mathlib.Data.Int.Init
import Mathlib.Tactic.Ring
import Mathlib.Tactic.Linarith
import Zsim.DDRMapping

/-!
# Process masks

`ParseMask` reads a list of ranges. A number is whatever a stream reads from
the beginning of a token, as a 32-bit word that becomes a signed number, and
the loop over a range adds the step once more after its last index. A mask is
what it is written to be unless one of these shows.
-/

namespace Zsim.RangeMasks

open DDRMapping

/-- The ways `ParseMask` can fail: its panics, and what is no panic. -/
inductive MaskFailure where
  /-- A token of a range is not a valid number. -/
  | notNumber (s r : List Char)
  /-- A range can only have 1-3 numbers delimited by `:`. -/
  | badCount (r : List Char) (parsed : ℕ)
  /-- A range has negative numbers. -/
  | negative (r : List Char)
  /-- A range has 0 step. -/
  | zeroStep (r : List Char)
  /-- A range has min >= sup. -/
  | emptyRange (r : List Char)
  /-- A range includes an index out of bounds. -/
  | outOfBounds (min step sup i limit : ℤ)
  /-- A signed addition overflows. -/
  | overflow
  /-- The loop over a range takes more turns than the range has numbers. -/
  | endless
  deriving DecidableEq

/-- White space, which a stream skips. -/
def isspace (c : Char) : Bool := c.toNat = 32 || (9 ≤ c.toNat && c.toNat ≤ 13)

/-- The number a list of digits is written for. -/
def value (digits : List Char) : ℕ := digits.foldl (fun x c => 10 * x + (c.toNat - 48)) 0

/-- An optional sign: is it a minus, and what follows. -/
def sign : List Char → Bool × List Char
  | '-' :: s => (true, s)
  | '+' :: s => (false, s)
  | s => (false, s)

/-- `ss >> x`, none when the stream fails. -/
def extract (s : List Char) : Option UInt32 :=
  let (minus, rest) := sign (s.dropWhile isspace)
  let digits := rest.takeWhile Char.isDigit
  if digits = [] ∨ 2 ^ 32 ≤ value digits then none
  else if minus = true then some (-UInt32.ofNat (value digits)) else some (.ofNat (value digits))

/-- A conversion to `int32_t`. -/
def signed (x : UInt32) : ℤ := x.toInt32.toInt

/-- `Range`. -/
structure Range where
  min : ℤ
  sup : ℤ
  step : ℤ

namespace Range

/-- The numbers of a range. -/
def numbers (r : List Char) : List (List Char) → Except MaskFailure (List UInt32)
  | [] => .ok []
  | s :: t =>
    match extract s with
    | none => .error (.notNumber s r)
    | some x =>
      match numbers r t with
      | .error e => .error e
      | .ok n => .ok (x :: n)

/-- The final error checking. -/
def check (r : List Char) (range : Range) : Except MaskFailure Range :=
  if range.min < 0 ∨ range.step < 0 ∨ range.sup < 0 then .error (.negative r)
  else if range.step = 0 then .error (.zeroStep r)
  else if range.sup ≤ range.min then .error (.emptyRange r)
  else .ok range

/-- The constructor. -/
def new (r : List Char) : Except MaskFailure Range :=
  match numbers r (Tokenize r [':']) with
  | .error e => .error e
  | .ok [min] => if signed min + 1 = 2 ^ 31 then .error .overflow else check r ⟨signed min, signed min + 1, 1⟩
  | .ok [min, sup] => check r ⟨signed min, signed sup, 1⟩
  | .ok [min, sup, step] => check r ⟨signed min, signed sup, signed step⟩
  | .ok n => .error (.badCount r n.length)

/-- The loop of `fill` from an index on, with the turns it may take. -/
def fillFrom (range : Range) (maskSize : UInt32) : ℕ → ℤ → List Bool → Except MaskFailure (List Bool)
  | turns, i, mask =>
    if i < range.sup then
      match turns with
      | 0 => .error .endless
      | turns + 1 =>
        if signed maskSize ≤ i ∨ i < 0 then
          .error (.outOfBounds range.min range.step range.sup i (maskSize.toNat - 1))
        else if 2 ^ 31 ≤ i + range.step then .error .overflow
        else fillFrom range maskSize turns (i + range.step) (mask.set i.toNat true)
    else .ok mask

/-- `fill`, of a mask of the size. -/
def fill (range : Range) (maskSize : UInt32) (mask : List Bool) : Except MaskFailure (List Bool) :=
  range.fillFrom maskSize (range.sup - range.min).toNat range.min mask

end Range

/-- The loop of `ParseMask`. -/
def fillAll (maskSize : UInt32) : List (List Char) → List Bool → Except MaskFailure (List Bool)
  | [], mask => .ok mask
  | r :: ranges, mask =>
    if r.length = 0 then fillAll maskSize ranges mask
    else
      match Range.new r with
      | .error e => .error e
      | .ok range =>
        match range.fill maskSize mask with
        | .error e => .error e
        | .ok mask => fillAll maskSize ranges mask

/-- `ParseMask`. -/
def ParseMask (maskStr : List Char) (maskSize : UInt32) : Except MaskFailure (List Bool) :=
  fillAll maskSize (Tokenize maskStr [' ']) (List.replicate maskSize.toNat false)

section Grammar

/-- A decimal number. -/
def decimal (s : List Char) : Option ℕ := if s ≠ [] ∧ s.all Char.isDigit = true then some (value s) else none

/-- An item of a range list. -/
structure Item where
  min : ℕ
  sup : ℕ
  step : ℕ
  deriving DecidableEq

/-- `n`, `min:sup` or `min:sup:step`. -/
def item (w : List Char) : Option Item :=
  match (w.splitOn ':').mapM decimal with
  | some [n] => some ⟨n, n + 1, 1⟩
  | some [min, sup] => if min < sup then some ⟨min, sup, 1⟩ else none
  | some [min, sup, step] => if min < sup ∧ 1 ≤ step then some ⟨min, sup, step⟩ else none
  | _ => none

/-- The indices min, min+step, ... below sup. -/
def Item.indices (it : Item) : Set ℕ := { j | j < it.sup ∧ ∃ k, j = it.min + k * it.step }

/-- The words of a list separated by spaces. -/
def listWords (str : List Char) : List (List Char) := (str.splitOn ' ').filter fun w => w ≠ []

/-- A range list whose indices are all below the mask size. -/
def RangeList (str : List Char) (maskSize : ℕ) : Prop :=
  ∀ w ∈ listWords str, ∃ it, item w = some it ∧ ∀ j ∈ it.indices, j < maskSize

/-- `ParseMask` accepts the string exactly if it is a range list, sets the bits of
the union, and never wraps around or loops. -/
structure Exact (str : List Char) (maskSize : UInt32) : Prop where
  accepts : (∃ mask, ParseMask str maskSize = .ok mask) ↔ RangeList str maskSize.toNat
  bits : ∀ mask, ParseMask str maskSize = .ok mask → mask.length = maskSize.toNat ∧
    ∀ j < maskSize.toNat, mask[j]? = some true ↔ ∃ w ∈ listWords str, ∃ it, item w = some it ∧ j ∈ it.indices
  noOverflow : ParseMask str maskSize ≠ .error .overflow
  ends : ParseMask str maskSize ≠ .error .endless

end Grammar

section Filling

variable {range : Range} {maskSize : UInt32} {i : ℤ} {mask : List Bool}

/-- The indices of the loop from one on are inside the mask. -/
def Range.Inside (range : Range) (maskSize : UInt32) (i : ℤ) : Prop :=
  ∀ m : ℕ, i + m * range.step < range.sup → i + m * range.step < signed maskSize

/-- The step is added past the largest number. -/
def Range.RunsOver (range : Range) (i : ℤ) : Prop :=
  ∃ m : ℕ, i + m * range.step < range.sup ∧ 2 ^ 31 ≤ i + m * range.step + range.step

theorem index_succ (i step : ℤ) (m : ℕ) : i + (m + 1 : ℕ) * step = i + step + m * step := by
  push_cast
  ring

/-- What the loop leaves in the mask. -/
structure Filled (range : Range) (i : ℤ) (mask mask' : List Bool) : Prop where
  length : mask'.length = mask.length
  bits : ∀ j : ℕ, mask'[j]? = some true ↔
    mask[j]? = some true ∨ j < mask.length ∧ (j : ℤ) < range.sup ∧ ∃ m : ℕ, (j : ℤ) = i + m * range.step

theorem inside_succ (hin : i < signed maskSize) :
    range.Inside maskSize i ↔ range.Inside maskSize (i + range.step) := by
  constructor
  · intro hinside m hm
    rw [← index_succ] at hm ⊢
    exact hinside (m + 1) hm
  · intro hinside m hm
    cases m with
    | zero => simpa using hin
    | succ m =>
      rw [index_succ] at hm ⊢
      exact hinside m hm

theorem runsOver_succ (hover : ¬ 2 ^ 31 ≤ i + range.step) : range.RunsOver i ↔ range.RunsOver (i + range.step) := by
  constructor
  · rintro ⟨m, hm⟩
    cases m with
    | zero => exact absurd (by simpa using hm.2) hover
    | succ m =>
      rw [index_succ] at hm
      exact ⟨m, hm⟩
  · rintro ⟨m, hm⟩
    rw [← index_succ] at hm
    exact ⟨m + 1, hm⟩

/-- The first index is set, and then the others. -/
theorem Filled.succ (hi : 0 ≤ i) (hsup : i < range.sup) (hmask : i.toNat < mask.length) {mask' : List Bool}
    (h : Filled range (i + range.step) (mask.set i.toNat true) mask') : Filled range i mask mask' := by
  refine ⟨h.length.trans List.length_set, fun j => ?_⟩
  rw [h.bits j, List.length_set, List.getElem?_set]
  by_cases hj : i.toNat = j
  · rw [if_pos hj, if_pos (hj ▸ hmask)]
    exact ⟨fun _ => .inr ⟨hj ▸ hmask, by omega, 0, by simp; omega⟩, fun _ => .inl rfl⟩
  · rw [if_neg hj]
    refine or_congr_right (and_congr_right fun _ => and_congr_right fun _ => ?_)
    constructor
    · rintro ⟨m, hm⟩
      exact ⟨m + 1, by rw [index_succ]; exact hm⟩
    · rintro ⟨m, hm⟩
      cases m with
      | zero => exact absurd hm (by simp; omega)
      | succ m => exact ⟨m, by rw [← index_succ]; exact hm⟩

theorem index_past (hstep : 0 < range.step) (i : ℤ) (m : ℕ) : i ≤ i + m * range.step := by
  have hmul := Int.mul_nonneg (Int.natCast_nonneg m) hstep.le
  omega

theorem fillFrom_end (hstep : 0 < range.step) (turns : ℕ) (hend : ¬ i < range.sup) :
    range.fillFrom maskSize turns i mask = .ok mask ∧ Filled range i mask mask ∧ range.Inside maskSize i ∧
      ¬ range.RunsOver i := by
  have hnone : ∀ m : ℕ, ¬ i + m * range.step < range.sup := fun m hm => hend ((index_past hstep i m).trans_lt hm)
  refine ⟨?_, ⟨rfl, fun j => ⟨.inl, fun hj => hj.elim id ?_⟩⟩, fun m hm => absurd hm (hnone m),
    fun ⟨m, hm, _⟩ => hnone m hm⟩
  · cases turns with
    | zero => rw [Range.fillFrom, if_neg hend]
    | succ turns => rw [Range.fillFrom, if_neg hend]
  · rintro ⟨-, hj, m, hm⟩
    exact absurd (hm ▸ hj) (hnone m)

/-- The loop fills the mask, or overflows, or meets an index that is out of bounds. -/
theorem fillFrom_cases (hstep : 0 < range.step) (hsup : range.sup < 2 ^ 31) (hlength : mask.length = maskSize.toNat)
    (hlimit : signed maskSize ≤ maskSize.toNat) (turns : ℕ) (hi : 0 ≤ i) (hturns : range.sup - i ≤ turns) :
    (∃ mask', range.fillFrom maskSize turns i mask = .ok mask' ∧ Filled range i mask mask' ∧
        range.Inside maskSize i ∧ ¬ range.RunsOver i) ∨
      (range.fillFrom maskSize turns i mask = .error .overflow ∧ range.Inside maskSize i ∧ range.RunsOver i) ∨
      ∃ i', range.fillFrom maskSize turns i mask =
        .error (.outOfBounds range.min range.step range.sup i' (maskSize.toNat - 1)) ∧ ¬ range.Inside maskSize i := by
  induction turns generalizing i mask with
  | zero => exact .inl ⟨mask, fillFrom_end hstep 0 (by omega)⟩
  | succ turns ih =>
    by_cases hsups : i < range.sup
    · rw [Range.fillFrom, if_pos hsups]
      by_cases hin : i < signed maskSize
      · rw [if_neg (by omega), inside_succ hin]
        by_cases hover : 2 ^ 31 ≤ i + range.step
        · rw [if_pos hover]
          refine .inr (.inl ⟨rfl, fun m hm => ?_, 0, by simpa using ⟨hsups, hover⟩⟩)
          have hm' := index_past hstep (i + range.step) m
          omega
        · rw [if_neg hover, runsOver_succ hover]
          rcases ih (List.length_set.trans hlength) (i:=i + range.step) (by omega) (by omega) with
            ⟨mask', hfill, hfilled, hrest⟩ | hrest | hrest
          · exact .inl ⟨mask', hfill, hfilled.succ hi hsups (by omega), hrest⟩
          · exact .inr (.inl hrest)
          · exact .inr (.inr hrest)
      · rw [if_pos (.inl (not_lt.mp hin))]
        exact .inr (.inr ⟨i, rfl, fun hinside => hin (by simpa using hinside 0 (by simpa using hsups))⟩)
    · exact .inl ⟨mask, fillFrom_end hstep (turns + 1) hsups⟩

end Filling

section Reading

variable {s r w : List Char} {x : UInt32} {v : ℕ} {it : Item} {range : Range}

/-- The tokens of a list that are not empty are its words. -/
theorem tokenize_words (str : List Char) : (Tokenize str [' ']).filter (· ≠ []) = listWords str :=
  tokenize_filter ' ' str

theorem signed_eq (x : UInt32) : signed x = if x.toNat < 2 ^ 31 then (x.toNat : ℤ) else x.toNat - 2 ^ 32 := by
  have hlt := x.toNat_lt
  have hint : signed x = if 2 * x.toNat < 2 ^ 32 then (x.toNat : ℤ) else x.toNat - (2 ^ 32 : ℕ) := rfl
  rw [hint]
  split <;> split <;> omega

theorem sign_digit {c : Char} (hc : c.isDigit = true) (s : List Char) : sign (c :: s) = (false, c :: s) := by
  unfold sign
  split
  · next heq =>
    cases heq
    cases hc
  · next heq =>
    cases heq
    cases hc
  · rfl

theorem isspace_digit {c : Char} (hc : c.isDigit = true) : isspace c = false := by
  obtain ⟨hlow, -⟩ := Char.isDigit_iff_toNat.mp hc
  change 48 ≤ c.toNat at hlow
  rw [isspace, Bool.or_eq_false_iff, Bool.and_eq_false_iff, decide_eq_false_iff_not, decide_eq_false_iff_not,
    decide_eq_false_iff_not]
  omega

theorem takeWhile_all {p : Char → Bool} (hall : ∀ c ∈ s, p c = true) : s.takeWhile p = s := by
  have happend : (s ++ []).takeWhile p = s ++ [].takeWhile p := List.takeWhile_append_of_pos hall
  rwa [List.append_nil, List.takeWhile_nil, List.append_nil] at happend

/-- A decimal number is read as it is, up to 32 bits. -/
theorem extract_decimal (hs : decimal s = some v) :
    extract s = if v < 2 ^ 32 then some (UInt32.ofNat v) else none := by
  rw [decimal] at hs
  split at hs
  · next hdigits =>
    obtain ⟨hne, hall⟩ := hdigits
    rw [List.all_eq_true] at hall
    obtain ⟨c, cs, rfl⟩ := List.exists_cons_of_ne_nil hne
    have hc := hall c List.mem_cons_self
    cases hs
    rw [extract, List.dropWhile_cons_of_neg (by rw [isspace_digit hc]; decide), sign_digit hc]
    simp only [takeWhile_all hall, hne, false_or, Bool.false_eq_true, if_false]
    by_cases hlt : value (c :: cs) < 2 ^ 32
    · rw [if_pos hlt, if_neg (not_le.mpr hlt)]
    · rw [if_neg hlt, if_pos (not_lt.mp hlt)]
  · cases hs

/-- The numbers of pieces that are decimal numbers. -/
theorem numbers_decimals {pieces : List (List Char)} {ns : List ℕ} (hpieces : pieces.mapM decimal = some ns) :
    (∀ v ∈ ns, v < 2 ^ 32) ∧ Range.numbers r pieces = .ok (ns.map UInt32.ofNat) ∨
      (∃ v ∈ ns, 2 ^ 32 ≤ v) ∧ ∃ s, Range.numbers r pieces = .error (.notNumber s r) := by
  induction pieces generalizing ns with
  | nil =>
    cases hpieces
    exact .inl ⟨fun _ => nofun, rfl⟩
  | cons s pieces ih =>
    rw [List.mapM_cons] at hpieces
    obtain ⟨v, hv, hrest⟩ := Option.bind_eq_some_iff.mp hpieces
    obtain ⟨vs, hvs, hns⟩ := Option.bind_eq_some_iff.mp hrest
    cases hns
    rw [Range.numbers, extract_decimal hv]
    by_cases hlt : v < 2 ^ 32
    · rw [if_pos hlt]
      rcases ih hvs with ⟨hall, hok⟩ | ⟨⟨u, hu, hle⟩, t, herror⟩
      · exact .inl ⟨List.forall_mem_cons.mpr ⟨hlt, hall⟩, by simp only [hok]; rfl⟩
      · exact .inr ⟨⟨u, List.mem_cons_of_mem v hu, hle⟩, t, by simp only [herror]⟩
    · rw [if_neg hlt]
      exact .inr ⟨⟨v, List.mem_cons_self, not_lt.mp hlt⟩, s, rfl⟩

theorem decimals_ne {pieces : List (List Char)} {ns : List ℕ} (hpieces : pieces.mapM decimal = some ns) :
    ∀ s ∈ pieces, s ≠ [] := by
  induction pieces generalizing ns with
  | nil => exact fun _ => nofun
  | cons s pieces ih =>
    rw [List.mapM_cons] at hpieces
    obtain ⟨v, hv, hrest⟩ := Option.bind_eq_some_iff.mp hpieces
    obtain ⟨vs, hvs, -⟩ := Option.bind_eq_some_iff.mp hrest
    refine List.forall_mem_cons.mpr ⟨fun hnil => ?_, ih hvs⟩
    rw [decimal, if_neg fun hdigits => hdigits.1 hnil] at hv
    cases hv

theorem tokenize_pieces {ns : List ℕ} (hpieces : (w.splitOn ':').mapM decimal = some ns) :
    Tokenize w [':'] = w.splitOn ':' := by
  obtain ⟨p, ps, hsplit, htokens⟩ := tokenize_eq ':' w
  have hne := decimals_ne hpieces
  rw [hsplit] at hne ⊢
  rw [htokens, List.filter_eq_self.mpr fun s hs => by simpa using hne s (List.mem_cons_of_mem p hs)]

theorem signed_ofNat (hlt : v < 2 ^ 32) :
    signed (UInt32.ofNat v) = if v < 2 ^ 31 then (v : ℤ) else v - 2 ^ 32 := by
  rw [signed_eq, UInt32.toNat_ofNat_of_lt' (by simpa [UInt32.size] using hlt)]

theorem check_ok {range' : Range} : range'.check r = .ok range ↔
    range = range' ∧ 0 ≤ range'.min ∧ 0 < range'.step ∧ range'.min < range'.sup := by
  rw [Range.check]
  by_cases hneg : range'.min < 0 ∨ range'.step < 0 ∨ range'.sup < 0
  · rw [if_pos hneg]
    exact ⟨nofun, fun h => by omega⟩
  · rw [if_neg hneg]
    by_cases hzero : range'.step = 0
    · rw [if_pos hzero]
      exact ⟨nofun, fun h => by omega⟩
    · rw [if_neg hzero]
      by_cases hempty : range'.sup ≤ range'.min
      · rw [if_pos hempty]
        exact ⟨nofun, fun h => by omega⟩
      · rw [if_neg hempty, Except.ok.injEq]
        exact ⟨fun h => ⟨h.symm, by omega⟩, fun h => h.1.symm⟩

/-- The checks pass for numbers that are in order and fit, whose words are read as they are. -/
theorem check_read {a b c : ℕ} {a' b' c' : ℤ} (ha : a ≤ 2 ^ 32) (hb : b ≤ 2 ^ 32) (hc : c ≤ 2 ^ 32)
    (ha' : a' = if a < 2 ^ 31 then (a : ℤ) else a - 2 ^ 32) (hb' : b' = if b < 2 ^ 31 then (b : ℤ) else b - 2 ^ 32)
    (hc' : c' = if c < 2 ^ 31 then (c : ℤ) else c - 2 ^ 32) (hlt : a < b) : Range.check r ⟨a', b', c'⟩ = .ok range ↔
      range = ⟨a, b, c⟩ ∧ 0 < c ∧ b < 2 ^ 31 ∧ c < 2 ^ 31 := by
  rw [check_ok]
  dsimp only
  by_cases hfit : b < 2 ^ 31 ∧ c < 2 ^ 31
  · rw [if_pos (by omega)] at ha' hb' hc'
    subst ha' hb' hc'
    exact and_congr_right fun _ => by omega
  · refine ⟨fun h => ?_, fun h => absurd h.2.2 hfit⟩
    split at hb' <;> split at hc' <;> omega

/-- The items are of one, two or three numbers. -/
theorem item_cases (hitem : item w = some it) : ∃ ns, (w.splitOn ':').mapM decimal = some ns ∧
    (ns = [it.min] ∧ it.sup = it.min + 1 ∧ it.step = 1 ∨ ns = [it.min, it.sup] ∧ it.min < it.sup ∧ it.step = 1 ∨
      ns = [it.min, it.sup, it.step] ∧ it.min < it.sup ∧ 1 ≤ it.step) := by
  rw [item] at hitem
  split at hitem
  · next n hns =>
    cases hitem
    exact ⟨[n], hns, .inl ⟨rfl, rfl, rfl⟩⟩
  · next min sup hns =>
    split at hitem
    · next hlt =>
      cases hitem
      exact ⟨_, hns, .inr (.inl ⟨rfl, hlt, rfl⟩)⟩
    · cases hitem
  · next min sup step hns =>
    split at hitem
    · next hlt =>
      cases hitem
      exact ⟨_, hns, .inr (.inr ⟨rfl, hlt⟩)⟩
    · cases hitem
  · cases hitem

/-- The constructor reads an item as it is if its numbers fit, and refuses it if they do not. -/
theorem new_item (hitem : item w = some it) :
    Range.new w = .ok range ↔ range = ⟨it.min, it.sup, it.step⟩ ∧ it.sup < 2 ^ 31 ∧ it.step < 2 ^ 31 := by
  obtain ⟨ns, hns, hcases⟩ := item_cases hitem
  rw [Range.new, tokenize_pieces hns]
  rcases numbers_decimals (r:=w) hns with ⟨hall, hok⟩ | ⟨⟨v, hv, hle⟩, s, herror⟩
  · rw [hok]
    rcases hcases with ⟨rfl, hsup, hstep⟩ | ⟨rfl, hlt, hstep⟩ | ⟨rfl, hlt, hstep⟩
    · have hmin := hall it.min List.mem_cons_self
      simp only [List.map_cons, List.map_nil]
      by_cases hover : signed (UInt32.ofNat it.min) + 1 = 2 ^ 31
      · rw [if_pos hover]
        rw [signed_ofNat hmin] at hover
        refine ⟨nofun, fun h => ?_⟩
        split at hover <;> omega
      · rw [if_neg hover, check_read (by omega) (b:=it.sup) (c:=it.step) (by omega) (by omega) (signed_ofNat hmin) ?_
          (by rw [hstep]; rfl) (by omega), and_congr_right_iff]
        · exact fun _ => by omega
        · rw [signed_ofNat hmin] at hover ⊢
          split at hover <;> split <;> omega
    · have hmin := hall it.min List.mem_cons_self
      have hsup := hall it.sup (List.mem_cons_of_mem _ List.mem_cons_self)
      simp only [List.map_cons, List.map_nil]
      rw [check_read hmin.le hsup.le (c:=it.step) (by omega) (signed_ofNat hmin) (signed_ofNat hsup)
        (by rw [hstep]; rfl) hlt, and_congr_right_iff]
      exact fun _ => by omega
    · have hmin := hall it.min List.mem_cons_self
      have hsup := hall it.sup (List.mem_cons_of_mem _ List.mem_cons_self)
      have hstep' := hall it.step (List.mem_cons_of_mem _ (List.mem_cons_of_mem _ List.mem_cons_self))
      simp only [List.map_cons, List.map_nil]
      rw [check_read hmin.le hsup.le hstep'.le (signed_ofNat hmin) (signed_ofNat hsup) (signed_ofNat hstep') hlt,
        and_congr_right_iff]
      exact fun _ => by omega
  · rw [herror]
    refine ⟨nofun, fun h => ?_⟩
    rcases hcases with ⟨rfl, hsup, hstep⟩ | ⟨rfl, hlt, hstep⟩ | ⟨rfl, hlt, hstep⟩
    · simp only [List.mem_singleton] at hv
      omega
    · simp only [List.mem_cons, List.not_mem_nil, or_false] at hv
      omega
    · simp only [List.mem_cons, List.not_mem_nil, or_false] at hv
      omega

theorem signed_lt (x : UInt32) : signed x < 2 ^ 31 := by
  have hlt := x.toNat_lt
  rw [signed_eq]
  split <;> omega

theorem signed_le (x : UInt32) : signed x ≤ x.toNat := by
  rw [signed_eq]
  split <;> omega

/-- A range that is read is in order, and its numbers are signed words. -/
theorem new_range (hnew : Range.new w = .ok range) :
    0 ≤ range.min ∧ range.min < range.sup ∧ 0 < range.step ∧ range.sup < 2 ^ 31 := by
  rw [Range.new] at hnew
  split at hnew
  · cases hnew
  · next min hn =>
    have hlt := signed_lt min
    split at hnew
    · cases hnew
    · obtain ⟨rfl, hcheck⟩ := check_ok.mp hnew
      dsimp only at hcheck ⊢
      omega
  · next min sup hn =>
    have hlt := signed_lt sup
    obtain ⟨rfl, hcheck⟩ := check_ok.mp hnew
    dsimp only at hcheck ⊢
    omega
  · next min sup step hn =>
    have hlt := signed_lt sup
    obtain ⟨rfl, hcheck⟩ := check_ok.mp hnew
    dsimp only at hcheck ⊢
    omega
  · cases hnew

theorem numbers_ne_endless (t : List (List Char)) : Range.numbers r t ≠ .error .endless := by
  induction t with
  | nil => exact nofun
  | cons s t ih =>
    rw [Range.numbers]
    split
    · exact nofun
    · split
      · next herror => exact herror ▸ ih
      · exact nofun

theorem check_ne_endless : range.check r ≠ .error .endless := by
  rw [Range.check]
  split
  · exact nofun
  · split
    · exact nofun
    · split <;> exact nofun

theorem new_ne_endless : Range.new w ≠ .error .endless := by
  rw [Range.new]
  split
  · next herror =>
    exact fun hend => numbers_ne_endless _ (herror.trans (congrArg Except.error (Except.error.inj hend)))
  · split
    · exact nofun
    · exact check_ne_endless
  · exact check_ne_endless
  · exact check_ne_endless
  · exact nofun

end Reading

section Words

variable {w : List Char} {ws : List (List Char)} {maskSize : UInt32} {mask : List Bool}

/-- The constructor reads a range from the word, and its loop fills the mask. -/
def Takes (maskSize : UInt32) (w : List Char) : Prop :=
  ∃ range, Range.new w = .ok range ∧ range.Inside maskSize range.min ∧ ¬ range.RunsOver range.min

/-- An addition overflows in the constructor or in the loop. -/
def Overruns (maskSize : UInt32) (w : List Char) : Prop :=
  Range.new w = .error .overflow ∨
    ∃ range, Range.new w = .ok range ∧ range.Inside maskSize range.min ∧ range.RunsOver range.min

/-- What the words leave in a mask. -/
structure FilledAll (ws : List (List Char)) (mask mask' : List Bool) : Prop where
  length : mask'.length = mask.length
  bits : ∀ j : ℕ, mask'[j]? = some true ↔ mask[j]? = some true ∨ ∃ w ∈ ws, ∃ range, Range.new w = .ok range ∧
    j < mask.length ∧ (j : ℤ) < range.sup ∧ ∃ m : ℕ, (j : ℤ) = range.min + m * range.step

theorem FilledAll.cons {range : Range} {mask' mask'' : List Bool} (hnew : Range.new w = .ok range)
    (h : Filled range range.min mask mask') (h' : FilledAll ws mask' mask'') : FilledAll (w :: ws) mask mask'' := by
  refine ⟨h'.length.trans h.length, fun j => ?_⟩
  rw [h'.bits, h.bits, h.length, List.exists_mem_cons_iff, or_assoc]
  refine or_congr_right (or_congr_left ?_)
  simp only [hnew, Except.ok.injEq, exists_eq_left']

/-- A mask is filled from all its words, or some word after others that are taken
overflows or is refused. -/
theorem fillAll_cases (hne : ∀ w ∈ ws, w ≠ []) (hlength : mask.length = maskSize.toNat) :
    (∃ mask', fillAll maskSize ws mask = .ok mask' ∧ FilledAll ws mask mask' ∧ ∀ w ∈ ws, Takes maskSize w) ∨
      ∃ pre w post, ws = pre ++ w :: post ∧ (∀ u ∈ pre, Takes maskSize u) ∧ ¬ Takes maskSize w ∧
        ∃ e, fillAll maskSize ws mask = .error e ∧ e ≠ .endless ∧ (e = .overflow ↔ Overruns maskSize w) := by
  induction ws generalizing mask with
  | nil => exact .inl ⟨mask, rfl, ⟨rfl, fun j => by simp⟩, fun _ => nofun⟩
  | cons w ws ih =>
    have hw : ¬ w.length = 0 := mt List.length_eq_zero_iff.mp (hne w List.mem_cons_self)
    rw [fillAll, if_neg hw]
    cases hnew : Range.new w with
    | error e =>
      refine .inr ⟨[], w, ws, rfl, fun _ => nofun, ?_, e, rfl, ?_, ?_⟩
      · rintro ⟨range, hok, -⟩
        cases hnew.symm.trans hok
      · rintro rfl
        exact new_ne_endless hnew
      · constructor
        · rintro rfl
          exact .inl hnew
        · rintro (hover | ⟨range, hok, -⟩)
          · exact Except.error.inj (hnew.symm.trans hover)
          · cases hnew.symm.trans hok
    | ok range =>
      obtain ⟨hmin, hlt, hstep, hsup⟩ := new_range hnew
      have hone {P : Range → Prop} : (∃ range', Range.new w = .ok range' ∧ P range') ↔ P range := by
        simp only [hnew, Except.ok.injEq, exists_eq_left']
      rcases fillFrom_cases hstep hsup hlength (signed_le maskSize) (range.sup - range.min).toNat hmin (by omega) with
        ⟨mask', hfill, hfilled, htaken⟩ | ⟨hfill, hover⟩ | ⟨i, hfill, hout⟩
      · simp only [Range.fill, hfill]
        rcases ih (fun u hu => hne u (List.mem_cons_of_mem w hu)) (hfilled.length.trans hlength) with
          ⟨mask'', hrest, hfilled', hall⟩ | ⟨pre, u, post, hws, hpre, hu, hrest⟩
        · exact .inl ⟨mask'', hrest, hfilled'.cons hnew hfilled, List.forall_mem_cons.mpr ⟨hone.mpr htaken, hall⟩⟩
        · exact .inr ⟨w :: pre, u, post, by rw [hws]; rfl, List.forall_mem_cons.mpr ⟨hone.mpr htaken, hpre⟩, hu, hrest⟩
      · simp only [Range.fill, hfill]
        refine .inr ⟨[], w, ws, rfl, fun _ => nofun, fun htakes => ?_, _, rfl, nofun, fun _ => .inr (hone.mpr hover),
          fun _ => rfl⟩
        exact (hone.mp htakes).2 hover.2
      · simp only [Range.fill, hfill]
        refine .inr ⟨[], w, ws, rfl, fun _ => nofun, fun htakes => ?_, _, rfl, nofun, nofun, fun hover => ?_⟩
        · exact hout (hone.mp htakes).1
        · rcases hover with hover | hover
          · cases hnew.symm.trans hover
          · exact absurd (hone.mp hover).1 hout

theorem fillAll_filter (ws : List (List Char)) (mask : List Bool) :
    fillAll maskSize ws mask = fillAll maskSize (ws.filter (· ≠ [])) mask := by
  induction ws generalizing mask with
  | nil => rfl
  | cons w ws ih =>
    by_cases hw : w = []
    · subst hw
      rw [fillAll, if_pos List.length_nil, List.filter_cons_of_neg (by simp)]
      exact ih mask
    · have hlength : ¬ w.length = 0 := mt List.length_eq_zero_iff.mp hw
      rw [List.filter_cons_of_pos (by simpa using hw), fillAll, fillAll, if_neg hlength, if_neg hlength]
      split
      · rfl
      · split
        · rfl
        · exact ih _

end Words

section Results

variable {w str : List Char} {maskSize : UInt32} {it : Item} {range : Range}

/-- An item whose numbers, and whose indices with a step added, fit in 31 bits,
and whose indices are inside the mask. -/
structure Plain (maskSize : UInt32) (it : Item) : Prop where
  mask : maskSize.toNat < 2 ^ 31
  sup : it.sup < 2 ^ 31
  step : it.step < 2 ^ 31
  indices : ∀ j ∈ it.indices, j < maskSize.toNat ∧ j + it.step < 2 ^ 31

/-- The words up to the first one that is not taken, which is refused. -/
def Refuses (maskSize : UInt32) (str : List Char) : Prop :=
  ∃ pre w post, listWords str = pre ++ w :: post ∧ (∀ u ∈ pre, Takes maskSize u) ∧ ¬ Takes maskSize w ∧
    ¬ Overruns maskSize w

theorem item_pos (hitem : item w = some it) : it.min < it.sup ∧ 0 < it.step := by
  obtain ⟨ns, -, hcases⟩ := item_cases hitem
  omega

theorem mem_indices {j : ℕ} :
    j ∈ it.indices ↔ (j : ℤ) < it.sup ∧ ∃ m : ℕ, (j : ℤ) = it.min + m * it.step := by
  refine and_congr Nat.cast_lt.symm (exists_congr fun m => ?_)
  rw [← Nat.cast_mul, ← Nat.cast_add, Nat.cast_inj]

/-- An item is taken exactly if it is plain. -/
theorem takes_item (hitem : item w = some it) : Takes maskSize w ↔ Plain maskSize it := by
  obtain ⟨hlt, hstep⟩ := item_pos hitem
  have hsigned := signed_eq maskSize
  simp only [Takes, new_item hitem]
  constructor
  · rintro ⟨range, ⟨rfl, hsup, hstep'⟩, hinside, hover⟩
    have hfirst : (it.min : ℤ) < signed maskSize := by simpa using hinside 0 (by simpa using hlt)
    have hmask : maskSize.toNat < 2 ^ 31 := by
      have hsize := maskSize.toNat_lt
      split at hsigned <;> omega
    rw [if_pos hmask] at hsigned
    refine ⟨hmask, hsup, hstep', fun j hj => ?_⟩
    obtain ⟨hj, m, hm⟩ := mem_indices.mp hj
    have hin := hinside m (hm ▸ hj)
    have hnext := not_le.mp fun hle => hover ⟨m, hm ▸ hj, hle⟩
    dsimp only at hin hnext
    omega
  · rintro ⟨hmask, hsup, hstep', hall⟩
    rw [if_pos hmask] at hsigned
    have hindex : ∀ m : ℕ, (it.min : ℤ) + m * it.step < it.sup → (it.min + m * it.step) ∈ it.indices :=
      fun m hm => mem_indices.mpr ⟨by push_cast; exact hm, m, by push_cast; rfl⟩
    refine ⟨_, ⟨rfl, hsup, hstep'⟩, fun m hm => ?_, fun ⟨m, hm, hover⟩ => ?_⟩
    · obtain ⟨hin, -⟩ := hall _ (hindex m hm)
      dsimp only
      rw [hsigned]
      exact_mod_cast hin
    · obtain ⟨-, hnext⟩ := hall _ (hindex m hm)
      dsimp only at hover
      exact absurd hnext (not_lt.mpr (by exact_mod_cast hover))

theorem first_unique {α : Type} {P : α → Prop} {pre pre' post post' : List α} {x x' : α}
    (h : pre ++ x :: post = pre' ++ x' :: post') (hpre : ∀ u ∈ pre, P u) (hx : ¬ P x) (hpre' : ∀ u ∈ pre', P u)
    (hx' : ¬ P x') : x = x' := by
  induction pre generalizing pre' with
  | nil =>
    cases pre' with
    | nil => exact (List.cons.inj h).1
    | cons y pre' => exact absurd (hpre' y List.mem_cons_self) ((List.cons.inj h).1 ▸ hx)
  | cons y pre ih =>
    cases pre' with
    | nil => exact absurd (hpre y List.mem_cons_self) ((List.cons.inj h).1 ▸ hx')
    | cons z pre' =>
      exact ih (List.cons.inj h).2 (fun u hu => hpre u (List.mem_cons_of_mem y hu))
        fun u hu => hpre' u (List.mem_cons_of_mem z hu)

/-- What `ParseMask` does: it fills the mask, or overflows or refuses at some word. -/
theorem parseMask_cases (str : List Char) (maskSize : UInt32) :
    (∃ mask, ParseMask str maskSize = .ok mask ∧
        FilledAll (listWords str) (List.replicate maskSize.toNat false) mask ∧
        ∀ w ∈ listWords str, Takes maskSize w) ∨
      ∃ pre w post, listWords str = pre ++ w :: post ∧ (∀ u ∈ pre, Takes maskSize u) ∧ ¬ Takes maskSize w ∧
        ∃ e, ParseMask str maskSize = .error e ∧ e ≠ .endless ∧ (e = .overflow ↔ Overruns maskSize w) := by
  rw [ParseMask, fillAll_filter, tokenize_words]
  exact fillAll_cases (fun w hw => by simpa using (List.mem_filter.mp hw).2) List.length_replicate

/-- The mask of items holds the bits of their union. -/
theorem FilledAll.union {mask : List Bool} (h : FilledAll (listWords str) (List.replicate maskSize.toNat false) mask)
    (hitems : ∀ w ∈ listWords str, ∃ it, item w = some it) (htakes : ∀ w ∈ listWords str, Takes maskSize w) :
    mask.length = maskSize.toNat ∧ ∀ j < maskSize.toNat,
      mask[j]? = some true ↔ ∃ w ∈ listWords str, ∃ it, item w = some it ∧ j ∈ it.indices := by
  refine ⟨h.length.trans List.length_replicate, fun j hj => ?_⟩
  have hfalse : ¬ (List.replicate maskSize.toNat false)[j]? = some true := by
    rw [List.getElem?_replicate, if_pos hj]
    exact nofun
  rw [h.bits, or_iff_right hfalse, List.length_replicate]
  refine exists_congr fun w => and_congr_right fun hw => ?_
  obtain ⟨it, hitem⟩ := hitems w hw
  obtain ⟨-, hsup, hstep, -⟩ := (takes_item hitem).mp (htakes w hw)
  simp only [new_item hitem, hitem, Option.some.injEq, exists_eq_left', mem_indices]
  constructor
  · rintro ⟨range, ⟨rfl, -⟩, -, hindex⟩
    exact hindex
  · exact fun hindex => ⟨_, ⟨rfl, hsup, hstep⟩, hj, hindex⟩

/-- A mask is what its string is written for exactly if every word is an item that
fits, or the string is no range list and a word is refused. -/
theorem exact_iff (str : List Char) (maskSize : UInt32) : Exact str maskSize ↔
    (∀ w ∈ listWords str, ∃ it, item w = some it ∧ Plain maskSize it) ∨
      ¬ RangeList str maskSize.toNat ∧ Refuses maskSize str := by
  rcases parseMask_cases str maskSize with ⟨mask, hok, hfilled, htakes⟩ |
    ⟨pre, w, post, hwords, hpre, hnot, e, herror, hends, hover⟩
  · have hnoRefusal : ¬ Refuses maskSize str := by
      rintro ⟨pre, w, post, hwords, -, hnot, -⟩
      exact hnot (htakes w (hwords ▸ List.mem_append_right pre List.mem_cons_self))
    rw [or_iff_left fun h => hnoRefusal h.2]
    constructor
    · intro h w hw
      obtain ⟨it, hitem, -⟩ := h.accepts.mp ⟨mask, hok⟩ w hw
      exact ⟨it, hitem, (takes_item hitem).mp (htakes w hw)⟩
    · intro h
      refine ⟨⟨fun _ w hw => ?_, fun _ => ⟨mask, hok⟩⟩, fun mask' hok' => ?_, ?_, ?_⟩
      · obtain ⟨it, hitem, hplain⟩ := h w hw
        exact ⟨it, hitem, fun j hj => (hplain.indices j hj).1⟩
      · cases hok.symm.trans hok'
        exact hfilled.union (fun w hw => (h w hw).imp fun it => And.left) htakes
      · rw [hok]
        exact nofun
      · rw [hok]
        exact nofun
  · have hnone : ∀ mask, ParseMask str maskSize ≠ .ok mask := by
      rw [herror]
      exact fun _ => nofun
    constructor
    · intro h
      refine .inr ⟨fun hlist => ?_, pre, w, post, hwords, hpre, hnot, fun hoverruns => ?_⟩
      · obtain ⟨mask, hok⟩ := h.accepts.mpr hlist
        exact hnone mask hok
      · exact h.noOverflow (herror.trans (congrArg Except.error (hover.mpr hoverruns)))
    · rintro (hplain | ⟨hlist, pre', w', post', hwords', hpre', hnot', hrefused⟩)
      · obtain ⟨it, hitem, hplain⟩ := hplain w (hwords ▸ List.mem_append_right pre List.mem_cons_self)
        exact absurd ((takes_item hitem).mpr hplain) hnot
      · have hsame := first_unique (hwords.symm.trans hwords') hpre hnot hpre' hnot'
        refine ⟨⟨fun ⟨mask, hok⟩ => absurd hok (hnone mask), fun h => absurd h hlist⟩,
          fun mask hok => absurd hok (hnone mask), fun hoverflow => ?_, fun hendless => ?_⟩
        · exact hrefused (hsame ▸ hover.mp (Except.error.inj (herror.symm.trans hoverflow)))
        · exact hends (Except.error.inj (herror.symm.trans hendless))

/-- A number with letters behind it is read as the number. -/
theorem trailing_letters : ¬ Exact ['5', 'a', 'b', 'c'] 8 := by
  intro h
  obtain ⟨it, hitem, -⟩ := h.accepts.mp ⟨_, rfl⟩ ['5', 'a', 'b', 'c'] (by decide)
  have hnone : item ['5', 'a', 'b', 'c'] = none := by decide
  cases hnone.symm.trans hitem

end Results

end Zsim.RangeMasks
