import Mathlib.Tactic.Ring
import Zsim.MemDataBus
import Zsim.MixedRadix

/-!
# What the detailed memory keeps of an address

The fields of a line address lie one above the other, in one of nine orders, and the row is what
is left above them. The row and the column are kept in 32 bits. Addresses that differ only in
what is cut off are taken for the same line, and their rows for the same row.
-/

namespace Zsim.MemAddressFields

open DetailedMemParams MemAddressMap MixedRadix

/-- The fields below the row. -/
inductive Part where
  | colLow
  | chnl
  | colHigh
  | rank
  | bank
  deriving DecidableEq

/-- The nine orders, the lowest field first. -/
def layout : ℕ → List Part
  | 0 => [.colLow, .chnl, .rank, .bank, .colHigh]
  | 1 => [.colLow, .chnl, .bank, .rank, .colHigh]
  | 2 => [.colLow, .chnl, .rank, .colHigh, .bank]
  | 3 => [.colLow, .chnl, .bank, .colHigh, .rank]
  | 4 => [.colLow, .chnl, .colHigh, .rank, .bank]
  | 5 => [.colLow, .chnl, .colHigh, .bank, .rank]
  | 6 => [.colLow, .colHigh, .chnl, .bank, .rank]
  | 7 => [.colLow, .colHigh, .bank, .chnl, .rank]
  | 8 => [.colLow, .colHigh, .bank, .rank, .chnl]
  | _ => []

/-- The fields below another one. -/
def below (type : ℕ) (part : Part) : List Part := (layout type).takeWhile (· ≠ part)

variable (p : MemParam)

/-- The number of values of each field; a shift uses the low six bits of its width. -/
def sizeOf : Part → ℕ
  | .colLow => 2 ^ (colLowWidth p).toNat
  | .chnl => p.channelCount.toNat
  | .colHigh => 2 ^ ((colHighWidth p).toNat % 64)
  | .rank => 2 ^ p.rankWidth.toNat
  | .bank => 2 ^ p.bankWidth.toNat

/-- The number of lines with the same row. -/
def linesPerRow : ℕ := weight (sizeOf p) (layout p.interleaveType)

/-- The bits of a column. -/
def colBits : ℕ := (colLowWidth p).toNat + (colHighWidth p).toNat % 64

/-- What lies between the two parts of the column. -/
def colGap : ℕ := weight (sizeOf p) (below p.interleaveType .colHigh).tail

/-- What `LoadConfigMain` makes sure of: the widths are logarithms of 32-bit counts. -/
structure Widths : Prop extends p.Loaded where
  byteOffsetWidth : ∃ cacheLineSize, p.byteOffsetWidth = ilog2 cacheLineSize
  interleaveType : p.interleaveType ≤ 8
  channelCount : 1 ≤ p.channelCount
  colAddrWidth : colLowWidth p ≤ p.colAddrWidth

/-- No two addresses are taken for the same line, nor two rows for the same row, and the ranks and banks exist. -/
structure Lossless : Prop where
  lines : Function.Injective (AddressMap p)
  rows : ∀ x y, (AddressMap p x).row = (AddressMap p y).row → x.toNat / linesPerRow p = y.toNat / linesPerRow p
  ranks : ∀ x, (AddressMap p x).rank < p.rankCount
  banks : ∀ x, (AddressMap p x).bank < p.bankCount

/-- The column fits in 32 bits and the rows do, or the columns of all addresses fit in them. -/
structure Fits : Prop where
  banks : p.bankCount ≠ 0
  words : if colBits p ≤ 32 then 2 ^ 32 ≤ linesPerRow p else 2 ^ 32 ≤ colGap p

section Decoding

/-- Shift out a field. -/
def take (addr : UInt64) : Part → UInt64
  | .colLow => if p.channelDataWidthLog < p.byteOffsetWidth then strip addr (colLowWidth p) else addr
  | .chnl => stripChannel p addr
  | .colHigh => strip addr (colHighWidth p)
  | .rank => strip addr p.rankWidth
  | .bank => strip addr p.bankWidth

/-- What is left above some fields. -/
def above (addr : UInt64) (fs : List Part) : UInt64 := fs.foldl (take p) addr

/-- What is left above the fields below another one. -/
def rest (addr : UInt64) (part : Part) : UInt64 := above p addr (below p.interleaveType part)

variable {p}

/-- The nine cases of the decoder. -/
theorem addressMap_eq (h : p.interleaveType ≤ 8) (addr : UInt64) : AddressMap p addr =
    ⟨(above p addr (layout p.interleaveType)).toUInt32,
      (lowBits (rest p addr .colHigh) (colHighWidth p) <<< colLowWidth p) |||
        (if p.channelDataWidthLog < p.byteOffsetWidth then lowBits addr (colLowWidth p) else 0),
      lowBits (rest p addr .rank) p.rankWidth, lowBits (rest p addr .bank) p.bankWidth,
      channelOf p (rest p addr .chnl)⟩ := by
  unfold rest AddressMap
  generalize p.interleaveType = type at h ⊢
  rcases type with _ | _ | _ | _ | _ | _ | _ | _ | _ | type
  all_goals first | rfl | omega

/-- The digits of an address, in the order of the fields. -/
def digitOf (p : MemParam) (addr : UInt64) (part : Part) : ℕ :=
  digit addr.toNat (weight (sizeOf p) (below p.interleaveType part)) (sizeOf p part)

theorem toNat_strip (addr : UInt64) (width : UInt32) :
    (strip addr width).toNat = addr.toNat / 2 ^ (width.toNat % 64) := by
  unfold strip
  rw [UInt64.toNat_shiftRight, UInt32.toNat_toUInt64, Nat.shiftRight_eq_div_pow]

variable {addr : UInt64} (h : Widths p)
include h

theorem Widths.rank_lt : p.rankWidth.toNat < 32 := by
  rw [h.rankWidth]
  exact ilog2_lt _

theorem Widths.bank_lt : p.bankWidth.toNat < 32 := by
  rw [h.bankWidth]
  exact ilog2_lt _

theorem Widths.colLow_lt : (colLowWidth p).toNat < 32 := by
  obtain ⟨cacheLineSize, hline⟩ := h.byteOffsetWidth
  have hlt := ilog2_lt cacheLineSize
  rw [← hline] at hlt
  unfold colLowWidth
  split
  · next hwidth =>
    have hle := Nat.le_of_lt (UInt32.lt_iff_toNat_lt.mp hwidth)
    rw [UInt32.toNat_sub_of_le _ _ (UInt32.le_iff_toNat_le.mpr hle)]
    omega
  · decide

theorem Widths.sizeOf_pos (part : Part) : 0 < sizeOf p part := by
  cases part with
  | chnl => exact UInt32.le_iff_toNat_le.mp h.channelCount
  | _ => exact Nat.two_pow_pos _

/-- Shifting out a field divides by its size. -/
theorem toNat_take (part : Part) : (take p addr part).toNat = addr.toNat / sizeOf p part := by
  cases part with
  | colLow =>
    change (if p.channelDataWidthLog < p.byteOffsetWidth then strip addr (colLowWidth p) else addr).toNat =
      addr.toNat / 2 ^ (colLowWidth p).toNat
    split
    · rw [toNat_strip, Nat.mod_eq_of_lt (h.colLow_lt.trans (by decide))]
    · next hwidth =>
      have hzero : colLowWidth p = 0 := if_neg hwidth
      rw [hzero]
      exact (Nat.div_one _).symm
  | chnl =>
    change (stripChannel p addr).toNat = addr.toNat / p.channelCount.toNat
    unfold stripChannel
    rw [UInt64.toNat_div, UInt32.toNat_toUInt64]
  | colHigh => exact toNat_strip ..
  | rank =>
    change (strip addr p.rankWidth).toNat = addr.toNat / 2 ^ p.rankWidth.toNat
    rw [toNat_strip, Nat.mod_eq_of_lt (h.rank_lt.trans (by decide))]
  | bank =>
    change (strip addr p.bankWidth).toNat = addr.toNat / 2 ^ p.bankWidth.toNat
    rw [toNat_strip, Nat.mod_eq_of_lt (h.bank_lt.trans (by decide))]

theorem toNat_above (fs : List Part) : (above p addr fs).toNat = addr.toNat / weight (sizeOf p) fs := by
  induction fs generalizing addr with
  | nil => exact (Nat.div_one _).symm
  | cons f fs ih =>
    change (above p (take p addr f) fs).toNat = _
    rw [ih, toNat_take h, Nat.div_div_eq_div_mul, weight_cons]

/-- The rank, the bank and the channel are digits of the address. -/
theorem toNat_rank : (AddressMap p addr).rank.toNat = digitOf p addr .rank := by
  rw [addressMap_eq h.interleaveType]
  dsimp only [rest]
  rw [toNat_lowBits, toNat_above h, Nat.mod_eq_of_lt (h.rank_lt.trans (by decide))]
  have hpow : 2 ^ p.rankWidth.toNat < 2 ^ 32 := Nat.pow_lt_pow_right (by decide) h.rank_lt
  exact Nat.mod_eq_of_lt ((Nat.mod_lt _ (Nat.two_pow_pos _)).trans hpow)

theorem toNat_bank : (AddressMap p addr).bank.toNat = digitOf p addr .bank := by
  rw [addressMap_eq h.interleaveType]
  dsimp only [rest]
  rw [toNat_lowBits, toNat_above h, Nat.mod_eq_of_lt (h.bank_lt.trans (by decide))]
  have hpow : 2 ^ p.bankWidth.toNat < 2 ^ 32 := Nat.pow_lt_pow_right (by decide) h.bank_lt
  exact Nat.mod_eq_of_lt ((Nat.mod_lt _ (Nat.two_pow_pos _)).trans hpow)

theorem toNat_chnl : (AddressMap p addr).chnl.toNat = digitOf p addr .chnl := by
  rw [addressMap_eq h.interleaveType]
  dsimp only [rest, channelOf]
  rw [UInt64.toNat_toUInt32, UInt64.toNat_mod, UInt32.toNat_toUInt64, toNat_above h]
  exact Nat.mod_eq_of_lt ((Nat.mod_lt _ (h.sizeOf_pos .chnl)).trans p.channelCount.toNat_lt)

/-- Of the row 32 bits are kept. -/
theorem toNat_row : (AddressMap p addr).row.toNat = addr.toNat / linesPerRow p % 2 ^ 32 := by
  rw [addressMap_eq h.interleaveType]
  dsimp only
  rw [UInt64.toNat_toUInt32, toNat_above h]
  rfl

theorem toNat_colLow : (if p.channelDataWidthLog < p.byteOffsetWidth then lowBits addr (colLowWidth p) else 0).toNat =
    addr.toNat % 2 ^ (colLowWidth p).toNat := by
  have hpow : 2 ^ (colLowWidth p).toNat < 2 ^ 32 := Nat.pow_lt_pow_right (by decide) h.colLow_lt
  split
  · rw [toNat_lowBits, Nat.mod_eq_of_lt (h.colLow_lt.trans (by decide))]
    exact Nat.mod_eq_of_lt ((Nat.mod_lt _ (Nat.two_pow_pos _)).trans hpow)
  · next hwidth =>
    have hzero : colLowWidth p = 0 := if_neg hwidth
    rw [hzero]
    exact (Nat.mod_one _).symm

/-- Of the high part of the column, what fits in 32 bits is kept. -/
theorem toNat_col : (AddressMap p addr).col.toNat =
    digitOf p addr .colHigh % 2 ^ (32 - (colLowWidth p).toNat) * 2 ^ (colLowWidth p).toNat +
      addr.toNat % 2 ^ (colLowWidth p).toNat := by
  rw [addressMap_eq h.interleaveType]
  dsimp only [rest]
  have hlow := h.colLow_lt
  have hcut : 2 ^ 32 = 2 ^ (32 - (colLowWidth p).toNat) * 2 ^ (colLowWidth p).toNat := by
    rw [← Nat.pow_add]
    congr 1
    omega
  have hdvd : 2 ^ (32 - (colLowWidth p).toNat) ∣ 2 ^ 32 := Dvd.intro _ hcut.symm
  rw [UInt32.toNat_or, toNat_colLow h, UInt32.toNat_shiftLeft, toNat_lowBits, toNat_above h, Nat.mod_eq_of_lt hlow,
    Nat.shiftLeft_eq, hcut, Nat.mul_mod_mul_right, ← hcut, Nat.mod_mod_of_dvd _ hdvd]
  have hor := Nat.shiftLeft_add_eq_or_of_lt (Nat.mod_lt addr.toNat (Nat.two_pow_pos (colLowWidth p).toNat))
    (digitOf p addr .colHigh % 2 ^ (32 - (colLowWidth p).toNat))
  rw [Nat.shiftLeft_eq] at hor
  exact hor.symm

end Decoding

section Layouts

variable {p : MemParam} {type row : ℕ} {part : Part} {pre post : List Part} {val : Part → ℕ} {x y : UInt64}

theorem nodup_layout (htype : type ≤ 8) : (layout type).Nodup := by
  rcases type with _ | _ | _ | _ | _ | _ | _ | _ | _ | type
  all_goals first | decide | omega

theorem mem_layout (htype : type ≤ 8) (part : Part) : part ∈ layout type := by
  rcases type with _ | _ | _ | _ | _ | _ | _ | _ | _ | type
  all_goals first | (cases part <;> decide) | omega

theorem below_eq (htype : type ≤ 8) (hsplit : layout type = pre ++ part :: post) : below type part = pre := by
  have hnodup := nodup_layout htype
  unfold below
  rw [hsplit] at hnodup ⊢
  have hne : ∀ f ∈ pre, decide (f ≠ part) = true := fun f hf =>
    decide_eq_true fun heq => (List.nodup_append.mp hnodup).2.2 f hf part List.mem_cons_self heq
  rw [List.takeWhile_append_of_pos hne, List.takeWhile_cons_of_neg (by simp), List.append_nil]

/-- The low part of the column is lowest. -/
theorem below_colHigh (htype : type ≤ 8) : below type .colLow = [] ∧
    ∃ post, layout type = below type .colHigh ++ .colHigh :: post ∧
      below type .colHigh = .colLow :: (below type .colHigh).tail := by
  rcases type with _ | _ | _ | _ | _ | _ | _ | _ | _ | type
  all_goals first | exact ⟨rfl, _, rfl, rfl⟩ | omega

theorem location_ext {a b : Location} (hrow : a.row.toNat = b.row.toNat) (hcol : a.col.toNat = b.col.toNat)
    (hrank : a.rank.toNat = b.rank.toNat) (hbank : a.bank.toNat = b.bank.toNat) (hchnl : a.chnl.toNat = b.chnl.toNat) :
    a = b := by
  cases a
  cases b
  congr 1
  all_goals exact UInt32.toNat_inj.mp ‹_›

variable (h : Widths p)
include h

/-- An address is known by its digits and its row. -/
theorem digits_inj (hdigits : ∀ part, digitOf p x part = digitOf p y part)
    (hrow : x.toNat / linesPerRow p = y.toNat / linesPerRow p) : x = y := by
  have hcompose : ∀ z : UInt64, compose (sizeOf p) (digitOf p z) (z.toNat / linesPerRow p) (layout p.interleaveType) =
      z.toNat := by
    intro z
    refine compose_digits fun pre f post hsplit => ?_
    unfold digitOf
    rw [below_eq h.interleaveType hsplit]
  refine UInt64.toNat_inj.mp ?_
  rw [← hcompose x, ← hcompose y, hrow, funext hdigits]

/-- Digits and a row that fit in a word are those of an address. -/
theorem exists_digits (hval : ∀ part, val part < sizeOf p part)
    (hfits : compose (sizeOf p) val row (layout p.interleaveType) < 2 ^ 64) :
    ∃ x : UInt64, x.toNat = compose (sizeOf p) val row (layout p.interleaveType) ∧
      (∀ part, digitOf p x part = val part) ∧ x.toNat / linesPerRow p = row := by
  have hword : (UInt64.ofNat (compose (sizeOf p) val row (layout p.interleaveType))).toNat =
      compose (sizeOf p) val row (layout p.interleaveType) := by
    rw [UInt64.toNat_ofNat']
    exact Nat.mod_eq_of_lt hfits
  refine ⟨_, hword, fun part => ?_, ?_⟩
  · obtain ⟨pre, post, hsplit⟩ := List.append_of_mem (mem_layout h.interleaveType part)
    unfold digitOf
    rw [hword, below_eq h.interleaveType hsplit, hsplit]
    exact digit_compose fun g _ => hval g
  · rw [hword]
    exact compose_div fun g _ => hval g

/-- The column keeps its low part. -/
theorem digitOf_colLow : digitOf p x .colLow = x.toNat % 2 ^ (colLowWidth p).toNat := by
  unfold digitOf
  rw [(below_colHigh h.interleaveType).1]
  exact digit_lowest ..

/-- Addresses are taken for the same line when all that is kept of their digits and rows is the same. -/
theorem addressMap_eq_iff : AddressMap p x = AddressMap p y ↔ (∀ part ≠ .colHigh, digitOf p x part = digitOf p y part) ∧
    digitOf p x .colHigh % 2 ^ (32 - (colLowWidth p).toNat) = digitOf p y .colHigh % 2 ^ (32 - (colLowWidth p).toNat) ∧
    x.toNat / linesPerRow p % 2 ^ 32 = y.toNat / linesPerRow p % 2 ^ 32 := by
  have hpow := Nat.two_pow_pos (colLowWidth p).toNat
  constructor
  · intro heq
    have hrow := @toNat_row p x h
    have hcol := @toNat_col p x h
    have hrank := @toNat_rank p x h
    have hbank := @toNat_bank p x h
    have hchnl := @toNat_chnl p x h
    rw [heq] at hrow hcol hrank hbank hchnl
    rw [toNat_row h] at hrow
    rw [toNat_col h] at hcol
    rw [toNat_rank h] at hrank
    rw [toNat_bank h] at hbank
    rw [toNat_chnl h] at hchnl
    have hlow := congrArg (· % 2 ^ (colLowWidth p).toNat) hcol
    have hhigh := congrArg (· / 2 ^ (colLowWidth p).toNat) hcol
    rw [Nat.mul_add_mod_self_right, Nat.mul_add_mod_self_right, Nat.mod_mod, Nat.mod_mod] at hlow
    rw [Nat.add_comm, Nat.add_mul_div_right _ _ hpow, Nat.add_comm, Nat.add_comm (_ * _),
      Nat.add_mul_div_right _ _ hpow, Nat.div_eq_of_lt (Nat.mod_lt _ hpow),
      Nat.div_eq_of_lt (Nat.mod_lt _ hpow)] at hhigh
    refine ⟨fun part hpart => ?_, ?_, hrow.symm⟩
    · cases part with
      | colHigh => exact (hpart rfl).elim
      | colLow => rw [digitOf_colLow h, digitOf_colLow h, hlow]
      | rank => exact hrank.symm
      | bank => exact hbank.symm
      | chnl => exact hchnl.symm
    · omega
  · intro ⟨hdigits, hhigh, hrow⟩
    have hlow := hdigits .colLow nofun
    rw [digitOf_colLow h, digitOf_colLow h] at hlow
    refine location_ext ?_ ?_ ?_ ?_ ?_
    · rw [toNat_row h, toNat_row h, hrow]
    · rw [toNat_col h, toNat_col h, hhigh, hlow]
    · rw [toNat_rank h, toNat_rank h]
      exact hdigits .rank nofun
    · rw [toNat_bank h, toNat_bank h]
      exact hdigits .bank nofun
    · rw [toNat_chnl h, toNat_chnl h]
      exact hdigits .chnl nofun

end Layouts

section Loss

variable {p : MemParam} (h : Widths p)
include h

theorem linesPerRow_eq : ∃ post, layout p.interleaveType = below p.interleaveType .colHigh ++ .colHigh :: post ∧
    weight (sizeOf p) (below p.interleaveType .colHigh) = 2 ^ (colLowWidth p).toNat * colGap p ∧
    linesPerRow p = weight (sizeOf p) (below p.interleaveType .colHigh) * (sizeOf p .colHigh * weight (sizeOf p) post) := by
  obtain ⟨-, post, hsplit, hlow⟩ := below_colHigh h.interleaveType
  refine ⟨post, hsplit, ?_, ?_⟩
  · rw [hlow, weight_cons]
    rfl
  · unfold linesPerRow
    rw [hsplit, weight_append, weight_cons]

theorem linesPerRow_pos : 0 < linesPerRow p := weight_pos h.sizeOf_pos

theorem pow_cut : 2 ^ (32 - (colLowWidth p).toNat) * 2 ^ (colLowWidth p).toNat = 2 ^ 32 := by
  have hlow := h.colLow_lt
  rw [← Nat.pow_add]
  congr 1
  omega

/-- When they fit, rows and columns keep all there is. -/
theorem kept_of_fits (hfits : Fits p) (x : UInt64) : x.toNat / linesPerRow p < 2 ^ 32 ∧
    digitOf p x .colHigh < 2 ^ (32 - (colLowWidth p).toNat) := by
  have hlow := h.colLow_lt
  have hx := x.toNat_lt
  have hwords := hfits.words
  obtain ⟨post, hsplit, hbelow, hlines⟩ := linesPerRow_eq h
  split at hwords
  · next hcol =>
    constructor
    · refine Nat.div_lt_of_lt_mul (hx.trans_le ?_)
      exact Nat.mul_le_mul_right (2 ^ 32) hwords
    · refine (Nat.mod_lt _ (h.sizeOf_pos .colHigh)).trans_le (Nat.pow_le_pow_right Nat.two_pos ?_)
      unfold colBits at hcol
      omega
  · have hcut : 2 ^ 64 ≤ weight (sizeOf p) (below p.interleaveType .colHigh) * 2 ^ (32 - (colLowWidth p).toNat) := by
      calc 2 ^ 64 = 2 ^ 32 * 2 ^ 32 := rfl
        _ ≤ 2 ^ 32 * colGap p := Nat.mul_le_mul_left _ hwords
        _ = _ := by rw [hbelow, ← pow_cut h]; ring
    have hle : 2 ^ 32 ≤ linesPerRow p := by
      rw [hlines, hbelow]
      calc 2 ^ 32 ≤ colGap p := hwords
        _ ≤ 2 ^ (colLowWidth p).toNat * colGap p := Nat.le_mul_of_pos_left _ (Nat.two_pow_pos _)
        _ ≤ _ := Nat.le_mul_of_pos_right _ (Nat.mul_pos (h.sizeOf_pos .colHigh) (weight_pos h.sizeOf_pos))
    constructor
    · exact Nat.div_lt_of_lt_mul (hx.trans_le (Nat.mul_le_mul_right (2 ^ 32) hle))
    · exact (Nat.mod_le ..).trans_lt (Nat.div_lt_of_lt_mul (hx.trans_le hcut))

theorem lossless_of_fits (hfits : Fits p) : Lossless p where
  lines := by
    intro x y heq
    obtain ⟨hdigits, hhigh, hrow⟩ := (addressMap_eq_iff h).mp heq
    rw [Nat.mod_eq_of_lt (kept_of_fits h hfits x).1, Nat.mod_eq_of_lt (kept_of_fits h hfits y).1] at hrow
    rw [Nat.mod_eq_of_lt (kept_of_fits h hfits x).2, Nat.mod_eq_of_lt (kept_of_fits h hfits y).2] at hhigh
    refine digits_inj h (fun part => ?_) hrow
    by_cases hpart : part = .colHigh
    · rw [hpart, hhigh]
    · exact hdigits part hpart
  rows := by
    intro x y heq
    have hrow := congrArg UInt32.toNat heq
    rw [toNat_row h, toNat_row h, Nat.mod_eq_of_lt (kept_of_fits h hfits x).1,
      Nat.mod_eq_of_lt (kept_of_fits h hfits y).1] at hrow
    exact hrow
  ranks := fun x => UInt32.lt_iff_toNat_lt.mpr (addressMap_rank_lt h.toLoaded x)
  banks := fun x => UInt32.lt_iff_toNat_lt.mpr (addressMap_bank_lt h.toLoaded hfits.banks x)

/-- Digits that are cut off make an address that is taken for address zero. -/
theorem not_injective {val : Part → ℕ} {row : ℕ} (hval : ∀ part, val part < sizeOf p part)
    (hzero : ∀ part ≠ .colHigh, val part = 0) (hhigh : val .colHigh % 2 ^ (32 - (colLowWidth p).toNat) = 0)
    (hrow : row % 2 ^ 32 = 0) (hpos : 0 < compose (sizeOf p) val row (layout p.interleaveType))
    (hfits : compose (sizeOf p) val row (layout p.interleaveType) < 2 ^ 64) :
    ¬Function.Injective (AddressMap p) := by
  intro hinj
  obtain ⟨x, hx, hdigits, hrest⟩ := exists_digits h hval hfits
  have hnone : ∀ part, digitOf p 0 part = 0 := fun part => by
    unfold digitOf digit
    rw [UInt64.toNat_zero, Nat.zero_div, Nat.zero_mod]
  have heq : AddressMap p x = AddressMap p 0 := by
    refine (addressMap_eq_iff h).mpr ⟨fun part hpart => ?_, ?_, ?_⟩
    · rw [hdigits, hzero part hpart, hnone]
    · rw [hdigits, hhigh, hnone, Nat.zero_mod]
    · rw [hrest, hrow, UInt64.toNat_zero, Nat.zero_div, Nat.zero_mod]
  rw [← hx, hinj heq] at hpos
  exact Nat.lt_irrefl 0 hpos

/-- The lowest bit of the column that is cut off. -/
theorem not_injective_of_col (hcol : 32 < colBits p) (hgap : colGap p < 2 ^ 32) :
    ¬Function.Injective (AddressMap p) := by
  have hlow := h.colLow_lt
  obtain ⟨post, hsplit, hbelow, -⟩ := linesPerRow_eq h
  have hnodup := nodup_layout h.interleaveType
  rw [hsplit] at hnodup
  have hnot : ∀ g ∈ below p.interleaveType .colHigh, g ≠ .colHigh := fun g hg =>
    (List.nodup_append.mp hnodup).2.2 g hg .colHigh List.mem_cons_self
  have hpost : ∀ g ∈ post, g ≠ .colHigh := fun g hg heq =>
    (List.nodup_cons.mp (List.nodup_append.mp hnodup).2.1).1 (heq ▸ hg)
  let val : Part → ℕ := fun part => if part = .colHigh then 2 ^ (32 - (colLowWidth p).toNat) else 0
  have hother : ∀ part ≠ .colHigh, val part = 0 := fun part hpart => if_neg hpart
  have hval : ∀ part, val part < sizeOf p part := by
    intro part
    by_cases hpart : part = .colHigh
    · rw [hpart]
      refine Nat.pow_lt_pow_right Nat.one_lt_two ?_
      unfold colBits at hcol
      omega
    · rw [hother part hpart]
      exact h.sizeOf_pos part
  have hcompose : compose (sizeOf p) val 0 (layout p.interleaveType) = 2 ^ 32 * colGap p := by
    rw [hsplit, compose_append, compose_zero fun g hg => hother g (hnot g hg), compose,
      compose_zero fun g hg => hother g (hpost g hg), Nat.mul_zero, Nat.mul_zero, Nat.add_zero, hbelow]
    change 2 ^ (colLowWidth p).toNat * colGap p * 2 ^ (32 - (colLowWidth p).toNat) = _
    rw [← pow_cut h]
    ring
  have hpos : 0 < colGap p := weight_pos h.sizeOf_pos
  refine not_injective h hval hother (Nat.mod_self _) (Nat.zero_mod _) ?_ ?_
  · rw [hcompose]
    exact Nat.mul_pos (Nat.two_pow_pos 32) hpos
  · rw [hcompose]
    calc 2 ^ 32 * colGap p < 2 ^ 32 * 2 ^ 32 := Nat.mul_lt_mul_of_pos_left hgap (Nat.two_pow_pos 32)
      _ = 2 ^ 64 := rfl

theorem fits_of_lossless (hlossless : Lossless p) : Fits p where
  banks := by
    intro hzero
    have hbank := hlossless.banks 0
    rw [hzero] at hbank
    exact UInt32.not_lt_zero hbank
  words := by
    by_contra hwords
    refine absurd hlossless.lines ?_
    split at hwords
    · -- a row that does not fit
      have hcompose : compose (sizeOf p) (fun _ => 0) (2 ^ 32) (layout p.interleaveType) = linesPerRow p * 2 ^ 32 :=
        compose_zero fun _ _ => rfl
      refine not_injective h h.sizeOf_pos (fun _ _ => rfl) (Nat.zero_mod _) (Nat.mod_self _) ?_ ?_
      · rw [hcompose]
        exact Nat.mul_pos (linesPerRow_pos h) (Nat.two_pow_pos 32)
      · rw [hcompose]
        calc linesPerRow p * 2 ^ 32 < 2 ^ 32 * 2 ^ 32 :=
              Nat.mul_lt_mul_of_pos_right (Nat.lt_of_not_le hwords) (Nat.two_pow_pos 32)
          _ = 2 ^ 64 := rfl
    · -- a column that does not fit
      next hcol =>
      exact not_injective_of_col h (Nat.lt_of_not_le hcol) (Nat.lt_of_not_le hwords)

/-- The address mapping loses nothing exactly when what it keeps in 32 bits fits in them. -/
theorem lossless_iff : Lossless p ↔ Fits p := ⟨fits_of_lossless h, lossless_of_fits h⟩

end Loss

open MemDataBus in
theorem twoRanks_widths : Widths twoRanks where
  toLoaded := twoRanks_loaded
  byteOffsetWidth := ⟨64, by decide +kernel⟩
  interleaveType := by decide
  channelCount := by decide
  colAddrWidth := by decide

theorem lossless_iff_twoRanks : Lossless MemDataBus.twoRanks ↔ Fits MemDataBus.twoRanks :=
  lossless_iff twoRanks_widths

/-- The first line of process 1 is taken for the first line of process 0. -/
theorem process_lost : AddressMap MemDataBus.twoRanks ((1 : UInt64) <<< 58) = AddressMap MemDataBus.twoRanks 0 ∧
    ¬Lossless MemDataBus.twoRanks := by
  have heq : AddressMap MemDataBus.twoRanks ((1 : UInt64) <<< 58) = AddressMap MemDataBus.twoRanks 0 := by
    apply location_ext <;> decide +kernel
  constructor
  · exact heq
  · intro h
    exact absurd (h.lines heq) (by decide)

end Zsim.MemAddressFields
