import Mathlib.Algebra.Order.Ring.Int
import Zsim.DetailedMemParams

/-!
# The address decoders of the detailed memory model

`AddressMap` takes a line address apart into channel, rank, bank, row and
column, and `ReturnChannel` computes the channel alone. Addresses are 64-bit
words; a shift uses the low six bits of its width, as the machine does.
-/

namespace Zsim.MemAddressMap

open DetailedMemParams

/-- What `AddressMap` computes. -/
structure Location where
  row : UInt32
  col : UInt32
  rank : UInt32
  bank : UInt32
  chnl : UInt32

/-- `addr & ((1L << width) - 1)`, stored in 32 bits. -/
def lowBits (addr : UInt64) (width : UInt32) : UInt32 :=
  (addr &&& ((1 <<< width.toUInt64) - 1)).toUInt32

/-- `addr >>= width`. -/
def strip (addr : UInt64) (width : UInt32) : UInt64 := addr >>> width.toUInt64

variable (p : MemParam)

/-- `addr % mParam->channelCount`. -/
def channelOf (addr : UInt64) : UInt32 := (addr % p.channelCount.toUInt64).toUInt32

/-- `addr /= mParam->channelCount`. -/
def stripChannel (addr : UInt64) : UInt64 := addr / p.channelCount.toUInt64

/-- The column bits below the channel. -/
def colLowWidth : UInt32 :=
  if p.channelDataWidthLog < p.byteOffsetWidth then p.byteOffsetWidth - p.channelDataWidthLog else 0

def colHighWidth : UInt32 := p.colAddrWidth - colLowWidth p

/-- `AddressMap` before its assertion. -/
def AddressMap (addr : UInt64) : Location :=
  let colLow := if p.channelDataWidthLog < p.byteOffsetWidth then lowBits addr (colLowWidth p) else 0
  let addr := if p.channelDataWidthLog < p.byteOffsetWidth then strip addr (colLowWidth p) else addr
  let chnl := if p.interleaveType ≤ 5 then channelOf p addr else 0xFFFFFFFF
  let addr := if p.interleaveType ≤ 5 then stripChannel p addr else addr
  let colOf (addr : UInt64) : UInt32 := (lowBits addr (colHighWidth p) <<< colLowWidth p) ||| colLow
  let col := colOf addr
  let addr := if 4 ≤ p.interleaveType then strip addr (colHighWidth p) else addr
  match p.interleaveType with
  | 0 =>
    let rank := lowBits addr p.rankWidth
    let addr := strip addr p.rankWidth
    let bank := lowBits addr p.bankWidth
    let addr := strip addr p.bankWidth
    let col := colOf addr
    let addr := strip addr (colHighWidth p)
    ⟨addr.toUInt32, col, rank, bank, chnl⟩
  | 1 =>
    let bank := lowBits addr p.bankWidth
    let addr := strip addr p.bankWidth
    let rank := lowBits addr p.rankWidth
    let addr := strip addr p.rankWidth
    let col := colOf addr
    let addr := strip addr (colHighWidth p)
    ⟨addr.toUInt32, col, rank, bank, chnl⟩
  | 2 =>
    let rank := lowBits addr p.rankWidth
    let addr := strip addr p.rankWidth
    let col := colOf addr
    let addr := strip addr (colHighWidth p)
    let bank := lowBits addr p.bankWidth
    let addr := strip addr p.bankWidth
    ⟨addr.toUInt32, col, rank, bank, chnl⟩
  | 3 =>
    let bank := lowBits addr p.bankWidth
    let addr := strip addr p.bankWidth
    let col := colOf addr
    let addr := strip addr (colHighWidth p)
    let rank := lowBits addr p.rankWidth
    let addr := strip addr p.rankWidth
    ⟨addr.toUInt32, col, rank, bank, chnl⟩
  | 4 =>
    let rank := lowBits addr p.rankWidth
    let addr := strip addr p.rankWidth
    let bank := lowBits addr p.bankWidth
    let addr := strip addr p.bankWidth
    ⟨addr.toUInt32, col, rank, bank, chnl⟩
  | 5 =>
    let bank := lowBits addr p.bankWidth
    let addr := strip addr p.bankWidth
    let rank := lowBits addr p.rankWidth
    let addr := strip addr p.rankWidth
    ⟨addr.toUInt32, col, rank, bank, chnl⟩
  | 6 =>
    let chnl := channelOf p addr
    let addr := stripChannel p addr
    let bank := lowBits addr p.bankWidth
    let addr := strip addr p.bankWidth
    let rank := lowBits addr p.rankWidth
    let addr := strip addr p.rankWidth
    ⟨addr.toUInt32, col, rank, bank, chnl⟩
  | 7 =>
    let bank := lowBits addr p.bankWidth
    let addr := strip addr p.bankWidth
    let chnl := channelOf p addr
    let addr := stripChannel p addr
    let rank := lowBits addr p.rankWidth
    let addr := strip addr p.rankWidth
    ⟨addr.toUInt32, col, rank, bank, chnl⟩
  | 8 =>
    let bank := lowBits addr p.bankWidth
    let addr := strip addr p.bankWidth
    let rank := lowBits addr p.rankWidth
    let addr := strip addr p.rankWidth
    let chnl := channelOf p addr
    let addr := stripChannel p addr
    ⟨addr.toUInt32, col, rank, bank, chnl⟩
  -- no case of the switch: rank and bank stay unassigned, and `chnl` is no channel's id
  | _ => ⟨addr.toUInt32, col, 0, 0, chnl⟩

/-- `ReturnChannel`; none is its panic. -/
def ReturnChannel (addr : UInt64) : Option UInt32 :=
  let addr := if p.channelDataWidthLog < p.byteOffsetWidth then strip addr (colLowWidth p) else addr
  match p.interleaveType with
  | 0 | 1 | 2 | 3 | 4 | 5 => some (channelOf p addr)
  | 6 => some (channelOf p (strip addr (p.colAddrWidth - colLowWidth p)))
  | 7 => some (channelOf p (strip (strip addr (p.colAddrWidth - colLowWidth p)) p.bankWidth))
  | 8 => some (channelOf p
      (strip (strip (strip addr (p.colAddrWidth - colLowWidth p)) p.bankWidth) p.rankWidth))
  | _ => none

variable {p}

/-- The channel that `ReturnChannel` selects is the one `AddressMap` computes. -/
theorem addressMap_chnl {addr : UInt64} {channel : UInt32} (h : ReturnChannel p addr = some channel) :
    (AddressMap p addr).chnl = channel := by
  unfold ReturnChannel at h
  unfold AddressMap
  generalize p.interleaveType = type at h ⊢
  -- one case for each layout; beyond the last one `ReturnChannel` panics
  rcases type with _ | _ | _ | _ | _ | _ | _ | _ | _ | type <;> dsimp only at h ⊢
  all_goals first | exact Option.some.inj h | cases h

/-- The layouts of the source are decoded without panic. -/
theorem returnChannel_of_le (h : p.interleaveType ≤ 8) (addr : UInt64) :
    ∃ channel, ReturnChannel p addr = some channel := by
  unfold ReturnChannel
  generalize p.interleaveType = type at h ⊢
  rcases type with _ | _ | _ | _ | _ | _ | _ | _ | _ | type <;> dsimp only
  all_goals first | exact ⟨_, rfl⟩ | omega

theorem channelOf_lt (h : 1 ≤ p.channelCount) (addr : UInt64) : channelOf p addr < p.channelCount := by
  have hcount : 0 < p.channelCount.toNat := by
    have := UInt32.le_iff_toNat_le.mp h
    exact this
  have hmod := Nat.mod_lt addr.toNat hcount
  have hlt := p.channelCount.toNat_lt
  rw [channelOf, UInt32.lt_iff_toNat_lt, UInt64.toNat_toUInt32, UInt64.toNat_mod,
    UInt32.toNat_toUInt64]
  omega

/-- `ReturnChannel` selects one of the channels. -/
theorem returnChannel_lt (hcount : 1 ≤ p.channelCount) {addr : UInt64} {channel : UInt32}
    (h : ReturnChannel p addr = some channel) : channel < p.channelCount := by
  unfold ReturnChannel at h
  dsimp only at h
  split at h
  all_goals first | (cases h; exact channelOf_lt hcount _) | cases h

/-- The low bits of an address, cut off at 32 bits. -/
theorem toNat_lowBits (addr : UInt64) (width : UInt32) :
    (lowBits addr width).toNat = addr.toNat % 2 ^ (width.toNat % 64) % 2 ^ 32 := by
  have hpow : 2 ^ (width.toNat % 64) < 2 ^ 64 := Nat.pow_lt_pow_right (by decide) (Nat.mod_lt _ (by decide))
  have hshift : ((1 : UInt64) <<< width.toUInt64).toNat = 2 ^ (width.toNat % 64) := by
    rw [UInt64.toNat_shiftLeft, UInt32.toNat_toUInt64, UInt64.toNat_one, Nat.one_shiftLeft,
      Nat.mod_eq_of_lt hpow]
  have hone : (1 : UInt64) ≤ 1 <<< width.toUInt64 := by
    rw [UInt64.le_iff_toNat_le, hshift]
    exact Nat.one_le_two_pow
  have hmask : (((1 : UInt64) <<< width.toUInt64) - 1).toNat = 2 ^ (width.toNat % 64) - 1 := by
    rw [UInt64.toNat_sub_of_le _ _ hone, hshift]
    rfl
  rw [lowBits, UInt64.toNat_toUInt32, UInt64.toNat_and, hmask, Nat.and_two_pow_sub_one_eq_mod]

theorem lowBits_lt (addr : UInt64) {width : UInt32} (h : width.toNat < 32) :
    (lowBits addr width).toNat < 2 ^ width.toNat := by
  rw [toNat_lowBits, Nat.mod_eq_of_lt (h.trans (by decide))]
  exact (Nat.mod_le _ _).trans_lt (Nat.mod_lt _ (Nat.two_pow_pos _))

theorem addressMap_rank (addr : UInt64) :
    (∃ a, (AddressMap p addr).rank = lowBits a p.rankWidth) ∨ (AddressMap p addr).rank = 0 := by
  unfold AddressMap
  generalize p.interleaveType = type
  rcases type with _ | _ | _ | _ | _ | _ | _ | _ | _ | type <;> dsimp only
  all_goals first | exact .inl ⟨_, rfl⟩ | exact .inr rfl

theorem addressMap_bank (addr : UInt64) :
    (∃ a, (AddressMap p addr).bank = lowBits a p.bankWidth) ∨ (AddressMap p addr).bank = 0 := by
  unfold AddressMap
  generalize p.interleaveType = type
  rcases type with _ | _ | _ | _ | _ | _ | _ | _ | _ | type <;> dsimp only
  all_goals first | exact .inl ⟨_, rfl⟩ | exact .inr rfl

/-- A field as wide as the logarithm of a count holds only indices below it. -/
theorem lowBits_lt_count (addr : UInt64) {count : UInt32} (h : count ≠ 0) :
    (lowBits addr (ilog2 count)).toNat < count.toNat := by
  have hcount : count.toNat ≠ 0 := fun hzero => h (UInt32.toNat_inj.mp hzero)
  have hlt := @lowBits_lt addr (ilog2 count) (ilog2_lt count)
  rw [toNat_ilog2] at hlt
  exact hlt.trans_le (Nat.pow_log_le_self 2 hcount)

/-- The rank and the bank decoded exist. -/
theorem addressMap_rank_lt (hloaded : p.Loaded) (addr : UInt64) :
    (AddressMap p addr).rank.toNat < p.rankCount.toNat := by
  rcases addressMap_rank (p := p) addr with ⟨a, ha⟩ | hzero
  · rw [ha, hloaded.rankWidth]
    exact lowBits_lt_count a hloaded.rankCount
  · rw [hzero]
    exact Nat.pos_of_ne_zero fun h => hloaded.rankCount (UInt32.toNat_inj.mp h)

theorem addressMap_bank_lt (hloaded : p.Loaded) (hcount : p.bankCount ≠ 0) (addr : UInt64) :
    (AddressMap p addr).bank.toNat < p.bankCount.toNat := by
  rcases addressMap_bank (p := p) addr with ⟨a, ha⟩ | hzero
  · rw [ha, hloaded.bankWidth]
    exact lowBits_lt_count a hcount
  · rw [hzero]
    exact Nat.pos_of_ne_zero fun h => hcount (UInt32.toNat_inj.mp h)

end Zsim.MemAddressMap
