import Mathlib.Data.List.Nodup
import Mathlib.Data.Nat.Log
import Mathlib.Data.Set.Function
import Zsim.MixedRadix
import Zsim.DDRChannel

/-!
# The address mapping of the DDR memory

The constructor takes the order of the fields of a line address from a string. A repeated field is
noticed by its mask, which is zero for a field without bits: a string can repeat such a field and
leave another one out.
-/

namespace Zsim.DDRMapping

open MixedRadix DDRChannel DetailedMemParams

section Strings

/-- The loop of `Tokenize`: inside a token, or behind one. -/
def tokens (isDelimiter : Char → Bool) : Option (List Char) → List Char → List (List Char)
  | some token, [] => [token]
  | none, [] => []
  | some token, ch :: str =>
    if isDelimiter ch then token :: tokens isDelimiter none str
    else tokens isDelimiter (some (token ++ [ch])) str
  | none, ch :: str =>
    if isDelimiter ch then tokens isDelimiter none str else tokens isDelimiter (some [ch]) str

/-- `Tokenize`; it does not skip delimiters at the beginning. -/
def Tokenize (str delimiters : List Char) : List (List Char) := tokens (· ∈ delimiters) (some []) str

/-- The tokens are the pieces between delimiters, without the empty ones behind the first. -/
theorem tokens_eq (isDelimiter : Char → Bool) (s : List Char) :
    ∃ p ps, s.splitOnP isDelimiter = p :: ps ∧
      (∀ t, tokens isDelimiter (some t) s = (t ++ p) :: ps.filter (· ≠ [])) ∧
      tokens isDelimiter none s = (p :: ps).filter (· ≠ []) := by
  induction s with
  | nil => exact ⟨[], [], List.splitOnP_nil, fun t => by rw [tokens, List.append_nil]; rfl, rfl⟩
  | cons ch s ih =>
    obtain ⟨p, ps, hsplit, hsome, hnone⟩ := ih
    by_cases hdelim : isDelimiter ch = true
    · refine ⟨[], p :: ps, ?_, fun t => ?_, ?_⟩
      · rw [List.splitOnP_cons_eq_if_modifyHead, if_pos hdelim, hsplit]
      · rw [tokens, if_pos hdelim, hnone, List.append_nil]
      · rw [tokens, if_pos hdelim, hnone]
        rfl
    · refine ⟨ch :: p, ps, ?_, fun t => ?_, ?_⟩
      · rw [List.splitOnP_cons_eq_if_modifyHead, if_neg hdelim, hsplit]
        rfl
      · rw [tokens, if_neg hdelim, hsome, List.append_assoc]
        rfl
      · rw [tokens, if_neg hdelim, hsome, List.filter_cons_of_pos (by simp)]
        rfl

theorem tokenize_eq (delimiter : Char) (s : List Char) : ∃ p ps, s.splitOn delimiter = p :: ps ∧
    Tokenize s [delimiter] = p :: ps.filter (· ≠ []) := by
  obtain ⟨p, ps, hsplit, hsome, -⟩ := tokens_eq (· ∈ [delimiter]) s
  refine ⟨p, ps, ?_, ?_⟩
  · rw [List.splitOn_eq_splitOnP, ← hsplit]
    congr 1
    funext c
    rw [Bool.eq_iff_iff, beq_iff_eq, decide_eq_true_iff, List.mem_singleton]
  · rw [Tokenize, hsome, List.nil_append]

/-- What is left without the empty tokens are the pieces that are not empty. -/
theorem tokenize_filter (delimiter : Char) (s : List Char) :
    (Tokenize s [delimiter]).filter (· ≠ []) = (s.splitOn delimiter).filter (· ≠ []) := by
  obtain ⟨p, ps, hsplit, htokens⟩ := tokenize_eq delimiter s
  rw [hsplit, htokens, List.filter_cons, List.filter_cons, List.filter_filter]
  simp only [Bool.and_self]

/-- The comparisons of the constructor with a token. -/
def fieldOf (t : List Char) : AddrField :=
  if t = ['c', 'o', 'l'] then .col
  else if t = ['r', 'a', 'n', 'k'] then .rank
  else if t = ['b', 'a', 'n', 'k'] then .bank
  else .other

/-- The arguments of the constructor with this string for `addrMapping`. -/
def withMapping (a : DDRArgs) (addrMapping : List Char) : DDRArgs :=
  { a with addrMapping := (Tokenize addrMapping [':']).map fieldOf }

end Strings

/-- `(lineAddr >> shift) & mask`; the machine takes the shift modulo 64. -/
def bits (shift mask : ℕ) (lineAddr : UInt64) : UInt64 := (lineAddr >>> .ofNat shift) &&& .ofNat mask

/-- `mapLineAddr` of a word, before its assertions. -/
def mapLineAddr (c : DDRConfig) (lineAddr : UInt64) : AddrLoc where
  col := (bits c.colShift c.colMask lineAddr).toNat
  rank := (bits c.rankShift c.rankMask lineAddr).toNat
  bank := (bits c.bankShift c.bankMask lineAddr).toNat
  row := (lineAddr >>> .ofNat c.rowShift).toNat

/-- The number of lines in a page: a column is eight bytes. -/
def linesPerPage (a : DDRArgs) : ℕ := a.colSize.toNat * 8 / a.lineSize.toNat

/-- The number of values of each field. -/
def count (a : DDRArgs) : AddrField → ℕ
  | .col => linesPerPage a
  | .rank => a.ranksPerChannel.toNat
  | .bank => a.banksPerRank.toNat
  | .other => 1

/-- The number of lines with the same row. -/
def linesPerRow (a : DDRArgs) : ℕ := a.ranksPerChannel.toNat * a.banksPerRank.toNat * linesPerPage a

/-- The locations of the lines that can be addressed. -/
def locations (a : DDRArgs) : Set AddrLoc :=
  {loc | loc.row < 2 ^ 64 / linesPerRow a ∧ loc.bank < a.banksPerRank.toNat ∧
    loc.rank < a.ranksPerChannel.toNat ∧ loc.col < linesPerPage a}

/-- All sizes are powers of two. -/
structure PowersOfTwo (a : DDRArgs) : Prop where
  lineSize : ∃ k, a.lineSize.toNat = 2 ^ k
  colSize : ∃ k, a.colSize.toNat = 2 ^ k
  ranksPerChannel : ∃ k, a.ranksPerChannel.toNat = 2 ^ k
  banksPerRank : ∃ k, a.banksPerRank.toNat = 2 ^ k

/-- Each field with more than one value is in the mapping, a page has at least one line and its size
fits in 32 bits, and a row takes less than all lines. -/
structure Covered (a : DDRArgs) : Prop where
  fields : ∀ f, 1 < count a f → f ∈ a.addrMapping
  page : 0 < linesPerPage a
  size : a.colSize.toNat * 8 < 2 ^ 32
  row : linesPerRow a < 2 ^ 64

section Layout

variable {m m' : AddrMapping} {colBits rankBits bankBits : ℕ} {f g : AddrField} {fs : List AddrField}

/-- The shift of each field. -/
def shiftOf (m : AddrMapping) : AddrField → ℕ
  | .col => m.colShift
  | .rank => m.rankShift
  | .bank => m.bankShift
  | .other => 0

/-- The mask of each field. -/
def maskOf (m : AddrMapping) : AddrField → ℕ
  | .col => m.colMask
  | .rank => m.rankMask
  | .bank => m.bankMask
  | .other => 0

/-- The width of each field. -/
def widthOf (colBits rankBits bankBits : ℕ) : AddrField → ℕ
  | .col => colBits
  | .rank => rankBits
  | .bank => bankBits
  | .other => 0

/-- What one token does to the mapping. -/
structure Adds (w : AddrField → ℕ) (m m' : AddrMapping) (f : AddrField) : Prop where
  known : f ≠ .other
  unset : maskOf m f = 0
  startBit : m'.startBit = m.startBit + w f
  shift : shiftOf m' f = m.startBit
  mask : maskOf m' f = 2 ^ w f - 1
  others : ∀ g ≠ f, shiftOf m' g = shiftOf m g ∧ maskOf m' g = maskOf m g

theorem adds_of_add (h : m.add colBits rankBits bankBits f = some m') :
    Adds (widthOf colBits rankBits bankBits) m m' f := by
  cases f with
  | other => cases h
  | _ =>
    unfold AddrMapping.add at h
    dsimp only at h
    split at h
    · cases h
    · next hmask =>
      cases h
      refine ⟨nofun, not_not.mp hmask, rfl, rfl, rfl, fun g hg => ?_⟩
      cases g <;> first | exact ⟨rfl, rfl⟩ | exact (hg rfl).elim

/-- What the loop over the tokens does to the mapping. -/
structure Lays (w : AddrField → ℕ) (m m' : AddrMapping) (fs : List AddrField) : Prop where
  known : AddrField.other ∉ fs
  unset : ∀ g ∈ fs, maskOf m g = 0
  startBit : m'.startBit = m.startBit + total w fs
  others : ∀ g ∉ fs, shiftOf m' g = shiftOf m g ∧ maskOf m' g = maskOf m g
  mask : ∀ g ∈ fs, maskOf m' g = 2 ^ w g - 1
  shift : ∀ pre g post, fs = pre ++ g :: post → w g ≠ 0 → shiftOf m' g = m.startBit + total w pre
  nodup : (fs.filter (w · ≠ 0)).Nodup

theorem lays_of_addAll {w : AddrField → ℕ} (hw : w = widthOf colBits rankBits bankBits)
    (h : AddrMapping.addAll colBits rankBits bankBits fs m = some m') : Lays w m m' fs := by
  induction fs generalizing m with
  | nil =>
    cases h
    exact ⟨List.not_mem_nil, fun _ hg => (nomatch hg), rfl, fun _ _ => ⟨rfl, rfl⟩, fun _ hg => (nomatch hg),
      fun pre g post heq => (List.append_ne_nil_of_right_ne_nil pre (List.cons_ne_nil g post) heq.symm).elim,
      List.nodup_nil⟩
  | cons f fs ih =>
    obtain ⟨m₁, hadd, hrest⟩ := Option.bind_eq_some_iff.mp h
    have hadds := adds_of_add hadd
    rw [← hw] at hadds
    have hlays := ih hrest
    -- a field with bits is not added again
    have honce : w f ≠ 0 → f ∉ fs := by
      intro hf hmem
      have hmask := hadds.mask.symm.trans (hlays.unset f hmem)
      have hpow := Nat.one_lt_two_pow hf
      omega
    constructor
    case known => exact fun hmem => (List.mem_cons.mp hmem).elim (fun heq => hadds.known heq.symm) hlays.known
    case unset =>
      intro g hg
      by_cases hgf : g = f
      · rw [hgf]
        exact hadds.unset
      · rw [← (hadds.others g hgf).2]
        exact hlays.unset g ((List.mem_cons.mp hg).resolve_left hgf)
    case startBit => rw [hlays.startBit, hadds.startBit, total_cons, Nat.add_assoc]
    case others =>
      intro g hg
      have hgf : g ≠ f := fun heq => hg (heq ▸ List.mem_cons_self)
      have hafter := hlays.others g fun hmem => hg (List.mem_cons_of_mem f hmem)
      have hbefore := hadds.others g hgf
      exact ⟨hafter.1.trans hbefore.1, hafter.2.trans hbefore.2⟩
    case mask =>
      intro g hg
      by_cases hmem : g ∈ fs
      · exact hlays.mask g hmem
      · rw [(hlays.others g hmem).2, (List.mem_cons.mp hg).resolve_right hmem]
        exact hadds.mask
    case shift =>
      intro pre g post heq hg
      cases pre with
      | nil =>
        obtain ⟨rfl, -⟩ := List.cons.inj heq
        rw [(hlays.others f (honce hg)).1, hadds.shift]
        rfl
      | cons y pre =>
        obtain ⟨rfl, hfs⟩ := List.cons.inj heq
        rw [hlays.shift pre g post hfs hg, hadds.startBit, total_cons, Nat.add_assoc]
    case nodup =>
      by_cases hf : w f = 0
      · rw [List.filter_cons_of_neg (by simp [hf])]
        exact hlays.nodup
      · rw [List.filter_cons_of_pos (by simp [hf])]
        exact List.nodup_cons.mpr ⟨fun hmem => honce hf (List.mem_filter.mp hmem).1, hlays.nodup⟩

/-- The fields with bits take as many bits as all three fields. -/
theorem total_filter {w : AddrField → ℕ} : total w (fs.filter (w · ≠ 0)) = total w fs := by
  induction fs with
  | nil => rfl
  | cons f fs ih =>
    by_cases hf : w f = 0
    · rw [List.filter_cons_of_neg (by simp [hf]), total_cons, hf, Nat.zero_add]
      exact ih
    · rw [List.filter_cons_of_pos (by simp [hf]), total_cons, total_cons, ih]

theorem total_eq {w : AddrField → ℕ} (hother : w .other = 0) (hnodup : (fs.filter (w · ≠ 0)).Nodup)
    (hall : ∀ f, w f ≠ 0 → f ∈ fs) : total w fs = w .col + w .rank + w .bank := by
  have hperm : (fs.filter (w · ≠ 0)).Perm ([AddrField.col, .rank, .bank].filter (w · ≠ 0)) := by
    refine (List.perm_ext_iff_of_nodup hnodup (List.Nodup.filter _ (by decide))).mpr fun f => ?_
    rw [List.mem_filter, List.mem_filter]
    refine and_congr_left fun hf => iff_of_true (hall f (of_decide_eq_true hf)) ?_
    cases f with
    | other => exact (of_decide_eq_true hf hother).elim
    | _ => decide
  have hsum := (hperm.map w).sum_eq
  change total w _ = total w _ at hsum
  rw [total_filter, total_filter] at hsum
  rw [hsum, total_cons, total_cons, total_cons, ← Nat.add_assoc, ← Nat.add_assoc]
  rfl

end Layout

section Words

variable {s w : ℕ} {x : UInt64}

theorem toNat_shift (s : ℕ) (x : UInt64) : (x >>> .ofNat s).toNat = x.toNat / 2 ^ (s % 64) := by
  rw [UInt64.toNat_shiftRight, UInt64.toNat_ofNat', Nat.mod_mod_of_dvd s (by decide), Nat.shiftRight_eq_div_pow]

theorem bits_zero : (bits s 0 x).toNat = 0 := by
  unfold bits
  rw [UInt64.toNat_and]
  exact Nat.and_zero _

theorem toNat_bits {mask : ℕ} (hs : s < 64) (hmask : mask < 2 ^ 64) :
    (bits s mask x).toNat = (x.toNat >>> s) &&& mask := by
  unfold bits
  rw [UInt64.toNat_and, toNat_shift, UInt64.toNat_ofNat', Nat.mod_eq_of_lt hs, Nat.mod_eq_of_lt hmask,
    Nat.shiftRight_eq_div_pow]

theorem toNat_bits_digit (hs : s < 64) (hw : w < 64) : (bits s (2 ^ w - 1) x).toNat = digit x.toNat (2 ^ s) (2 ^ w) := by
  rw [toNat_bits hs ((Nat.sub_le ..).trans_lt (Nat.pow_lt_pow_right Nat.one_lt_two hw)),
    Nat.and_two_pow_sub_one_eq_mod, Nat.shiftRight_eq_div_pow]
  rfl

/-- With shifts and masks that fit in a word the controller maps the numbers of the words in the same way. -/
theorem mapLineAddr_toNat {c : DDRConfig} (hcol : c.colShift < 64 ∧ c.colMask < 2 ^ 64)
    (hrank : c.rankShift < 64 ∧ c.rankMask < 2 ^ 64) (hbank : c.bankShift < 64 ∧ c.bankMask < 2 ^ 64)
    (hrow : c.rowShift < 64) : mapLineAddr c x = c.mapLineAddr x.toNat := by
  unfold mapLineAddr DDRConfig.mapLineAddr
  rw [toNat_bits hcol.1 hcol.2, toNat_bits hrank.1 hrank.2, toNat_bits hbank.1 hbank.2, toNat_shift,
    Nat.mod_eq_of_lt hrow, ← Nat.shiftRight_eq_div_pow]

end Words

section Config

variable {a : DDRArgs} {c : DDRConfig}

/-- The widths that the constructor computes. -/
def widths (a : DDRArgs) : AddrField → ℕ :=
  widthOf (ilog2 (a.colSize / (64 / 8) * 64 / a.lineSize)).toNat (ilog2 a.ranksPerChannel).toNat
    (ilog2 a.banksPerRank).toNat

/-- The mapping before the loop. -/
def unset : AddrMapping := ⟨0, 0, 0, 0, 0, 0, 0⟩

/-- `mapLineAddr` with the shifts and masks of a mapping. -/
def locate (m : AddrMapping) (lineAddr : UInt64) : AddrLoc where
  col := (bits m.colShift m.colMask lineAddr).toNat
  rank := (bits m.rankShift m.rankMask lineAddr).toNat
  bank := (bits m.bankShift m.bankMask lineAddr).toNat
  row := (lineAddr >>> .ofNat m.startBit).toNat

theorem lays_of_config (h : a.config = some c) : 32 ≤ a.lineSize.toNat ∧ ∃ m,
    Lays (widths a) unset m a.addrMapping.reverse ∧ mapLineAddr c = locate m := by
  unfold DDRArgs.config at h
  cases hburst : burstLength a.lineSize (.ofNat a.tech.timing.tBL) with
  | none =>
    rw [hburst] at h
    cases h
  | some tBL =>
    rw [hburst] at h
    dsimp only [Option.bind_eq_bind, Option.bind_some] at h
    split at h
    · cases h
    · split at h
      · cases h
      · obtain ⟨m, hm, hc⟩ := Option.bind_eq_some_iff.mp h
        cases hc
        refine ⟨?_, m, lays_of_addAll rfl hm, rfl⟩
        unfold burstLength at hburst
        split at hburst
        · next hline => exact (Nat.le_of_ble_eq_true rfl : 32 ≤ 64).trans (UInt32.le_iff_toNat_le.mp hline.2.2)
        · split at hburst
          · next hline =>
            rw [hline]
            decide
          · cases hburst

theorem two_pow_ilog2 {val : UInt32} (hval : ∃ k, val.toNat = 2 ^ k) : 2 ^ (ilog2 val).toNat = val.toNat := by
  obtain ⟨k, hk⟩ := hval
  rw [toNat_ilog2, hk, Nat.log_pow Nat.one_lt_two]

/-- The argument of the logarithm for the columns. -/
theorem toNat_lines : (a.colSize / (64 / 8) * 64 / a.lineSize).toNat =
    a.colSize.toNat / 8 * 64 % 2 ^ 32 / a.lineSize.toNat := by
  rw [UInt32.toNat_div, UInt32.toNat_mul, UInt32.toNat_div]
  rfl

theorem widths_col : widths a .col = Nat.log 2 (a.colSize.toNat / 8 * 64 % 2 ^ 32 / a.lineSize.toNat) := by
  rw [← toNat_lines]
  exact toNat_ilog2 _

theorem page_eq {k : ℕ} : 2 ^ k * 8 = 2 ^ (k + 3) := (Nat.pow_add 2 k 3).symm

theorem lines_eq {k : ℕ} (hk : 3 ≤ k) : 2 ^ k / 8 * 64 = 2 ^ (k + 3) := by
  obtain ⟨j, rfl⟩ := Nat.exists_eq_add_of_le' hk
  rw [Nat.pow_add, Nat.mul_div_cancel _ (by decide), Nat.pow_add, Nat.pow_add, Nat.mul_assoc]

/-- As long as the size of a page fits in 32 bits, the width is that of a column address. -/
theorem width_col (h : PowersOfTwo a) (hline : 32 ≤ a.lineSize.toNat) (hsize : a.colSize.toNat * 8 < 2 ^ 32)
    (hpage : 0 < linesPerPage a) : 2 ^ widths a .col = linesPerPage a := by
  obtain ⟨k, hk⟩ := h.colSize
  obtain ⟨l, hl⟩ := h.lineSize
  have hl5 : 5 ≤ l := by
    rw [hl] at hline
    exact (Nat.pow_le_pow_iff_right Nat.one_lt_two).mp hline
  unfold linesPerPage at hpage ⊢
  rw [hk, hl, page_eq] at hpage ⊢
  rw [hk, page_eq] at hsize
  have hlk : l ≤ k + 3 := (Nat.pow_le_pow_iff_right Nat.one_lt_two).mp (Nat.div_pos_iff.mp hpage).2
  rw [widths_col, hk, hl, Nat.pow_div hlk Nat.two_pos]
  by_cases hk3 : 3 ≤ k
  · rw [lines_eq hk3, Nat.mod_eq_of_lt hsize, Nat.pow_div hlk Nat.two_pos, Nat.log_pow Nat.one_lt_two]
  · have hk2 : k = 2 := by omega
    have hl' : l = 5 := by omega
    rw [hk2, hl']
    rfl

/-- When it does not fit, the columns get no bits. -/
theorem width_col_wraps (h : PowersOfTwo a) (hsize : 2 ^ 32 ≤ a.colSize.toNat * 8) :
    widths a .col = 0 ∧ 1 < linesPerPage a := by
  obtain ⟨k, hk⟩ := h.colSize
  obtain ⟨l, hl⟩ := h.lineSize
  rw [hk, page_eq] at hsize
  have hk29 : 32 ≤ k + 3 := (Nat.pow_le_pow_iff_right Nat.one_lt_two).mp hsize
  have hl32 : l < 32 := by
    have hlt := a.lineSize.toNat_lt
    rw [hl] at hlt
    exact (Nat.pow_lt_pow_iff_right Nat.one_lt_two).mp hlt
  constructor
  · have hwrap : 2 ^ (k + 3) % 2 ^ 32 = 0 := Nat.mod_eq_zero_of_dvd (Nat.pow_dvd_pow 2 hk29)
    rw [widths_col, hk, lines_eq (by omega), hwrap, Nat.zero_div, Nat.log_zero_right]
  · unfold linesPerPage
    rw [hk, hl, page_eq, Nat.pow_div (by omega) Nat.two_pos]
    exact Nat.one_lt_two_pow (by omega)

theorem two_pow_widths (h : PowersOfTwo a) (hcol : 2 ^ widths a .col = linesPerPage a) (f : AddrField) :
    2 ^ widths a f = count a f := by
  cases f with
  | col => exact hcol
  | rank => exact two_pow_ilog2 h.ranksPerChannel
  | bank => exact two_pow_ilog2 h.banksPerRank
  | other => rfl

end Config

section Bijection

variable {a : DDRArgs} {c : DDRConfig} {m : AddrMapping} {w : AddrField → ℕ} {ts pre post : List AddrField}
  {f : AddrField} {x y : UInt64} {loc : AddrLoc}

/-- A field of a location. -/
def part (loc : AddrLoc) : AddrField → ℕ
  | .col => loc.col
  | .rank => loc.rank
  | .bank => loc.bank
  | .other => 0

theorem maskOf_unset (f : AddrField) : maskOf unset f = 0 := by cases f <;> rfl

theorem part_locate (f : AddrField) : part (locate m x) f = (bits (shiftOf m f) (maskOf m f) x).toNat := by
  cases f with
  | other => exact bits_zero.symm
  | _ => rfl

theorem loc_ext {loc' : AddrLoc} (hrow : loc.row = loc'.row) (hpart : ∀ f, part loc f = part loc' f) : loc = loc' := by
  obtain ⟨row, bank, rank, col⟩ := loc
  obtain ⟨row', bank', rank', col'⟩ := loc'
  have hcol : col = col' := hpart .col
  have hrank : rank = rank' := hpart .rank
  have hbank : bank = bank' := hpart .bank
  change row = row' at hrow
  rw [hrow, hcol, hrank, hbank]

theorem mem_locations : loc ∈ locations a ↔ loc.row < 2 ^ 64 / linesPerRow a ∧ ∀ f, part loc f < count a f := by
  constructor
  · rintro ⟨hrow, hbank, hrank, hcol⟩
    refine ⟨hrow, fun f => ?_⟩
    cases f with
    | col => exact hcol
    | rank => exact hrank
    | bank => exact hbank
    | other => exact Nat.zero_lt_one
  · rintro ⟨hrow, hpart⟩
    exact ⟨hrow, hpart .bank, hpart .rank, hpart .col⟩

/-- A field without a mask is zero everywhere. -/
theorem part_unmasked (hmask : maskOf m f = 0) : part (locate m x) f = 0 := by
  rw [part_locate, hmask]
  exact bits_zero

theorem part_missing (h : Lays w unset m ts) (hf : f ∉ ts) : part (locate m x) f = 0 := by
  refine part_unmasked ?_
  rw [(h.others f hf).2]
  exact maskOf_unset f

/-- Each field is read from its place. -/
theorem part_field (h : Lays w unset m ts) (htotal : total w ts < 64) (hts : ts = pre ++ f :: post) :
    part (locate m x) f = digit x.toNat (weight (2 ^ w ·) pre) (2 ^ w f) := by
  have hmem : f ∈ ts := by
    rw [hts]
    exact List.mem_append_right _ List.mem_cons_self
  have hmask := h.mask f hmem
  by_cases hw : w f = 0
  · rw [hw] at hmask ⊢
    rw [Nat.pow_zero, digit_one]
    exact part_unmasked hmask
  · have hshift : shiftOf m f = total w pre := (h.shift pre f post hts hw).trans (Nat.zero_add _)
    have hsum : total w ts = total w pre + (w f + total w post) := by
      rw [hts]
      unfold total
      rw [List.map_append, List.sum_append, List.map_cons, List.sum_cons]
    rw [part_locate, hmask, hshift, weight_bits]
    exact toNat_bits_digit (by omega) (by omega)

theorem row_locate (h : Lays w unset m ts) (htotal : total w ts < 64) :
    (locate m x).row = x.toNat / weight (2 ^ w ·) ts := by
  have hstart : m.startBit = total w ts := h.startBit.trans (Nat.zero_add _)
  change (x >>> .ofNat m.startBit).toNat = _
  rw [toNat_shift, hstart, Nat.mod_eq_of_lt htotal, weight_bits]

/-- When no field with bits is missing, the fields and the row of a word compose to it, and every location is the
one of a word. -/
theorem bijOn_locate (h : Lays w unset m ts) (hall : ∀ f, w f ≠ 0 → f ∈ ts) (hcount : ∀ f, 2 ^ w f = count a f)
    (hrows : linesPerRow a = weight (2 ^ w ·) ts) (htotal : total w ts < 64) :
    Set.BijOn (locate m) Set.univ (locations a) := by
  have hpos : ∀ f, 0 < 2 ^ w f := fun f => Nat.two_pow_pos _
  have hcut : 2 ^ 64 / weight (2 ^ w ·) ts * weight (2 ^ w ·) ts = 2 ^ 64 := by
    rw [weight_bits]
    exact Nat.div_mul_cancel (Nat.pow_dvd_pow 2 htotal.le)
  have hzero : ∀ f ∉ ts, count a f = 1 := by
    intro f hf
    rw [← hcount, not_not.mp fun hw => hf (hall f hw), Nat.pow_zero]
  have hcompose : ∀ x : UInt64, compose (2 ^ w ·) (part (locate m x)) ((locate m x).row) ts = x.toNat := by
    intro x
    rw [row_locate h htotal]
    exact compose_digits fun pre f post hts => part_field h htotal hts
  refine ⟨fun x _ => mem_locations.mpr ⟨?_, fun f => ?_⟩, fun x _ y _ heq => ?_, fun loc hloc => ?_⟩
  · rw [row_locate h htotal, hrows, Nat.div_lt_iff_lt_mul (weight_pos hpos), hcut]
    exact x.toNat_lt
  · by_cases hf : f ∈ ts
    · obtain ⟨pre, post, hts⟩ := List.append_of_mem hf
      rw [part_field h htotal hts, ← hcount]
      exact Nat.mod_lt _ (hpos f)
    · rw [part_missing h hf, hzero f hf]
      exact Nat.zero_lt_one
  · refine UInt64.toNat_inj.mp ?_
    rw [← hcompose x, ← hcompose y, heq]
  · obtain ⟨hrow, hpart⟩ := mem_locations.mp hloc
    have hval : ∀ g ∈ ts, part loc g < 2 ^ w g := fun g _ => (hpart g).trans_eq (hcount g).symm
    have hlt := compose_lt hpos hval hrow
    rw [hrows, hcut] at hlt
    have hword : (UInt64.ofNat (compose (2 ^ w ·) (part loc) loc.row ts)).toNat = compose (2 ^ w ·) (part loc) loc.row ts := by
      rw [UInt64.toNat_ofNat']
      exact Nat.mod_eq_of_lt hlt
    refine ⟨.ofNat (compose (2 ^ w ·) (part loc) loc.row ts), Set.mem_univ _, loc_ext ?_ fun f => ?_⟩
    · rw [row_locate h htotal, hword]
      exact compose_div hval
    · by_cases hf : f ∈ ts
      · obtain ⟨pre, post, hts⟩ := List.append_of_mem hf
        rw [part_field h htotal hts, hword, hts]
        rw [hts] at hval
        exact digit_compose hval
      · have hone := hpart f
        rw [hzero f hf] at hone
        rw [part_missing h hf]
        exact (Nat.lt_one_iff.mp hone).symm

/-- A field without a mask has one value only, if the mapping reaches all locations. -/
theorem count_le_one (h : Set.BijOn (locate m) Set.univ (locations a)) (hmask : maskOf m f = 0) : count a f ≤ 1 := by
  obtain ⟨hrow, hpart⟩ := mem_locations.mp (h.mapsTo (Set.mem_univ 0))
  by_contra hcount
  have hother : f ≠ .other := fun heq => hcount (heq ▸ le_rfl)
  obtain ⟨loc, hrow', hone, hzero⟩ : ∃ loc : AddrLoc, loc.row = 0 ∧ part loc f = 1 ∧ ∀ g ≠ f, part loc g = 0 := by
    refine ⟨⟨0, if f = .bank then 1 else 0, if f = .rank then 1 else 0, if f = .col then 1 else 0⟩, rfl, ?_⟩
    cases f with
    | other => exact (hother rfl).elim
    | _ => exact ⟨rfl, fun g hg => by cases g <;> first | rfl | exact (hg rfl).elim⟩
  have hloc : loc ∈ locations a := by
    refine mem_locations.mpr ⟨hrow' ▸ Nat.zero_lt_of_lt hrow, fun g => ?_⟩
    by_cases hg : g = f
    · rw [hg, hone]
      omega
    · rw [hzero g hg]
      exact Nat.zero_lt_of_lt (hpart g)
  obtain ⟨x, -, hx⟩ := h.surjOn hloc
  rw [← hx, part_unmasked hmask] at hone
  cases hone

theorem linesPerRow_eq (h : PowersOfTwo a) (hcol : 2 ^ widths a .col = linesPerPage a)
    (hlays : Lays (widths a) unset m ts) (hall : ∀ f, widths a f ≠ 0 → f ∈ ts) :
    linesPerRow a = weight (2 ^ widths a ·) ts := by
  rw [weight_bits, total_eq rfl hlays.nodup hall, Nat.pow_add, Nat.pow_add, two_pow_widths h hcol, two_pow_widths h hcol,
    two_pow_widths h hcol, Nat.mul_assoc, Nat.mul_comm]
  rfl

theorem covered_of_bijOn (hpow : PowersOfTwo a) (hline : 32 ≤ a.lineSize.toNat)
    (hlays : Lays (widths a) unset m a.addrMapping.reverse) (h : Set.BijOn (locate m) Set.univ (locations a)) :
    Covered a := by
  obtain ⟨hrow, hpart⟩ := mem_locations.mp (h.mapsTo (Set.mem_univ 0))
  have hpage : 0 < linesPerPage a := Nat.zero_lt_of_lt (hpart .col)
  have hfields : ∀ f, 1 < count a f → f ∈ a.addrMapping.reverse := by
    intro f hf
    by_contra hmem
    have hmask : maskOf m f = 0 := (hlays.others f hmem).2.trans (maskOf_unset f)
    exact Nat.not_lt.mpr (count_le_one h hmask) hf
  have hsize : a.colSize.toNat * 8 < 2 ^ 32 := by
    by_contra hwrap
    obtain ⟨hw, hlines⟩ := width_col_wraps hpow (Nat.le_of_not_lt hwrap)
    have hmask := hlays.mask .col (hfields .col hlines)
    rw [hw] at hmask
    exact Nat.not_lt.mpr (count_le_one h hmask) hlines
  have hcol := width_col hpow hline hsize hpage
  have hall : ∀ f, widths a f ≠ 0 → f ∈ a.addrMapping.reverse := by
    intro f hf
    refine hfields f ?_
    rw [← two_pow_widths hpow hcol]
    exact Nat.one_lt_two_pow hf
  refine ⟨fun f hf => List.mem_reverse.mp (hfields f hf), hpage, hsize, ?_⟩
  have hrows := linesPerRow_eq hpow hcol hlays hall
  have hle : linesPerRow a ≤ 2 ^ 64 := (Nat.div_pos_iff.mp (Nat.zero_lt_of_lt hrow)).2
  refine hle.lt_of_ne fun heq => ?_
  -- the row is the whole address, shifted by 64 bits
  have htotal : total (widths a) a.addrMapping.reverse = 64 :=
    Nat.pow_right_injective (Nat.le_refl 2) (weight_bits.symm.trans (hrows.symm.trans heq))
  have hstart : m.startBit = 64 := hlays.startBit.trans ((Nat.zero_add _).trans htotal)
  have hone := (mem_locations.mp (h.mapsTo (Set.mem_univ 1))).1
  rw [heq] at hone
  change ((1 : UInt64) >>> .ofNat m.startBit).toNat < _ at hone
  rw [hstart] at hone
  revert hone
  decide

theorem bijOn_of_covered (hpow : PowersOfTwo a) (hline : 32 ≤ a.lineSize.toNat)
    (hlays : Lays (widths a) unset m a.addrMapping.reverse) (h : Covered a) :
    Set.BijOn (locate m) Set.univ (locations a) := by
  have hcol := width_col hpow hline h.size h.page
  have hcount := two_pow_widths hpow hcol
  have hall : ∀ f, widths a f ≠ 0 → f ∈ a.addrMapping.reverse := by
    intro f hf
    refine List.mem_reverse.mpr (h.fields f ?_)
    rw [← hcount]
    exact Nat.one_lt_two_pow hf
  have hrows := linesPerRow_eq hpow hcol hlays hall
  have htotal : total (widths a) a.addrMapping.reverse < 64 := by
    have hrow := h.row
    rw [hrows, weight_bits] at hrow
    exact (Nat.pow_lt_pow_iff_right Nat.one_lt_two).mp hrow
  exact bijOn_locate hlays hall hcount hrows htotal

/-- A mapping that the constructor accepts is a bijection between line addresses and locations exactly when it
covers all fields. -/
theorem bijOn_iff (addrMapping : List Char) (hpow : PowersOfTwo (withMapping a addrMapping))
    (hconfig : (withMapping a addrMapping).config = some c) :
    Set.BijOn (mapLineAddr c) Set.univ (locations (withMapping a addrMapping)) ↔
      Covered (withMapping a addrMapping) := by
  obtain ⟨hline, m, hlays, hmap⟩ := lays_of_config hconfig
  rw [hmap]
  exact ⟨covered_of_bijOn hpow hline hlays, bijOn_of_covered hpow hline hlays⟩

/-- The default mapping covers all fields. -/
theorem bijOn_iff_default : ∃ c, (withMapping twoBanksArgs "rank:col:bank".toList).config = some c ∧
    (Set.BijOn (mapLineAddr c) Set.univ (locations (withMapping twoBanksArgs "rank:col:bank".toList)) ↔
      Covered (withMapping twoBanksArgs "rank:col:bank".toList)) :=
  ⟨twoBanks, by decide +kernel, bijOn_iff _ ⟨⟨6, rfl⟩, ⟨10, rfl⟩, ⟨0, rfl⟩, ⟨1, rfl⟩⟩ (by decide +kernel)⟩

/-- With one rank its field has no bits, so that it can be repeated in the place of the banks: all lines are in
bank zero. -/
theorem rank_repeated : ∃ c, (withMapping twoBanksArgs "rank:rank:col".toList).config = some c ∧
    (∀ lineAddr, (mapLineAddr c lineAddr).bank = 0) ∧
    ¬Set.BijOn (mapLineAddr c) Set.univ (locations (withMapping twoBanksArgs "rank:rank:col".toList)) := by
  refine ⟨{ twoBanks with colShift := 0, rankShift := 7, bankMask := 0, rowShift := 7 }, by decide +kernel,
    fun lineAddr => bits_zero, fun h => ?_⟩
  have hloc : (⟨0, 1, 0, 0⟩ : AddrLoc) ∈ locations (withMapping twoBanksArgs "rank:rank:col".toList) := by
    refine ⟨by decide, by decide, by decide, by decide⟩
  obtain ⟨x, -, hx⟩ := h.surjOn hloc
  have hbank := congrArg AddrLoc.bank hx
  exact nomatch (bits_zero.symm.trans hbank : (0 : ℕ) = 1)

end Bijection

end Zsim.DDRMapping
