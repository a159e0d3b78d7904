import Zsim.Vantage
import Zsim.Outcomes
import Zsim.TableCounts
import Zsim.GuardedRuns

/-!
# Runs of the Vantage policy

Every line is counted in the size of its partition and in the extended size of
its original partition. A managed line keeps its original partition exactly
when lines of the unmanaged region are promoted by that partition only.
-/

namespace Zsim.VantageRuns

open WeakestPre Outcomes MemoryHierarchy CheckedTables TableCounts PartPolicy Vantage GuardedRuns

def sizes (t : Table VantagePartInfo) : ℕ → ℕ := fun q => (t.cell q).size

def extended (t : Table VantagePartInfo) : ℕ → ℕ := fun q => (t.cell q).extendedSize

/-- The partition of each line. -/
def classes (a : Table LineInfo) : ℕ → ℕ := fun i => (a.cell i).p

/-- The original partition of each line. -/
def origins (a : Table LineInfo) : ℕ → ℕ := fun i => (a.cell i).op

section Writes

variable (t : Table VantagePartInfo) (a : Table LineInfo) (i : ℕ)

theorem sizes_set (v : VantagePartInfo) :
    sizes (t.set i v) = Function.update (sizes t) i v.size := cell_set t i v fun x => x.size

theorem extended_set (v : VantagePartInfo) :
    extended (t.set i v) = Function.update (extended t) i v.extendedSize :=
  cell_set t i v fun x => x.extendedSize

theorem classes_set (e : LineInfo) :
    classes (a.set i e) = Function.update (classes a) i e.p := cell_set a i e fun x => x.p

theorem origins_set (e : LineInfo) :
    origins (a.set i e) = Function.update (origins a) i e.op := cell_set a i e fun x => x.op

variable {t a i}

theorem sizes_set_same {v : VantagePartInfo} (h : v.size = (t.cell i).size) :
    sizes (t.set i v) = sizes t := by
  rw [sizes_set, h]
  exact Function.update_eq_self ..

theorem extended_set_same {v : VantagePartInfo} (h : v.extendedSize = (t.cell i).extendedSize) :
    extended (t.set i v) = extended t := by
  rw [extended_set, h]
  exact Function.update_eq_self ..

theorem classes_set_same {e : LineInfo} (h : e.p = (a.cell i).p) :
    classes (a.set i e) = classes a := by
  rw [classes_set, h]
  exact Function.update_eq_self ..

theorem origins_set_same {e : LineInfo} (h : e.op = (a.cell i).op) :
    origins (a.set i e) = origins a := by
  rw [origins_set, h]
  exact Function.update_eq_self ..

end Writes

/-- The sizes the policy was built with, and candidates that are lines. -/
def Geometry (P lines assoc : ℕ) (s : VantageReplPolicy) : Prop :=
  s.partitions = P ∧ s.totalSize = lines ∧ s.assoc = assoc ∧ P ≤ s.monitors ∧
    s.candList.length = assoc ∧ ∀ i < s.candIdx, s.candList.cell i < lines

/-- The tables are whole, and both sizes count the lines. -/
structure Book (P lines : ℕ) (t : Table VantagePartInfo) (a : Table LineInfo) : Prop where
  infos : t.length = P + 1
  cells : a.length = lines
  /-- The size is a `uint32_t`. -/
  small : lines < 2 ^ 32
  parts : ∀ i < lines, classes a i < P + 1
  origs : ∀ i < lines, origins a i < P + 1
  size : Counts lines (P + 1) (sizes t) (classes a)
  extendedSize : Counts lines (P + 1) (extended t) (origins a)

/-- The invariant of the policy. -/
structure Sound (P lines assoc : ℕ) (s : VantageReplPolicy) : Prop where
  geometry : Geometry P lines assoc s
  book : Book P lines s.partInfo s.array

section Book

variable {P lines : ℕ} {t t' : Table VantagePartInfo} {a a' : Table LineInfo}

/-- Writes that change neither sizes nor partitions. -/
theorem Book.congr (h : Book P lines t a) (ht : t'.length = t.length) (hs : sizes t' = sizes t)
    (he : extended t' = extended t) (ha : a'.length = a.length) (hc : classes a' = classes a)
    (ho : origins a' = origins a) : Book P lines t' a' where
  infos := ht.trans h.infos
  cells := ha.trans h.cells
  small := h.small
  parts := hc ▸ h.parts
  origs := ho ▸ h.origs
  size := by rw [hs, hc]; exact h.size
  extendedSize := by rw [he, ho]; exact h.extendedSize

/-- Taking one away and then adding one. -/
theorem shift_dec_inc {n k x y : ℕ} {f : ℕ → ℕ} (hsmall : n < 2 ^ 32) (hle : ∀ q < k, f q ≤ n)
    (hpos : 0 < f x) (hx : x < k) : ∀ q < k,
    Function.update (Function.update f x (dec64 (f x))) y
      (inc64 (Function.update f x (dec64 (f x)) y)) q + (if x = q then 1 else 0) =
        f q + (if y = q then 1 else 0) := by
  intro q hq
  have hq' := hle q hq
  have hx' := hle x hx
  have hdec : dec64 (f x) = f x - 1 := dec64_of_pos hpos
  rw [hdec]
  by_cases hqy : q = y
  · subst hqy
    by_cases hqx : q = x
    · subst hqx
      rw [Function.update_self, Function.update_self, inc64_of_lt (Nat.lt_succ_self _) (by omega)]
      omega
    · rw [Function.update_self, Function.update_of_ne hqx,
        inc64_of_lt (Nat.lt_succ_self _) (by omega), if_neg (Ne.symm hqx), if_pos rfl]
  · rw [Function.update_of_ne hqy, if_neg (Ne.symm hqy)]
    by_cases hqx : q = x
    · subst hqx
      rw [Function.update_self, if_pos rfl]
      omega
    · rw [Function.update_of_ne hqx, if_neg (Ne.symm hqx)]

/-- Adding one elsewhere first. -/
theorem shift_inc_dec {n k x y : ℕ} {f : ℕ → ℕ} (hsmall : n < 2 ^ 32) (hle : ∀ q < k, f q ≤ n)
    (hpos : 0 < f x) (hx : x < k) (hxy : x ≠ y) : ∀ q < k,
    Function.update (Function.update f y (inc64 (f y))) x
      (dec64 (Function.update f y (inc64 (f y)) x)) q + (if x = q then 1 else 0) =
        f q + (if y = q then 1 else 0) := by
  have hswap := shift_dec_inc hsmall hle hpos hx (y := y)
  rw [Function.update_of_ne hxy, Function.update_comm hxy.symm]
  rw [Function.update_of_ne hxy.symm] at hswap
  exact hswap

end Book

section Steps

variable {s : VantageReplPolicy} {q : ℕ} {id : LineId} {e : PartFailure}
  {Q : Unit → VantageReplPolicy → Prop}

/-- A write that leaves both sizes of a partition alone. -/
theorem wp_counters {f : VantagePartInfo → VantagePartInfo} (hq : q < s.partInfo.length)
    (hs : ∀ i, (f i).size = i.size) (he : ∀ i, (f i).extendedSize = i.extendedSize)
    (h : ∀ t, t.length = s.partInfo.length → sizes t = sizes s.partInfo →
      extended t = extended s.partInfo → Q () { s with partInfo := t }) :
    wp (modifyCell partInfo q f e) Q s :=
  (wp_modifyCell ..).mpr ⟨hq, h (s.partInfo.set q _) rfl (sizes_set_same (hs _)) (extended_set_same (he _))⟩

/-- A write of the size of a partition. -/
theorem wp_size {f : VantagePartInfo → VantagePartInfo} (g : ℕ → ℕ) (hq : q < s.partInfo.length)
    (hs : ∀ i, (f i).size = g i.size) (he : ∀ i, (f i).extendedSize = i.extendedSize)
    (h : ∀ t, t.length = s.partInfo.length →
      sizes t = Function.update (sizes s.partInfo) q (g (sizes s.partInfo q)) →
      extended t = extended s.partInfo → Q () { s with partInfo := t }) :
    wp (modifyCell partInfo q f e) Q s := by
  refine (wp_modifyCell ..).mpr ⟨hq, h (s.partInfo.set q _) rfl ?_ (extended_set_same (he _))⟩
  rw [sizes_set, hs]
  rfl

/-- A write of the extended size of a partition. -/
theorem wp_extended {f : VantagePartInfo → VantagePartInfo} (g : ℕ → ℕ) (hq : q < s.partInfo.length)
    (hs : ∀ i, (f i).size = i.size) (he : ∀ i, (f i).extendedSize = g i.extendedSize)
    (h : ∀ t, t.length = s.partInfo.length → sizes t = sizes s.partInfo →
      extended t = Function.update (extended s.partInfo) q (g (extended s.partInfo q)) →
      Q () { s with partInfo := t }) :
    wp (modifyCell partInfo q f e) Q s := by
  refine (wp_modifyCell ..).mpr ⟨hq, h (s.partInfo.set q _) rfl (sizes_set_same (hs _)) ?_⟩
  rw [extended_set, he]
  rfl

/-- A write of a line. -/
theorem wp_line {f : LineInfo → LineInfo} (hid : id < s.array.length)
    (h : ∀ a, a.length = s.array.length →
      classes a = Function.update (classes s.array) id (f (s.array.cell id)).p →
      origins a = Function.update (origins s.array) id (f (s.array.cell id)).op →
      a.cell id = f (s.array.cell id) → Q () { s with array := a }) :
    wp (modifyCell array id f e) Q s :=
  (wp_modifyCell ..).mpr ⟨hid, h (s.array.set id _) rfl (classes_set ..) (origins_set ..) (set_cell_self ..)⟩

/-- A write of a line that stays in its partition. -/
theorem wp_stamp {f : LineInfo → LineInfo} (hid : id < s.array.length)
    (hp : ∀ e, (f e).p = e.p) (ho : ∀ e, (f e).op = e.op)
    (h : ∀ a, a.length = s.array.length → classes a = classes s.array →
      origins a = origins s.array → Q () { s with array := a }) :
    wp (modifyCell array id f e) Q s :=
  (wp_modifyCell ..).mpr ⟨hid, h (s.array.set id _) rfl (classes_set_same (hp _)) (origins_set_same (ho _))⟩

end Steps

section Updates

variable {P lines assoc : ℕ} {s : VantageReplPolicy} {id : LineId} {part : ℕ}

theorem Sound.info_lt (h : Sound P lines assoc s) {q : ℕ} (hq : q < P + 1) :
    q < s.partInfo.length := by rwa [h.book.infos]

theorem Sound.line_lt (h : Sound P lines assoc s) (hid : id < lines) : id < s.array.length := by
  rwa [h.book.cells]

/-- The lines of a table after one of them has moved. -/
theorem update_lt {f : ℕ → ℕ} {n k b : ℕ} (hf : ∀ i < n, f i < k) (hb : b < k) (id : ℕ) :
    ∀ i < n, Function.update f id b i < k := by
  intro i hi
  by_cases hii : i = id
  · rw [hii, Function.update_self]
    exact hb
  · rw [Function.update_of_ne hii]
    exact hf i hi

theorem recordHit_spec (h : Sound P lines assoc s) (hid : id < lines) :
    wp (recordHit id) (fun _ s' => Sound P lines assoc s' ∧ origins s'.array = origins s.array ∧
      classes s'.array = classes s.array) s := by
  simp only [recordHit, wp_bind, wp_observe]
  refine wp_stamp (h.line_lt hid) (fun _ => rfl) (fun _ => rfl) fun a hlen hc ho => ?_
  have hbook := h.book.congr rfl rfl rfl hlen hc ho
  simp only [wp_change, wp_readCell, wp_touch]
  refine ⟨by rw [hbook.cells]; exact hid, ?_, ⟨h.geometry, hbook⟩, ho, hc⟩
  rw [hbook.infos]
  exact hbook.parts id hid

/-- What a hit does to the partitions of the lines. -/
theorem hitUpdate_spec (h : Sound P lines assoc s) (hid : id < lines) (hpart : part < P) :
    wp (hitUpdate part id) (fun _ s' => Sound P lines assoc s' ∧ origins s'.array = origins s.array ∧
      classes s'.array = if classes s.array id = P then Function.update (classes s.array) id part
        else classes s.array) s := by
  obtain rfl : s.partitions = P := h.geometry.1
  have hline := h.line_lt hid
  have hpart' : part < s.partitions + 1 := Nat.lt_succ_of_lt hpart
  have hb := h.book
  simp only [hitUpdate, wp_bind, wp_observe, wp_readCell, wp_ite, wp_pure]
  refine ⟨hline, ?_⟩
  split
  · next hP =>
    have hP : classes s.array id = s.partitions := hP
    refine wp_line hline fun a hlen hc ho _ => ?_
    refine wp_counters (h.info_lt hpart') (fun _ => rfl) (fun _ => rfl) fun t₁ hl₁ hs₁ he₁ => ?_
    refine wp_size inc64 (hl₁ ▸ h.info_lt hpart') (fun _ => rfl) (fun _ => rfl)
      fun t₂ hl₂ hs₂ he₂ => ?_
    refine wp_size dec64 (hl₂ ▸ hl₁ ▸ h.info_lt s.partitions.lt_succ_self) (fun _ => rfl)
      (fun _ => rfl) fun t₃ hl₃ hs₃ he₃ => ?_
    dsimp only at hc ho hl₁ hs₁ he₁ hl₂ hs₂ he₂ hl₃ hs₃ he₃
    have horigins : origins a = origins s.array := by
      rw [ho]
      exact Function.update_eq_self ..
    have hextended : extended t₃ = extended s.partInfo := by rw [he₃, he₂, he₁]
    have hsizes := shift_inc_dec (y := part) hb.small (fun q hq => hb.size.le hq)
      (hb.size.pos hid (hb.parts id hid)) (hb.parts id hid) (by rw [hP]; exact hpart.ne')
    have hbook : Book s.partitions lines t₃ a := by
      refine ⟨by rw [hl₃, hl₂, hl₁, hb.infos], by rw [hlen, hb.cells], hb.small, ?_, ?_, ?_, ?_⟩
      · rw [hc]
        exact update_lt hb.parts hpart' id
      · rw [horigins]
        exact hb.origs
      · rw [hc]
        refine hb.size.reclass hid ?_
        rw [hs₃, hs₂, hs₁, hP]
        rw [hP] at hsizes
        exact hsizes
      · rw [horigins, hextended]
        exact hb.extendedSize
    have hsound : Sound s.partitions lines assoc { s with partInfo := t₃, array := a } :=
      ⟨h.geometry, hbook⟩
    refine wp_mono (recordHit_spec hsound hid) fun _ s'' hs'' => ⟨hs''.1, hs''.2.1.trans horigins, ?_⟩
    rw [if_pos hP, hs''.2.2]
    exact hc
  · next hP =>
    have hP : classes s.array id ≠ s.partitions := hP
    refine wp_mono (recordHit_spec h hid) fun _ s'' hs'' => ⟨hs''.1, hs''.2.1, ?_⟩
    rw [if_neg hP]
    exact hs''.2.2

/-- A filled line is counted for its new partition, in both sizes. -/
theorem insertLine_spec (h : Sound P lines assoc s) (hid : id < lines) (hpart : part < P) :
    wp (insertLine part id) (fun _ s' => Sound P lines assoc s' ∧
      origins s'.array = Function.update (origins s.array) id part ∧
      classes s'.array = Function.update (classes s.array) id part) s := by
  have hpart' : part < P + 1 := Nat.lt_succ_of_lt hpart
  have hb := h.book
  simp only [insertLine, wp_bind, wp_observe, wp_readCell]
  refine ⟨h.line_lt hid, ?_⟩
  refine wp_stamp (h.line_lt hid) (fun _ => rfl) (fun _ => rfl) fun a₁ hl₁ hc₁ ho₁ => ?_
  rw [wp_change]
  refine wp_size dec64 (h.info_lt (hb.parts id hid)) (fun _ => rfl) (fun _ => rfl)
    fun t₁ hlt₁ hs₁ he₁ => ?_
  have hinfos₁ : t₁.length = P + 1 := hlt₁.trans hb.infos
  refine wp_extended dec64 (by rw [hinfos₁]; exact hb.origs id hid) (fun _ => rfl) (fun _ => rfl)
    fun t₂ hlt₂ hs₂ he₂ => ?_
  have hinfos₂ : t₂.length = P + 1 := hlt₂.trans hinfos₁
  refine wp_line (by rw [hl₁]; exact h.line_lt hid) fun a₂ hl₂ hc₂ ho₂ _ => ?_
  refine wp_counters (by rw [hinfos₂]; exact hpart') (fun _ => rfl) (fun _ => rfl)
    fun t₃ hlt₃ hs₃ he₃ => ?_
  have hinfos₃ : t₃.length = P + 1 := hlt₃.trans hinfos₂
  refine wp_size inc64 (by rw [hinfos₃]; exact hpart') (fun _ => rfl) (fun _ => rfl)
    fun t₄ hlt₄ hs₄ he₄ => ?_
  have hinfos₄ : t₄.length = P + 1 := hlt₄.trans hinfos₃
  refine wp_extended inc64 (by rw [hinfos₄]; exact hpart') (fun _ => rfl) (fun _ => rfl)
    fun t₅ hlt₅ hs₅ he₅ => ?_
  have hinfos₅ : t₅.length = P + 1 := hlt₅.trans hinfos₄
  dsimp only at hl₁ hc₁ ho₁ hlt₁ hs₁ he₁ hlt₂ hs₂ he₂ hl₂ hc₂ ho₂ hlt₃ hs₃ he₃ hlt₄ hs₄ he₄ hlt₅ hs₅ he₅
  rw [hc₁] at hc₂
  rw [ho₁] at ho₂
  have hsizes := shift_dec_inc (y := part) hb.small (fun q hq => hb.size.le hq)
    (hb.size.pos hid (hb.parts id hid)) (hb.parts id hid)
  have hextended := shift_dec_inc (y := part) hb.small (fun q hq => hb.extendedSize.le hq)
    (hb.extendedSize.pos hid (hb.origs id hid)) (hb.origs id hid)
  have hbook : Book P lines t₅ a₂ := by
    refine ⟨hinfos₅, by rw [hl₂, hl₁, hb.cells], hb.small, ?_, ?_, ?_, ?_⟩
    · rw [hc₂]
      exact update_lt hb.parts hpart' id
    · rw [ho₂]
      exact update_lt hb.origs hpart' id
    · rw [hc₂]
      refine hb.size.reclass hid ?_
      rw [hs₅, hs₄, hs₃, hs₂, hs₁]
      exact hsizes
    · rw [ho₂]
      refine hb.extendedSize.reclass hid ?_
      rw [he₅, he₄, he₃, he₂, he₁]
      exact hextended
  rw [wp_touch]
  exact ⟨by rw [hinfos₅]; exact hpart', ⟨h.geometry, hbook⟩, ho₂, hc₂⟩

theorem adjustTimestamp_spec (h : Sound P lines assoc s) (hid : id < lines) :
    wp (adjustTimestamp id) (fun _ s' => Sound P lines assoc s' ∧
      origins s'.array = origins s.array ∧ classes s'.array = classes s.array) s := by
  have hq : classes s.array id < P + 1 := h.book.parts id hid
  simp only [adjustTimestamp, wp_bind, wp_readCell]
  refine ⟨h.line_lt hid, h.info_lt hq, ?_⟩
  refine wp_stamp (h.line_lt hid) (fun _ => rfl) (fun _ => rfl) fun a hl hc ho => ?_
  refine wp_counters (h.info_lt hq) (fun _ => rfl) (fun _ => rfl) fun t₁ hl₁ hs₁ he₁ => ?_
  have hbook := h.book.congr hl₁ hs₁ he₁ hl hc ho
  refine ⟨hl₁ ▸ h.info_lt hq, ?_⟩
  rw [wp_ite]
  split
  · refine wp_counters (hl₁ ▸ h.info_lt hq) (fun _ => rfl) (fun _ => rfl) fun t₂ hl₂ hs₂ he₂ => ?_
    exact ⟨⟨h.geometry, hbook.congr hl₂ hs₂ he₂ rfl rfl rfl⟩, ho, hc⟩
  · rw [wp_pure]
    exact ⟨⟨h.geometry, hbook⟩, ho, hc⟩

theorem replaced_spec (h : Sound P lines assoc s) (hid : id < lines) :
    wp (replaced id) (fun _ s' => Sound P lines assoc s' ∧
      origins s'.array = origins s.array ∧ classes s'.array = classes s.array) s := by
  simp only [replaced, wp_bind, wp_change, wp_observe]
  refine wp_stamp (h.line_lt hid) (fun _ => rfl) (fun _ => rfl) fun a hl hc ho => ?_
  refine ⟨⟨?_, h.book.congr rfl rfl rfl hl hc ho⟩, ho, hc⟩
  obtain ⟨hp, hl, ha, hm, hlen, -⟩ := h.geometry
  exact ⟨hp, hl, ha, hm, hlen, fun i hi => absurd hi (Nat.not_lt_zero i)⟩

/-- A demoted line is counted in the unmanaged region, and keeps its origin. -/
theorem demote_spec (h : Sound P lines assoc s) (hid : id < lines) (hpart : classes s.array id = part)
    (hlt : part < P) :
    wp (demote part id) (fun _ s' => Sound P lines assoc s' ∧ s'.candIdx = s.candIdx ∧
      origins s'.array = origins s.array ∧
      classes s'.array = Function.update (classes s.array) id P) s := by
  obtain rfl : s.partitions = P := h.geometry.1
  subst hpart
  have hb := h.book
  have hq := h.info_lt (hb.parts id hid)
  simp only [demote, wp_bind, wp_observe]
  refine wp_size dec64 hq (fun _ => rfl) (fun _ => rfl) fun t₁ hl₁ hs₁ he₁ => ?_
  refine wp_line (h.line_lt hid) fun a hl hc ho _ => ?_
  refine wp_size inc64 (hl₁ ▸ h.info_lt s.partitions.lt_succ_self) (fun _ => rfl) (fun _ => rfl)
    fun t₂ hl₂ hs₂ he₂ => ?_
  refine wp_counters (hl₂ ▸ hl₁ ▸ hq) (fun _ => rfl) (fun _ => rfl) fun t₃ hl₃ hs₃ he₃ => ?_
  dsimp only at hl₁ hs₁ he₁ hl hc ho hl₂ hs₂ he₂ hl₃ hs₃ he₃
  have horigins : origins a = origins s.array := by
    rw [ho]
    exact Function.update_eq_self ..
  have hextended : extended t₃ = extended s.partInfo := by rw [he₃, he₂, he₁]
  have hsizes := shift_dec_inc (y := s.partitions) hb.small (fun q hq => hb.size.le hq)
    (hb.size.pos hid (hb.parts id hid)) (hb.parts id hid)
  refine ⟨⟨h.geometry, ?_, by rw [hl, hb.cells], hb.small, ?_, ?_, ?_, ?_⟩, rfl, horigins, hc⟩
  · rw [hl₃, hl₂, hl₁, hb.infos]
  · rw [hc]
    exact update_lt hb.parts s.partitions.lt_succ_self id
  · rw [horigins]
    exact hb.origs
  · rw [hc]
    refine hb.size.reclass hid ?_
    rw [hs₃, hs₂, hs₁]
    exact hsizes
  · rw [horigins, hextended]
    exact hb.extendedSize

end Updates

/-- Every failure but an access outside. -/
abbrev Inside (E : PartFailure → Prop) : Prop := ∀ e, e ≠ .outside → E e

section Partial

variable {P lines assoc : ℕ} {s : VantageReplPolicy} {id : LineId} {part : ℕ}
  {E : PartFailure → Prop}

theorem takeOneLine_ends (hE : Inside E) (h : Sound P lines assoc s) (draw : ℕ → ℕ) :
    ends E (takeOneLine draw) (fun _ s' => Sound P lines assoc s' ∧ s'.array = s.array) s := by
  obtain rfl : s.partitions = P := h.geometry.1
  simp only [takeOneLine, ends_bind, ends_observe, ends_ensure]
  refine ⟨fun _ => ?_, fun _ => hE _ (by decide)⟩
  refine ends_mono (ends_forUpTo (fun _ _ s' => s = s') ?_ rfl) ?_
  · rintro p n s' hp rfl
    rw [ends_bind, ends_readCell_of_lt (h.info_lt (Nat.lt_succ_of_lt hp)), ends_pure]
  · rintro linesLeft _ rfl
    refine ⟨fun _ => ?_, fun _ => hE _ (by decide)⟩
    refine ends_mono (ends_forUpTo (fun _ _ s' => Sound s.partitions lines assoc s' ∧
      s'.array = s.array) ?_ ⟨h, rfl⟩) ?_
    · rintro p ⟨curLines, done⟩ s' hp ⟨h', ha⟩
      have hlt := h'.info_lt (Nat.lt_succ_of_lt hp)
      rw [ends_ite]
      split
      · rw [ends_pure]
        exact ⟨h', ha⟩
      · rw [ends_bind, ends_readCell_of_lt hlt, ends_ite]
        split
        · rw [ends_bind]
          refine ends_of_wp (wp_counters hlt (fun _ => rfl) (fun _ => rfl) fun t hl hs he => ?_)
          rw [ends_pure]
          exact ⟨⟨h'.geometry, h'.book.congr hl hs he rfl rfl rfl⟩, ha⟩
        · rw [ends_pure]
          exact ⟨h', ha⟩
    · rintro ⟨curLines, done⟩ s' h'
      exact ⟨fun _ => h', fun _ => hE _ (by decide)⟩

theorem missUpdate_ends (hE : Inside E) (h : Sound P lines assoc s) (hid : id < lines)
    (hpart : part < P) (draw : ℕ → ℕ) :
    ends E (missUpdate part draw id) (fun _ s' => Sound P lines assoc s' ∧
      origins s'.array = Function.update (origins s.array) id part ∧
      classes s'.array = Function.update (classes s.array) id part) s := by
  rw [missUpdate, ends_bind]
  refine ends_mono (ends_of_wp (insertLine_spec h hid hpart)) ?_
  rintro _ s₁ ⟨h₁, ho, hc⟩
  have hlt := h₁.info_lt (Nat.lt_succ_of_lt hpart)
  rw [ends_bind, ends_observe, ends_bind, ends_readCell_of_lt hlt, ends_ite]
  split
  · simp only [ends_bind, ends_ensure]
    refine ⟨fun _ => ?_, fun _ => hE _ (by decide)⟩
    refine ends_of_wp (wp_counters hlt (fun _ => rfl) (fun _ => rfl) fun t hl hs he => ?_)
    have hsound : Sound P lines assoc { s₁ with partInfo := t } :=
      ⟨h₁.geometry, h₁.book.congr hl hs he rfl rfl rfl⟩
    refine ends_mono (takeOneLine_ends hE hsound draw) ?_
    rintro _ s₂ ⟨h₂, ha⟩
    exact ⟨h₂, by rw [ha]; exact ho, by rw [ha]; exact hc⟩
  · exact ⟨h₁, ho, hc⟩

/-- How an update moves its line: a hit moves it out of the unmanaged region, and
a fill moves it with its origin. -/
def Moved (P part : ℕ) (id : LineId) (s s' : VantageReplPolicy) : Prop :=
  if 0 < (s.array.cell id).ts then
    origins s'.array = origins s.array ∧
      classes s'.array = if classes s.array id = P then Function.update (classes s.array) id part
        else classes s.array
  else
    origins s'.array = Function.update (origins s.array) id part ∧
      classes s'.array = Function.update (classes s.array) id part

theorem Moved.lt {s s' : VantageReplPolicy} (h : Moved P part id s s') (hpart : part < P)
    (hid : classes s.array id < P + 1) : classes s'.array id < P := by
  unfold Moved at h
  split at h
  · rw [h.2]
    split
    · rw [Function.update_self]
      exact hpart
    · omega
  · rw [h.2, Function.update_self]
    exact hpart

/-- An update keeps the invariant. A hit never fails; a fill may fail to find
a partition to take a line from. -/
theorem update_ends (h : Sound P lines assoc s) (hid : id < lines) (hpart : part < P)
    (hE : ¬0 < (s.array.cell id).ts → Inside E) (phaseCycles : ℕ) (draw : ℕ → ℕ) :
    ends E (update part phaseCycles draw id) (fun _ s' => Sound P lines assoc s' ∧
      Moved P part id s s') s := by
  have hprofile : wp (if s.lastUpdateCycle < phaseCycles then do
        forUpTo (fun p _ => touch partInfo p) (s.partitions + 1) ()
        change fun s => { s with lastUpdateCycle := phaseCycles }
      else pure ()) (fun _ s' => Sound P lines assoc s' ∧ s'.array = s.array) s := by
    rw [wp_ite]
    split
    · rw [wp_bind]
      refine wp_mono (wp_forUpTo (fun _ _ s' => s = s') ?_ rfl) ?_
      · rintro p _ _ hp rfl
        rw [wp_touch]
        exact ⟨h.info_lt (h.geometry.1 ▸ hp), rfl⟩
      · rintro _ _ rfl
        rw [wp_change]
        exact ⟨⟨h.geometry, h.book⟩, rfl⟩
    · exact (wp_pure ..).mpr ⟨h, rfl⟩
  rw [update, ends_bind, ends_observe, ends_bind]
  refine ends_mono (ends_of_wp hprofile) ?_
  rintro _ s₁ ⟨h₁, ha₁⟩
  rw [ends_bind, ends_readCell_of_lt (h₁.line_lt hid), ends_bind]
  have hmoved : ends E (if 0 < (s₁.array.cell id).ts then hitUpdate part id
      else missUpdate part draw id) (fun _ s' => Sound P lines assoc s' ∧ Moved P part id s s') s₁ := by
    unfold Moved
    rw [ha₁, ends_ite]
    split
    · refine ends_mono (ends_of_wp (hitUpdate_spec h₁ hid hpart)) ?_
      rintro _ s₂ ⟨h₂, ho, hc⟩
      rw [ha₁] at ho hc
      exact ⟨h₂, ho, hc⟩
    · next hts =>
      refine ends_mono (missUpdate_ends (hE hts) h₁ hid hpart draw) ?_
      rintro _ s₂ ⟨h₂, ho, hc⟩
      rw [ha₁] at ho hc
      exact ⟨h₂, ho, hc⟩
  refine ends_mono hmoved ?_
  rintro _ s₂ ⟨h₂, hm⟩
  have hlt : classes s₂.array id < P := hm.lt hpart (h.book.parts id hid)
  rw [ends_bind, ends_readCell_of_lt (h₂.line_lt hid)]
  refine ends_of_wp ?_
  rw [wp_bind, wp_monitorAccess]
  obtain ⟨-, -, -, hmonitors, -⟩ := h₂.geometry
  refine ⟨lt_of_lt_of_le hlt hmonitors, wp_mono (adjustTimestamp_spec h₂ hid) ?_⟩
  rintro _ s₃ ⟨h₃, ho, hc⟩
  unfold Moved at hm ⊢
  rw [ho, hc]
  exact ⟨h₃, hm⟩

/-- The lines in managed partitions have not left their original partition. -/
def Owned (P lines : ℕ) (a : Table LineInfo) : Prop :=
  ∀ i < lines, classes a i < P → origins a i = classes a i

/-- A line moves to the unmanaged region or stays. -/
def Demoted (P : ℕ) (s s' : VantageReplPolicy) : Prop :=
  origins s'.array = origins s.array ∧
    ∀ i, classes s'.array i = classes s.array i ∨ classes s'.array i = P

theorem Demoted.refl (s : VantageReplPolicy) : Demoted P s s := ⟨rfl, fun _ => .inl rfl⟩

theorem Demoted.trans {s s' s'' : VantageReplPolicy} (h : Demoted P s s') (h' : Demoted P s' s'') :
    Demoted P s s'' := by
  refine ⟨h'.1.trans h.1, fun i => ?_⟩
  rcases h'.2 i with hi | hi
  · rw [hi]
    exact h.2 i
  · exact .inr hi

theorem Demoted.owned {s s' : VantageReplPolicy} (h : Demoted P s s') (ho : Owned P lines s.array) :
    Owned P lines s'.array := by
  intro i hi hlt
  rw [h.1]
  rcases h.2 i with hc | hc
  · rw [hc] at hlt ⊢
    exact ho i hi hlt
  · exact absurd hlt (by omega)

theorem considerDemotion_ends (hE : Inside E) (h : Sound P lines assoc s) (hid : id < lines)
    (control : VantagePartInfo → Option Setpoint) :
    ends E (considerDemotion control id) (fun _ s' => Sound P lines assoc s' ∧ Demoted P s s' ∧
      s'.candIdx = s.candIdx) s := by
  obtain rfl : s.partitions = P := h.geometry.1
  have hq : classes s.array id < s.partitions + 1 := h.book.parts id hid
  have hdone : Sound s.partitions lines assoc s ∧ Demoted s.partitions s s ∧ s.candIdx = s.candIdx :=
    ⟨h, Demoted.refl s, rfl⟩
  rw [considerDemotion, ends_bind, ends_observe, ends_bind, ends_readCell_of_lt (h.line_lt hid),
    ends_ite]
  split
  · rw [ends_pure]
    exact hdone
  next hmanaged =>
  have hne : classes s.array id ≠ s.partitions := fun hc => hmanaged (.inr hc)
  rw [ends_bind, ends_readCell_of_lt (h.info_lt hq), ends_ite]
  split
  · rw [ends_pure]
    exact hdone
  rw [ends_bind]
  have hdemote : wp (if sub64 (s.partInfo.cell (classes s.array id)).curBts
        (s.partInfo.cell (classes s.array id)).setpointBts % 256 ≤
        sub64 (s.partInfo.cell (classes s.array id)).curBts (s.array.cell id).bts % 256
      then demote (classes s.array id) id else pure ()) (fun _ s' => Sound s.partitions lines assoc s' ∧
        Demoted s.partitions s s' ∧ s'.candIdx = s.candIdx) s := by
    rw [wp_ite]
    split
    · refine wp_mono (demote_spec h hid rfl (by omega)) ?_
      rintro _ s' ⟨h', hcand, ho, hc⟩
      refine ⟨h', ⟨ho, fun i => ?_⟩, hcand⟩
      rw [hc]
      by_cases hi : i = id
      · rw [hi, Function.update_self]
        exact .inr rfl
      · rw [Function.update_of_ne hi]
        exact .inl rfl
    · exact (wp_pure ..).mpr hdone
  refine ends_mono (ends_of_wp hdemote) ?_
  rintro _ s₁ ⟨h₁, hd₁, hc₁⟩
  rw [ends_bind]
  refine ends_of_wp (wp_counters (h₁.info_lt hq) (fun _ => rfl) (fun _ => rfl) fun t hl hs he => ?_)
  have h₂ : Sound s.partitions lines assoc { s₁ with partInfo := t } :=
    ⟨h₁.geometry, h₁.book.congr hl hs he rfl rfl rfl⟩
  rw [ends_bind, ends_readCell_of_lt (h₂.info_lt hq), ends_ite]
  split
  · split
    · exact hE _ (by decide)
    · refine ends_of_wp (wp_counters (h₂.info_lt hq) (fun _ => rfl) (fun _ => rfl)
        fun t' hl' hs' he' => ?_)
      exact ⟨⟨h₁.geometry, h₂.book.congr hl' hs' he' rfl rfl rfl⟩, hd₁, hc₁⟩
  · rw [ends_pure]
    exact ⟨h₂, hd₁, hc₁⟩

/-- The search for a victim changes nothing. -/
theorem getBestCandidate_ends (hE : Inside E) (h : Sound P lines assoc s)
    (control : VantagePartInfo → Option Setpoint) :
    ends E (getBestCandidate control) (fun _ s' => Sound P lines assoc s' ∧ Demoted P s s') s := by
  obtain ⟨-, -, -, -, hcands, hlines⟩ := h.geometry
  simp only [getBestCandidate, ends_bind, ends_observe, ends_ensure]
  refine ⟨fun _ => ⟨fun hassoc => ?_, fun _ => hE _ (by decide)⟩, fun _ => hE _ (by decide)⟩
  have hread : ∀ {s' : VantageReplPolicy} {i}, Sound P lines assoc s' → s'.candIdx = s.candIdx →
      i < s.candIdx → i < s'.candList.length ∧ s'.candList.cell i < lines := by
    intro s' i h' hc hi
    obtain ⟨-, -, ha, -, hcands', hlines'⟩ := h'.geometry
    obtain ⟨-, -, hassoc', -⟩ := h.geometry
    exact ⟨by omega, hlines' i (hc ▸ hi)⟩
  refine ends_mono (ends_forUpTo (fun _ _ s' => Sound P lines assoc s' ∧ Demoted P s s' ∧
    s'.candIdx = s.candIdx) ?_ ⟨h, Demoted.refl s, rfl⟩) ?_
  · rintro i _ s₁ hi ⟨h₁, hd₁, hc₁⟩
    obtain ⟨hlen, hid⟩ := hread h₁ hc₁ hi
    rw [ends_bind, ends_readCell_of_lt hlen]
    refine ends_mono (considerDemotion_ends hE h₁ hid control) ?_
    rintro _ s₂ ⟨h₂, hd₂, hc₂⟩
    exact ⟨h₂, hd₁.trans hd₂, hc₂.trans hc₁⟩
  · rintro _ s₁ ⟨h₁, hd₁, -⟩
    rw [ends_readCell]
    refine ⟨fun _ => ?_, fun _ => hE _ (by decide)⟩
    refine ends_mono (ends_forUpTo (fun _ _ s' => s₁ = s') ?_ rfl) ?_
    · rintro i r _ hi rfl
      rw [ends_ite]
      split
      · rfl
      · simp only [ends_bind, ends_readCell, ends_ensure, ends_pure]
        refine ⟨fun _ => ⟨fun _ => ⟨fun _ => ⟨fun _ => trivial, ?_⟩, ?_⟩, ?_⟩, ?_⟩ <;>
          exact fun _ => hE _ (by decide)
    · rintro r _ rfl
      simp only [ends_pure]
      exact ⟨fun _ => ⟨h₁, hd₁⟩, fun _ => hE _ (by decide)⟩

theorem rank_ends (hE : Inside E) (h : Sound P lines assoc s) (lineAddr : Address) {cands : List LineId}
    (hcands : ∀ id ∈ cands, id < lines) (control : VantagePartInfo → Option Setpoint) :
    ends E (rank control lineAddr cands) (fun _ s' => Sound P lines assoc s' ∧ Demoted P s s') s := by
  rw [rank, ends_bind, startReplacement, ends_change, ends_bind]
  refine ends_mono (ends_foldlM (fun xs _ s' => (∀ id ∈ xs, id < lines) ∧ Sound P lines assoc s' ∧
    s'.array = s.array) ?_ ⟨hcands, ⟨h.geometry, h.book⟩, rfl⟩) ?_
  · rintro id xs _ s₁ ⟨hxs, h₁, ha₁⟩
    simp only [recordCandidate, ends_bind, ends_observe, ends_ensure, ends_modifyCell, ends_change]
    refine ⟨fun hassoc => ⟨fun hlen => ?_, fun _ => hE _ (by decide)⟩, fun _ => hE _ (by decide)⟩
    obtain ⟨hp, hl, ha, hm, hcl, hcands₁⟩ := h₁.geometry
    refine ⟨fun i hi => hxs i (List.mem_cons_of_mem _ hi),
      ⟨⟨hp, hl, ha, hm, hcl, fun i hi => ?_⟩, h₁.book⟩, ha₁⟩
    rcases Nat.lt_succ_iff_lt_or_eq.mp hi with hlt | rfl
    · exact (set_cell_of_ne _ _ _ hlt.ne).trans_lt (hcands₁ i hlt)
    · exact (set_cell_self ..).trans_lt (hxs id List.mem_cons_self)
  · rintro _ s₁ ⟨-, h₁, ha₁⟩
    refine ends_mono (getBestCandidate_ends hE h₁ control) ?_
    rintro _ s₂ ⟨h₂, hd₂⟩
    unfold Demoted at hd₂ ⊢
    rw [ha₁] at hd₂
    exact ⟨h₂, hd₂⟩

theorem setPartitionSizes_ends (hE : Inside E) (h : Sound P lines assoc s) (sizes : ℕ → ℕ)
    (draw : ℕ → ℕ → ℕ) :
    ends E (setPartitionSizes sizes draw) (fun _ s' => Sound P lines assoc s' ∧
      s'.array = s.array) s := by
  rw [setPartitionSizes, ends_bind, ends_observe, ends_bind]
  have hsame : ∀ b n i, (resize b n i).1.size = i.size ∧
      (resize b n i).1.extendedSize = i.extendedSize := by
    intro b n i
    unfold resize
    split
    · dsimp only
      split
      · exact ⟨rfl, rfl⟩
      · exact ⟨rfl, rfl⟩
    · exact ⟨rfl, rfl⟩
  refine ends_mono (ends_forUpTo (fun _ _ s' => Sound P lines assoc s' ∧ s'.array = s.array) ?_
    ⟨h, rfl⟩) ?_
  · rintro p n s₁ hp ⟨h₁, ha₁⟩
    have hlt := h₁.info_lt (Nat.lt_succ_of_lt (h.geometry.1 ▸ hp))
    rw [ends_bind, ends_readCell_of_lt hlt, ends_bind, ends_modifyCell_of_lt hlt, ends_pure]
    refine ⟨⟨h₁.geometry, h₁.book.congr rfl ?_ ?_ rfl rfl rfl⟩, ha₁⟩
    · exact sizes_set_same (hsame ..).1
    · exact extended_set_same (hsame ..).2
  · rintro linesToTakeAway s₁ ⟨h₁, ha₁⟩
    refine ends_forUpTo (fun _ _ s' => Sound P lines assoc s' ∧ s'.array = s.array) ?_ ⟨h₁, ha₁⟩
    rintro i _ s₂ _ ⟨h₂, ha₂⟩
    refine ends_mono (takeOneLine_ends hE h₂ (draw i)) ?_
    rintro _ s₃ ⟨h₃, ha₃⟩
    exact ⟨h₃, ha₃.trans ha₂⟩

end Partial

/-- The calls a cache and its partitioner make. -/
inductive Op where
  | rank (lineAddr : Address) (cands : List LineId) (control : VantagePartInfo → Option Setpoint)
  | replaced (id : LineId)
  /-- The mapper answers `part`. -/
  | update (part phaseCycles : ℕ) (draw : ℕ → ℕ) (id : LineId)
  | setPartitionSizes (sizes : ℕ → ℕ) (draw : ℕ → ℕ → ℕ)

/-- What a call runs. -/
def perform : Op → Act Unit
  | .rank lineAddr cands control => do
    let _ ← rank control lineAddr cands
    pure ()
  | .replaced id => replaced id
  | .update part phaseCycles draw id => update part phaseCycles draw id
  | .setPartitionSizes sizes draw => setPartitionSizes sizes draw

/-- Lines of the cache and partitions of the mapper. -/
def Legal (s : VantageReplPolicy) : Op → Prop
  | .rank _ cands _ => ∀ id ∈ cands, id < s.totalSize
  | .replaced id => id < s.totalSize
  | .update part _ _ id => part < s.partitions ∧ id < s.totalSize
  | .setPartitionSizes _ _ => True

instance (s : VantageReplPolicy) : (op : Op) → Decidable (Legal s op)
  | .rank _ cands _ => inferInstanceAs (Decidable (∀ id ∈ cands, id < s.totalSize))
  | .replaced id => inferInstanceAs (Decidable (id < s.totalSize))
  | .update part _ _ id => inferInstanceAs (Decidable (part < s.partitions ∧ id < s.totalSize))
  | .setPartitionSizes _ _ => inferInstanceAs (Decidable True)

/-- One call. -/
def step : Except PartFailure VantageReplPolicy → Op → Option (Except PartFailure VantageReplPolicy)
  | .error _, _ => none
  | .ok s, op => if Legal s op then some ((perform op s).map fun r => r.2) else none

/-- A line of the unmanaged region is hit by its original partition only. -/
def PromotedHome (s : VantageReplPolicy) : Op → Prop
  | .update part _ _ id => 0 < (s.array.cell id).ts → classes s.array id = s.partitions →
      origins s.array id = part
  | _ => True

section Step

variable {P lines assoc : ℕ} {s : VantageReplPolicy} {op : Op}

/-- What one call does: it keeps the invariant, and the lines keep their
origins exactly when a promotion is made by the original partition. -/
theorem perform_ends {E : PartFailure → Prop} (hE : Inside E) (h : Sound P lines assoc s)
    (hlegal : Legal s op) :
    ends E (perform op) (fun _ s' => Sound P lines assoc s' ∧
      (Owned P lines s.array → PromotedHome s op → Owned P lines s'.array)) s := by
  obtain ⟨hP, hlines, -⟩ := h.geometry
  cases op with
  | rank lineAddr cands control =>
    rw [perform, ends_bind]
    refine ends_mono (rank_ends hE h lineAddr (fun id hid => hlines ▸ hlegal id hid) control) ?_
    rintro _ s' ⟨h', hd⟩
    exact ⟨h', fun ho _ => hd.owned ho⟩
  | replaced id =>
    refine ends_mono (ends_of_wp (replaced_spec h (hlines ▸ hlegal))) ?_
    rintro _ s' ⟨h', horig, hc⟩
    refine ⟨h', fun ho _ => ?_⟩
    unfold Owned
    rw [horig, hc]
    exact ho
  | update part phaseCycles draw id =>
    obtain ⟨hpart, hid⟩ := hlegal
    rw [hP] at hpart
    rw [hlines] at hid
    refine ends_mono (update_ends h hid hpart (fun _ => hE) phaseCycles draw) ?_
    rintro _ s' ⟨h', hm⟩
    refine ⟨h', fun ho hhome i hi hlt => ?_⟩
    unfold Moved at hm
    split at hm
    · next hts =>
      rw [hm.1]
      rw [hm.2] at hlt ⊢
      split at hlt
      · next hc =>
        rw [if_pos hc]
        by_cases hii : i = id
        · rw [hii, Function.update_self]
          exact hhome hts (hc.trans hP.symm)
        · rw [Function.update_of_ne hii] at hlt ⊢
          exact ho i hi hlt
      · next hc =>
        rw [if_neg hc]
        exact ho i hi hlt
    · rw [hm.1, hm.2]
      rw [hm.2] at hlt
      by_cases hii : i = id
      · rw [hii, Function.update_self, Function.update_self]
      · rw [Function.update_of_ne hii] at hlt ⊢
        rw [Function.update_of_ne hii]
        exact ho i hi hlt
  | setPartitionSizes sizes draw =>
    refine ends_mono (setPartitionSizes_ends hE h sizes draw) ?_
    rintro _ s' ⟨h', ha⟩
    exact ⟨h', fun ho _ => by rw [ha]; exact ho⟩

/-- A hit that promotes a line for another partition returns, and the line is
then managed away from its origin. -/
theorem promotion_breaks (h : Sound P lines assoc s) (hlegal : Legal s op)
    (haway : ¬PromotedHome s op) : ∃ s', (perform op s).map (fun r => r.2) = .ok s' ∧
      ¬Owned P lines s'.array := by
  obtain ⟨hP, hlines, -⟩ := h.geometry
  cases op with
  | update part phaseCycles draw id =>
    obtain ⟨hpart, hid⟩ := hlegal
    rw [hP] at hpart
    rw [hlines] at hid
    simp only [PromotedHome, Classical.not_imp, hP] at haway
    obtain ⟨hts, hc, hne⟩ := haway
    obtain ⟨_, s', hrun, -, hm⟩ := wp_of_ends (update_ends h hid hpart
      (fun hn => absurd hts hn) phaseCycles draw)
    refine ⟨s', by rw [perform, hrun]; rfl, fun ho => hne ?_⟩
    rw [Moved, if_pos hts, if_pos hc] at hm
    have howned := ho id hid
    rw [hm.1, hm.2, Function.update_self] at howned
    exact howned hpart
  | rank => exact absurd trivial haway
  | replaced => exact absurd trivial haway
  | setPartitionSizes => exact absurd trivial haway

end Step

section Construction

variable (P assoc granularity : ℕ) (smooth : Bool) {lines : ℕ}

/-- Everything starts in the unmanaged region. -/
theorem construct_spec (hlines : lines < 2 ^ 32) {portion slack aperture : ℕ} (hportion : portion ≤ 100)
    (hslack : slack ≤ 100) (haperture : aperture ≤ 100) :
    wp (construct portion slack aperture) (fun _ s => Sound P lines assoc s ∧ Owned P lines s.array)
      (allocated P lines assoc granularity smooth P) := by
  have hgeometry : Geometry P lines assoc (allocated P lines assoc granularity smooth P) :=
    ⟨rfl, rfl, rfl, le_rfl, rfl, fun i hi => absurd hi (Nat.not_lt_zero i)⟩
  simp only [construct, initialise, wp_bind, wp_observe, wp_ensure]
  refine ⟨hportion, hslack, haperture, wp_mono (wp_forUpTo (fun _ _ s' =>
    Geometry P lines assoc s' ∧ s'.partInfo.length = P + 1 ∧ s'.array.length = lines ∧
    sizes s'.partInfo = (fun _ => 0) ∧ extended s'.partInfo = fun _ => 0) ?_ ?_) ?_⟩
  · rintro i _ s' hi ⟨hg, hlen, ha, hs, he⟩
    refine wp_extended (fun _ => 0) (hlen ▸ hi) (fun _ => rfl) (fun _ => rfl) fun t hlt hst het => ?_
    refine ⟨hg, hlt.trans hlen, ha, hst.trans hs, ?_⟩
    rw [het, he, Function.update_eq_self_iff]
  · exact ⟨hgeometry, rfl, rfl, rfl, rfl⟩
  · rintro _ s₁ ⟨hg, hlen, ha, hs, he⟩
    refine wp_counters (hlen ▸ P.lt_succ_self) (fun _ => rfl) (fun _ => rfl) fun t₁ hl₁ hs₁ he₁ => ?_
    rw [wp_modifyCell]
    refine ⟨by rw [hl₁, hlen]; exact P.lt_succ_self, ?_⟩
    refine wp_mono (wp_forUpTo (fun k _ s' => Geometry P lines assoc s' ∧
      s'.partInfo.length = P + 1 ∧ s'.array.length = lines ∧
      sizes s'.partInfo = Function.update (fun _ => 0) P lines ∧
      extended s'.partInfo = Function.update (fun _ => 0) P lines ∧
      ∀ i < k, classes s'.array i = P ∧ origins s'.array i = P) ?_ ?_) ?_
    · rintro i _ s' hi ⟨hg, hlen, ha, hs, he, hall⟩
      refine wp_line (ha ▸ hi) fun a hla hc ho _ => ⟨hg, hlen, hla.trans ha, hs, he, fun j hj => ?_⟩
      rw [hc, ho]
      rcases Nat.lt_succ_iff_lt_or_eq.mp hj with hlt | rfl
      · rw [Function.update_of_ne hlt.ne, Function.update_of_ne hlt.ne]
        exact hall j hlt
      · rw [Function.update_self, Function.update_self]
        exact ⟨rfl, rfl⟩
    · refine ⟨hg, hl₁.trans hlen, ha, ?_, ?_, fun i hi => absurd hi (Nat.not_lt_zero i)⟩
      · exact (sizes_set ..).trans (by rw [hs₁, hs]; rfl)
      · exact (extended_set ..).trans (by rw [he₁, he]; rfl)
    · rintro _ s' ⟨hg, hlen, ha, hs, he, hall⟩
      have hcounts : ∀ f : ℕ → ℕ, (∀ i < lines, f i = P) →
          Counts lines (P + 1) (Function.update (fun _ => 0) P lines) f := by
        intro f hf q _
        rw [countOf_congr (g := fun _ => P) hf]
        by_cases hq : q = P
        · rw [hq, Function.update_self, countOf_const]
        · rw [Function.update_of_ne hq, countOf_const_of_ne _ (Ne.symm hq)]
      have hparts : ∀ i < lines, classes s'.array i = P := fun i hi => (hall i hi).1
      have horigs : ∀ i < lines, origins s'.array i = P := fun i hi => (hall i hi).2
      refine ⟨⟨hg, hlen, ha, hlines, fun i hi => (hparts i hi).trans_lt P.lt_succ_self,
        fun i hi => (horigs i hi).trans_lt P.lt_succ_self, ?_, ?_⟩, fun i hi hlt => ?_⟩
      · rw [hs]
        exact hcounts _ hparts
      · rw [he]
        exact hcounts _ horigs
      · rw [hparts i hi] at hlt
        exact absurd hlt (Nat.lt_irrefl P)

end Construction

/-- The sizes count the lines. -/
structure Counted (P lines : ℕ) (s : VantageReplPolicy) : Prop where
  size : ∀ q ≤ P, (s.partInfo.cell q).size = countOf lines (classes s.array) q
  extendedSize : ∀ q ≤ P, (s.partInfo.cell q).extendedSize = countOf lines (origins s.array) q

/-- The sizes count the lines, and every managed line is in its original partition. -/
structure Accounted (P lines : ℕ) (s : VantageReplPolicy) : Prop extends Counted P lines s where
  owned : Owned P lines s.array
  covered : ∀ q < P, (s.partInfo.cell q).size ≤ (s.partInfo.cell q).extendedSize

section Runs

variable {P lines assoc : ℕ} {s : VantageReplPolicy}

theorem counted_of_sound (h : Sound P lines assoc s) : Counted P lines s :=
  ⟨fun q hq => h.book.size q (Nat.lt_succ_of_le hq),
    fun q hq => h.book.extendedSize q (Nat.lt_succ_of_le hq)⟩

/-- The extended size covers the size where lines keep their origins. -/
theorem accounted_of_owned (h : Sound P lines assoc s) (ho : Owned P lines s.array) :
    Accounted P lines s := by
  refine ⟨counted_of_sound h, ho, fun q hq => ?_⟩
  have hsize : (s.partInfo.cell q).size = _ := h.book.size q (Nat.lt_succ_of_lt hq)
  have hext : (s.partInfo.cell q).extendedSize = _ := h.book.extendedSize q (Nat.lt_succ_of_lt hq)
  rw [hsize, hext]
  refine Finset.card_le_card fun i hi => ?_
  obtain ⟨hi, hc⟩ := Finset.mem_filter.mp hi
  refine Finset.mem_filter.mpr ⟨hi, ?_⟩
  rw [ho i (Finset.mem_range.mp hi) (hc ▸ hq)]
  exact hc

/-- The states of a run that has not failed satisfy the property. -/
def Holds (Q : VantageReplPolicy → Prop) (r : Except PartFailure VantageReplPolicy) : Prop :=
  ∀ s, r = .ok s → Q s

/-- One call, seen from outside. -/
theorem step_spec {op : Op} {r : Except PartFailure VantageReplPolicy}
    (hs : step (.ok s) op = some r) : Legal s op ∧ r = (perform op s).map fun r => r.2 := by
  simp only [step, Option.ite_none_right_eq_some, Option.some.injEq] at hs
  exact ⟨hs.1, hs.2.symm⟩

theorem holds_of_ends {m : Act Unit} {Q : Unit → VantageReplPolicy → Prop}
    (h : ends (fun _ => True) m Q s) : Holds (fun s' => Q () s') ((m s).map fun r => r.2) := by
  intro s' hs'
  obtain ⟨_, hq⟩ := state_of_ends h hs'
  exact hq

/-- What one call keeps in every run: the counts. -/
theorem step_sound {op : Op} {r r' : Except PartFailure VantageReplPolicy}
    (h : Holds (Sound P lines assoc) r) (hs : step r op = some r') : Holds (Sound P lines assoc) r' := by
  cases r with
  | error e => cases hs
  | ok s =>
    obtain ⟨hlegal, rfl⟩ := step_spec hs
    intro s' hs'
    exact (holds_of_ends (perform_ends (fun _ _ => trivial) (h s rfl) hlegal) s' hs').1

theorem step_owned {op : Op} {r' : Except PartFailure VantageReplPolicy} (h : Sound P lines assoc s)
    (ho : Owned P lines s.array) (hhome : PromotedHome s op) (hs : step (.ok s) op = some r') :
    Holds (fun s' => Owned P lines s'.array) r' := by
  obtain ⟨hlegal, rfl⟩ := step_spec hs
  intro s' hs'
  exact (holds_of_ends (perform_ends (fun _ _ => trivial) h hlegal) s' hs').2 ho hhome

/-- Along every run both sizes count the lines, and the managed lines are in their
original partitions exactly as long as every promotion is made by the original
partition of its line. -/
theorem sizes_account (P lines assoc granularity portion slack aperture : ℕ) (smooth : Bool)
    (hlines : lines < 2 ^ 32) (hportion : portion ≤ 100) (hslack : slack ≤ 100)
    (haperture : aperture ≤ 100) :
    ∃ s, construct portion slack aperture (allocated P lines assoc granularity smooth P) = .ok ((), s) ∧
      ∀ ops, EveryStep step (fun _ _ r => Holds (Counted P lines) r) (.ok s) ops ∧
        (EveryStep step (fun _ _ r => Holds (Accounted P lines) r) (.ok s) ops ↔
          EveryStep step (fun r op _ => Holds (fun s => PromotedHome s op) r) (.ok s) ops) := by
  obtain ⟨_, s, hrun, hsound, howned⟩ :=
    construct_spec P assoc granularity smooth hlines hportion hslack haperture
  have hinit : Holds (fun s => Sound P lines assoc s ∧ Owned P lines s.array) (.ok s) := by
    rintro s' ⟨⟩
    exact ⟨hsound, howned⟩
  have hstep : ∀ r op r', Holds (fun s => Sound P lines assoc s ∧ Owned P lines s.array) r →
      Holds (fun s => PromotedHome s op) r → step r op = some r' →
      Holds (fun s => Sound P lines assoc s ∧ Owned P lines s.array) r' := by
    intro r op r' hinv hhome hs
    cases r with
    | error e => cases hs
    | ok s₁ =>
      obtain ⟨h₁, ho₁⟩ := hinv s₁ rfl
      have hsound' : Holds (Sound P lines assoc) (.ok s₁) := fun s' hs' => (hinv s' hs').1
      intro s' hs'
      exact ⟨step_sound hsound' hs s' hs', step_owned h₁ ho₁ (hhome s₁ rfl) hs s' hs'⟩
  have hcounted : ∀ r op r', Holds (Sound P lines assoc) r → step r op = some r' →
      Holds (Sound P lines assoc) r' ∧ Holds (Counted P lines) r' := fun r op r' hinv hs =>
    ⟨step_sound hinv hs, fun s' hs' => counted_of_sound (step_sound hinv hs s' hs')⟩
  refine ⟨s, hrun, fun ops => ⟨everyStep_of_invariant hcounted ?_, everyStep_iff ?_ hstep hinit⟩⟩
  · exact fun s' hs' => (hinit s' hs').1
  · intro r op r' hinv hs
    constructor
    · intro hacc s₁ hs₁
      subst hs₁
      obtain ⟨hlegal, rfl⟩ := step_spec hs
      by_contra haway
      obtain ⟨s', hrun', hnot⟩ := promotion_breaks (hinv s₁ rfl).1 hlegal haway
      exact hnot (hacc s' hrun').owned
    · intro hhome s' hs'
      have h' := hstep r op r' hinv hhome hs s' hs'
      exact accounted_of_owned h'.1 h'.2

/-- A policy of three partitions and two lines. -/
theorem threeParts_account :
    ∃ s, construct 90 10 50 (allocated 3 2 2 256 false 3) = .ok ((), s) ∧
      ∀ ops, EveryStep step (fun _ _ r => Holds (Counted 3 2) r) (.ok s) ops ∧
        (EveryStep step (fun _ _ r => Holds (Accounted 3 2) r) (.ok s) ops ↔
          EveryStep step (fun r op _ => Holds (fun s => PromotedHome s op) r) (.ok s) ops) :=
  sizes_account 3 2 2 256 90 10 50 false (by decide) (by decide) (by decide) (by decide)

/-- Two lines are filled by partitions 0 and 1, the first is demoted, and
partition 1 hits it. -/
def foreignPromotion : List Op :=
  [.rank 1 [0, 1] fun _ => some .keep, .replaced 0, .update 0 0 (fun _ => 0) 0,
    .rank 2 [0, 1] fun _ => some .keep, .replaced 1, .update 1 0 (fun _ => 0) 1,
    .update 1 0 (fun _ => 0) 0]

/-- Where the first line is after a run, and the sizes of partition 1. -/
def firstLine : Option (Except PartFailure VantageReplPolicy) → Option (ℕ × ℕ × ℕ × ℕ)
  | some (.ok s) => some ((s.array.cell 0).p, (s.array.cell 0).op, (s.partInfo.cell 1).size,
      (s.partInfo.cell 1).extendedSize)
  | _ => none

/-- The line is then in partition 1 and counted in the extended size of
partition 0. -/
theorem promoted_away : ∃ s, construct 90 10 50 (allocated 3 2 2 256 false 3) = .ok ((), s) ∧
    firstLine (run step (.ok s) foreignPromotion) = some (1, 0, 2, 1) := by
  have htarget : targetManagedSize 2 90 / 3 = 0 :=
    Nat.div_eq_of_lt (Nat.lt_succ_of_le (targetManagedSize_le (by decide) (by decide)))
  have hinit : construct 90 10 50 (allocated 3 2 2 256 false 3) =
      initialise (targetManagedSize 2 90 / 3) (allocated 3 2 2 256 false 3) := rfl
  rw [hinit, htarget]
  refine ⟨_, rfl, ?_⟩
  decide +kernel

end Runs

end Zsim.VantageRuns
