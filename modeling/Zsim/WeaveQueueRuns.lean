import Zsim.WeaveQueue
import Zsim.Conformance
import Mathlib.Data.Finset.Card
import Mathlib.Data.Finset.Max
import Mathlib.Data.Nat.ModEq

/-!
# The priority queue refines a priority multiset

The near events of a cycle are the stack of its slot. A far event lies at least
`B` blocks after the last half rotation, hence behind the current block, so the
first populated block always holds the earliest event, and a fold-in finds
every far event it moves inside the rotation.
-/

namespace Zsim.WeaveQueueRuns

open WeakestPre LinkedStacks WeaveQueue Conformance

variable {α : Type} [DecidableEq α] {B : ℕ} {q : PrioQueue α} {lists : ℕ → List α}

/-- The cycles that have a slot. -/
def Near (B curBlock c : ℕ) : Prop := curBlock ≤ c / 64 ∧ c / 64 < curBlock + B

/-- Two near cycles have different slots. -/
theorem near_inj {curBlock c d : ℕ} (hc : Near B curBlock c) (hd : Near B curBlock d)
    (hslot : c / 64 % B = d / 64 % B) (hpos : c % 64 = d % 64) : c = d := by
  have hblock : ∀ a b : ℕ, curBlock ≤ a → b < curBlock + B → a ≤ b → a % B = b % B → a = b := by
    intro a b ha hb hle hmod
    have hdvd : B ∣ b - a := (Nat.modEq_iff_dvd' hle).mp hmod
    have hzero := Nat.eq_zero_of_dvd_of_lt hdvd (by omega)
    omega
  obtain ⟨hc1, hc2⟩ := hc
  obtain ⟨hd1, hd2⟩ := hd
  have hsame : c / 64 = d / 64 := by
    rcases Nat.le_total (c / 64) (d / 64) with hle | hle
    · exact hblock _ _ hc1 hd2 hle hslot
    · exact (hblock _ _ hd1 hc2 hle hslot.symm).symm
  omega

/-- The slot of each near cycle holds the stack of its events. -/
structure Slots (B : ℕ) (q : PrioQueue α) (lists : ℕ → List α) : Prop where
  chain : ∀ c, Near B q.curBlock c →
    Chain q.next ((q.blocks (c / 64 % B)).array (c % 64)) (lists c)
  occ : ∀ c, Near B q.curBlock c →
    ((q.blocks (c / 64 % B)).occ.testBit (c % 64) = true ↔ lists c ≠ [])
  occ_lt : ∀ i, (q.blocks i).occ < 2 ^ 64
  outside : ∀ c, ¬Near B q.curBlock c → lists c = []
  nodup : ∀ c, (lists c).Nodup
  apart : ∀ c d o, o ∈ lists c → o ∈ lists d → c = d
  free : ∀ o, (∀ c, o ∉ lists c) → q.next o = none

/-- Only the blocks and the links change. -/
def Restacked (q q' : PrioQueue α) : Prop := q' = { q with blocks := q'.blocks, next := q'.next }

theorem testBit_set {occ pos i : ℕ} :
    (occ ||| 1 <<< pos).testBit i = (occ.testBit i || decide (pos = i)) := by
  rw [Nat.testBit_or, Nat.one_shiftLeft, Nat.testBit_two_pow]

theorem testBit_flip {occ pos i : ℕ} :
    (occ ^^^ 1 <<< pos).testBit i = (occ.testBit i ^^ decide (pos = i)) := by
  rw [Nat.testBit_xor, Nat.one_shiftLeft, Nat.testBit_two_pow]

theorem occ_set_lt {occ pos : ℕ} (h : occ < 2 ^ 64) (hpos : pos < 64) : occ ||| 1 <<< pos < 2 ^ 64 := by
  rw [Nat.one_shiftLeft]
  exact Nat.or_lt_two_pow h (Nat.pow_lt_pow_right (by decide) hpos)

theorem occ_flip_lt {occ pos : ℕ} (h : occ < 2 ^ 64) (hpos : pos < 64) : occ ^^^ 1 <<< pos < 2 ^ 64 := by
  rw [Nat.one_shiftLeft]
  exact Nat.xor_lt_two_pow h (Nat.pow_lt_pow_right (by decide) hpos)

omit [DecidableEq α] in
/-- A write to one slot that leaves the links of the other stacks alone. -/
theorem Slots.write (h : Slots B q lists) {c : ℕ} (hc : Near B q.curBlock c) {head : Option α}
    {xs : List α} {next' : α → Option α} {occ' : ℕ} (hchain : Chain next' head xs)
    (hframe : ∀ d, d ≠ c → ∀ y ∈ lists d, next' y = q.next y)
    (hbit : occ'.testBit (c % 64) = true ↔ xs ≠ [])
    (hbits : ∀ i, i ≠ c % 64 → occ'.testBit i = (q.blocks (c / 64 % B)).occ.testBit i)
    (hlt : occ' < 2 ^ 64) (hnodup : xs.Nodup) (hapart : ∀ d, d ≠ c → ∀ o ∈ xs, o ∉ lists d)
    (hfree : ∀ o, o ∉ xs → (∀ d, d ≠ c → o ∉ lists d) → next' o = none) :
    Slots B { q.setBlock (c / 64 % B)
        ⟨Function.update (q.blocks (c / 64 % B)).array (c % 64) head, occ'⟩ with next := next' }
      (Function.update lists c xs) := by
  have hother : ∀ d, Near B q.curBlock d → d ≠ c → d / 64 % B = c / 64 % B → d % 64 ≠ c % 64 :=
    fun d hd hdc hblock hpos => hdc (near_inj hd hc hblock hpos)
  constructor
  · intro d hd
    by_cases hdc : d = c
    · rw [hdc, Function.update_self]
      dsimp only [PrioQueue.setBlock]
      rw [Function.update_self]
      dsimp only
      rw [Function.update_self]
      exact hchain
    · rw [Function.update_of_ne hdc]
      have hold := (h.chain d hd).congr (hframe d hdc)
      dsimp only [PrioQueue.setBlock]
      by_cases hblock : d / 64 % B = c / 64 % B
      · rw [hblock] at hold ⊢
        rw [Function.update_self]
        dsimp only
        rw [Function.update_of_ne (hother d hd hdc hblock)]
        exact hold
      · rw [Function.update_of_ne hblock]
        exact hold
  · intro d hd
    dsimp only [PrioQueue.setBlock]
    by_cases hdc : d = c
    · rw [hdc, Function.update_self, Function.update_self]
      exact hbit
    · rw [Function.update_of_ne hdc]
      have hold := h.occ d hd
      by_cases hblock : d / 64 % B = c / 64 % B
      · rw [hblock] at hold ⊢
        rw [Function.update_self]
        dsimp only
        rw [hbits _ (hother d hd hdc hblock)]
        exact hold
      · rw [Function.update_of_ne hblock]
        exact hold
  · intro i
    dsimp only [PrioQueue.setBlock]
    by_cases hi : i = c / 64 % B
    · rw [hi, Function.update_self]
      exact hlt
    · rw [Function.update_of_ne hi]
      exact h.occ_lt i
  · intro d hd
    have hdc : d ≠ c := fun hdc => hd (hdc ▸ hc)
    rw [Function.update_of_ne hdc]
    exact h.outside d hd
  · intro d
    by_cases hdc : d = c
    · rw [hdc, Function.update_self]
      exact hnodup
    · rw [Function.update_of_ne hdc]
      exact h.nodup d
  · intro d e o hod hoe
    by_cases hdc : d = c
    · by_cases hec : e = c
      · rw [hdc, hec]
      · rw [hdc, Function.update_self] at hod
        rw [Function.update_of_ne hec] at hoe
        exact absurd hoe (hapart e hec o hod)
    · rw [Function.update_of_ne hdc] at hod
      by_cases hec : e = c
      · rw [hec, Function.update_self] at hoe
        exact absurd hod (hapart d hdc o hoe)
      · rw [Function.update_of_ne hec] at hoe
        exact h.apart d e o hod hoe
  · intro o ho
    refine hfree o ?_ fun d hdc => ?_
    · have hoc := ho c
      rwa [Function.update_self] at hoc
    · have hod := ho d
      rwa [Function.update_of_ne hdc] at hod

/-- Pushing an event on the stack of its cycle. -/
theorem blockEnqueue_spec (h : Slots B q lists) {c : ℕ} {o : α} (hc : Near B q.curBlock c)
    (ho : ∀ d, o ∉ lists d) :
    wp (blockEnqueue (c / 64 % B) (c % 64) o) (fun _ q' => Restacked q q' ∧
      Slots B q' (Function.update lists c (o :: lists c))) q := by
  have hpos : c % 64 < 64 := Nat.mod_lt _ (by decide)
  simp only [blockEnqueue, wp_bind, wp_observe, wp_ensure, wp_change]
  refine ⟨h.free o ho, rfl, h.write hc ((h.chain c hc).push (ho c)) ?_ ?_ ?_ ?_ ?_ ?_ ?_⟩
  · intro d _ y hy
    exact Function.update_of_ne (ne_of_mem_of_not_mem hy (ho d)) _ _
  · rw [testBit_set, decide_eq_true rfl, Bool.or_true]
    exact ⟨fun _ => List.cons_ne_nil _ _, fun _ => rfl⟩
  · intro i hi
    rw [testBit_set, decide_eq_false (Ne.symm hi), Bool.or_false]
  · exact occ_set_lt (h.occ_lt _) hpos
  · exact List.nodup_cons.mpr ⟨ho c, h.nodup c⟩
  · intro d hdc o' ho' hmem
    rcases List.mem_cons.mp ho' with rfl | hold
    · exact ho d hmem
    · exact hdc (h.apart d c o' hmem hold)
  · intro o' ho' hothers
    have hne : o' ≠ o := fun heq => ho' (heq ▸ List.mem_cons_self)
    rw [Function.update_of_ne hne]
    refine h.free o' fun d => ?_
    by_cases hdc : d = c
    · rw [hdc]
      exact fun hmem => ho' (List.mem_cons_of_mem o hmem)
    · exact hothers d hdc

omit [DecidableEq α] in
/-- A bitmap shows the cycles of its block that have events. -/
theorem Slots.bits (h : Slots B q lists) {b i : ℕ} (hb : q.curBlock ≤ b) (hend : b < q.curBlock + B)
    (hi : i < 64) : (q.blocks (b % B)).occ.testBit i = true ↔ lists (b * 64 + i) ≠ [] := by
  have hblock : (b * 64 + i) / 64 = b := by omega
  have hpos : (b * 64 + i) % 64 = i := by omega
  have hocc := h.occ (b * 64 + i) ⟨by omega, by omega⟩
  rwa [hblock, hpos] at hocc

omit [DecidableEq α] in
/-- The lowest set bit of a bitmap is the first cycle of its block with events. -/
theorem Slots.ctz_some (h : Slots B q lists) {b pos : ℕ} (hb : q.curBlock ≤ b)
    (hend : b < q.curBlock + B) (hctz : ctz (q.blocks (b % B)).occ = some pos) :
    pos < 64 ∧ lists (b * 64 + pos) ≠ [] ∧ ∀ i < pos, lists (b * 64 + i) = [] := by
  obtain ⟨hpos, hbit, hbefore⟩ := ctz_spec hctz
  refine ⟨hpos, (h.bits hb hend hpos).mp hbit, fun i hi => ?_⟩
  by_contra hne
  have hset := (h.bits hb hend (by omega)).mpr hne
  rw [hbefore i hi] at hset
  cases hset

omit [DecidableEq α] in
/-- A block without a set bit has no events. -/
theorem Slots.ctz_none (h : Slots B q lists) {b c : ℕ} (hb : q.curBlock ≤ b)
    (hend : b < q.curBlock + B) (hctz : ctz (q.blocks (b % B)).occ = none) (hc : c / 64 = b) :
    lists c = [] := by
  have hzero : (q.blocks (b % B)).occ = 0 := by
    by_contra hne
    obtain ⟨pos, hpos⟩ := exists_ctz (h.occ_lt _) hne
    rw [hctz] at hpos
    cases hpos
  by_contra hne
  have hcycle : c = b * 64 + c % 64 := by omega
  rw [hcycle] at hne
  have hset := (h.bits hb hend (Nat.mod_lt _ (by decide))).mpr hne
  rw [hzero, Nat.zero_testBit] at hset
  cases hset

/-- The first populated cycle of the current block gives up the top of its stack. -/
theorem blockDequeue_spec (h : Slots B q lists) (hB : 0 < B)
    (hocc : (q.blocks (q.curBlock % B)).occ ≠ 0) :
    ∃ pos o xs, pos < 64 ∧ lists (q.curBlock * 64 + pos) = o :: xs ∧
      (∀ i < pos, lists (q.curBlock * 64 + i) = []) ∧
      wp (blockDequeue (q.curBlock % B)) (fun r q' => r = (o, pos) ∧ Restacked q q' ∧
        Slots B q' (Function.update lists (q.curBlock * 64 + pos) xs)) q := by
  obtain ⟨pos, hctz⟩ := exists_ctz (h.occ_lt _) hocc
  have hbit := (ctz_spec hctz).2.1
  obtain ⟨hpos, hne, hbefore⟩ := h.ctz_some le_rfl (by omega) hctz
  obtain ⟨o, xs, hxs⟩ := List.exists_cons_of_ne_nil hne
  refine ⟨pos, o, xs, hpos, hxs, hbefore, ?_⟩
  have hblock : (q.curBlock * 64 + pos) / 64 = q.curBlock := by omega
  have hoffset : (q.curBlock * 64 + pos) % 64 = pos := by omega
  have hc : Near B q.curBlock (q.curBlock * 64 + pos) := ⟨by omega, by omega⟩
  have hchain := h.chain _ hc
  have hnodup := h.nodup (q.curBlock * 64 + pos)
  have hbits := h.occ_lt (q.curBlock % B)
  rw [hxs] at hchain hnodup
  obtain ⟨hhead, htail⟩ := hchain
  obtain ⟨hnotin, hnodup'⟩ := List.nodup_cons.mp hnodup
  have hmem : o ∈ lists (q.curBlock * 64 + pos) := hxs ▸ List.mem_cons_self
  have halone : ∀ d, d ≠ q.curBlock * 64 + pos → o ∉ lists d := fun d hd hod =>
    hd (h.apart d _ o hod hmem)
  have hempty : q.next o = none ↔ xs = [] := htail.head_eq_none
  have hwrite := @Slots.write α B q lists h _ hc (q.next o) xs (Function.update q.next o none)
    (if q.next o = none then (q.blocks (q.curBlock % B)).occ ^^^ 1 <<< pos
      else (q.blocks (q.curBlock % B)).occ) (htail.update hnotin none)
    (fun d hd y hy => Function.update_of_ne (ne_of_mem_of_not_mem hy (halone d hd)) _ _)
  rw [hblock, hoffset] at hwrite hhead
  simp only [blockDequeue, wp_bind, wp_observe, hctz, hhead, wp_change, wp_pure]
  refine ⟨trivial, rfl, hwrite ?_ ?_ ?_ hnodup' ?_ ?_⟩
  · rw [← not_iff_not, ne_eq, not_not, ← hempty]
    split
    · next hnone => simp [hbit, hnone]
    · next hsome => simp [hbit, hsome]
  · intro i hi
    split
    · rw [testBit_flip, decide_eq_false (Ne.symm hi), Bool.xor_false]
    · rfl
  · split
    · exact occ_flip_lt hbits hpos
    · exact hbits
  · intro d hd o' ho' hod
    exact hd (h.apart d _ o' hod (hxs ▸ List.mem_cons_of_mem o ho'))
  · intro o' ho' hothers
    by_cases hoo : o' = o
    · rw [hoo, Function.update_self]
    · rw [Function.update_of_ne hoo]
      refine h.free o' fun d => ?_
      by_cases hd : d = q.curBlock * 64 + pos
      · rw [hd, hxs]
        exact fun hin => (List.mem_cons.mp hin).elim hoo ho'
      · exact hothers d hd

omit [DecidableEq α] in
/-- The window moves past an empty block, whose slots the block behind it takes over. -/
theorem Slots.slide (h : Slots B q lists) (hB : 0 < B)
    (hocc : (q.blocks (q.curBlock % B)).occ = 0) :
    Slots B { q with curBlock := q.curBlock + 1 } lists ∧ ∀ c, c / 64 = q.curBlock → lists c = [] := by
  have hempty : ∀ c, c / 64 = q.curBlock → lists c = [] := by
    intro c hc
    have hnear : Near B q.curBlock c := ⟨hc.ge, by omega⟩
    have hbit := h.occ c hnear
    rw [hc, hocc, Nat.zero_testBit] at hbit
    exact not_not.mp fun hne => Bool.false_ne_true (hbit.mpr hne)
  -- the slot of a cycle of the new block is that of an empty one of the old block
  have hnew : ∀ c, c / 64 = q.curBlock + B → lists c = [] ∧
      (q.blocks (c / 64 % B)).array (c % 64) = none ∧
      (q.blocks (c / 64 % B)).occ.testBit (c % 64) = false := by
    intro c hc
    have hold : (q.curBlock * 64 + c % 64) / 64 = q.curBlock := by omega
    have hpos : (q.curBlock * 64 + c % 64) % 64 = c % 64 := by omega
    have hchain := h.chain _ ⟨hold.ge, by rw [hold]; omega⟩
    rw [hold, hpos, hempty _ hold] at hchain
    rw [hc, Nat.add_mod_right, hocc, Nat.zero_testBit]
    refine ⟨h.outside c fun hnear => ?_, hchain, rfl⟩
    obtain ⟨-, hlt⟩ := hnear
    omega
  refine ⟨⟨fun c hc => ?_, fun c hc => ?_, h.occ_lt, fun c hc => ?_, h.nodup, h.apart, h.free⟩, hempty⟩
  · obtain ⟨hc1, hc2⟩ := hc
    dsimp only at hc1 hc2 ⊢
    by_cases hlast : c / 64 = q.curBlock + B
    · obtain ⟨hlist, harray, -⟩ := hnew c hlast
      rw [hlist, harray]
      rfl
    · exact h.chain c ⟨by omega, by omega⟩
  · obtain ⟨hc1, hc2⟩ := hc
    dsimp only at hc1 hc2 ⊢
    by_cases hlast : c / 64 = q.curBlock + B
    · obtain ⟨hlist, -, hbit⟩ := hnew c hlast
      rw [hlist, hbit]
      exact ⟨fun hx => absurd hx Bool.false_ne_true, fun hx => absurd rfl hx⟩
    · exact h.occ c ⟨by omega, by omega⟩
  · by_cases hcur : c / 64 = q.curBlock
    · exact hempty c hcur
    · refine h.outside c fun hnear => hc ?_
      obtain ⟨hc1, hc2⟩ := hnear
      constructor
      · dsimp only
        omega
      · dsimp only
        omega

/-- The events of the queue: those on the stacks and the far ones, `far`. -/
structure Holds (B : ℕ) (q : PrioQueue α) (lists : ℕ → List α) (far : List (ℕ × α))
    (events : Finset (ℕ × α)) : Prop where
  slots : Slots B q lists
  member : ∀ c o, (c, o) ∈ events ↔ o ∈ lists c ∨ (c, o) ∈ far
  one : ∀ c d o, (c, o) ∈ events → (d, o) ∈ events → c = d
  apart : ∀ c o, (c, o) ∈ far → o ∉ lists c
  nodup : far.Nodup
  bounded : ∀ e ∈ events, e.1 < 2 ^ 63
  later : ∀ e ∈ events, q.curBlock ≤ e.1 / 64

/-- The queue between two calls: no far event is due before the window that
the last half rotation has folded in ends. -/
structure Represents (B : ℕ) (q : PrioQueue α) (lists : ℕ → List α) (events : Finset (ℕ × α)) :
    Prop extends Holds B q lists q.feMap events where
  sorted : q.feMap.Pairwise fun e e' => e.1 ≤ e'.1
  far : ∀ e ∈ q.feMap, q.curBlock / (B / 2) * (B / 2) + B ≤ e.1 / 64

section Events

variable {far : List (ℕ × α)} {events : Finset (ℕ × α)} {q' : PrioQueue α} {c : ℕ} {o : α}

omit [DecidableEq α] in
/-- Only the blocks, the links and the current block matter. -/
theorem Holds.congr (h : Holds B q lists far events) (hblocks : q'.blocks = q.blocks)
    (hnext : q'.next = q.next) (hcur : q'.curBlock = q.curBlock) : Holds B q' lists far events := by
  obtain ⟨blocks, feMap, curBlock, elems, next⟩ := q'
  cases hblocks
  cases hnext
  cases hcur
  exact ⟨⟨h.slots.chain, h.slots.occ, h.slots.occ_lt, h.slots.outside, h.slots.nodup, h.slots.apart,
    h.slots.free⟩, h.member, h.one, h.apart, h.nodup, h.bounded, h.later⟩

/-- A far event is put on the stack of its cycle. -/
theorem Holds.stack (h : Holds B q lists ((c, o) :: far) events) (hcur : q'.curBlock = q.curBlock)
    (hslots : Slots B q' (Function.update lists c (o :: lists c))) :
    Holds B q' (Function.update lists c (o :: lists c)) far events := by
  obtain ⟨hnotin, hnodup⟩ := List.nodup_cons.mp h.nodup
  refine ⟨hslots, fun d x => ?_, h.one, fun d x hfar => ?_, hnodup, h.bounded, ?_⟩
  · rw [h.member d x, List.mem_cons, Prod.mk.injEq]
    by_cases hdc : d = c
    · rw [hdc, Function.update_self, List.mem_cons]
      tauto
    · rw [Function.update_of_ne hdc]
      tauto
  · have hold := h.apart d x (List.mem_cons_of_mem _ hfar)
    by_cases hdc : d = c
    · subst hdc
      rw [Function.update_self]
      intro hmem
      rcases List.mem_cons.mp hmem with rfl | hmem
      · exact hnotin hfar
      · exact hold hmem
    · rw [Function.update_of_ne hdc]
      exact hold
  · rw [hcur]
    exact h.later

/-- A new event waits among the far ones. -/
theorem Holds.add (h : Holds B q lists far events) (ho : ∀ d, (d, o) ∉ events) (hc : c < 2 ^ 63)
    (hlater : q.curBlock ≤ c / 64) {far' : List (ℕ × α)} (hfar : far'.Perm ((c, o) :: far)) :
    Holds B q lists far' (insert (c, o) events) := by
  refine ⟨h.slots, fun d x => ?_, fun d e x hd he => ?_, fun d x hin => ?_, ?_, ?_, ?_⟩
  · rw [Finset.mem_insert, h.member d x, hfar.mem_iff, List.mem_cons]
    tauto
  · rw [Finset.mem_insert, Prod.mk.injEq] at hd he
    rcases hd with ⟨rfl, rfl⟩ | hd
    · rcases he with ⟨rfl, -⟩ | he
      · rfl
      · exact absurd he (ho e)
    · rcases he with ⟨rfl, rfl⟩ | he
      · exact absurd hd (ho d)
      · exact h.one d e x hd he
  · rw [hfar.mem_iff, List.mem_cons, Prod.mk.injEq] at hin
    rcases hin with ⟨rfl, rfl⟩ | hin
    · exact fun hmem => ho d ((h.member d x).mpr (.inl hmem))
    · exact h.apart d x hin
  · rw [hfar.nodup_iff, List.nodup_cons]
    exact ⟨fun hin => ho c ((h.member c o).mpr (.inr hin)), h.nodup⟩
  · intro e he
    rcases Finset.mem_insert.mp he with rfl | he
    · exact hc
    · exact h.bounded e he
  · intro e he
    rcases Finset.mem_insert.mp he with rfl | he
    · exact hlater
    · exact h.later e he

/-- The event on the top of a stack leaves the queue. -/
theorem Holds.unstack {xs : List α} (h : Holds B q lists far events) (hxs : lists c = o :: xs)
    (hcur : q'.curBlock = q.curBlock) (hslots : Slots B q' (Function.update lists c xs)) :
    Holds B q' (Function.update lists c xs) far (events.erase (c, o)) := by
  have hnodup := h.slots.nodup c
  rw [hxs] at hnodup
  obtain ⟨hnotin, -⟩ := List.nodup_cons.mp hnodup
  have hmem : o ∈ lists c := hxs ▸ List.mem_cons_self
  refine ⟨hslots, fun d x => ?_, fun d e x hd he => ?_, fun d x hfar => ?_, h.nodup, ?_, ?_⟩
  · rw [Finset.mem_erase, h.member d x, ne_eq, Prod.mk.injEq]
    by_cases hdc : d = c
    · subst hdc
      rw [Function.update_self, hxs, List.mem_cons]
      by_cases hxo : x = o
      · subst hxo
        have hfar : (d, x) ∉ far := fun hin => h.apart d x hin hmem
        tauto
      · tauto
    · rw [Function.update_of_ne hdc]
      tauto
  · exact h.one d e x (Finset.mem_of_mem_erase hd) (Finset.mem_of_mem_erase he)
  · have hold := h.apart d x hfar
    by_cases hdc : d = c
    · subst hdc
      rw [Function.update_self]
      exact fun hin => hold (hxs ▸ List.mem_cons_of_mem o hin)
    · rw [Function.update_of_ne hdc]
      exact hold
  · exact fun e he => h.bounded e (Finset.mem_of_mem_erase he)
  · rw [hcur]
    exact fun e he => h.later e (Finset.mem_of_mem_erase he)

/-- Folding in moves the far events before the end of the window to their stacks. -/
theorem foldIn_spec {topCycle : ℕ} (h : Holds B q lists far events)
    (hsorted : far.Pairwise fun e e' => e.1 ≤ e'.1) (htop : topCycle = (q.curBlock + B) * 64) :
    wp (foldIn B topCycle far) (fun _ q' => ∃ lists',
      q' = { q with blocks := q'.blocks, next := q'.next, feMap := q'.feMap } ∧
      Holds B q' lists' q'.feMap events ∧ (q'.feMap.Pairwise fun e e' => e.1 ≤ e'.1) ∧
      ∀ e ∈ q'.feMap, q.curBlock + B ≤ e.1 / 64) q := by
  induction far generalizing q lists with
  | nil =>
    rw [foldIn, wp_change]
    exact ⟨lists, rfl, h.congr rfl rfl rfl, hsorted, fun e he => absurd he List.not_mem_nil⟩
  | cons e far ih =>
    obtain ⟨c, o⟩ := e
    obtain ⟨hfirst, hsorted'⟩ := List.pairwise_cons.mp hsorted
    unfold foldIn
    split
    · next hdue =>
      have hin : (c, o) ∈ events := (h.member c o).mpr (.inr List.mem_cons_self)
      have hlater : q.curBlock ≤ c / 64 := h.later _ hin
      have hwindow : c / 64 < q.curBlock + B := by omega
      have hfree : ∀ d, o ∉ lists d := by
        intro d hod
        have hcd := h.one c d o hin ((h.member d o).mpr (.inl hod))
        exact h.apart c o List.mem_cons_self (hcd ▸ hod)
      simp only [wp_bind, wp_observe, wp_ensure]
      refine ⟨hlater, hwindow, wp_mono (blockEnqueue_spec h.slots ⟨hlater, hwindow⟩ hfree) ?_⟩
      intro _ q₁ hpush
      obtain ⟨hsame, hslots⟩ := hpush
      have hcur : q₁.curBlock = q.curBlock := by rw [hsame]
      refine wp_mono (ih (h.stack hcur hslots) hsorted' (by rw [hcur]; exact htop)) ?_
      intro _ q₂ hrest
      obtain ⟨lists', hsame₂, hholds, hsorted₂, hfar⟩ := hrest
      refine ⟨lists', ?_, hholds, hsorted₂, hcur ▸ hfar⟩
      rw [hsame₂, hsame]
    · next hdue =>
      rw [wp_change]
      refine ⟨lists, rfl, h.congr rfl rfl rfl, hsorted, fun e he => ?_⟩
      have hge : c ≤ e.1 := by
        rcases List.mem_cons.mp he with rfl | he
        · exact le_rfl
        · exact hfirst e he
      omega

end Events

section Calls

variable {events : Finset (ℕ × α)}

omit [DecidableEq α] in
/-- A far event is more than half a rotation away. -/
theorem Represents.far_gt (h : Represents B q lists events) (hB : 2 ≤ B) (heven : B % 2 = 0)
    {e : ℕ × α} (he : e ∈ q.feMap) : q.curBlock + B / 2 < e.1 / 64 := by
  have hfar := h.far e he
  have hhalf := Nat.lt_div_mul_add (a := q.curBlock) (b := B / 2) (by omega)
  omega

omit [DecidableEq α] in
/-- An event of the current block is on its stack. -/
theorem Represents.current (h : Represents B q lists events) (hB : 2 ≤ B) (heven : B % 2 = 0)
    {e : ℕ × α} (he : e ∈ events) (hcur : e.1 / 64 ≤ q.curBlock + B / 2) : e.2 ∈ lists e.1 := by
  rcases (h.member e.1 e.2).mp he with hmem | hfar
  · exact hmem
  · have hgt := h.far_gt hB heven hfar
    omega

/-- Moving on from an empty block. -/
theorem nextBlock_spec (h : Represents B q lists events) (hB : 2 ≤ B) (heven : B % 2 = 0)
    (hlt : B < 2 ^ 32) (hocc : (q.blocks (q.curBlock % B)).occ = 0) {e : ℕ × α} (he : e ∈ events) :
    wp (nextBlock B) (fun _ q' => ∃ lists', Represents B q' lists' events ∧
      q'.curBlock = q.curBlock + 1 ∧ q'.elems = q.elems) q := by
  obtain ⟨hslots, hempty⟩ := h.slots.slide (by omega) hocc
  have hlater : ∀ e ∈ events, q.curBlock + 1 ≤ e.1 / 64 := by
    intro e he
    have hge := h.later e he
    by_contra hnot
    have hmem := h.current hB heven he (by omega)
    rw [hempty e.1 (by omega)] at hmem
    cases hmem
  have hholds : Holds B { q with curBlock := q.curBlock + 1 } lists q.feMap events :=
    ⟨hslots, h.member, h.one, h.apart, h.nodup, h.bounded, hlater⟩
  simp only [nextBlock, wp_bind, wp_change, wp_observe, wp_ite, wp_pure]
  split
  · next hfold =>
    have hbound := h.bounded e he
    have hle := hlater e he
    rw [Nat.mod_eq_of_lt (by omega)]
    refine wp_mono (foldIn_spec hholds h.sorted rfl) ?_
    intro _ q' hpost
    obtain ⟨lists', hsame, hholds', hsorted, hfar⟩ := hpost
    have hcur : q'.curBlock = q.curBlock + 1 := by rw [hsame]
    have hmultiple : (q.curBlock + 1) / (B / 2) * (B / 2) = q.curBlock + 1 :=
      Nat.div_mul_cancel (Nat.dvd_of_mod_eq_zero hfold.1)
    refine ⟨lists', ⟨hholds', hsorted, ?_⟩, hcur, by rw [hsame]⟩
    rw [hcur, hmultiple]
    exact hfar
  · next hfold =>
    refine ⟨lists, ⟨hholds, h.sorted, fun e he => ?_⟩, trivial, trivial⟩
    have hne : q.feMap ≠ [] := List.ne_nil_of_mem he
    have hnot : ¬B / 2 ∣ q.curBlock + 1 := fun hdvd => hfold ⟨Nat.mod_eq_zero_of_dvd hdvd, hne⟩
    rw [Nat.succ_div_of_not_dvd hnot]
    exact h.far e he

/-- The search ends at a populated block. -/
theorem advance_spec (hB : 2 ≤ B) (heven : B % 2 = 0) (hlt : B < 2 ^ 32) {e : ℕ × α}
    (he : e ∈ events) (rounds : ℕ) (h : Represents B q lists events)
    (hrounds : e.1 / 64 < q.curBlock + rounds) :
    wp (advance B rounds) (fun _ q' => ∃ lists', Represents B q' lists' events ∧
      q'.elems = q.elems ∧ (q'.blocks (q'.curBlock % B)).occ ≠ 0) q := by
  induction rounds generalizing q lists with
  | zero =>
    have hlater := h.later e he
    omega
  | succ rounds ih =>
    simp only [advance, wp_bind, wp_observe, wp_ite, wp_pure]
    split
    · next hocc => exact ⟨lists, h, trivial, hocc⟩
    · next hocc =>
      refine wp_mono (nextBlock_spec h hB heven hlt (not_not.mp hocc) he) ?_
      intro _ q' hpost
      obtain ⟨lists', h', hcur, helems⟩ := hpost
      refine wp_mono (ih h' (by omega)) ?_
      intro _ q'' hpost'
      obtain ⟨lists'', h'', helems', hocc'⟩ := hpost'
      exact ⟨lists'', h'', helems'.trans helems, hocc'⟩

/-- A dequeue takes an event of the earliest cycle there is. -/
theorem dequeue_spec (h : Represents B q lists events) (hB : 2 ≤ B) (heven : B % 2 = 0)
    (hlt : B < 2 ^ 32) (helems : q.elems = events.card) (hne : events.Nonempty) :
    wp (dequeue B) (fun r q' => ∃ lists', (r.2, r.1) ∈ events ∧ (∀ e ∈ events, r.2 ≤ e.1) ∧
      Represents B q' lists' (events.erase (r.2, r.1)) ∧ q'.curBlock = r.2 / 64 ∧
      q'.elems = (events.erase (r.2, r.1)).card) q := by
  obtain ⟨e, he⟩ := hne
  have hpos : q.elems ≠ 0 := by
    rw [helems]
    exact Finset.card_ne_zero_of_mem he
  have hfuel : e.1 / 64 < q.curBlock + maxBlocks := by
    have hbound := h.bounded e he
    rw [maxBlocks]
    omega
  simp only [dequeue, wp_bind, wp_observe, wp_ensure]
  refine ⟨hpos, wp_mono (advance_spec hB heven hlt he maxBlocks h hfuel) ?_⟩
  intro _ q₁ hpost
  obtain ⟨lists₁, h₁, helems₁, hocc⟩ := hpost
  obtain ⟨pos, o, xs, hlt64, hxs, hbefore, hpop⟩ := blockDequeue_spec h₁.slots (by omega) hocc
  refine wp_mono hpop ?_
  intro r q₂ hpost₂
  obtain ⟨rfl, hsame, hslots⟩ := hpost₂
  have hin : (q₁.curBlock * 64 + pos, o) ∈ events :=
    (h₁.member _ o).mpr (.inl (hxs ▸ List.mem_cons_self))
  have hbound := h₁.bounded _ hin
  dsimp only at hbound
  rw [wp_change, wp_pure]
  dsimp only
  rw [Nat.mod_eq_of_lt (by omega)]
  refine ⟨Function.update lists₁ (q₁.curBlock * 64 + pos) xs, hin, fun e' he' => ?_, ?_, ?_, ?_⟩
  · -- nothing is due before the first populated cycle of the current block
    have hlater := h₁.later e' he'
    by_contra hnot
    have hmem := h₁.current hB heven he' (by omega)
    obtain ⟨i, hi, hcycle⟩ : ∃ i < pos, e'.1 = q₁.curBlock * 64 + i :=
      ⟨e'.1 - q₁.curBlock * 64, by omega, by omega⟩
    rw [hcycle, hbefore i hi] at hmem
    cases hmem
  · have hfeMap : q₂.feMap = q₁.feMap := by rw [hsame]
    have hcur : q₂.curBlock = q₁.curBlock := by rw [hsame]
    have hholds := h₁.toHolds.unstack hxs hcur hslots
    refine ⟨?_, ?_, ?_⟩
    · rw [← hfeMap] at hholds
      exact hholds.congr rfl rfl rfl
    · rw [hfeMap]
      exact h₁.sorted
    · rw [hfeMap, hcur]
      exact h₁.far
  · have hcur : q₂.curBlock = q₁.curBlock := by rw [hsame]
    rw [hcur]
    omega
  · have helems₂ : q₂.elems = q₁.elems := by rw [hsame]
    rw [Finset.card_erase_of_mem hin, helems₂, helems₁, helems]

omit [DecidableEq α] in
theorem insertFar_perm (c : ℕ) (o : α) (l : List (ℕ × α)) :
    (insertFar c o l).Perm ((c, o) :: l) := by
  induction l with
  | nil => exact List.Perm.refl _
  | cons e l ih =>
    unfold insertFar
    split
    · exact (ih.cons e).trans (List.Perm.swap _ _ _)
    · exact List.Perm.refl _

omit [DecidableEq α] in
theorem insertFar_sorted {l : List (ℕ × α)} (h : l.Pairwise fun e e' => e.1 ≤ e'.1) (c : ℕ) (o : α) :
    (insertFar c o l).Pairwise fun e e' => e.1 ≤ e'.1 := by
  induction l with
  | nil => exact List.pairwise_singleton _ _
  | cons e l ih =>
    obtain ⟨hfirst, hrest⟩ := List.pairwise_cons.mp h
    unfold insertFar
    split
    · next hle =>
      refine List.pairwise_cons.mpr ⟨fun e' he' => ?_, ih hrest⟩
      rw [(insertFar_perm c o l).mem_iff] at he'
      rcases List.mem_cons.mp he' with rfl | he'
      · exact hle
      · exact hfirst e' he'
    · next hgt =>
      refine List.pairwise_cons.mpr ⟨fun e' he' => ?_, h⟩
      rcases List.mem_cons.mp he' with rfl | he'
      · exact (not_le.mp hgt).le
      · exact (not_le.mp hgt).le.trans (hfirst e' he')

/-- An enqueue adds its event. -/
theorem enqueue_spec (h : Represents B q lists events) {c : ℕ} {o : α} (hlater : q.curBlock ≤ c / 64)
    (hbound : c < 2 ^ 63) (ho : ∀ d, (d, o) ∉ events) (helems : q.elems = events.card) :
    wp (enqueue B o c) (fun _ q' => ∃ lists', Represents B q' lists' (insert (c, o) events) ∧
      q'.curBlock = q.curBlock ∧ q'.elems = (insert (c, o) events).card) q := by
  have hcard : q.elems + 1 = (insert (c, o) events).card := by
    rw [Finset.card_insert_of_notMem (ho c), helems]
  simp only [enqueue, wp_bind, wp_observe, wp_ensure, wp_ite, wp_change]
  refine ⟨hlater, ?_⟩
  split
  · next hwindow =>
    have hfree : ∀ d, o ∉ lists d := fun d hod => ho d ((h.member d o).mpr (.inl hod))
    have hadd := h.toHolds.add ho hbound hlater (List.Perm.refl _)
    refine wp_mono (blockEnqueue_spec h.slots ⟨hlater, hwindow⟩ hfree) ?_
    intro _ q₁ hpush
    obtain ⟨hsame, hslots⟩ := hpush
    have hcur : q₁.curBlock = q.curBlock := by rw [hsame]
    have hfeMap : q₁.feMap = q.feMap := by rw [hsame]
    have helems₁ : q₁.elems = q.elems := by rw [hsame]
    have hholds := hadd.stack hcur hslots
    refine ⟨Function.update lists c (o :: lists c), ⟨?_, ?_, ?_⟩, hcur, ?_⟩
    · dsimp only
      rw [hfeMap]
      exact hholds.congr rfl rfl rfl
    · dsimp only
      rw [hfeMap]
      exact h.sorted
    · dsimp only
      rw [hfeMap, hcur]
      exact h.far
    · rw [helems₁, hcard]
  · next hwindow =>
    have hadd := h.toHolds.add ho hbound hlater (insertFar_perm c o q.feMap)
    refine ⟨lists, ⟨hadd.congr rfl rfl rfl, insertFar_sorted h.sorted c o, fun e he => ?_⟩, trivial, hcard⟩
    have hmultiple := Nat.div_mul_le_self q.curBlock (B / 2)
    dsimp only at he ⊢
    rw [(insertFar_perm c o q.feMap).mem_iff] at he
    rcases List.mem_cons.mp he with rfl | he
    · dsimp only
      omega
    · exact h.far e he

omit [DecidableEq α] in
/-- A search through the bitmaps ends at the first cycle with events. -/
theorem search_some (h : Represents B q lists events) {lo n cycle : ℕ} (hend : lo + n ≤ B)
    (hfound : q.firstNear B lo n = some cycle) :
    (∃ o, (cycle, o) ∈ events) ∧ cycle / 64 < q.curBlock + lo + n ∧
      ∀ e ∈ events, e.2 ∈ lists e.1 → q.curBlock + lo ≤ e.1 / 64 → cycle ≤ e.1 := by
  obtain ⟨i, hlo, hi, hbit, hbefore⟩ := findSome?_range'_spec n hfound
  obtain ⟨pos, hctz, rfl⟩ := Option.map_eq_some_iff.mp hbit
  obtain ⟨hpos, hne, hfirst⟩ := h.slots.ctz_some (by omega) (by omega) hctz
  obtain ⟨o, ho⟩ := List.exists_mem_of_ne_nil _ hne
  have hin := (h.member _ o).mpr (.inl ho)
  have hbound := h.bounded _ hin
  dsimp only at hbound
  rw [PrioQueue.cycleAt, Nat.mod_eq_of_lt (by omega)]
  refine ⟨⟨o, hin⟩, by omega, fun e he hmem hlater => ?_⟩
  by_contra hnot
  have hfree : lists e.1 = [] := by
    by_cases hblock : e.1 / 64 = q.curBlock + i
    · have hcycle : e.1 = (q.curBlock + i) * 64 + (e.1 - (q.curBlock + i) * 64) := by omega
      rw [hcycle]
      exact hfirst _ (by omega)
    · have hskip := hbefore (e.1 / 64 - q.curBlock) (by omega) (by omega)
      exact h.slots.ctz_none (by omega) (by omega) (Option.map_eq_none_iff.mp hskip) (by omega)
  rw [hfree] at hmem
  cases hmem

omit [DecidableEq α] in
/-- A search through the bitmaps that finds nothing has passed no events. -/
theorem search_none (h : Represents B q lists events) {lo n : ℕ} (hend : lo + n ≤ B)
    (hfound : q.firstNear B lo n = none) {e : ℕ × α} (hmem : e.2 ∈ lists e.1)
    (hlater : q.curBlock + lo ≤ e.1 / 64) : q.curBlock + lo + n ≤ e.1 / 64 := by
  by_contra hnot
  have hskip := List.findSome?_eq_none_iff.mp hfound (e.1 / 64 - q.curBlock)
    (List.mem_range'_1.mpr ⟨by omega, by omega⟩)
  have hfree := h.slots.ctz_none (c := e.1) (by omega) (by omega) (Option.map_eq_none_iff.mp hskip)
    (by omega)
  rw [hfree] at hmem
  cases hmem

omit [DecidableEq α] in
/-- The first far element is the earliest. -/
theorem Represents.head_le (h : Represents B q lists events) {e e' : ℕ × α} {l : List (ℕ × α)}
    (hfar : q.feMap = e :: l) (he' : e' ∈ q.feMap) : e.1 ≤ e'.1 := by
  have hsorted := h.sorted
  rw [hfar] at hsorted he'
  rcases List.mem_cons.mp he' with rfl | he'
  · exact le_rfl
  · exact (List.pairwise_cons.mp hsorted).1 e' he'

/-- The earliest cycle of the events. -/
def Earliest (events : Finset (ℕ × α)) (c : ℕ) : Prop :=
  (∃ o, (c, o) ∈ events) ∧ ∀ e ∈ events, c ≤ e.1

omit [DecidableEq α] in
theorem exists_earliest (hne : events.Nonempty) : ∃ c, Earliest events c := by
  obtain ⟨e, he, hmin⟩ := events.exists_min_image (fun e => e.1) hne
  exact ⟨e.1, ⟨e.2, he⟩, hmin⟩

omit [DecidableEq α] in
/-- The events are all after a cycle, or the earliest is not. -/
theorem after_or_earliest (events : Finset (ℕ × α)) (cycle : ℕ) :
    (∀ e ∈ events, cycle < e.1) ∨ ∃ first, Earliest events first ∧ first ≤ cycle := by
  rcases events.eq_empty_or_nonempty with rfl | hne
  · exact .inl fun e he => absurd he (Finset.notMem_empty e)
  · obtain ⟨first, hfirst⟩ := exists_earliest hne
    rcases Nat.lt_or_ge cycle first with hlt | hle
    · exact .inl fun e he => hlt.trans_le (hfirst.2 e he)
    · exact .inr ⟨first, hfirst, hle⟩

omit [DecidableEq α] in
theorem Earliest.unique {c d : ℕ} (hc : Earliest events c) (hd : Earliest events d) : c = d := by
  obtain ⟨⟨o, ho⟩, hmin⟩ := hc
  obtain ⟨⟨o', ho'⟩, hmin'⟩ := hd
  exact Nat.le_antisymm (hmin _ ho') (hmin' _ ho)

omit [DecidableEq α] in
/-- The first cycle is the earliest of an event. -/
theorem firstCycle_spec (h : Represents B q lists events) (hB : 2 ≤ B) (heven : B % 2 = 0)
    (helems : q.elems = events.card) (hne : events.Nonempty) :
    wp (firstCycle B) (fun c q' => q' = q ∧ Earliest events c) q := by
  have hpos : q.elems ≠ 0 := by
    rw [helems]
    exact Finset.card_ne_zero.mpr hne
  have hmem : ∀ e ∈ events, e.2 ∈ lists e.1 ∨ e ∈ q.feMap := fun e he => (h.member e.1 e.2).mp he
  have hlast : ∀ e ∈ events, e.2 ∈ lists e.1 → e.1 / 64 < q.curBlock + B := by
    intro e he hstack
    by_contra hnot
    rw [h.slots.outside e.1 fun hnear => hnot hnear.2] at hstack
    cases hstack
  simp only [firstCycle, wp_bind, wp_observe, wp_ensure]
  refine ⟨hpos, ?_⟩
  cases hfirst : q.firstNear B 0 (B / 2) with
  | some cycle =>
    obtain ⟨hin, hblock, hmin⟩ := search_some h (by omega) hfirst
    rw [wp_pure]
    refine ⟨rfl, hin, fun e he => ?_⟩
    rcases hmem e he with hstack | hfar
    · exact hmin e he hstack (h.later e he)
    · have hgt := h.far_gt hB heven hfar
      omega
  | none =>
    have hskip := fun e => search_none h (by omega) hfirst (e := e)
    cases hsecond : q.firstNear B (B / 2) (B - B / 2) with
    | some cycle =>
      obtain ⟨hin, -, hmin⟩ := search_some h (by omega) hsecond
      rw [wp_pure]
      have hle : ∀ e ∈ events, e.2 ∈ lists e.1 → cycle ≤ e.1 := by
        intro e he hstack
        have hlater := hskip e hstack (h.later e he)
        exact hmin e he hstack (by omega)
      cases hfeMap : q.feMap with
      | nil =>
        refine ⟨rfl, hin, fun e he => ?_⟩
        rcases hmem e he with hstack | hfar
        · exact hle e he hstack
        · rw [hfeMap] at hfar
          cases hfar
      | cons f l =>
        have hf : f ∈ events := (h.member f.1 f.2).mpr (.inr (hfeMap ▸ List.mem_cons_self))
        refine ⟨rfl, ?_, fun e he => ?_⟩
        · change ∃ o, (min cycle f.1, o) ∈ events
          rcases Nat.le_total cycle f.1 with hcf | hfc
          · rw [Nat.min_eq_left hcf]
            exact hin
          · rw [Nat.min_eq_right hfc]
            exact ⟨f.2, hf⟩
        · rcases hmem e he with hstack | hfar
          · exact (Nat.min_le_left _ _).trans (hle e he hstack)
          · exact (Nat.min_le_right _ _).trans (h.head_le hfeMap hfar)
    | none =>
      have hfar : ∀ e ∈ events, e ∈ q.feMap := by
        intro e he
        refine (hmem e he).resolve_left fun hstack => ?_
        have hskipped := hskip e hstack (h.later e he)
        have hbeyond := search_none h (by omega) hsecond hstack (by omega)
        have hbefore := hlast e he hstack
        omega
      cases hfeMap : q.feMap with
      | nil =>
        obtain ⟨e, he⟩ := hne
        have hin := hfar e he
        rw [hfeMap] at hin
        cases hin
      | cons f l =>
        have hf : f ∈ events := (h.member f.1 f.2).mpr (.inr (hfeMap ▸ List.mem_cons_self))
        rw [wp_pure]
        exact ⟨rfl, ⟨f.2, hf⟩, fun e he => h.head_le hfeMap (hfar e he)⟩

omit [DecidableEq α] in
/-- The queue of the constructor is empty. -/
theorem represents_new : Represents B (PrioQueue.new : PrioQueue α) (fun _ => []) ∅ := by
  constructor
  · constructor
    · exact ⟨fun _ _ => rfl, fun c _ => by simp [PrioQueue.new], fun _ => by simp [PrioQueue.new],
        fun _ _ => rfl, fun _ => List.nodup_nil, fun c d o ho => (nomatch ho), fun _ _ => rfl⟩
    · exact fun c o => by simp [PrioQueue.new]
    · exact fun c d o hc => nomatch hc
    · exact fun c o hc => nomatch hc
    · exact List.nodup_nil
    · exact fun e he => nomatch he
    · exact fun e he => nomatch he
  · exact List.Pairwise.nil
  · exact fun e he => nomatch he

end Calls

section Spec

/-- The priority multiset, and the block of the last cycle taken from it. -/
structure Pending (α : Type) where
  events : Finset (ℕ × α)
  curBlock : ℕ

/-- The queue stores the pending events. -/
def Stores (B : ℕ) (q : PrioQueue α) (p : Pending α) : Prop :=
  (∃ lists, Represents B q lists p.events) ∧ q.curBlock = p.curBlock ∧ q.elems = p.events.card

section Stores

variable {p : Pending α}

omit [DecidableEq α] in
theorem stores_new : Stores B (PrioQueue.new : PrioQueue α) ⟨∅, 0⟩ := ⟨⟨_, represents_new⟩, rfl, rfl⟩

omit [DecidableEq α] in
/-- An object has one cycle. -/
theorem Stores.one (h : Stores B q p) {c d : ℕ} {o : α} (hc : (c, o) ∈ p.events)
    (hd : (d, o) ∈ p.events) : c = d := by
  obtain ⟨⟨lists, hrep⟩, -, -⟩ := h
  exact hrep.one c d o hc hd

omit [DecidableEq α] in
theorem Stores.elems_eq_zero (h : Stores B q p) : q.elems = 0 ↔ p.events = ∅ := by
  rw [h.2.2, Finset.card_eq_zero]

theorem Stores.enqueue (h : Stores B q p) {obj : α} {cycle : ℕ} (hlater : p.curBlock ≤ cycle / 64)
    (hbound : cycle < 2 ^ 63) (hobj : ∀ c, (c, obj) ∉ p.events) :
    wp (enqueue B obj cycle)
      (fun _ q' => Stores B q' { p with events := insert (cycle, obj) p.events }) q := by
  obtain ⟨⟨lists, hrep⟩, hcur, helems⟩ := h
  refine wp_mono (enqueue_spec hrep (hcur.symm ▸ hlater) hbound hobj helems) ?_
  intro _ q' hpost
  obtain ⟨lists', hrep', hcur', helems'⟩ := hpost
  exact ⟨⟨lists', hrep'⟩, hcur'.trans hcur, helems'⟩

theorem Stores.dequeue (h : Stores B q p) (hB : 2 ≤ B) (heven : B % 2 = 0) (hlt : B < 2 ^ 32)
    (hne : p.events.Nonempty) :
    wp (dequeue B) (fun r q' => (r.2, r.1) ∈ p.events ∧ Earliest p.events r.2 ∧
      Stores B q' ⟨p.events.erase (r.2, r.1), r.2 / 64⟩) q := by
  obtain ⟨⟨lists, hrep⟩, hcur, helems⟩ := h
  refine wp_mono (dequeue_spec hrep hB heven hlt helems hne) ?_
  intro r q' hpost
  obtain ⟨lists', hin, hmin, hrep', hcur', helems'⟩ := hpost
  exact ⟨hin, ⟨⟨r.1, hin⟩, hmin⟩, ⟨lists', hrep'⟩, hcur', helems'⟩

omit [DecidableEq α] in
theorem Stores.firstCycle (h : Stores B q p) (hB : 2 ≤ B) (heven : B % 2 = 0)
    (hne : p.events.Nonempty) :
    wp (firstCycle B) (fun c q' => q' = q ∧ Earliest p.events c) q := by
  obtain ⟨⟨lists, hrep⟩, -, helems⟩ := h
  exact firstCycle_spec hrep hB heven helems hne

omit [DecidableEq α] in
/-- A first cycle that is answered is the earliest. -/
theorem Stores.earliest (h : Stores B q p) (hB : 2 ≤ B) (heven : B % 2 = 0) {first : ℕ}
    {q' : PrioQueue α} (hrun : WeaveQueue.firstCycle B q = .ok (first, q')) :
    Earliest p.events first := by
  have hne : p.events.Nonempty := by
    by_contra hempty
    have hzero : q.elems = 0 := h.elems_eq_zero.mpr (Finset.not_nonempty_iff_eq_empty.mp hempty)
    have hwp : wp (WeaveQueue.firstCycle B) (fun _ _ => True) q := ⟨first, q', hrun, trivial⟩
    simp only [WeaveQueue.firstCycle, wp_bind, wp_observe, wp_ensure] at hwp
    exact hwp.1 hzero
  obtain ⟨cycle, q₁, hrun', -, hearliest⟩ := h.firstCycle hB heven hne
  rw [hrun] at hrun'
  cases hrun'
  exact hearliest

end Stores

/-- The calls. -/
inductive Op (α : Type) where
  | enqueue (obj : α) (cycle : ℕ)
  | dequeue
  | firstCycle
  | size

/-- What the calls return. -/
inductive Answer (α : Type) where
  | done
  | object (obj : α) (deqCycle : ℕ)
  | value (n : ℕ)

/-- A call of the queue. -/
def step (B : ℕ) (q : PrioQueue α) : Op α → Except QueueFailure (Answer α × PrioQueue α)
  | .enqueue obj cycle => (enqueue B obj cycle q).map fun r => (.done, r.2)
  | .dequeue => (dequeue B q).map fun r => (.object r.1.1 r.1.2, r.2)
  | .firstCycle => (firstCycle B q).map fun r => (.value r.1, r.2)
  | .size => (size q).map fun r => (.value r.1, r.2)

/-- What the calls do to the multiset. An object has one `next` field, so it is
in the queue at most once at a time. -/
def prioMultiset : Spec (Pending α) (Op α) (Answer α) where
  allowed := fun p op => match op with
    | .enqueue obj cycle => p.curBlock ≤ cycle / 64 ∧ cycle < 2 ^ 63 ∧ ∀ c, (c, obj) ∉ p.events
    | .dequeue => p.events.Nonempty
    | .firstCycle => p.events.Nonempty
    | .size => True
  next := fun p op answer p' => match op with
    | .enqueue obj cycle => answer = .done ∧ p' = { p with events := insert (cycle, obj) p.events }
    | .dequeue => ∃ obj deqCycle, answer = .object obj deqCycle ∧ (deqCycle, obj) ∈ p.events ∧
      Earliest p.events deqCycle ∧ p' = ⟨p.events.erase (deqCycle, obj), deqCycle / 64⟩
    | .firstCycle => ∃ cycle, answer = .value cycle ∧ Earliest p.events cycle ∧ p' = p
    | .size => answer = .value p.events.card ∧ p' = p

/-- Every call does to the queue what it does to the multiset. -/
theorem step_spec (hB : 2 ≤ B) (heven : B % 2 = 0) (hlt : B < 2 ^ 32) (q : PrioQueue α)
    (p : Pending α) (op : Op α) (h : Stores B q p) (hallowed : prioMultiset.allowed p op) :
    ∃ answer q' p', step B q op = .ok (answer, q') ∧ prioMultiset.next p op answer p' ∧
      Stores B q' p' := by
  cases op with
  | enqueue obj cycle =>
    obtain ⟨hlater, hbound, hobj⟩ := hallowed
    obtain ⟨_, q', hrun, hstores⟩ :=
      wp_map (h.enqueue hlater hbound hobj) fun r => ((.done : Answer α), r.2)
    exact ⟨.done, q', _, hrun, ⟨rfl, rfl⟩, hstores⟩
  | dequeue =>
    obtain ⟨r, q', hrun, hin, hearliest, hstores⟩ :=
      wp_map (h.dequeue hB heven hlt hallowed) fun r => ((.object r.1.1 r.1.2 : Answer α), r.2)
    exact ⟨.object r.1 r.2, q', _, hrun, ⟨r.1, r.2, rfl, hin, hearliest, rfl⟩, hstores⟩
  | firstCycle =>
    obtain ⟨c, q', hrun, rfl, hearliest⟩ :=
      wp_map (h.firstCycle hB heven hallowed) fun r => ((.value r.1 : Answer α), r.2)
    exact ⟨.value c, q', p, hrun, ⟨c, rfl, hearliest, rfl⟩, h⟩
  | size => exact ⟨.value q.elems, q, p, rfl, ⟨by rw [h.2.2], rfl⟩, h⟩

/-- The queue is a priority multiset over every sequence of calls. -/
theorem queue_refines_multiset (hB : 2 ≤ B) (heven : B % 2 = 0) (hlt : B < 2 ^ 32)
    (ops : List (Op α)) : Conforms (step B) prioMultiset PrioQueue.new ⟨∅, 0⟩ ops :=
  conforms_of_simulation (step_spec hB heven hlt) stores_new ops

/-- Near and far events through a queue of four blocks. -/
theorem fourBlocks_refines : Conforms (step 4) prioMultiset PrioQueue.new ⟨∅, 0⟩
    [.enqueue "far" 1000, .enqueue "near" 7, .firstCycle, .dequeue, .dequeue] :=
  queue_refines_multiset (by decide) (by decide) (by decide) _

end Spec

end Zsim.WeaveQueueRuns
