import Mathlib.Data.List.Induction
import Mathlib.Data.List.Sort
import Zsim.CircularBuffers
import Zsim.DDRChannel
import Zsim.GuardedRuns

/-!
# The order of an activation window

The buffer of a window is read from its index on. A new activation takes the place of the
oldest one and later activations move up, until one is found that is not later. The search looks
once too often: when all others are later, it compares with the place it has just overwritten, and
moves the latest activation to the front.
-/

namespace Zsim.ActWindowOrder

open CircularBuffers DDRChannel GuardedRuns

/-- `addActivation` with its assertion. -/
def add (w : ActWindow) (actCycle : ℕ) : Option ActWindow :=
  if w.minActCycle ≤ actCycle then some (w.addActivation actCycle) else none

/-- The buffer, read circularly from the index on. -/
def read (w : ActWindow) : List ℕ := readout w.size w.buf w.idx

/-- The `N` largest cycles in ascending order, padded with zeros. -/
def latest (N : ℕ) (acts : List ℕ) : List ℕ :=
  ((List.replicate N 0 ++ acts).insertionSort (· ≤ ·)).drop acts.length

section Loop

variable {w : ActWindow} {buf : ℕ → ℕ} {a b moved : List ℕ} {cur x y z n : ℕ}

/-- The buffer in the loop: the cycles that have not moved, a place for the new one and those that
have moved up; the window has been read from its second place on. -/
structure Hole (w : ActWindow) (buf : ℕ → ℕ) (cur : ℕ) (a moved : List ℕ) : Prop where
  length : a.length + 1 + moved.length = w.size
  cur : cur = (w.idx + 1 + a.length) % w.size
  before : ∀ i y, a[i]? = some y → buf ((w.idx + 1 + i) % w.size) = y
  after : ∀ i y, moved[i]? = some y → buf ((w.idx + 2 + a.length + i) % w.size) = y

theorem dec_eq (hsize : 0 < w.size) (k : ℕ) : w.dec ((k + 1) % w.size) = k % w.size := unwrap_eq hsize k

theorem inc_eq (hidx : w.idx < w.size) : w.inc w.idx = (w.idx + 1) % w.size := by
  have hwrap := wrap_eq (Nat.zero_lt_of_lt hidx) w.idx
  rw [Nat.mod_eq_of_lt hidx] at hwrap
  rw [← hwrap]
  unfold ActWindow.inc
  split
  · next hlt => rw [if_neg (by omega)]
  · next hlt => rw [if_pos (by omega)]

/-- The last cycle that has not moved is before the hole. -/
theorem Hole.dec (h : Hole w buf cur (a ++ [y]) moved) : w.dec cur = (w.idx + 1 + a.length) % w.size ∧
    buf (w.dec cur) = y := by
  have hsize : 0 < w.size := by
    have hlen := h.length
    omega
  have hdec : w.dec cur = (w.idx + 1 + a.length) % w.size := by
    rw [h.cur, List.length_append]
    exact dec_eq hsize _
  refine ⟨hdec, ?_⟩
  rw [hdec]
  exact h.before a.length y List.getElem?_concat_length

/-- A later cycle moves up. -/
theorem Hole.move (h : Hole w buf cur (a ++ [y]) moved) :
    Hole w (Function.update buf cur (buf (w.dec cur))) (w.dec cur) a (y :: moved) := by
  obtain ⟨hdec, hbuf⟩ := h.dec
  have hlen := h.length
  have hcur := h.cur
  rw [List.length_append, List.length_singleton] at hlen hcur
  rw [hbuf]
  refine ⟨by rw [List.length_cons]; omega, hdec, fun i z hi => ?_, fun i z hi => ?_⟩
  · have hia := (List.getElem?_eq_some_iff.mp hi).1
    have hne : (w.idx + 1 + i) % w.size ≠ cur := by
      rw [hcur]
      exact (mod_ne (by omega) (by omega)).symm
    rw [Function.update_of_ne hne]
    refine h.before i z ?_
    rw [List.getElem?_append_left hia]
    exact hi
  · cases i with
    | zero =>
      cases hi
      have heq : (w.idx + 2 + a.length + 0) % w.size = cur := by
        rw [hcur]
        congr 1
        omega
      rw [heq, Function.update_self]
    | succ i =>
      have hi' : moved[i]? = some z := hi
      have him := (List.getElem?_eq_some_iff.mp hi').1
      have hne : (w.idx + 2 + a.length + (i + 1)) % w.size ≠ cur := by
        rw [hcur]
        exact mod_ne (by omega) (by omega)
      have hplace : w.idx + 2 + a.length + (i + 1) = w.idx + 2 + (a ++ [y]).length + i := by
        rw [List.length_append, List.length_singleton]
        omega
      rw [Function.update_of_ne hne, hplace]
      exact h.after i z hi'

/-- The loop moves all later cycles up. -/
theorem reorder_moves (h : Hole w buf cur (a ++ b) moved) (hidx : w.idx < w.size) (hb : ∀ z ∈ b, x < z) :
    ∃ buf' cur', Hole w buf' cur' a (b ++ moved) ∧
      w.reorder x (n + b.length) buf cur = w.reorder x n buf' cur' := by
  induction b using List.reverseRecOn generalizing buf cur moved with
  | nil => exact ⟨buf, cur, by rw [List.append_nil] at h; exact h, rfl⟩
  | append_singleton b z ih =>
    rw [← List.append_assoc] at h
    obtain ⟨hdec, hbuf⟩ := h.dec
    have hlen := h.length
    rw [List.length_append, List.length_singleton] at hlen
    have hz : x < buf (w.dec cur) := by
      rw [hbuf]
      exact hb z (List.mem_append_right _ List.mem_cons_self)
    have hne : w.dec cur ≠ w.idx := by
      rw [hdec]
      have hmod := @mod_ne w.size w.idx (w.idx + 1 + (a ++ b).length) (by omega) (by omega)
      rw [Nat.mod_eq_of_lt hidx] at hmod
      exact hmod
    obtain ⟨buf', cur', hole, hrest⟩ := ih h.move fun y hy => hb y (List.mem_append_left _ hy)
    refine ⟨buf', cur', by rw [List.append_assoc]; exact hole, ?_⟩
    rw [List.length_append, List.length_singleton, ← Nat.add_assoc, ActWindow.reorder, if_pos hz]
    dsimp only
    rw [if_neg hne]
    exact hrest

/-- The loop stops at a cycle that is not later. -/
theorem reorder_stops (h : Hole w buf cur (a ++ [y]) moved) (hy : y ≤ x) : w.reorder x (n + 1) buf cur = (buf, cur) := by
  rw [ActWindow.reorder, if_neg]
  rw [h.dec.2]
  exact Nat.not_lt.mpr hy

/-- The window after the new cycle has been put into the hole. -/
theorem Hole.read (h : Hole w buf cur a moved) (hidx : w.idx < w.size) :
    read { w with buf := Function.update buf cur x, idx := w.inc w.idx } = a ++ x :: moved := by
  have hlen := h.length
  have hsize : 0 < w.size := by omega
  have hinc := inc_eq hidx
  have hlength : (a ++ x :: moved).length = w.size := by
    rw [List.length_append, List.length_cons]
    omega
  refine readout_eq hlength fun i z hi => ?_
  change Function.update buf cur x ((w.inc w.idx + i) % w.size) = z
  rw [hinc, Nat.mod_add_mod, h.cur]
  by_cases hia : i < a.length
  · rw [List.getElem?_append_left hia] at hi
    have hne : (w.idx + 1 + i) % w.size ≠ (w.idx + 1 + a.length) % w.size := (mod_ne (by omega) (by omega)).symm
    rw [Function.update_of_ne hne]
    exact h.before i z hi
  · rw [List.getElem?_append_right (Nat.le_of_not_lt hia)] at hi
    by_cases heq : i = a.length
    · rw [heq, Nat.sub_self] at hi
      cases hi
      rw [heq, Function.update_self]
    · obtain ⟨j, hj⟩ : ∃ j, i - a.length = j + 1 := ⟨i - a.length - 1, by omega⟩
      rw [hj] at hi
      have hi' : moved[j]? = some z := hi
      have hjm := (List.getElem?_eq_some_iff.mp hi').1
      have hne : (w.idx + 1 + i) % w.size ≠ (w.idx + 1 + a.length) % w.size := mod_ne (by omega) (by omega)
      have hplace : w.idx + 1 + i = w.idx + 2 + a.length + j := by omega
      rw [Function.update_of_ne hne, hplace]
      exact h.after j z hi'

/-- Before the loop only the oldest cycle is out. -/
theorem hole_start {l : List ℕ} (hread : ActWindowOrder.read w = z :: l) (hidx : w.idx < w.size) :
    Hole w w.buf w.idx l [] := by
  have hlen : l.length + 1 = w.size := by
    have hlen := @length_readout _ w.size w.buf w.idx
    change (ActWindowOrder.read w).length = w.size at hlen
    rw [hread] at hlen
    exact hlen
  refine ⟨hlen, ?_, fun i y hi => ?_, fun i y hi => (nomatch hi)⟩
  · have hround : w.idx + 1 + l.length = w.idx + w.size := by omega
    rw [hround, Nat.add_mod_right, Nat.mod_eq_of_lt hidx]
  · have hil := (List.getElem?_eq_some_iff.mp hi).1
    have hplace := @getElem?_readout _ w.size w.buf w.idx (i + 1) (by omega)
    change (ActWindowOrder.read w)[i + 1]? = _ at hplace
    rw [hread, List.getElem?_cons_succ, hi] at hplace
    have hsum : w.idx + 1 + i = w.idx + (i + 1) := by omega
    rw [hsum]
    exact (Option.some.inj hplace).symm

/-- A new cycle that is not before all others is put in order. -/
theorem addActivation_read (hread : read w = z :: (a ++ y :: b)) (hidx : w.idx < w.size) (hy : y ≤ x)
    (hb : ∀ z ∈ b, x < z) : read (w.addActivation x) = a ++ y :: x :: b := by
  have hsplit : a ++ y :: b = a ++ [y] ++ b := by rw [List.append_assoc, List.singleton_append]
  rw [hsplit] at hread
  have hstart := hole_start hread hidx
  have hlen := hstart.length
  rw [List.length_append, List.length_append, List.length_singleton, List.length_nil] at hlen
  have hfuel : w.size = a.length + 1 + 1 + b.length := by omega
  obtain ⟨buf', cur', hole, hmoves⟩ := @reorder_moves w w.buf (a ++ [y]) b [] w.idx x (a.length + 1 + 1) hstart hidx hb
  rw [← hfuel, reorder_stops hole hy] at hmoves
  have hfinal := @Hole.read w buf' (a ++ [y]) (b ++ []) cur' x hole hidx
  rw [List.append_nil, List.append_assoc, List.singleton_append] at hfinal
  unfold ActWindow.addActivation
  rw [hmoves]
  exact hfinal

/-- In a window of one cycle the new one takes the place of the old one. -/
theorem addActivation_single (hread : read w = [z]) (hidx : w.idx < w.size) (hz : z ≤ x) :
    read (w.addActivation x) = [x] := by
  have hstart := hole_start hread hidx
  have hone : w.size = 1 := hstart.length.symm
  have hzero : w.idx = 0 := by omega
  have hdec : w.dec w.idx = w.idx := by
    have hmod := dec_eq (w := w) (by omega) 0
    rw [hone] at hmod
    rw [hzero]
    exact hmod
  have hbuf : w.buf w.idx = z := by
    have hplace := @getElem?_readout _ w.size w.buf w.idx 0 (by omega)
    change (read w)[0]? = _ at hplace
    rw [hread, Nat.add_zero, Nat.mod_eq_of_lt hidx] at hplace
    exact (Option.some.inj hplace).symm
  have hstop : w.reorder x w.size w.buf w.idx = (w.buf, w.idx) := by
    rw [hone, ActWindow.reorder, if_neg]
    rw [hdec, hbuf]
    exact Nat.not_lt.mpr hz
  unfold ActWindow.addActivation
  rw [hstop]
  exact hstart.read hidx

/-- A new cycle that is before all others gets the latest one put before them. -/
theorem addActivation_spoils (hread : read w = z :: (a ++ [y])) (hidx : w.idx < w.size) (hb : ∀ z ∈ a ++ [y], x < z) :
    (w.addActivation x).minActCycle = y := by
  have hstart := hole_start hread hidx
  have hlen := hstart.length
  rw [List.length_append, List.length_singleton, List.length_nil] at hlen
  have hfuel : w.size = 1 + (a ++ [y]).length := by
    rw [List.length_append, List.length_singleton]
    omega
  obtain ⟨buf', cur', hole, hmoves⟩ := @reorder_moves w w.buf [] (a ++ [y]) [] w.idx x 1 hstart hidx hb
  have hcur := hole.cur
  rw [List.length_nil, Nat.add_zero] at hcur
  have hdec : w.dec cur' = w.idx := by
    rw [hcur, dec_eq (by omega), Nat.mod_eq_of_lt hidx]
  have hbuf : buf' w.idx = y := by
    have hafter := hole.after a.length y (by rw [List.append_nil]; exact List.getElem?_concat_length)
    have hround : w.idx + 2 + ([] : List ℕ).length + a.length = w.idx + w.size := by
      rw [List.length_nil]
      omega
    rw [hround, Nat.add_mod_right, Nat.mod_eq_of_lt hidx] at hafter
    exact hafter
  have hy : x < buf' (w.dec cur') := by
    rw [hdec, hbuf]
    exact hb y (List.mem_append_right _ List.mem_cons_self)
  have hspoil : w.reorder x 1 buf' cur' = (Function.update buf' cur' y, w.idx) := by
    rw [ActWindow.reorder, if_pos hy]
    dsimp only
    rw [hdec, if_pos rfl, hbuf]
  have hne : cur' ≠ w.idx := by
    have hmod := @mod_ne w.size w.idx (w.idx + 1) (Nat.lt_succ_self _) (by omega)
    rw [Nat.mod_eq_of_lt hidx] at hmod
    rw [hcur]
    exact hmod
  have hinc : w.inc w.idx = cur' := by rw [hcur, inc_eq hidx]
  rw [← hfuel, hspoil] at hmoves
  unfold ActWindow.addActivation
  rw [hmoves]
  change Function.update (Function.update buf' cur' y) w.idx x (w.inc w.idx) = y
  rw [hinc, Function.update_of_ne hne, Function.update_self]

end Loop

section Latest

variable {N x z : ℕ} {acts l l' : List ℕ}

/-- A list ends with what is later than a cycle. -/
theorem split_later (l : List ℕ) (x : ℕ) : (∀ z ∈ l, x < z) ∨ ∃ a y b, l = a ++ y :: b ∧ y ≤ x ∧ ∀ z ∈ b, x < z := by
  induction l with
  | nil => exact Or.inl fun z hz => (nomatch hz)
  | cons c l ih =>
    cases ih with
    | inl hall =>
      by_cases hc : c ≤ x
      · exact Or.inr ⟨[], c, l, rfl, hc, hall⟩
      · exact Or.inl (List.forall_mem_cons.mpr ⟨Nat.lt_of_not_le hc, hall⟩)
    | inr hsplit =>
      obtain ⟨a, y, b, rfl, hy, hb⟩ := hsplit
      exact Or.inr ⟨c :: a, y, b, rfl, hy, hb⟩

/-- All cycles in order. -/
def ordered (N : ℕ) (acts : List ℕ) : List ℕ := (List.replicate N 0 ++ acts).insertionSort (· ≤ ·)

theorem ordered_pairwise : (ordered N acts).Pairwise (· ≤ ·) := List.pairwise_insertionSort (· ≤ ·) _

theorem ordered_perm : (ordered N acts).Perm (List.replicate N 0 ++ acts) := List.perm_insertionSort (· ≤ ·) _

theorem length_ordered : (ordered N acts).length = N + acts.length := by
  rw [ordered_perm.length_eq, List.length_append, List.length_replicate]

theorem latest_pairwise : (latest N acts).Pairwise (· ≤ ·) := List.Pairwise.drop ordered_pairwise

/-- One more cycle goes between the cycles that are not later and those that are. -/
theorem ordered_append (hsplit : ordered N acts = l ++ l') (hl : ∀ y ∈ l, y ≤ x) (hl' : ∀ y ∈ l', x < y) :
    ordered N (acts ++ [x]) = l ++ x :: l' := by
  have hsorted := @ordered_pairwise N acts
  rw [hsplit] at hsorted
  obtain ⟨hpre, hpost, hcross⟩ := List.pairwise_append.mp hsorted
  have htarget : (l ++ x :: l').Pairwise (· ≤ ·) := by
    refine List.pairwise_append.mpr ⟨hpre, List.pairwise_cons.mpr ⟨fun y hy => (hl' y hy).le, hpost⟩, ?_⟩
    intro y hy
    exact List.forall_mem_cons.mpr ⟨hl y hy, hcross y hy⟩
  have hperm : (ordered N (acts ++ [x])).Perm (l ++ x :: l') := by
    calc (ordered N (acts ++ [x])).Perm (List.replicate N 0 ++ (acts ++ [x])) := ordered_perm
      _ = List.replicate N 0 ++ acts ++ [x] := (List.append_assoc ..).symm
      List.Perm _ (ordered N acts ++ [x]) := ordered_perm.symm.append_right [x]
      List.Perm _ (x :: ordered N acts) := List.perm_append_singleton ..
      _ = x :: (l ++ l') := by rw [hsplit]
      List.Perm _ (l ++ x :: l') := List.perm_middle.symm
  exact List.Perm.eq_of_pairwise' ordered_pairwise htarget hperm

theorem ordered_eq : ordered N acts = (ordered N acts).take acts.length ++ latest N acts :=
  (List.take_append_drop ..).symm

theorem length_take_ordered : ((ordered N acts).take acts.length).length = acts.length := by
  rw [List.length_take, length_ordered]
  omega

/-- The cycles before the `N` largest ones are not larger. -/
theorem take_le {y : ℕ} (hy : y ∈ (ordered N acts).take acts.length) (hz : z ∈ latest N acts) : y ≤ z := by
  have hsorted := @ordered_pairwise N acts
  rw [ordered_eq] at hsorted
  exact (List.pairwise_append.mp hsorted).2.2 y hy z hz

/-- One more cycle takes the place of the smallest one. -/
theorem latest_append (hlatest : latest N acts = z :: (l ++ l')) (hz : z ≤ x) (hl : ∀ y ∈ l, y ≤ x)
    (hl' : ∀ y ∈ l', x < y) : latest N (acts ++ [x]) = l ++ x :: l' := by
  have hsplit : ordered N acts = ((ordered N acts).take acts.length ++ z :: l) ++ l' := by
    rw [List.append_assoc, List.cons_append, ← hlatest]
    exact ordered_eq
  have hbefore : ∀ y ∈ (ordered N acts).take acts.length ++ z :: l, y ≤ x := by
    refine List.forall_mem_append.mpr ⟨fun y hy => ?_, List.forall_mem_cons.mpr ⟨hz, hl⟩⟩
    refine (take_le hy ?_).trans hz
    rw [hlatest]
    exact List.mem_cons_self
  have hdrop : (acts ++ [x]).length = ((ordered N acts).take acts.length ++ [z]).length := by
    rw [List.length_append, List.length_append, length_take_ordered]
    rfl
  change (ordered N (acts ++ [x])).drop _ = _
  have hshape : (ordered N acts).take acts.length ++ z :: l ++ x :: l' =
      (ordered N acts).take acts.length ++ [z] ++ (l ++ x :: l') := by
    rw [List.append_assoc, List.append_assoc, List.cons_append, List.singleton_append]
  rw [ordered_append hsplit hbefore hl', hdrop, hshape, List.drop_left]

/-- When the smallest of the `N` largest cycles is not later, the later ones are among the others. -/
theorem countP_later (hlatest : latest N acts = z :: l) (hz : z ≤ x) :
    acts.countP (x < ·) = l.countP (x < ·) := by
  have hzeros : (List.replicate N 0).countP (x < ·) = 0 := by
    refine List.countP_eq_zero.mpr fun y hy => ?_
    rw [List.eq_of_mem_replicate hy, decide_eq_true_eq]
    exact Nat.not_lt_zero x
  have hpre : ((ordered N acts).take acts.length).countP (x < ·) = 0 := by
    refine List.countP_eq_zero.mpr fun y hy => ?_
    rw [decide_eq_true_eq]
    refine Nat.not_lt.mpr ((take_le hy ?_).trans hz)
    rw [hlatest]
    exact List.mem_cons_self
  have hcount := (@ordered_perm N acts).countP_eq (x < ·)
  rw [List.countP_append, hzeros, Nat.zero_add, ordered_eq, List.countP_append, hpre, Nat.zero_add, hlatest,
    List.countP_cons_of_neg (by rw [decide_eq_true_eq]; exact Nat.not_lt.mpr hz)] at hcount
  exact hcount.symm

end Latest

section Runs

variable {w w' : ActWindow} {N x : ℕ} {acts : List ℕ}

theorem add_some (h : add w x = some w') : w.minActCycle ≤ x ∧ w.addActivation x = w' := by
  unfold add at h
  split at h
  · next hle => exact ⟨hle, Option.some.inj h⟩
  · cases h

/-- The window has its size and its index is inside. -/
def Shaped (N : ℕ) (w : ActWindow) : Prop := w.size = N ∧ w.idx < N

theorem Shaped.add (h : Shaped N w) (hadd : add w x = some w') : Shaped N w' := by
  obtain ⟨hsize, hidx⟩ := h
  obtain ⟨-, rfl⟩ := add_some hadd
  refine ⟨hsize, ?_⟩
  change w.inc w.idx < N
  rw [inc_eq (hsize ▸ hidx), hsize]
  exact Nat.mod_lt _ (Nat.zero_lt_of_lt hidx)

theorem Shaped.read_head (h : Shaped N w) : (read w)[0]? = some w.minActCycle := by
  obtain ⟨hsize, hidx⟩ := h
  have hplace := @getElem?_readout _ w.size w.buf w.idx 0 (by omega)
  rw [Nat.add_zero, Nat.mod_eq_of_lt (hsize ▸ hidx)] at hplace
  exact hplace

theorem Shaped.read_cons (h : Shaped N w) : ∃ l, read w = w.minActCycle :: l ∧ l.length + 1 = N := by
  have hhead := h.read_head
  have hlen : (read w).length = w.size := length_readout
  rw [h.1] at hlen
  cases hread : read w with
  | nil =>
    rw [hread] at hhead
    cases hhead
  | cons z l =>
    rw [hread] at hhead hlen
    exact ⟨l, by rw [Option.some.inj hhead], hlen⟩

/-- One activation keeps the window in order unless all but the oldest cycle are later. -/
theorem add_keeps_iff (hshape : Shaped N w) (hread : read w = latest N acts) (hadd : add w x = some w') :
    read w' = latest N (acts ++ [x]) ↔ N = 1 ∨ acts.countP (x < ·) + 1 < N := by
  obtain ⟨l, hcons, hlen⟩ := hshape.read_cons
  obtain ⟨hle, rfl⟩ := add_some hadd
  have hidx : w.idx < w.size := hshape.1.symm ▸ hshape.2
  have hlatest := hread.symm.trans hcons
  have hsorted := @latest_pairwise N acts
  rw [hlatest] at hsorted
  rw [countP_later hlatest hle]
  cases split_later l x with
  | inl hall =>
    have hcount : l.countP (x < ·) = l.length := List.countP_eq_length.mpr fun z hz => decide_eq_true (hall z hz)
    have hnext := @latest_append N x w.minActCycle acts [] l hlatest hle (fun y hy => (nomatch hy)) hall
    rw [hnext, List.nil_append]
    cases l using List.reverseRecOn with
    | nil => exact iff_of_true (addActivation_single hcons hidx hle) (Or.inl hlen.symm)
    | append_singleton l y =>
      rw [List.length_append, List.length_singleton] at hlen hcount
      refine iff_of_false (fun heq => ?_) (by omega)
      have hhead := (hshape.add hadd).read_head
      rw [heq, addActivation_spoils hcons hidx hall] at hhead
      have hx : x = y := Option.some.inj hhead
      exact Nat.lt_irrefl y (hx ▸ hall y (List.mem_append_right _ List.mem_cons_self))
  | inr hsplit =>
    obtain ⟨a, y, b, rfl, hy, hb⟩ := hsplit
    have hcount : (a ++ y :: b).countP (x < ·) < (a ++ y :: b).length := by
      refine (Nat.lt_or_eq_of_le List.countP_le_length).resolve_right fun heq => ?_
      have hlater := List.countP_eq_length.mp heq y (List.mem_append_right _ List.mem_cons_self)
      exact Nat.not_lt.mpr hy (of_decide_eq_true hlater)
    have hbefore : ∀ z ∈ a ++ [y], z ≤ x := by
      refine List.forall_mem_append.mpr ⟨fun z hz => ?_, fun z hz => ?_⟩
      · have hzy := (List.pairwise_append.mp (List.pairwise_cons.mp hsorted).2).2.2 z hz y List.mem_cons_self
        exact hzy.trans hy
      · rw [List.mem_singleton.mp hz]
        exact hy
    have hsplit : a ++ y :: b = a ++ [y] ++ b := by rw [List.append_assoc, List.singleton_append]
    refine iff_of_true ?_ (Or.inr (by omega))
    rw [addActivation_read hcons hidx hy hb, latest_append (hsplit ▸ hlatest) hle hbefore hb, List.append_assoc,
      List.singleton_append]

theorem shaped_init (hN : 0 < N) : Shaped N (.init N) := ⟨rfl, hN⟩

theorem read_init : read (.init N) = latest N [] := by
  have hzeros : latest N [] = List.replicate N 0 := by
    refine List.perm_replicate.mp ?_
    have hperm := @ordered_perm N []
    rw [List.append_nil] at hperm
    exact hperm
  rw [hzeros]
  refine readout_eq List.length_replicate fun i z hi => ?_
  exact (List.eq_of_mem_replicate (List.mem_of_getElem? hi)).symm

theorem run_shaped (hN : 0 < N) (hrun : run add (.init N) acts = some w) : Shaped N w :=
  run_invariant (fun _ _ _ hs hadd => hs.add hadd) (shaped_init hN) hrun

/-- The window is the list of the latest cycles at all times exactly when no activation comes after as many
later ones as the window has other cycles. -/
theorem keeps_latest_iff (hN : 0 < N) (hrun : run add (.init N) acts = some w) :
    (∀ pre post w', acts = pre ++ post → run add (.init N) pre = some w' →
      read w' = latest N pre ∧ (latest N pre)[0]? = some w'.minActCycle) ↔
    ∀ pre x post, acts = pre ++ x :: post → N = 1 ∨ pre.countP (x < ·) + 1 < N := by
  constructor
  · intro h pre x post heq
    rw [heq] at hrun
    obtain ⟨w₁, hpre, hrest⟩ := run_append.mp hrun
    obtain ⟨w₂, hadd, -⟩ := run_cons.mp hrest
    have hnext : run add (.init N) (pre ++ [x]) = some w₂ := run_append.mpr ⟨w₁, hpre, by rw [run, hadd]; rfl⟩
    have hread := (h pre (x :: post) w₁ heq hpre).1
    have hread' := (h (pre ++ [x]) post w₂ (by rw [heq, List.append_assoc]; rfl) hnext).1
    exact (add_keeps_iff (run_shaped hN hpre) hread hadd).mp hread'
  · intro h pre post w' heq hpre
    have hread : read w' = latest N pre := by
      induction pre using List.reverseRecOn generalizing post w' with
      | nil =>
        cases hpre
        exact read_init
      | append_singleton pre x ih =>
        rw [List.append_assoc, List.singleton_append] at heq
        obtain ⟨w₁, hfirst, hlast⟩ := run_append.mp hpre
        obtain ⟨w₂, hadd, hnil⟩ := run_cons.mp hlast
        cases hnil
        exact (add_keeps_iff (run_shaped hN hfirst) (ih (x :: post) w₁ heq hfirst) hadd).mpr (h pre x post heq)
    have hhead := (run_shaped hN hpre).read_head
    rw [hread] at hhead
    exact ⟨hread, hhead⟩

/-- Four activations in a window of four, the last one late. -/
theorem keeps_latest_iff_four : ∃ w, run add (.init 4) [7, 3, 9, 5] = some w ∧
    ((∀ pre post w', [7, 3, 9, 5] = pre ++ post → run add (.init 4) pre = some w' →
      read w' = latest 4 pre ∧ (latest 4 pre)[0]? = some w'.minActCycle) ↔
    ∀ pre x post, [7, 3, 9, 5] = pre ++ x :: post → 4 = 1 ∨ pre.countP (x < ·) + 1 < 4) :=
  ⟨_, rfl, keeps_latest_iff (N := 4) (by decide) rfl⟩

/-- In a window of four an activation after three later ones: the latest one goes to the front, the window is not
ascending, and the cycle to wait for is the latest one. -/
theorem late_activation_spoils : ∃ w, run add (.init 4) [10, 11, 12, 5] = some w ∧ read w = [12, 10, 11, 5] ∧
    latest 4 [10, 11, 12, 5] = [5, 10, 11, 12] ∧ w.minActCycle = 12 ∧
    ¬∀ pre post w', [10, 11, 12, 5] = pre ++ post → run add (.init 4) pre = some w' →
      read w' = latest 4 pre ∧ (latest 4 pre)[0]? = some w'.minActCycle := by
  refine ⟨_, rfl, by decide, by decide, rfl, fun h => ?_⟩
  have hread := (h [10, 11, 12, 5] [] _ rfl rfl).1
  revert hread
  decide

end Runs

end Zsim.ActWindowOrder
