import Mathlib.Algebra.Order.Ring.WithTop
import Mathlib.Algebra.Order.Ring.Int
import Zsim.DDRFrames
import Mathlib.Data.List.Nodup
import Mathlib.Order.MinMax
import Mathlib.Data.List.Perm.Basic

/-!
# The tables of the DDR controller

The nodes of a queue are used or free, and the lists of the banks share out the
used ones: each queued request is in the list of its own bank, once, and in no
other list. Queueing puts a free node into the list of its bank, serving takes
the first request of a bank out. A queue that is not empty has a request that
is first in its bank, so the search of `trySchedule` has a finite result.
-/

namespace Zsim.DDRTables

open DDRChannel DDRController DDRFrames

variable {c : DDRConfig} {t : ReqTable} {id : ℕ}

section Lists

variable {x m : ℕ} {xs : List ℕ}

/-- An element without a predecessor is the head. -/
theorem head_of_prevIn (hx : x ∈ xs) (h : prevIn xs x = none) : ∃ ys, xs = x :: ys := by
  induction xs with
  | nil => cases hx
  | cons a xs ih =>
    cases xs with
    | nil => exact ⟨[], by rw [List.mem_singleton.mp hx]⟩
    | cons b xs =>
      unfold prevIn at h
      split at h
      · cases h
      case isFalse hb =>
        cases List.mem_cons.mp hx with
        | inl heq => exact ⟨b :: xs, by rw [heq]⟩
        | inr hmem =>
          obtain ⟨ys, hys⟩ := ih hmem h
          cases hys
          exact (hb rfl).elim

/-- The head has no predecessor. -/
theorem prevIn_head (h : (x :: xs).Nodup) : prevIn (x :: xs) x = none := by
  have hne : ∀ ys a, x ∉ ys → prevIn (a :: ys) x = none := by
    intro ys
    induction ys with
    | nil => exact fun a _ => rfl
    | cons b ys ih =>
      intro a hx
      unfold prevIn
      rw [if_neg (ne_of_mem_of_not_mem List.mem_cons_self hx)]
      exact ih b fun hmem => hx (List.mem_cons_of_mem b hmem)
  exact hne xs x (List.nodup_cons.mp h).1

theorem insertAfter_perm (hm : m ∈ xs) (x : ℕ) : (insertAfter m x xs).Perm (x :: xs) := by
  induction xs with
  | nil => cases hm
  | cons a xs ih =>
    unfold insertAfter
    split
    · exact List.Perm.swap x a xs
    case isFalse ha =>
      have hmem : m ∈ xs := (List.mem_cons.mp hm).resolve_left (Ne.symm ha)
      exact ((ih hmem).cons a).trans (List.Perm.swap x a xs)

end Lists

/-- The nodes of a queue, and the lists of the banks. -/
structure TableOk (queueDepth : ℕ) (t : ReqTable) : Prop where
  nodes : (t.reqList ++ t.freeList).Perm (List.range queueDepth)
  listed : ∀ bank i, i ∈ t.bankReqs bank ↔ i ∈ t.reqList ∧ (t.elem i).loc.bankId = bank
  nodup : ∀ bank, (t.bankReqs bank).Nodup

theorem tableOk_new (queueDepth : ℕ) : TableOk queueDepth (.new queueDepth) where
  nodes := List.Perm.refl _
  listed := fun _ _ => ⟨fun h => (nomatch h), fun h => (nomatch h.1)⟩
  nodup := fun _ => List.nodup_nil

section TableOk

variable {n : ℕ} (h : TableOk n t)
include h

theorem TableOk.nodes_nodup : (t.reqList ++ t.freeList).Nodup :=
  h.nodes.nodup_iff.mpr List.nodup_range

theorem TableOk.reqList_nodup : t.reqList.Nodup := (List.nodup_append.mp h.nodes_nodup).1

/-- Every queued request is in the list of its bank. -/
theorem TableOk.mem_listOf (hid : id ∈ t.reqList) : id ∈ t.listOf id := (h.listed _ id).mpr ⟨hid, rfl⟩

/-- It is there once, and in no other list. -/
theorem TableOk.count_bankReqs (hid : id ∈ t.reqList) (bank : ℕ × ℕ) :
    (t.bankReqs bank).count id = if bank = (t.elem id).loc.bankId then 1 else 0 := by
  split
  case isTrue hbank =>
    rw [hbank]
    exact List.count_eq_one_of_mem (h.nodup _) (h.mem_listOf hid)
  case isFalse hbank =>
    rw [List.count_eq_zero]
    exact fun hmem => hbank ((h.listed bank id).mp hmem).2.symm

/-- The last free node is not in use. -/
theorem TableOk.free_notMem (hid : t.freeList.getLast? = some id) : id ∉ t.reqList := by
  intro hmem
  have hfree : id ∈ t.freeList := List.mem_of_getLast? hid
  exact (List.nodup_append.mp h.nodes_nodup).2.2 id hmem id hfree rfl

end TableOk

section Queueing

variable {rowHitLimit memCycle : ℕ} {bank : Bank} {req : Request}

/-- The list of the bank gets the request, at some place. -/
theorem place_perm : (t.place id rowHitLimit bank req).2.Perm (id :: t.bankReqs req.loc.bankId) := by
  have hback : (t.bankReqs req.loc.bankId ++ [id]).Perm (id :: t.bankReqs req.loc.bankId) :=
    List.perm_append_singleton ..
  unfold ReqTable.place
  dsimp only
  split
  case h_1 m hfind =>
    have hm : m ∈ t.bankReqs req.loc.bankId := List.mem_reverse.mp (List.mem_of_find?_eq_some hfind)
    split
    · exact insertAfter_perm hm id
    · exact hback
  case h_2 =>
    split
    · exact List.Perm.refl _
    · exact hback

/-- The requests of a table, in the order of their arrival. -/
def requests (t : ReqTable) : List Request := t.reqList.map t.elem

/-- The request as it is queued. -/
def linked (t : ReqTable) (id rowHitLimit : ℕ) (bank : Bank) (req : Request) (memCycle : ℕ) : Request :=
  { queuedAt req memCycle with
    rowHitSeq := (((t.alloc id).store id req).place id rowHitLimit bank (queuedAt req memCycle)).1 }

theorem inserted_elem (i : ℕ) : (inserted t id rowHitLimit bank req memCycle).elem i =
    if i = id then linked t id rowHitLimit bank req memCycle else t.elem i := by
  unfold inserted ReqTable.link ReqTable.store
  dsimp only
  split
  case isTrue hi =>
    rw [hi, Function.update_self]
    rfl
  case isFalse hi => rw [Function.update_of_ne hi, Function.update_of_ne hi]; rfl

/-- Queueing appends the request to those of the table. -/
theorem requests_inserted (hid : id ∉ t.reqList) :
    requests (inserted t id rowHitLimit bank req memCycle) =
      requests t ++ [linked t id rowHitLimit bank req memCycle] := by
  have hold : ∀ i ∈ t.reqList, (inserted t id rowHitLimit bank req memCycle).elem i = t.elem i := by
    intro i hi
    rw [inserted_elem, if_neg (ne_of_mem_of_not_mem hi hid)]
  unfold requests
  change (t.reqList ++ [id]).map _ = _
  rw [List.map_append, List.map_congr_left hold, List.map_singleton, inserted_elem, if_pos rfl]

theorem TableOk.inserted {n : ℕ} (h : TableOk n t) (hid : t.freeList.getLast? = some id) :
    TableOk n (inserted t id rowHitLimit bank req memCycle) := by
  have hnew := h.free_notMem hid
  have hperm := @place_perm ((t.alloc id).store id req) id rowHitLimit bank (queuedAt req memCycle)
  have hbanks : ∀ b, (DDRFrames.inserted t id rowHitLimit bank req memCycle).bankReqs b =
      if b = req.loc.bankId then
        (((t.alloc id).store id req).place id rowHitLimit bank (queuedAt req memCycle)).2
      else t.bankReqs b := by
    intro b
    unfold DDRFrames.inserted ReqTable.link
    dsimp only
    split
    case isTrue hb =>
      rw [hb]
      exact Function.update_self ..
    case isFalse hb => exact Function.update_of_ne hb ..
  have hin : ∀ i b, i ∈ t.bankReqs b → i ≠ id := by
    intro i b hi heq
    exact hnew (heq ▸ ((h.listed b i).mp hi).1)
  constructor
  case nodes =>
    change ((t.reqList ++ [id]) ++ t.freeList.dropLast).Perm _
    have hlast : t.freeList.dropLast ++ [id] = t.freeList := List.dropLast_append_getLast? id hid
    refine List.Perm.trans ?_ h.nodes
    rw [List.append_assoc, ← hlast]
    exact (List.perm_append_comm).append_left t.reqList |>.trans (by simp)
  case listed =>
    intro b i
    change _ ↔ i ∈ t.reqList ++ [id] ∧ _
    rw [hbanks, inserted_elem, List.mem_append, List.mem_singleton]
    by_cases hi : i = id
    · rw [if_pos hi]
      constructor
      · intro hmem
        refine ⟨.inr hi, ?_⟩
        split at hmem
        case isTrue hb => exact hb.symm
        case isFalse => exact (hin i b hmem hi).elim
      · rintro ⟨-, hb⟩
        have hown : b = req.loc.bankId := hb.symm
        rw [if_pos hown, hi]
        exact hperm.mem_iff.mpr List.mem_cons_self
    · rw [if_neg hi]
      have hold : i ∈ t.bankReqs b ↔ (i ∈ t.reqList ∨ i = id) ∧ (t.elem i).loc.bankId = b := by
        rw [h.listed]
        simp [hi]
      rw [← hold]
      split
      case isTrue hb =>
        rw [hperm.mem_iff, List.mem_cons, or_iff_right hi, hb]
        rfl
      case isFalse => rfl
  case nodup =>
    intro b
    rw [hbanks]
    split
    case isTrue hb =>
      rw [hperm.nodup_iff, List.nodup_cons]
      exact ⟨fun hmem => hin id _ hmem rfl, h.nodup req.loc.bankId⟩
    case isFalse => exact h.nodup b

end Queueing

section Serving

/-- The first request of a bank is the head of its list. -/
theorem TableOk.first_head {n : ℕ} (h : TableOk n t) (hid : id ∈ t.reqList) (hfirst : t.First id) :
    ∃ rest, t.listOf id = id :: rest ∧ id ∉ rest := by
  obtain ⟨rest, hlist⟩ := head_of_prevIn (h.mem_listOf hid) hfirst
  have hnodup := h.nodup (t.elem id).loc.bankId
  change (t.listOf id).Nodup at hnodup
  rw [hlist] at hnodup
  exact ⟨rest, hlist, (List.nodup_cons.mp hnodup).1⟩

/-- A table that is not empty has a request that is first in its bank. -/
theorem TableOk.exists_first {n : ℕ} (h : TableOk n t) (hne : t.reqList ≠ []) :
    ∃ id ∈ t.reqList, t.First id := by
  obtain ⟨i, hi⟩ := List.exists_mem_of_ne_nil _ hne
  have hlisted := h.mem_listOf hi
  cases hlist : t.listOf i with
  | nil =>
    rw [hlist] at hlisted
    cases hlisted
  | cons x rest =>
    have hx : x ∈ t.bankReqs (t.elem i).loc.bankId := by
      change x ∈ t.listOf i
      rw [hlist]
      exact List.mem_cons_self
    obtain ⟨hmem, hbank⟩ := (h.listed _ x).mp hx
    have hsame : t.listOf x = x :: rest := by
      rw [ReqTable.listOf, hbank]
      exact hlist
    refine ⟨x, hmem, ?_⟩
    unfold ReqTable.First
    rw [hsame]
    refine prevIn_head ?_
    rw [← hsame]
    exact h.nodup _

theorem TableOk.remove {n : ℕ} (h : TableOk n t) (hid : id ∈ t.reqList) (hfirst : t.First id) :
    TableOk n (t.remove id) := by
  obtain ⟨rest, hlist, hrest⟩ := h.first_head hid hfirst
  have hbanks : ∀ b, (t.remove id).bankReqs b =
      if b = (t.elem id).loc.bankId then rest else t.bankReqs b := by
    intro b
    unfold ReqTable.remove
    dsimp only
    split
    case isTrue hb => rw [hb, Function.update_self, hlist, List.tail_cons]
    case isFalse hb => exact Function.update_of_ne hb ..
  constructor
  case nodes =>
    change (t.reqList.erase id ++ (t.freeList ++ [id])).Perm _
    refine List.Perm.trans ?_ h.nodes
    have herase : (id :: t.reqList.erase id).Perm t.reqList := (List.perm_cons_erase hid).symm
    rw [← List.append_assoc]
    exact (List.perm_append_singleton id _).trans (herase.append_right t.freeList)
  case listed =>
    intro b i
    change _ ↔ i ∈ t.reqList.erase id ∧ (t.elem i).loc.bankId = b
    rw [hbanks, h.reqList_nodup.mem_erase_iff]
    split
    case isTrue hb =>
      have hold := h.listed b i
      have hbank : t.bankReqs b = id :: rest := by
        rw [hb]
        exact hlist
      rw [hbank, List.mem_cons] at hold
      constructor
      · intro hmem
        obtain ⟨hi, hbi⟩ := hold.mp (.inr hmem)
        exact ⟨⟨ne_of_mem_of_not_mem hmem hrest, hi⟩, hbi⟩
      · rintro ⟨⟨hne, hi⟩, hbi⟩
        exact (hold.mpr ⟨hi, hbi⟩).resolve_left hne
    case isFalse hb =>
      rw [h.listed]
      constructor
      · rintro ⟨hi, hbi⟩
        refine ⟨⟨fun heq => hb ?_, hi⟩, hbi⟩
        rw [← hbi, heq]
      · rintro ⟨⟨-, hi⟩, hbi⟩
        exact ⟨hi, hbi⟩
  case nodup =>
    intro b
    rw [hbanks]
    split
    case isTrue hb =>
      have hnodup := h.nodup (t.elem id).loc.bankId
      change (t.listOf id).Nodup at hnodup
      rw [hlist] at hnodup
      exact (List.nodup_cons.mp hnodup).2
    case isFalse => exact h.nodup b

/-- Serving takes the request out of those of the table. -/
theorem requests_remove (hid : id ∈ t.reqList) :
    (t.elem id :: requests (t.remove id)).Perm (requests t) := by
  have herase : (id :: t.reqList.erase id).Perm t.reqList := (List.perm_cons_erase hid).symm
  exact herase.map t.elem

end Serving

section Search

variable {ch : Channel} {curCycle : ℕ} {ids : List ℕ} {minSchedCycle : WithTop ℕ}

/-- The request that the search finds is first in its bank and ready. -/
theorem findReady_some {next : WithTop ℕ}
    (h : findReady c ch t curCycle ids minSchedCycle = (some id, next)) :
    id ∈ ids ∧ t.First id ∧ ch.findMinCmdCycle c (t.elem id) ≤ curCycle := by
  induction ids generalizing minSchedCycle with
  | nil => cases h
  | cons x ids ih =>
    unfold findReady at h
    dsimp only at h
    split at h
    case isTrue hfirst =>
      split at h
      case isTrue hready =>
        cases h
        exact ⟨List.mem_cons_self, hfirst, hready⟩
      case isFalse =>
        obtain ⟨hmem, hid⟩ := ih h
        exact ⟨List.mem_cons_of_mem x hmem, hid⟩
    case isFalse =>
      obtain ⟨hmem, hid⟩ := ih h
      exact ⟨List.mem_cons_of_mem x hmem, hid⟩

/-- A search without success ends in the first cycle at which one of its
requests will be ready. -/
theorem findReady_none {next : WithTop ℕ} (h : findReady c ch t curCycle ids minSchedCycle = (none, next))
    (hmin : curCycle < minSchedCycle) : curCycle < next ∧ next ≤ minSchedCycle ∧
      (∀ id ∈ ids, t.First id → next ≤ (ch.findMinCmdCycle c (t.elem id) : ℕ)) ∧
      (next = minSchedCycle ∨ ∃ id ∈ ids, t.First id ∧ next = (ch.findMinCmdCycle c (t.elem id) : ℕ)) := by
  induction ids generalizing minSchedCycle with
  | nil =>
    cases h
    exact ⟨hmin, le_rfl, fun _ hid => (nomatch hid), .inl rfl⟩
  | cons x ids ih =>
    unfold findReady at h
    dsimp only at h
    split at h
    case isFalse hfirst =>
      obtain ⟨hcur, hle, hall, heq⟩ := ih h hmin
      refine ⟨hcur, hle, fun i hi hfi => ?_, ?_⟩
      · cases List.mem_cons.mp hi with
        | inl hix =>
          rw [hix] at hfi
          exact (hfirst hfi).elim
        | inr hmem => exact hall i hmem hfi
      · cases heq with
        | inl heq => exact .inl heq
        | inr hex =>
          obtain ⟨i, hi, hrest⟩ := hex
          exact .inr ⟨i, List.mem_cons_of_mem x hi, hrest⟩
    case isTrue hfirst =>
      split at h
      case isTrue => cases h
      case isFalse hready =>
        have hlater : (curCycle : WithTop ℕ) < (ch.findMinCmdCycle c (t.elem x) : ℕ) :=
          WithTop.coe_lt_coe.mpr (Nat.lt_of_not_le hready)
        obtain ⟨hcur, hle, hall, heq⟩ := ih h (lt_min hmin hlater)
        refine ⟨hcur, hle.trans (min_le_left ..), fun i hi hfi => ?_, ?_⟩
        · cases List.mem_cons.mp hi with
          | inl hix =>
            rw [hix]
            exact hle.trans (min_le_right ..)
          | inr hmem => exact hall i hmem hfi
        · cases heq with
          | inl heq =>
            cases min_choice minSchedCycle (ch.findMinCmdCycle c (t.elem x) : ℕ) with
            | inl hleft => exact .inl (heq.trans hleft)
            | inr hright => exact .inr ⟨x, List.mem_cons_self, hfirst, heq.trans hright⟩
          | inr hex =>
            obtain ⟨i, hi, hrest⟩ := hex
            exact .inr ⟨i, List.mem_cons_of_mem x hi, hrest⟩

/-- The search of a table that is not empty has a finite result. -/
theorem TableOk.findReady_finite {n : ℕ} (h : TableOk n t) (hne : t.reqList ≠ []) {next : WithTop ℕ}
    (hfind : findReady c ch t curCycle t.reqList ⊤ = (none, next)) :
    ∃ cycle : ℕ, next = cycle ∧ curCycle < cycle := by
  obtain ⟨hcur, -, hall, -⟩ := findReady_none hfind (WithTop.coe_lt_top curCycle)
  obtain ⟨i, hi, hfirst⟩ := h.exists_first hne
  cases next with
  | top => exact absurd (hall i hi hfirst) (by simp)
  | coe cycle => exact ⟨cycle, rfl, WithTop.coe_lt_coe.mp hcur⟩

end Search

end Zsim.DDRTables
