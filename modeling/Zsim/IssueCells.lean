import Zsim.IssueWindow
import Mathlib.Data.List.Basic
import Mathlib.Order.Basic

/-!
# The cycles of an issue window

The two windows and the map are one sequence of cycles. A request goes to the first cycle of
it where a port of its mask is free, and only that cycle changes. An advance leaves all
later cycles as they are, also when it moves them between the windows.
-/

namespace Zsim.IssueCells

open WeakestPre IssueWindow

/-- The ports of the mask that are free. -/
def free (taken portMask : BitVec 8) : BitVec 8 := ~~~taken &&& portMask

/-- The first cycle from `start` on where a port of the mask is free. -/
structure FirstFree (taken : ℕ → BitVec 8) (portMask : BitVec 8) (start c : ℕ) : Prop where
  start_le : start ≤ c
  free : free (taken c) portMask ≠ 0
  before : ∀ d, start ≤ d → d < c → IssueCells.free (taken d) portMask = 0

section Ports

variable {m occ mask : BitVec 8} {i : ℕ}

theorem firstPort_lt : firstPort m < 8 := by
  unfold firstPort
  cases h : (List.range 8).find? fun i => m.getLsbD i with
  | none => exact Nat.zero_lt_succ 7
  | some i => exact List.mem_range.mp (List.mem_of_find?_eq_some h)

theorem firstPort_mem (h : m ≠ 0) : m.getLsbD (firstPort m) = true := by
  unfold firstPort
  cases hfind : (List.range 8).find? fun i => m.getLsbD i with
  | none =>
    refine absurd (BitVec.eq_of_getLsbD_eq fun i hi => ?_) h
    have hnot := List.find?_eq_none.mp hfind i (List.mem_range.mpr hi)
    simpa using hnot
  | some i => exact List.find?_some hfind

theorem free_empty : free 0 mask = mask := by
  unfold free
  exact BitVec.allOnes_and

theorem getLsbD_free : (free occ mask).getLsbD i = true ↔
    i < 8 ∧ occ.getLsbD i = false ∧ mask.getLsbD i = true := by
  unfold free
  simp [BitVec.getLsbD_and, BitVec.getLsbD_not, and_assoc]

theorem firstPort_shift (h : i < 8) : firstPort ((1 : BitVec 8) <<< i) = i := by
  have hall : ∀ i < 8, firstPort ((1 : BitVec 8) <<< i) = i := by decide
  exact hall i h

/-- A cycle that a request has taken is not empty. -/
theorem take_ne_zero {wc : WinCycle} {touch : Bool} (h : free wc.occUnits mask ≠ 0) :
    (wc.take touch mask).occUnits ≠ 0 := by
  obtain ⟨hlt, -, hmask⟩ := getLsbD_free.mp (firstPort_mem h)
  have hbit : (ports touch (free wc.occUnits mask) mask).getLsbD (firstPort (free wc.occUnits mask)) = true := by
    cases touch with
    | true =>
      change ((1 : BitVec 8) <<< firstPort (free wc.occUnits mask)).getLsbD _ = true
      simp [hlt]
    | false => exact hmask
  intro hzero
  have hor : (wc.take touch mask).occUnits.getLsbD (firstPort (free wc.occUnits mask)) = true := by
    change (wc.occUnits ||| ports touch (free wc.occUnits mask) mask).getLsbD _ = true
    rw [BitVec.getLsbD_or, hbit, Bool.or_true]
  rw [hzero] at hor
  simp at hor

end Ports

section FirstFree

variable {taken taken' : ℕ → BitVec 8} {mask : BitVec 8} {start c c' d : ℕ}

theorem FirstFree.congr (h : FirstFree taken mask start c) (heq : ∀ d, start ≤ d → taken' d = taken d) :
    FirstFree taken' mask start c where
  start_le := h.start_le
  free := by
    rw [heq c h.start_le]
    exact h.free
  before d hd hlt := by
    rw [heq d hd]
    exact h.before d hd hlt

theorem FirstFree.unique (h : FirstFree taken mask start c) (h' : FirstFree taken mask start c') : c = c' := by
  by_contra hne
  cases Nat.lt_or_gt_of_ne hne with
  | inl hlt => exact h.free (h'.before c h.start_le hlt)
  | inr hlt => exact h'.free (h.before c' h'.start_le hlt)

/-- Nothing is free before a later start. -/
theorem FirstFree.of_later (h : FirstFree taken mask d c) (hle : start ≤ d)
    (hfull : ∀ e, start ≤ e → e < d → IssueCells.free (taken e) mask = 0) :
    FirstFree taken mask start c where
  start_le := Nat.le_trans hle h.start_le
  free := h.free
  before e he hlt := by
    by_cases hed : e < d
    · exact hfull e he hed
    · exact h.before e (Nat.le_of_not_lt hed) hlt

end FirstFree

section Search

variable {win : ℕ → WinCycle} {mask : BitVec 8} {n pos p : ℕ}

theorem search_some (h : search win mask n pos = some p) :
    pos ≤ p ∧ p < pos + n ∧ (win p).avail mask ≠ 0 ∧ ∀ j, pos ≤ j → j < p → (win j).avail mask = 0 := by
  induction n generalizing pos with
  | zero => cases h
  | succ n ih =>
    rw [search] at h
    split at h
    · next hfree =>
      cases h
      exact ⟨Nat.le_refl _, by omega, hfree, fun j hj hlt => absurd hlt (Nat.not_lt.mpr hj)⟩
    · next hfull =>
      obtain ⟨hle, hlt, hfree, hbefore⟩ := ih h
      refine ⟨by omega, by omega, hfree, fun j hj hlt => ?_⟩
      by_cases hj' : j = pos
      · rw [hj']
        exact not_not.mp hfull
      · exact hbefore j (by omega) hlt

theorem search_none {j : ℕ} (h : search win mask n pos = none) (hj : pos ≤ j) (hlt : j < pos + n) :
    (win j).avail mask = 0 := by
  induction n generalizing pos with
  | zero => omega
  | succ n ih =>
    rw [search] at h
    split at h
    · cases h
    · next hfull =>
      by_cases hj' : j = pos
      · rw [hj']
        exact not_not.mp hfull
      · exact ih h (by omega) (by omega)

end Search

section Far

/-- The map, with an empty cycle where it has none. -/
def look (ub : List (ℕ × WinCycle)) (c : ℕ) : WinCycle := (ub.lookup c).getD .empty

/-- The cycles of the map are in order. -/
def Sorted (ub : List (ℕ × WinCycle)) : Prop := ub.Pairwise fun e e' => e.1 < e'.1

variable {ub rest : List (ℕ × WinCycle)} {c k : ℕ} {wc : WinCycle} {mask : BitVec 8} {touch : Bool}

theorem look_cons : look ((k, wc) :: rest) c = if c = k then wc else look rest c := by
  unfold look
  rw [List.lookup_cons]
  by_cases h : c = k
  · simp [h]
  · have hne : (c == k) = false := beq_eq_false_iff_ne.mpr h
    rw [hne, if_neg h]

theorem look_of_notMem (h : ∀ e ∈ ub, e.1 ≠ c) : look ub c = .empty := by
  induction ub with
  | nil => rfl
  | cons e rest ih =>
    obtain ⟨k, wc⟩ := e
    obtain ⟨hk, hrest⟩ := List.forall_mem_cons.mp h
    rw [look_cons, if_neg (Ne.symm hk)]
    exact ih hrest

theorem look_mem {e : ℕ × WinCycle} (hsorted : Sorted ub) (he : e ∈ ub) : look ub e.1 = e.2 := by
  induction ub with
  | nil => cases he
  | cons e' rest ih =>
    obtain ⟨k, wc⟩ := e'
    obtain ⟨hkeys, hrest⟩ := List.pairwise_cons.mp hsorted
    rw [look_cons]
    cases List.mem_cons.mp he with
    | inl heq => rw [heq, if_pos rfl]
    | inr he =>
      have hlt := hkeys e he
      change k < e.1 at hlt
      rw [if_neg (Nat.ne_of_gt hlt)]
      exact ih hrest he

/-- The map after a request. -/
structure Entered (touch : Bool) (mask : BitVec 8) (start : ℕ) (ub : List (ℕ × WinCycle)) (b : Booking)
    (ub' : List (ℕ × WinCycle)) : Prop where
  first : FirstFree (fun c => (look ub c).occUnits) mask start b.cycle
  avail : b.availMask = (look ub b.cycle).avail mask
  sorted : Sorted ub'
  entries : ∀ e ∈ ub', e = (b.cycle, (look ub b.cycle).take touch mask) ∨ e ∈ ub
  cells : look ub' = Function.update (look ub) b.cycle ((look ub b.cycle).take touch mask)

theorem Entered.keys {start : ℕ} {b : Booking} {ub' : List (ℕ × WinCycle)} (h : Entered touch mask start ub b ub')
    {e : ℕ × WinCycle} (he : e ∈ ub') : e.1 = b.cycle ∨ e ∈ ub :=
  (h.entries e he).imp_left (congrArg Prod.fst)

/-- A cycle that is not in the map is entered before those after it. -/
theorem entered_new (hmask : mask ≠ 0) (hsorted : Sorted ub) (hkeys : ∀ e ∈ ub, c < e.1) :
    ∃ b ub', enter touch mask c .empty ub = some (b, ub') ∧ Entered touch mask c ub b ub' := by
  have hlook : look ub c = .empty := look_of_notMem fun e he => Nat.ne_of_gt (hkeys e he)
  have havail : WinCycle.empty.avail mask = mask := free_empty
  refine ⟨⟨c, mask⟩, (c, WinCycle.empty.take touch mask) :: ub, ?_, ?_⟩
  · rw [enter, havail, if_pos hmask]
  · constructor
    · refine ⟨Nat.le_refl c, ?_, fun d hd hlt => absurd hlt (Nat.not_lt.mpr hd)⟩
      change free (look ub c).occUnits mask ≠ 0
      rw [hlook]
      exact ne_of_eq_of_ne havail hmask
    · change mask = (look ub c).avail mask
      rw [hlook, havail]
    · exact List.pairwise_cons.mpr ⟨hkeys, hsorted⟩
    · intro e he
      cases List.mem_cons.mp he with
      | inl heq => exact Or.inl (by rw [heq, hlook])
      | inr he => exact Or.inr he
    · funext d
      rw [look_cons]
      by_cases hd : d = c
      · rw [if_pos hd, hd, Function.update_self, hlook]
      · rw [if_neg hd, Function.update_of_ne hd]

/-- A request that passes the first cycle of the map. -/
theorem Entered.pass {start start' : ℕ} {b : Booking} {rest' : List (ℕ × WinCycle)}
    (h : Entered touch mask start' rest b rest') (hsorted : Sorted ((k, wc) :: rest)) (hk : k < start')
    (hle : start ≤ start')
    (hfull : ∀ d, start ≤ d → d < start' → d = k ∧ free wc.occUnits mask = 0) :
    Entered touch mask start ((k, wc) :: rest) b ((k, wc) :: rest') := by
  obtain ⟨hkeys, hsorted⟩ := List.pairwise_cons.mp hsorted
  have hstart := h.first.start_le
  have hne : b.cycle ≠ k := by omega
  have hlook : look ((k, wc) :: rest) b.cycle = look rest b.cycle := by rw [look_cons, if_neg hne]
  constructor
  · refine FirstFree.of_later (h.first.congr fun d hd => ?_) hle fun d hd hlt => ?_
    · rw [look_cons, if_neg (by omega)]
    · obtain ⟨heq, hfree⟩ := hfull d hd hlt
      rw [look_cons, if_pos heq]
      exact hfree
  · rw [hlook]
    exact h.avail
  · refine List.pairwise_cons.mpr ⟨fun e he => ?_, h.sorted⟩
    change k < e.1
    cases h.keys he with
    | inl heq => omega
    | inr he => exact hkeys e he
  · intro e he
    cases List.mem_cons.mp he with
    | inl heq => exact Or.inr (heq ▸ List.mem_cons_self)
    | inr he =>
      cases h.entries e he with
      | inl heq => exact Or.inl (by rw [heq, hlook])
      | inr he => exact Or.inr (List.mem_cons_of_mem _ he)
  · funext d
    rw [look_cons, h.cells, hlook]
    by_cases hd : d = k
    · rw [if_pos hd, hd, Function.update_of_ne hne.symm, look_cons, if_pos rfl]
    · rw [if_neg hd]
      by_cases hdb : d = b.cycle
      · rw [hdb, Function.update_self, Function.update_self]
      · rw [Function.update_of_ne hdb, Function.update_of_ne hdb, look_cons, if_neg hd]

/-- A request finds the first cycle where a port is free, whether it is in the map or not. -/
theorem placeFar_enters (hmask : mask ≠ 0) (hsorted : Sorted ub) (start : ℕ) :
    ∃ b ub', placeFar touch mask start ub = some (b, ub') ∧ Entered touch mask start ub b ub' := by
  induction ub generalizing start with
  | nil => exact entered_new hmask .nil fun e he => absurd he List.not_mem_nil
  | cons e rest ih =>
    obtain ⟨k, wc⟩ := e
    obtain ⟨hkeys, hrest⟩ := List.pairwise_cons.mp hsorted
    rw [placeFar]
    by_cases hlt : k < start
    · obtain ⟨b, rest', hplace, hentered⟩ := ih hrest start
      rw [if_pos hlt, hplace]
      exact ⟨b, _, rfl, hentered.pass hsorted hlt (Nat.le_refl start) fun d hd hlt => by omega⟩
    · rw [if_neg hlt]
      by_cases hne : k ≠ start
      · rw [if_pos hne]
        refine entered_new hmask hsorted (List.forall_mem_cons.mpr ⟨by change start < k; omega, fun e he => ?_⟩)
        have hke := hkeys e he
        change k < e.1 at hke
        omega
      · have heq : k = start := not_not.mp hne
        subst heq
        rw [if_neg hne]
        have hlook : look ((k, wc) :: rest) k = wc := by rw [look_cons, if_pos rfl]
        by_cases hfree : wc.avail mask ≠ 0
        · rw [if_pos hfree]
          refine ⟨⟨k, wc.avail mask⟩, (k, wc.take touch mask) :: rest, if_pos hfree, ?_⟩
          constructor
          · refine ⟨Nat.le_refl k, ?_, fun d hd hlt => absurd hlt (Nat.not_lt.mpr hd)⟩
            change free (look ((k, wc) :: rest) k).occUnits mask ≠ 0
            rw [hlook]
            exact hfree
          · change wc.avail mask = (look ((k, wc) :: rest) k).avail mask
            rw [hlook]
          · exact List.pairwise_cons.mpr ⟨hkeys, hrest⟩
          · intro e he
            cases List.mem_cons.mp he with
            | inl heq => exact Or.inl (by rw [heq, hlook])
            | inr he => exact Or.inr (List.mem_cons_of_mem _ he)
          · funext d
            change look ((k, wc.take touch mask) :: rest) d =
              Function.update (look ((k, wc) :: rest)) k ((look ((k, wc) :: rest) k).take touch mask) d
            rw [look_cons, hlook]
            by_cases hd : d = k
            · rw [if_pos hd, hd, Function.update_self]
            · rw [if_neg hd, Function.update_of_ne hd, look_cons, if_neg hd]
        · obtain ⟨b, rest', hplace, hentered⟩ := ih hrest (k + 1)
          rw [if_neg hfree, hplace]
          exact ⟨b, _, rfl, hentered.pass hsorted (Nat.lt_succ_self k) (Nat.le_succ k) fun d hd hlt =>
            ⟨by omega, not_not.mp hfree⟩⟩

end Far

section Window

variable {H : ℕ} {w w' : Window} {mask : BitVec 8} {touch : Bool} {start sched p : ℕ}

/-- The cycle at a position of the current window, the next window or the map. -/
def cellAt (H : ℕ) (w : Window) (pos : ℕ) : WinCycle :=
  if pos < H then w.curWin pos
  else if pos < 2 * H then w.nextWin (pos - H)
  else look w.ubWin (w.curCycle + (pos - w.curPos))

/-- A cycle of the window, which is not before the current one. -/
def cell (H : ℕ) (w : Window) (c : ℕ) : WinCycle := cellAt H w (w.curPos + (c - w.curCycle))

/-- The ports of a cycle that are taken. -/
def occ (H : ℕ) (w : Window) (c : ℕ) : BitVec 8 := (cell H w c).occUnits

/-- The invariant of the windows and the map. Windows whose positions do not fit 32 bits must not
need the map. -/
structure Shaped (H : ℕ) (w : Window) : Prop where
  bits : H < 2 ^ 32
  pos : w.curPos < H
  started : w.curPos ≤ w.curCycle
  past : ∀ i < w.curPos, w.curWin i = .empty
  sorted : Sorted w.ubWin
  far : ∀ e ∈ w.ubWin, w.curCycle - w.curPos + 2 * H ≤ e.1
  filled : ∀ e ∈ w.ubWin, e.2.occUnits ≠ 0
  wide : 2 ^ 32 ≤ 2 * H → w.ubWin = []

/-- No position of a request is past the 32 bits of a position. -/
def Near (H : ℕ) (w : Window) (mask : BitVec 8) (start : ℕ) : Prop :=
  w.curPos + (start - w.curCycle) < 2 ^ 32 ∧ (2 * H < 2 ^ 32 ∨
    ∃ c, FirstFree (occ H w) mask start c ∧ w.curPos + (c - w.curCycle) < 2 ^ 32)

/-- What a request changes. -/
structure Books (H : ℕ) (touch : Bool) (mask : BitVec 8) (start : ℕ) (w : Window) (b : Booking)
    (w' : Window) : Prop where
  first : FirstFree (occ H w) mask start b.cycle
  avail : b.availMask = free (occ H w b.cycle) mask
  shaped : Shaped H w'
  curCycle : w'.curCycle = w.curCycle
  curPos : w'.curPos = w.curPos
  occupancy : w'.occupancy = w.occupancy
  lastPort : w'.lastPort = w.lastPort
  cells : ∀ d, w.curCycle ≤ d →
    cell H w' d = if d = b.cycle then (cell H w d).take touch mask else cell H w d

/-- `curWin`, `nextWin` and the map in turn. -/
theorem cellAt_cur (h : p < H) : cellAt H w p = w.curWin p := if_pos h

theorem cellAt_next (h : p < H) : cellAt H w (p + H) = w.nextWin p := by
  rw [cellAt, if_neg (by omega), if_pos (by omega), Nat.add_sub_cancel]

theorem cellAt_far (h : 2 * H ≤ p) : cellAt H w p = look w.ubWin (w.curCycle + (p - w.curPos)) := by
  rw [cellAt, if_neg (by omega), if_neg (Nat.not_lt.mpr h)]

theorem sub32_eq {x y : ℕ} (hle : y ≤ x) (hlt : x - y < 2 ^ 32) : sub32 x y = x - y := by
  unfold sub32
  omega

/-- A request that takes the first position where a port is free. -/
theorem books_of_pos (hstart : w.curCycle ≤ start) (hle : w.curPos + (start - w.curCycle) ≤ p)
    (hfree : (cellAt H w p).avail mask ≠ 0)
    (hbefore : ∀ j, w.curPos + (start - w.curCycle) ≤ j → j < p → (cellAt H w j).avail mask = 0)
    (hshaped : Shaped H w') (hcycle : w'.curCycle = w.curCycle) (hpos : w'.curPos = w.curPos)
    (hoccupancy : w'.occupancy = w.occupancy) (hport : w'.lastPort = w.lastPort)
    (hcells : ∀ j, w.curPos ≤ j →
      cellAt H w' j = if j = p then (cellAt H w j).take touch mask else cellAt H w j) :
    Books H touch mask start w ⟨w.curCycle + (p - w.curPos), (cellAt H w p).avail mask⟩ w' := by
  have hp : w.curPos + (w.curCycle + (p - w.curPos) - w.curCycle) = p := by omega
  have hcell : cell H w (w.curCycle + (p - w.curPos)) = cellAt H w p := congrArg (cellAt H w) hp
  refine ⟨⟨?_, ?_, fun d hd hlt => ?_⟩, ?_, hshaped, hcycle, hpos, hoccupancy, hport, fun d hd => ?_⟩
  · change start ≤ w.curCycle + (p - w.curPos)
    omega
  · change free (cell H w (w.curCycle + (p - w.curPos))).occUnits mask ≠ 0
    rw [hcell]
    exact hfree
  · change d < w.curCycle + (p - w.curPos) at hlt
    exact hbefore _ (by omega) (by omega)
  · change (cellAt H w p).avail mask = free (cell H w (w.curCycle + (p - w.curPos))).occUnits mask
    rw [hcell]
    rfl
  · change cell H w' d = if d = w.curCycle + (p - w.curPos) then _ else _
    rw [cell, hpos, hcycle, hcells _ (Nat.le_add_right ..)]
    by_cases hd' : d = w.curCycle + (p - w.curPos)
    · rw [if_pos hd', if_pos (by omega)]
      rfl
    · rw [if_neg hd', if_neg (by omega)]
      rfl

/-- A request that finds a port in the current window. -/
theorem Shaped.book_cur (h : Shaped H w) (hstart : w.curCycle ≤ start)
    (hsearch : search w.curWin mask (H - (w.curPos + (start - w.curCycle)))
      (w.curPos + (start - w.curCycle)) = some p) :
    Books H touch mask start w ⟨w.curCycle + sub32 p w.curPos, (w.curWin p).avail mask⟩
      (w.setCur p ((w.curWin p).take touch mask)) := by
  obtain ⟨hle, hlt, hfree, hbefore⟩ := search_some hsearch
  have hbits := h.bits
  have hp : p < H := by omega
  have hat : cellAt H w p = w.curWin p := cellAt_cur hp
  rw [sub32_eq (by omega) (by omega)]
  have hbook := @books_of_pos H w (w.setCur p ((w.curWin p).take touch mask)) mask touch start p hstart hle
  rw [hat] at hbook
  refine hbook hfree (fun j hj hjp => ?_) ?_ rfl rfl rfl rfl fun j hj => ?_
  · rw [cellAt_cur (Nat.lt_trans hjp hp)]
    exact hbefore j hj hjp
  · refine ⟨h.bits, h.pos, h.started, fun i hi => ?_, h.sorted, h.far, h.filled, h.wide⟩
    change i < w.curPos at hi
    exact (Function.update_of_ne (by omega) _ _).trans (h.past i hi)
  · by_cases hjp : j = p
    · rw [if_pos hjp, hjp, cellAt_cur hp, hat]
      exact Function.update_self ..
    · rw [if_neg hjp, cellAt, cellAt]
      change (if j < H then Function.update w.curWin p _ j else _) = _
      rw [Function.update_of_ne hjp]
      rfl

/-- A request that finds a port in the next window. -/
theorem Shaped.book_next (h : Shaped H w) (hnear : Near H w mask start) (hstart : w.curCycle ≤ start)
    (hcur : search w.curWin mask (H - (w.curPos + (start - w.curCycle)))
      (w.curPos + (start - w.curCycle)) = none)
    (hsearch : search w.nextWin mask (H - (max (w.curPos + (start - w.curCycle)) H - H))
      (max (w.curPos + (start - w.curCycle)) H - H) = some p) :
    Books H touch mask start w ⟨w.curCycle + sub32 (p + H) w.curPos, (w.nextWin p).avail mask⟩
      (w.setNext p ((w.nextWin p).take touch mask)) := by
  obtain ⟨hle, hlt, hfree, hbefore⟩ := search_some hsearch
  have hpos := h.pos
  have hp : p < H := by omega
  have hat : cellAt H w (p + H) = w.nextWin p := cellAt_next hp
  have hbook := @books_of_pos H w (w.setNext p ((w.nextWin p).take touch mask)) mask touch start (p + H)
    hstart (by omega)
  rw [hat] at hbook
  have hbooks := hbook hfree (fun j hj hjp => ?_) ⟨h.1, h.2, h.3, h.4, h.5, h.6, h.7, h.8⟩ rfl rfl rfl rfl
    fun j hj => ?_
  · -- The distance fits 32 bits, or else the request is known to be served within them.
    have hfits : p + H - w.curPos < 2 ^ 32 := by
      cases hnear.2 with
      | inl hbits => omega
      | inr hserved =>
        obtain ⟨c, hfirst, hc⟩ := hserved
        have heq := hbooks.first.unique hfirst
        change w.curCycle + (p + H - w.curPos) = c at heq
        omega
    rw [sub32_eq (by omega) hfits]
    exact hbooks
  · by_cases hjH : j < H
    · rw [cellAt_cur hjH]
      exact search_none hcur hj (by omega)
    · have hjeq : j - H + H = j := by omega
      rw [← hjeq, cellAt_next (by omega)]
      exact hbefore _ (by omega) (by omega)
  · by_cases hjp : j = p + H
    · rw [if_pos hjp, hjp, cellAt_next hp, hat]
      exact Function.update_self ..
    · rw [if_neg hjp, cellAt, cellAt]
      by_cases hjH : j < H
      · exact (if_pos hjH).trans (if_pos hjH).symm
      · have hne : j - H ≠ p := by omega
        change (if j < H then _ else if j < 2 * H then Function.update w.nextWin p _ (j - H) else _) = _
        rw [Function.update_of_ne hne]
        rfl

/-- A request that has to enter the map. -/
theorem Shaped.book_far (h : Shaped H w) (hmask : mask ≠ 0) (hnear : Near H w mask start)
    (hstart : w.curCycle ≤ start)
    (hcur : search w.curWin mask (H - (w.curPos + (start - w.curCycle)))
      (w.curPos + (start - w.curCycle)) = none)
    (hnext : search w.nextWin mask (H - (max (w.curPos + (start - w.curCycle)) H - H))
      (max (w.curPos + (start - w.curCycle)) H - H) = none) :
    ∃ b ub, placeFar touch mask (w.curCycle +
        sub32 (max (max (w.curPos + (start - w.curCycle)) H - H) H + H) w.curPos) w.ubWin = some (b, ub) ∧
      Books H touch mask start w b { w with ubWin := ub } := by
  have hpos := h.pos
  have hstarted := h.started
  have hfull : ∀ j, w.curPos + (start - w.curCycle) ≤ j → j < 2 * H → (cellAt H w j).avail mask = 0 := by
    intro j hj hlt
    by_cases hjH : j < H
    · rw [cellAt_cur hjH]
      exact search_none hcur hj (by omega)
    · have hjeq : j - H + H = j := by omega
      rw [← hjeq, cellAt_next (by omega)]
      exact search_none hnext (by omega) (by omega)
  have hbits : 2 * H < 2 ^ 32 := by
    cases hnear.2 with
    | inl hbits => exact hbits
    | inr hserved =>
      obtain ⟨c, hfirst, hc⟩ := hserved
      have hstart' := hfirst.start_le
      by_contra hlarge
      exact hfirst.free (hfull _ (by omega) (by omega))
  have hreach := hnear.1
  have hsum : max (max (w.curPos + (start - w.curCycle)) H - H) H + H =
      max (w.curPos + (start - w.curCycle)) (2 * H) := by omega
  have hfits : max (w.curPos + (start - w.curCycle)) (2 * H) - w.curPos < 2 ^ 32 := by omega
  rw [hsum, sub32_eq (by omega) hfits]
  obtain ⟨b, ub, hplace, hentered⟩ := @placeFar_enters w.ubWin mask touch hmask h.sorted
    (w.curCycle + (max (w.curPos + (start - w.curCycle)) (2 * H) - w.curPos))
  have hfirst := hentered.first.start_le
  have hp : w.curCycle + (w.curPos + (b.cycle - w.curCycle) - w.curPos) = b.cycle := by omega
  have hat : cellAt H w (w.curPos + (b.cycle - w.curCycle)) = look w.ubWin b.cycle := by
    rw [cellAt_far (by omega), hp]
  refine ⟨b, ub, hplace, ?_⟩
  have hbook := @books_of_pos H w { w with ubWin := ub } mask touch start
    (w.curPos + (b.cycle - w.curCycle)) hstart (by omega)
  rw [hat, hp, ← hentered.avail] at hbook
  refine hbook ?_ (fun j hj hjp => ?_) ?_ rfl rfl rfl rfl fun j hj => ?_
  · rw [hentered.avail]
    exact hentered.first.free
  · by_cases hj2 : j < 2 * H
    · exact hfull j hj hj2
    · rw [cellAt_far (Nat.le_of_not_lt hj2)]
      exact hentered.first.before _ (by omega) (by omega)
  · refine ⟨h.bits, h.pos, h.started, h.past, hentered.sorted, fun e he => ?_, fun e he => ?_, fun hwide => ?_⟩
    · change w.curCycle - w.curPos + 2 * H ≤ e.1
      cases hentered.keys he with
      | inl heq => omega
      | inr he => exact h.far e he
    · cases hentered.entries e he with
      | inl heq =>
        rw [heq]
        exact take_ne_zero hentered.first.free
      | inr he => exact h.filled e he
    · omega
  · by_cases hj2 : j < 2 * H
    · have hne : j ≠ w.curPos + (b.cycle - w.curCycle) := by omega
      rw [if_neg hne, cellAt, cellAt]
      by_cases hjH : j < H
      · exact (if_pos hjH).trans (if_pos hjH).symm
      · rw [if_neg hjH, if_neg hjH, if_pos hj2, if_pos hj2]
    · rw [cellAt_far (Nat.le_of_not_lt hj2), cellAt_far (Nat.le_of_not_lt hj2)]
      change look ub (w.curCycle + (j - w.curPos)) = _
      rw [hentered.cells]
      by_cases hjp : j = w.curPos + (b.cycle - w.curCycle)
      · have hcycle : w.curCycle + (j - w.curPos) = b.cycle := by omega
        rw [if_pos hjp, hcycle, Function.update_self]
      · have hcycle : w.curCycle + (j - w.curPos) ≠ b.cycle := by omega
        rw [if_neg hjp, Function.update_of_ne hcycle]

/-- The distance of a request, as a `uint32_t`. -/
theorem delay_eq (hreach : max sched w.curCycle - w.curCycle < 2 ^ 32) :
    (if sched > w.curCycle then (sched - w.curCycle) % 2 ^ 32 else 0) = max sched w.curCycle - w.curCycle := by
  by_cases hlate : sched > w.curCycle
  · rw [Nat.max_eq_left (Nat.le_of_lt hlate)] at hreach ⊢
    rw [if_pos hlate, Nat.mod_eq_of_lt hreach]
  · rw [if_neg hlate, Nat.max_eq_right (Nat.le_of_not_lt hlate), Nat.sub_self]

/-- A request is served in the first cycle where a port is free. -/
theorem Shaped.book (h : Shaped H w) (hmask : mask ≠ 0) (hnear : Near H w mask (max sched w.curCycle)) :
    ∃ b w', w.book H touch sched mask = some (b, w') ∧ Books H touch mask (max sched w.curCycle) w b w' := by
  have hreach := hnear.1
  have hcur : w.curCycle ≤ max sched w.curCycle := Nat.le_max_right ..
  unfold Window.book
  simp only [delay_eq (Nat.lt_of_le_of_lt (Nat.le_add_left ..) hreach), Nat.mod_eq_of_lt hreach]
  generalize max sched w.curCycle = start at *
  cases hsearch : search w.curWin mask (H - (w.curPos + (start - w.curCycle))) (w.curPos + (start - w.curCycle)) with
  | some p => exact ⟨_, _, rfl, h.book_cur hcur hsearch⟩
  | none =>
    cases hnext : search w.nextWin mask (H - (max (w.curPos + (start - w.curCycle)) H - H))
      (max (w.curPos + (start - w.curCycle)) H - H) with
    | some p => exact ⟨_, _, rfl, h.book_next hnear hcur hsearch hnext⟩
    | none =>
      obtain ⟨b, ub, hplace, hbooks⟩ := @Shaped.book_far H w mask touch start h hmask hnear hcur hsearch hnext
      rw [hplace]
      exact ⟨b, _, rfl, hbooks⟩

end Window

section Advance

variable {H : ℕ} {w w' : Window}

/-- What an advance changes. -/
structure Passes (H : ℕ) (w w' : Window) : Prop where
  shaped : Shaped H w'
  curCycle : w'.curCycle = w.curCycle + 1
  curPos : w'.curPos = if w.curPos + 1 = H then 0 else w.curPos + 1
  occupancy : w'.occupancy = sub32 w.occupancy (cell H w w.curCycle).count
  lastPort : w'.lastPort = w.lastPort
  cells : ∀ d, w.curCycle < d → cell H w' d = cell H w d

/-- The cycles before the horizon find their places in the next window. -/
theorem moveFar_moves {cur : ℕ} {ub : List (ℕ × WinCycle)} (hsorted : Sorted ub)
    (hfar : ∀ e ∈ ub, cur + H ≤ e.1) (hbits : 2 * H < 2 ^ 32) (win : ℕ → WinCycle) :
    ∃ next rest, moveFar H cur (cur + 2 * H) ub win = some (next, rest) ∧ Sorted rest ∧
      (∀ e ∈ rest, cur + 2 * H ≤ e.1 ∧ e ∈ ub) ∧
      (∀ i < H, next i = (ub.lookup (cur + H + i)).getD (win i)) ∧
      ∀ c, cur + 2 * H ≤ c → look rest c = look ub c := by
  induction ub generalizing win with
  | nil => exact ⟨win, [], rfl, .nil, fun e he => absurd he List.not_mem_nil, fun i _ => rfl, fun c _ => rfl⟩
  | cons e ub ih =>
    obtain ⟨k, wc⟩ := e
    obtain ⟨hk, hfar⟩ := List.forall_mem_cons.mp hfar
    obtain ⟨hkeys, hsorted'⟩ := List.pairwise_cons.mp hsorted
    change cur + H ≤ k at hk
    rw [moveFar]
    by_cases hlt : k < cur + 2 * H
    · have hpos : (((k : ℤ) - H - cur) % 2 ^ 32).toNat = k - H - cur := by omega
      obtain ⟨next, rest, hmove, hrest, hlate, hnext, hlook⟩ :=
        ih hsorted' hfar (Function.update win (k - H - cur) wc)
      simp only [if_pos hlt, hpos]
      rw [if_pos (by omega)]
      refine ⟨next, rest, hmove, hrest, fun e he => ?_, fun i hi => ?_, fun c hc => ?_⟩
      · exact ⟨(hlate e he).1, List.mem_cons_of_mem _ (hlate e he).2⟩
      · rw [hnext i hi, List.lookup_cons]
        by_cases hik : i = k - H - cur
        · have hcycle : cur + H + i = k := by omega
          have hnone : ub.lookup (cur + H + i) = none := by
            rw [List.lookup_eq_none_iff]
            intro e he
            have hke := hkeys e he
            change k < e.1 at hke
            exact bne_iff_ne.mpr (by omega)
          have hbeq : (cur + H + i == k) = true := beq_iff_eq.mpr hcycle
          rw [hnone, hbeq, hik, Option.getD_none, Function.update_self]
          rfl
        · have hbeq : (cur + H + i == k) = false := beq_eq_false_iff_ne.mpr (by omega)
          rw [hbeq, Function.update_of_ne hik]
      · rw [hlook c hc, look_cons, if_neg (by omega)]
    · rw [if_neg hlt]
      refine ⟨win, (k, wc) :: ub, rfl, hsorted, fun e he => ⟨?_, he⟩, fun i hi => ?_, fun c _ => rfl⟩
      · cases List.mem_cons.mp he with
        | inl heq =>
          rw [heq]
          exact Nat.le_of_not_lt hlt
        | inr he =>
          have hke := hkeys e he
          change k < e.1 at hke
          omega
      · have hnone : ((k, wc) :: ub).lookup (cur + H + i) = none := by
          rw [List.lookup_eq_none_iff]
          refine List.forall_mem_cons.mpr ⟨bne_iff_ne.mpr ?_, fun e he => bne_iff_ne.mpr ?_⟩
          · change cur + H + i ≠ k
            omega
          · have hke := hkeys e he
            change k < e.1 at hke
            omega
        rw [hnone, Option.getD_none]

theorem Shaped.cell_self (h : Shaped H w) : cell H w w.curCycle = w.curWin w.curPos := by
  rw [cell, Nat.sub_self, Nat.add_zero, cellAt_cur h.pos]

/-- An advance within the current window. -/
theorem Shaped.pass (h : Shaped H w) (hlast : w.curPos + 1 ≠ H) : Passes H w w.pass := by
  have hpos := h.pos
  have hstarted := h.started
  refine ⟨⟨h.bits, ?_, ?_, fun i hi => ?_, h.sorted, fun e he => ?_, h.filled, h.wide⟩, rfl, (if_neg hlast).symm,
    ?_, rfl, fun d hd => ?_⟩
  · change w.curPos + 1 < H
    omega
  · exact Nat.succ_le_succ hstarted
  · change i < w.curPos + 1 at hi
    change Function.update w.curWin w.curPos .empty i = .empty
    by_cases heq : i = w.curPos
    · rw [heq, Function.update_self]
    · rw [Function.update_of_ne heq]
      exact h.past i (by omega)
  · change w.curCycle + 1 - (w.curPos + 1) + 2 * H ≤ e.1
    rw [Nat.add_sub_add_right]
    exact h.far e he
  · rw [h.cell_self]
    rfl
  · change cellAt H w.pass (w.curPos + 1 + (d - (w.curCycle + 1))) = cellAt H w (w.curPos + (d - w.curCycle))
    have hj : w.curPos + 1 + (d - (w.curCycle + 1)) = w.curPos + (d - w.curCycle) := by omega
    have hne : w.curPos + (d - w.curCycle) ≠ w.curPos := by omega
    have hcycle : w.curCycle + 1 + (w.curPos + (d - w.curCycle) - (w.curPos + 1)) =
        w.curCycle + (w.curPos + (d - w.curCycle) - w.curPos) := by omega
    rw [hj, cellAt, cellAt]
    change (if _ < H then Function.update w.curWin w.curPos _ (w.curPos + (d - w.curCycle)) else
      if _ < 2 * H then _ else look w.ubWin (w.curCycle + 1 + (w.curPos + (d - w.curCycle) - (w.curPos + 1)))) = _
    rw [Function.update_of_ne hne, hcycle]
    rfl

/-- The windows after a rebase. -/
theorem Shaped.rebase (h : Shaped H w) (hlast : w.curPos + 1 = H) :
    ∃ w', w.pass.rebase H = some w' ∧ Passes H w w' := by
  have hstarted := h.started
  have hempty : ∀ i < H, w.pass.curWin i = .empty := by
    intro i hi
    change Function.update w.curWin w.curPos .empty i = .empty
    by_cases heq : i = w.curPos
    · rw [heq, Function.update_self]
    · rw [Function.update_of_ne heq]
      exact h.past i (by omega)
  have hfar : ∀ e ∈ w.ubWin, w.curCycle + 1 + H ≤ e.1 := by
    intro e he
    have hle := h.far e he
    omega
  have hmoves : ∃ next rest, moveFar H w.pass.curCycle (w.pass.curCycle + 2 * H % 2 ^ 32) w.pass.ubWin
      w.pass.curWin = some (next, rest) ∧ Sorted rest ∧ (∀ e ∈ rest, w.curCycle + 1 + 2 * H ≤ e.1 ∧ e ∈ w.ubWin) ∧
      (∀ i < H, next i = look w.ubWin (w.curCycle + 1 + H + i)) ∧
      (∀ c, w.curCycle + 1 + 2 * H ≤ c → look rest c = look w.ubWin c) ∧ (2 ^ 32 ≤ 2 * H → rest = []) := by
    by_cases hbits : 2 * H < 2 ^ 32
    · obtain ⟨next, rest, hmove, hsorted, hlate, hnext, hlook⟩ :=
        moveFar_moves h.sorted hfar hbits w.pass.curWin
      rw [Nat.mod_eq_of_lt hbits]
      refine ⟨next, rest, hmove, hsorted, hlate, fun i hi => ?_, hlook, fun hwide => by omega⟩
      rw [hnext i hi, hempty i hi]
      rfl
    · have hnil := h.wide (Nat.le_of_not_lt hbits)
      refine ⟨w.pass.curWin, [], ?_, .nil, fun e he => absurd he List.not_mem_nil, fun i hi => ?_,
        fun c _ => by rw [hnil], fun _ => rfl⟩
      · change moveFar H _ _ w.ubWin _ = _
        rw [hnil]
        rfl
      · rw [hempty i hi, hnil]
        rfl
  obtain ⟨next, rest, hmove, hsorted, hlate, hnext, hlook, hwide⟩ := hmoves
  refine ⟨{ w.pass with curWin := w.nextWin, nextWin := next, ubWin := rest, curPos := 0 }, ?_, ?_⟩
  · rw [Window.rebase, hmove]
    rfl
  · refine ⟨⟨h.bits, ?_, Nat.zero_le _, fun i hi => absurd hi (Nat.not_lt_zero i), hsorted,
      fun e he => (hlate e he).1, fun e he => h.filled e (hlate e he).2, hwide⟩, rfl,
      (if_pos hlast).symm, ?_, rfl, fun d hd => ?_⟩
    · change 0 < H
      omega
    · rw [h.cell_self]
      rfl
    · change cellAt H _ (0 + (d - (w.curCycle + 1))) = cellAt H w (w.curPos + (d - w.curCycle))
      have hj : w.curPos + (d - w.curCycle) = d - (w.curCycle + 1) + H := by omega
      rw [hj, Nat.zero_add]
      by_cases hcur : d - (w.curCycle + 1) < H
      · rw [cellAt_cur hcur, cellAt_next hcur]
      · have hold : w.curCycle + (d - (w.curCycle + 1) + H - w.curPos) = d := by omega
        rw [@cellAt_far H w _ (by omega), hold]
        by_cases hnear : d - (w.curCycle + 1) < 2 * H
        · have hi : d - (w.curCycle + 1) - H + H = d - (w.curCycle + 1) := by omega
          have hd' : w.curCycle + 1 + H + (d - (w.curCycle + 1) - H) = d := by omega
          rw [← hi, cellAt_next (by omega)]
          change next _ = _
          rw [hnext _ (by omega), hd']
        · rw [cellAt_far (Nat.le_of_not_lt hnear)]
          change look rest (w.curCycle + 1 + (d - (w.curCycle + 1) - 0)) = _
          have hd' : w.curCycle + 1 + (d - (w.curCycle + 1) - 0) = d := by omega
          rw [hd', hlook d (by omega)]

/-- An advance leaves the cycles to come as they are. -/
theorem Shaped.advancePos (h : Shaped H w) : ∃ w', advancePos H w = .ok ((), w') ∧ Passes H w w' := by
  by_cases hlast : w.curPos + 1 = H
  · obtain ⟨w', hrebase, hpasses⟩ := h.rebase hlast
    refine ⟨w', ?_, hpasses⟩
    have hpos : w.pass.curPos = H := hlast
    rw [IssueWindow.advancePos, change_bind, observe_bind, id, if_pos hpos, hrebase]
    rfl
  · refine ⟨w.pass, ?_, h.pass hlast⟩
    have hpos : w.pass.curPos ≠ H := hlast
    rw [IssueWindow.advancePos, change_bind, observe_bind, id, if_neg hpos]
    rfl

end Advance
end Zsim.IssueCells
