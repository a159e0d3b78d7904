import Zsim.IssueCells
import Mathlib.Data.List.Perm.Subperm
import Mathlib.Data.List.Nodup
import Mathlib.Data.Nat.Find

/-!
# The uops in an issue window

The uops of the cycles to come are counted, and what is booked keeps its cycle. A uop waits
for room and takes the first port that is free; its extra slots, and the cycles the load-store
unit takes away, are booked without being counted. All positions have to fit 32 bits.
-/

namespace Zsim.IssueBookings

open WeakestPre IssueWindow IssueCells

section Books

/-- The uops in one cycle. -/
def uopsIn (uops : List (ℕ × ℕ)) (c : ℕ) : ℕ := uops.countP fun u => u.1 = c

/-- The uops from a cycle on. -/
def uopsFrom (uops : List (ℕ × ℕ)) (c : ℕ) : ℕ := uops.countP fun u => c ≤ u.1

/-- The invariant of a window and what has been asked of it. -/
structure Holds (H WSZ : ℕ) (w : Window) (uops : List (ℕ × ℕ)) (taken : ℕ → BitVec 8) : Prop where
  shaped : Shaped H w
  size : WSZ < 2 ^ 32
  booked : ∀ c, w.curCycle ≤ c → occ H w c = taken c
  counts : ∀ c, w.curCycle ≤ c → (cell H w c).count = uopsIn uops c
  occupancy : w.occupancy = uopsFrom uops w.curCycle
  room : w.occupancy ≤ WSZ
  nodup : uops.Nodup
  ports : ∀ u ∈ uops, u.2 < 8 ∧ (taken u.1).getLsbD u.2 = true

variable {H WSZ : ℕ} {w w' : Window} {uops : List (ℕ × ℕ)} {taken taken' : ℕ → BitVec 8} {mask : BitVec 8}
  {c d n sched start : ℕ}

theorem uopsFrom_succ : uopsFrom uops c = uopsIn uops c + uopsFrom uops (c + 1) := by
  induction uops with
  | nil => rfl
  | cons u uops ih =>
    simp only [uopsFrom, uopsIn, List.countP_cons, decide_eq_true_eq] at ih ⊢
    by_cases hlt : c + 1 ≤ u.1
    · have hle : c ≤ u.1 := by omega
      have hne : ¬ u.1 = c := by omega
      simp only [if_pos hlt, if_pos hle, if_neg hne]
      omega
    · by_cases heq : u.1 = c
      · have hle : c ≤ u.1 := by omega
        simp only [if_neg hlt, if_pos hle, if_pos heq]
        omega
      · have hnot : ¬ c ≤ u.1 := by omega
        simp only [if_neg hlt, if_neg hnot, if_neg heq]
        omega

theorem uopsFrom_eq_zero (h : ∀ u ∈ uops, u.1 < c) : uopsFrom uops c = 0 := by
  refine List.countP_eq_zero.mpr fun u hu => ?_
  rw [decide_eq_true_iff]
  exact Nat.not_le.mpr (h u hu)

theorem uopsFrom_anti (h : c ≤ d) : uopsFrom uops d ≤ uopsFrom uops c := by
  refine List.countP_mono_left fun u _ hu => ?_
  rw [decide_eq_true_iff] at hu ⊢
  exact Nat.le_trans h hu

/-- A cycle has at most eight uops, one for each port. -/
theorem Holds.uopsIn_le (h : Holds H WSZ w uops taken) (c : ℕ) : uopsIn uops c ≤ 8 := by
  have hnodup : ((uops.filter fun u => u.1 = c).map Prod.snd).Nodup := by
    refine (h.nodup.filter _).map_on fun u hu v hv heq => ?_
    have hu' : u.1 = c := by simpa using (List.mem_filter.mp hu).2
    have hv' : v.1 = c := by simpa using (List.mem_filter.mp hv).2
    exact Prod.ext (hu'.trans hv'.symm) heq
  have hsub : (uops.filter fun u => u.1 = c).map Prod.snd ⊆ List.range 8 := by
    intro p hp
    obtain ⟨u, hu, rfl⟩ := List.mem_map.mp hp
    exact List.mem_range.mpr (h.ports u (List.mem_filter.mp hu).1).1
  have hle := (List.subperm_of_subset hnodup hsub).length_le
  rw [List.length_map, List.length_range, ← List.countP_eq_length_filter] at hle
  exact hle

/-- An advance passes the uops of one cycle. -/
theorem Holds.advance (h : Holds H WSZ w uops taken) : ∃ w', advancePos H w = .ok ((), w') ∧
    Holds H WSZ w' uops taken ∧ w'.curCycle = w.curCycle + 1 ∧ w'.curPos = (w.curPos + 1) % H ∧
      ∀ d, w.curCycle < d → cell H w' d = cell H w d := by
  obtain ⟨w', hok, hpasses⟩ := h.shaped.advancePos
  have hpos := h.shaped.pos
  have hcurPos : w'.curPos = (w.curPos + 1) % H := by
    rw [hpasses.curPos]
    split
    · next hlast => rw [hlast, Nat.mod_self]
    · next hlast => exact (Nat.mod_eq_of_lt (by omega)).symm
  have hoccupancy : w'.occupancy = uopsFrom uops w'.curCycle := by
    have hsum := @uopsFrom_succ uops w.curCycle
    have hroom := h.room
    have hsize := h.size
    rw [hpasses.occupancy, h.counts _ (Nat.le_refl _), hpasses.curCycle]
    rw [h.occupancy] at hroom ⊢
    rw [sub32_eq (by omega) (by omega)]
    omega
  refine ⟨w', hok, ⟨hpasses.shaped, h.size, fun c hc => ?_, fun c hc => ?_, hoccupancy, ?_, h.nodup, h.ports⟩,
    hpasses.curCycle, hcurPos, hpasses.cells⟩
  · rw [hpasses.curCycle] at hc
    rw [occ, hpasses.cells c hc]
    exact h.booked c (Nat.le_of_lt hc)
  · rw [hpasses.curCycle] at hc
    rw [hpasses.cells c hc]
    exact h.counts c (Nat.le_of_lt hc)
  · have hanti := @uopsFrom_anti uops w.curCycle w'.curCycle (by rw [hpasses.curCycle]; omega)
    rw [hoccupancy]
    rw [← h.occupancy] at hanti
    exact Nat.le_trans hanti h.room

/-- The position of a request and of the cycle that serves it fit 32 bits. -/
def Fits (H pos cur : ℕ) (taken : ℕ → BitVec 8) (mask : BitVec 8) (start : ℕ) : Prop :=
  pos + (start - cur) < 2 ^ 32 ∧ (2 * H < 2 ^ 32 ∨
    ∃ c, FirstFree taken mask start c ∧ pos + (c - cur) < 2 ^ 32)

theorem Holds.near (h : Holds H WSZ w uops taken) (hstart : w.curCycle ≤ start)
    (hfits : Fits H w.curPos w.curCycle taken mask start) : Near H w mask start := by
  refine ⟨hfits.1, hfits.2.imp_right fun ⟨c, hfirst, hc⟩ => ⟨c, hfirst.congr fun d hd => ?_, hc⟩⟩
  exact h.booked d (Nat.le_trans hstart hd)

theorem mark_self (b : ℕ × BitVec 8) : mark taken b b.1 = taken b.1 ||| b.2 := Function.update_self ..

theorem mark_of_ne {b : ℕ × BitVec 8} (h : c ≠ b.1) : mark taken b c = taken c := Function.update_of_ne h _ _

/-- What is marked stays marked. -/
theorem getLsbD_mark {b : ℕ × BitVec 8} {i : ℕ} (h : (taken c).getLsbD i = true) :
    (mark taken b c).getLsbD i = true := by
  by_cases hc : c = b.1
  · rw [hc, mark_self, BitVec.getLsbD_or, ← hc, h, Bool.true_or]
  · rw [mark_of_ne hc]
    exact h

theorem shadow_booked {b : Booking} (h : w.book H false sched mask = some (b, w')) :
    scheduleInternal H WSZ false false sched mask w = .ok ((b.cycle, mask), w') := by
  rw [scheduleInternal, observe_bind, if_neg Bool.false_ne_true]
  beta_reduce
  rw [observe_bind, id, h]
  rfl

/-- A booking that does not count as a uop. -/
theorem Holds.shadow (h : Holds H WSZ w uops taken) (hmask : mask ≠ 0)
    (hfits : Fits H w.curPos w.curCycle taken mask (max sched w.curCycle)) :
    ∃ c w', scheduleInternal H WSZ false false sched mask w = .ok ((c, mask), w') ∧
      FirstFree taken mask (max sched w.curCycle) c ∧ Holds H WSZ w' uops (mark taken (c, mask)) ∧
        w'.curCycle = w.curCycle ∧ w'.curPos = w.curPos := by
  have hcur := Nat.le_max_right sched w.curCycle
  obtain ⟨b, w', hbook, hbooks⟩ := @Shaped.book H w mask false sched h.shaped hmask (h.near hcur hfits)
  have hcycle := hbooks.curCycle
  refine ⟨b.cycle, w', shadow_booked hbook,
    hbooks.first.congr fun d hd => (h.booked d (Nat.le_trans hcur hd)).symm, ?_, hcycle, hbooks.curPos⟩
  refine ⟨hbooks.shaped, h.size, fun d hd => ?_, fun d hd => ?_, ?_, ?_, h.nodup, fun u hu => ?_⟩
  · change w'.curCycle ≤ d at hd
    rw [hcycle] at hd
    change (cell H w' d).occUnits = _
    rw [hbooks.cells d hd]
    by_cases hdb : d = b.cycle
    · rw [if_pos hdb, hdb, mark_self, ← h.booked b.cycle (hdb ▸ hd)]
      rfl
    · rw [if_neg hdb, mark_of_ne hdb]
      exact h.booked d hd
  · change w'.curCycle ≤ d at hd
    rw [hcycle] at hd
    rw [hbooks.cells d hd]
    split
    · exact h.counts d hd
    · exact h.counts d hd
  · rw [hbooks.occupancy, hcycle]
    exact h.occupancy
  · rw [hbooks.occupancy]
    exact h.room
  · exact ⟨(h.ports u hu).1, getLsbD_mark (h.ports u hu).2⟩

/-- A uop that finds room takes the first port of its mask that is free. -/
theorem Holds.uop {record : Bool} (h : Holds H WSZ w uops taken) (hmask : mask ≠ 0) (hroom : w.occupancy < WSZ)
    (hfits : Fits H w.curPos w.curCycle taken mask (max sched w.curCycle)) :
    ∃ b w', w.book H true sched mask = some (b, w') ∧
      FirstFree taken mask (max sched w.curCycle) b.cycle ∧ b.availMask = free (taken b.cycle) mask ∧
        Holds H WSZ { w' with
          lastPort := if record = true then firstPort b.availMask else w'.lastPort
          occupancy := (w'.occupancy + 1) % 2 ^ 32 }
          ((b.cycle, firstPort b.availMask) :: uops) (mark taken (b.cycle, (1 : BitVec 8) <<< firstPort b.availMask)) ∧
        w'.curCycle = w.curCycle ∧ w'.curPos = w.curPos := by
  have hcur := Nat.le_max_right sched w.curCycle
  obtain ⟨b, w', hbook, hbooks⟩ := @Shaped.book H w mask true sched h.shaped hmask (h.near hcur hfits)
  have hcycle := hbooks.curCycle
  have hfirst : FirstFree taken mask (max sched w.curCycle) b.cycle :=
    hbooks.first.congr fun d hd => (h.booked d (Nat.le_trans hcur hd)).symm
  have hb : w.curCycle ≤ b.cycle := Nat.le_trans hcur hfirst.start_le
  have havail : b.availMask = free (taken b.cycle) mask := hbooks.avail.trans (by rw [h.booked b.cycle hb])
  have hport : (free (taken b.cycle) mask).getLsbD (firstPort b.availMask) = true := by
    rw [havail]
    exact firstPort_mem hfirst.free
  obtain ⟨hlt, hnot, -⟩ := getLsbD_free.mp hport
  have hocc : (w'.occupancy + 1) % 2 ^ 32 = w.occupancy + 1 := by
    have hsize := h.size
    rw [hbooks.occupancy, Nat.mod_eq_of_lt (by omega)]
  refine ⟨b, w', hbook, hfirst, havail, ?_, hcycle, hbooks.curPos⟩
  have hs := hbooks.shaped
  refine ⟨⟨hs.1, hs.2, hs.3, hs.4, hs.5, hs.6, hs.7, hs.8⟩, h.size, fun d hd => ?_, fun d hd => ?_, ?_, ?_,
    List.nodup_cons.mpr ⟨fun hmem => ?_, h.nodup⟩, List.forall_mem_cons.mpr ⟨⟨hlt, ?_⟩, fun u hu => ?_⟩⟩
  · change w'.curCycle ≤ d at hd
    rw [hcycle] at hd
    change (cell H w' d).occUnits = _
    rw [hbooks.cells d hd]
    by_cases hdb : d = b.cycle
    · rw [if_pos hdb, hdb, mark_self, ← h.booked b.cycle hb, hbooks.avail]
      rfl
    · rw [if_neg hdb, mark_of_ne hdb]
      exact h.booked d hd
  · change w'.curCycle ≤ d at hd
    rw [hcycle] at hd
    change (cell H w' d).count = uopsIn (_ :: uops) d
    have height := h.uopsIn_le d
    have hcount := h.counts d hd
    rw [hbooks.cells d hd, uopsIn, List.countP_cons]
    change _ = uopsIn uops d + _
    by_cases hdb : d = b.cycle
    · rw [if_pos hdb]
      change ((cell H w d).count + 1) % 2 ^ 8 = _
      rw [hcount, Nat.mod_eq_of_lt (by omega), if_pos (decide_eq_true hdb.symm)]
    · have hbd : ¬ decide (b.cycle = d) = true := by simpa using Ne.symm hdb
      rw [if_neg hdb, if_neg hbd, hcount, Nat.add_zero]
  · change (w'.occupancy + 1) % 2 ^ 32 = uopsFrom (_ :: uops) w'.curCycle
    rw [hocc, hcycle, uopsFrom, List.countP_cons, if_pos (decide_eq_true hb), h.occupancy]
    rfl
  · change (w'.occupancy + 1) % 2 ^ 32 ≤ WSZ
    rw [hocc]
    exact hroom
  · have hbit := (h.ports _ hmem).2
    rw [hnot] at hbit
    cases hbit
  · rw [mark_self, BitVec.getLsbD_or]
    have hone : ((1 : BitVec 8) <<< firstPort b.availMask).getLsbD (firstPort b.availMask) = true := by
      simp [hlt]
    change (_ || ((1 : BitVec 8) <<< firstPort b.availMask).getLsbD (firstPort b.availMask)) = true
    rw [hone, Bool.or_true]
  · exact ⟨(h.ports u hu).1, getLsbD_mark (h.ports u hu).2⟩

end Books

section Calls

variable {H WSZ : ℕ} {w w' : Window} {uops : List (ℕ × ℕ)} {taken taken' : ℕ → BitVec 8} {mask : BitVec 8}
  {c d n sched start target : ℕ}

/-- Where the wait for room ends. -/
structure Stalls (WSZ : ℕ) (uops : List (ℕ × ℕ)) (cur cur' : ℕ) : Prop where
  le : cur ≤ cur'
  room : uopsFrom uops cur' < WSZ
  full : ∀ c, cur ≤ c → c < cur' → uopsFrom uops c = WSZ

theorem stall_stop (h : w.occupancy ≠ WSZ) (rounds : ℕ) : stall H WSZ (rounds + 1) w = .ok ((), w) := by
  change (if w.occupancy = WSZ then _ else pure () : Act Unit) w = _
  rw [if_neg h]
  rfl

theorem stall_again (h : w.occupancy = WSZ) (hok : advancePos H w = .ok ((), w')) (rounds : ℕ) :
    stall H WSZ (rounds + 1) w = stall H WSZ rounds w' := by
  change (if w.occupancy = WSZ then (advancePos H >>= fun _ => stall H WSZ rounds) else pure () : Act Unit) w = _
  rw [if_pos h]
  exact ok_bind hok _

/-- The position after some advances. -/
theorem mod_step {pos k : ℕ} : ((pos + 1) % H + k) % H = (pos + (k + 1)) % H := by
  rw [Nat.mod_add_mod]
  congr 1
  omega

/-- The wait for room ends once all uops have been passed. -/
theorem Holds.stalls (h : Holds H WSZ w uops taken) (hW : 0 < WSZ)
    (hlast : ∀ u ∈ uops, u.1 < w.curCycle + n) : ∃ w', stall H WSZ (n + 1) w = .ok ((), w') ∧
      Holds H WSZ w' uops taken ∧ Stalls WSZ uops w.curCycle w'.curCycle ∧
        w'.curPos = (w.curPos + (w'.curCycle - w.curCycle)) % H := by
  have hstop : w.occupancy ≠ WSZ → ∃ w', stall H WSZ (n + 1) w = .ok ((), w') ∧
      Holds H WSZ w' uops taken ∧ Stalls WSZ uops w.curCycle w'.curCycle ∧
        w'.curPos = (w.curPos + (w'.curCycle - w.curCycle)) % H := by
    intro hne
    refine ⟨w, stall_stop hne n, h, ⟨Nat.le_refl _, ?_, fun c hc hlt => by omega⟩, ?_⟩
    · rw [← h.occupancy]
      exact Nat.lt_of_le_of_ne h.room hne
    · rw [Nat.sub_self, Nat.add_zero, Nat.mod_eq_of_lt h.shaped.pos]
  induction n generalizing w with
  | zero =>
    refine hstop ?_
    rw [h.occupancy, @uopsFrom_eq_zero uops w.curCycle hlast]
    exact Nat.ne_of_lt hW
  | succ n ih =>
    by_cases hfull : w.occupancy = WSZ
    · obtain ⟨w₁, hok, h₁, hcycle, hpos, -⟩ := h.advance
      have hlast₁ : ∀ u ∈ uops, u.1 < w₁.curCycle + n := by
        intro u hu
        have hu' := hlast u hu
        omega
      have hrest : ∃ w', stall H WSZ (n + 1) w₁ = .ok ((), w') ∧ Holds H WSZ w' uops taken ∧
          Stalls WSZ uops w₁.curCycle w'.curCycle ∧
            w'.curPos = (w₁.curPos + (w'.curCycle - w₁.curCycle)) % H := by
        refine ih h₁ hlast₁ fun hne => ?_
        refine ⟨w₁, stall_stop hne n, h₁, ⟨Nat.le_refl _, ?_, fun c hc hlt => by omega⟩, ?_⟩
        · rw [← h₁.occupancy]
          exact Nat.lt_of_le_of_ne h₁.room hne
        · rw [Nat.sub_self, Nat.add_zero, Nat.mod_eq_of_lt h₁.shaped.pos]
      obtain ⟨w', hstall, h', hstalls, hpos'⟩ := hrest
      have hle := hstalls.le
      refine ⟨w', (stall_again hfull hok _).trans hstall, h', ⟨by omega, hstalls.room, fun c hc hlt => ?_⟩, ?_⟩
      · by_cases hcur : c = w.curCycle
        · rw [hcur, ← h.occupancy]
          exact hfull
        · exact hstalls.full c (by omega) hlt
      · have hsum : w'.curCycle - w.curCycle = w'.curCycle - w₁.curCycle + 1 := by omega
        rw [hpos', hpos, mod_step, hsum]
    · exact hstop hfull

theorem le_foldr_max {l : List ℕ} {x : ℕ} (h : x ∈ l) : x ≤ l.foldr max 0 := by
  induction l with
  | nil => cases h
  | cons y l ih =>
    rw [List.foldr_cons]
    cases List.mem_cons.mp h with
    | inl heq =>
      rw [heq]
      exact Nat.le_max_left ..
    | inr h => exact Nat.le_trans (ih h) (Nat.le_max_right ..)

/-- Every uop is in the windows or in the map. -/
theorem Holds.lt_span (h : Holds H WSZ w uops taken) : ∃ n, w.span H = n + 1 ∧
    ∀ u ∈ uops, u.1 < w.curCycle + n := by
  refine ⟨2 * H + (w.ubWin.map Prod.fst).foldr max 0 + 1, rfl, fun u hu => ?_⟩
  by_contra hlarge
  have hcount : (cell H w u.1).count ≠ 0 := by
    rw [h.counts u.1 (by omega)]
    exact Nat.ne_of_gt (List.countP_pos_iff.mpr ⟨u, hu, decide_eq_true rfl⟩)
  refine hcount ?_
  have hcycle : w.curCycle + (w.curPos + (u.1 - w.curCycle) - w.curPos) = u.1 := by omega
  rw [cell, cellAt_far (by omega), hcycle, look_of_notMem fun e he heq => ?_]
  · rfl
  · have hle := le_foldr_max (List.mem_map_of_mem (f := Prod.fst) he)
    omega

/-- The extra slots are asked for within reach. -/
def SlotsFit (H pos cur : ℕ) (taken : ℕ → BitVec 8) (mask : BitVec 8) : ℕ → ℕ → Prop
  | 0, _ => True
  | n + 1, start => Fits H pos cur taken mask start ∧
    ∀ c, FirstFree taken mask start c → SlotsFit H pos cur taken mask n (c + 1)

theorem Fits.congr {pos cur : ℕ} (h : Fits H pos cur taken mask start)
    (heq : ∀ d, start ≤ d → taken' d = taken d) : Fits H pos cur taken' mask start :=
  ⟨h.1, h.2.imp_right fun ⟨c, hfirst, hc⟩ => ⟨c, hfirst.congr heq, hc⟩⟩

theorem SlotsFit.congr {pos cur : ℕ} (h : SlotsFit H pos cur taken mask n start)
    (heq : ∀ d, start ≤ d → taken' d = taken d) : SlotsFit H pos cur taken' mask n start := by
  induction n generalizing start with
  | zero => trivial
  | succ n ih =>
    refine ⟨h.1.congr heq, fun c hc => ?_⟩
    have hfirst : FirstFree taken mask start c := hc.congr fun d hd => (heq d hd).symm
    have hstart := hc.start_le
    exact ih (h.2 c hfirst) fun d hd => heq d (by omega)

/-- The extra slots are booked one after another. -/
theorem Holds.extraSlots (h : Holds H WSZ w uops taken) (hmask : mask ≠ 0) (hcur : w.curCycle ≤ start)
    (hfits : SlotsFit H w.curPos w.curCycle taken mask n start) :
    ∃ bs w', extraSlot H WSZ mask n start w = .ok (bs, w') ∧ Holds H WSZ w' uops (bs.foldl mark taken) ∧
      w'.curCycle = w.curCycle ∧ w'.curPos = w.curPos := by
  induction n generalizing w taken start with
  | zero => exact ⟨[], w, rfl, h, rfl, rfl⟩
  | succ n ih =>
    have hmax : max start w.curCycle = start := Nat.max_eq_left hcur
    obtain ⟨c, w₁, hok, hfirst, h₁, hcycle, hpos⟩ := @Holds.shadow H WSZ w uops taken mask start h hmask
      (hmax.symm ▸ hfits.1)
    rw [hmax] at hfirst
    have hstart := hfirst.start_le
    have hfits₁ : SlotsFit H w₁.curPos w₁.curCycle (mark taken (c, mask)) mask n (c + 1) := by
      rw [hcycle, hpos]
      refine (hfits.2 c hfirst).congr fun d hd => mark_of_ne ?_
      change d ≠ c
      omega
    obtain ⟨bs, w', hrest, h', hcycle', hpos'⟩ := ih h₁ (by omega) hfits₁
    refine ⟨(c, mask) :: bs, w', ?_, h', hcycle'.trans hcycle, hpos'.trans hpos⟩
    exact (ok_bind hok _).trans (ok_bind hrest _)

/-- The requests of a uop fit, wherever the wait for room ends. -/
def UopFits (H WSZ : ℕ) (w : Window) (uops : List (ℕ × ℕ)) (taken : ℕ → BitVec 8) (sched : ℕ) (mask : BitVec 8)
    (extraSlots : ℕ) : Prop :=
  ∀ cur, Stalls WSZ uops w.curCycle cur →
    Fits H ((w.curPos + (cur - w.curCycle)) % H) cur taken mask (max sched cur) ∧
      ∀ c, FirstFree taken mask (max sched cur) c →
        SlotsFit H ((w.curPos + (cur - w.curCycle)) % H) cur taken
          ((1 : BitVec 8) <<< firstPort (free (taken c) mask)) extraSlots (c + 1)

/-- Where a uop is put. -/
structure Served (WSZ : ℕ) (w : Window) (uops : List (ℕ × ℕ)) (taken : ℕ → BitVec 8) (sched : ℕ)
    (mask : BitVec 8) (u : ℕ × ℕ) (w' : Window) : Prop where
  stalls : Stalls WSZ uops w.curCycle w'.curCycle
  first : FirstFree taken mask (max sched w'.curCycle) u.1
  port : u.2 < 8 ∧ mask.getLsbD u.2 = true ∧ (taken u.1).getLsbD u.2 = false

theorem one_shift_ne_zero {p : ℕ} (h : p < 8) : (1 : BitVec 8) <<< p ≠ 0 := by
  intro hzero
  have hbit : ((1 : BitVec 8) <<< p).getLsbD p = true := by simp [h]
  rw [hzero] at hbit
  simp at hbit

theorem uop_booked {w₁ w₂ : Window} {b : Booking} {record : Bool} (hstall : stall H WSZ (w.span H) w = .ok ((), w₁))
    (hbook : w₁.book H true sched mask = some (b, w₂)) :
    scheduleInternal H WSZ true record sched mask w = .ok ((b.cycle, (1 : BitVec 8) <<< firstPort b.availMask),
      { w₂ with
        lastPort := if record = true then firstPort b.availMask else w₂.lastPort
        occupancy := (w₂.occupancy + 1) % 2 ^ 32 }) := by
  rw [scheduleInternal, observe_bind, if_pos rfl, id, ok_bind hstall]
  beta_reduce
  rw [observe_bind, id, hbook]
  rfl

theorem schedule_booked {w₂ w₃ : Window} {u : ℕ × BitVec 8} {bs : List (ℕ × BitVec 8)} {extraSlots : ℕ}
    (hinternal : scheduleInternal H WSZ true (decide (extraSlots ≠ 0)) sched mask w = .ok (u, w₂))
    (hextra : extraSlot H WSZ ((1 : BitVec 8) <<< w₂.lastPort) extraSlots (u.1 + 1) w₂ = .ok (bs, w₃))
    (hroom : w₃.occupancy ≤ WSZ) : schedule H WSZ sched mask extraSlots w = .ok ((u, bs), w₃) := by
  refine (ok_bind hinternal _).trans ((ok_bind rfl _).trans ((ok_bind hextra _).trans ?_))
  change (ensure (w₃.occupancy ≤ WSZ) .overfull >>= fun _ => _ : Act _) w₃ = _
  rw [ensure, if_pos hroom]
  rfl

/-- A uop waits for room and is put into the first cycle where one of its ports is free. -/
theorem Holds.schedules (h : Holds H WSZ w uops taken) (hW : 0 < WSZ) (hmask : mask ≠ 0) (extraSlots : ℕ)
    (hfits : UopFits H WSZ w uops taken sched mask extraSlots) :
    ∃ c p bs w', schedule H WSZ sched mask extraSlots w = .ok (((c, (1 : BitVec 8) <<< p), bs), w') ∧
      Holds H WSZ w' ((c, p) :: uops) (((c, (1 : BitVec 8) <<< p) :: bs).foldl mark taken) ∧
        Served WSZ w uops taken sched mask (c, p) w' := by
  obtain ⟨n, hspan, hlast⟩ := h.lt_span
  obtain ⟨w₁, hstall, h₁, hstalls, hpos₁⟩ := h.stalls hW hlast
  rw [← hspan] at hstall
  obtain ⟨hfit, hslots⟩ := hfits w₁.curCycle hstalls
  rw [← hpos₁] at hfit hslots
  have hroom : w₁.occupancy < WSZ := by
    rw [h₁.occupancy]
    exact hstalls.room
  obtain ⟨b, w₂, hbook, hfirst, havail, h₂, hcycle₂, hpos₂⟩ :=
    @Holds.uop H WSZ w₁ uops taken mask sched (decide (extraSlots ≠ 0)) h₁ hmask hroom hfit
  have hserved : Served WSZ w uops taken sched mask (b.cycle, firstPort b.availMask) w₁ := by
    have hport : (free (taken b.cycle) mask).getLsbD (firstPort b.availMask) = true := by
      rw [havail]
      exact firstPort_mem hfirst.free
    obtain ⟨hlt, hfree, hmem⟩ := getLsbD_free.mp hport
    exact ⟨hstalls, hfirst, hlt, hmem, hfree⟩
  have hinternal := @uop_booked H WSZ w mask sched w₁ w₂ b (decide (extraSlots ≠ 0)) hstall hbook
  have hstart : w₁.curCycle ≤ b.cycle + 1 :=
    Nat.le_succ_of_le (Nat.le_trans (Nat.le_max_right ..) hfirst.start_le)
  have hcycle₃ : w₂.curCycle ≤ b.cycle + 1 := hcycle₂ ▸ hstart
  have hextra : ∃ bs w₃, extraSlot H WSZ ((1 : BitVec 8) <<< (if decide (extraSlots ≠ 0) = true then firstPort b.availMask
      else w₂.lastPort)) extraSlots (b.cycle + 1) { w₂ with
        lastPort := if decide (extraSlots ≠ 0) = true then firstPort b.availMask else w₂.lastPort
        occupancy := (w₂.occupancy + 1) % 2 ^ 32 } = .ok (bs, w₃) ∧
      Holds H WSZ w₃ ((b.cycle, firstPort b.availMask) :: uops)
        (bs.foldl mark (mark taken (b.cycle, (1 : BitVec 8) <<< firstPort b.availMask))) ∧ w₃.curCycle = w₁.curCycle := by
    by_cases hzero : extraSlots = 0
    · subst hzero
      exact ⟨[], _, rfl, h₂, hcycle₂⟩
    · have hdecide : decide (extraSlots ≠ 0) = true := decide_eq_true hzero
      rw [if_pos hdecide] at h₂ ⊢
      have hslots' : SlotsFit H w₂.curPos w₂.curCycle (mark taken (b.cycle, (1 : BitVec 8) <<< firstPort b.availMask))
          ((1 : BitVec 8) <<< firstPort b.availMask) extraSlots (b.cycle + 1) := by
        have hfit' := hslots b.cycle hfirst
        rw [← havail] at hfit'
        rw [hcycle₂, hpos₂]
        refine hfit'.congr fun d hd => mark_of_ne ?_
        change d ≠ b.cycle
        omega
      obtain ⟨bs, w₃, hok, h₃, hcycle, -⟩ := @Holds.extraSlots H WSZ _ _ _ _ extraSlots (b.cycle + 1) h₂
        (one_shift_ne_zero firstPort_lt) hcycle₃ hslots'
      exact ⟨bs, w₃, hok, h₃, hcycle.trans hcycle₂⟩
  obtain ⟨bs, w₃, hok, h₃, hcycle⟩ := hextra
  refine ⟨b.cycle, firstPort b.availMask, bs, w₃, schedule_booked hinternal hok h₃.room, h₃, ?_⟩
  refine ⟨?_, ?_, hserved.port⟩
  · rw [hcycle]
    exact hserved.stalls
  · rw [hcycle]
    exact hserved.first

end Calls

section Ranges

variable {H WSZ : ℕ} {w w' : Window} {uops : List (ℕ × ℕ)} {taken taken' : ℕ → BitVec 8} {mask : BitVec 8}
  {c d n sched start target : ℕ}

/-- A port that is free somewhere is free for the first time. -/
theorem exists_firstFree {e : ℕ} (hle : start ≤ e) (hfree : free (taken e) mask ≠ 0) :
    ∃ c, FirstFree taken mask start c ∧ c ≤ e := by
  have hex : ∃ c, start ≤ c ∧ free (taken c) mask ≠ 0 := ⟨e, hle, hfree⟩
  refine ⟨Nat.find hex, ⟨(Nat.find_spec hex).1, (Nat.find_spec hex).2, fun d hd hlt => ?_⟩,
    Nat.find_min' hex ⟨hle, hfree⟩⟩
  by_contra hne
  exact Nat.find_min hex hlt ⟨hd, hne⟩

/-- The requests of a range to be poisoned fit. -/
def RangeFits (H pos cur : ℕ) (taken : ℕ → BitVec 8) (mask : BitVec 8) (target : ℕ) : Prop :=
  target + pos ≤ cur + 2 ^ 32 ∧ (2 * H < 2 ^ 32 ∨
    ∃ c, target ≤ c ∧ free (taken c) mask ≠ 0 ∧ pos + (c - cur) < 2 ^ 32)

theorem RangeFits.fits {pos cur : ℕ} (h : RangeFits H pos cur taken mask target) (hcur : cur ≤ start)
    (hlt : start < target) : Fits H pos cur taken mask start := by
  refine ⟨?_, h.2.imp_right fun ⟨e, he, hfree, hreach⟩ => ?_⟩
  · have hle := h.1
    omega
  · obtain ⟨c, hfirst, hc⟩ := exists_firstFree (Nat.le_trans (Nat.le_of_lt hlt) he) hfree
    exact ⟨c, hfirst, by omega⟩

theorem RangeFits.congr {pos cur : ℕ} (h : RangeFits H pos cur taken mask target)
    (heq : ∀ d, target ≤ d → taken' d = taken d) : RangeFits H pos cur taken' mask target := by
  refine ⟨h.1, h.2.imp_right fun ⟨e, he, hfree, hreach⟩ => ⟨e, he, ?_, hreach⟩⟩
  rw [heq e he]
  exact hfree

theorem free_marked {occ : BitVec 8} : free (occ ||| mask) mask = 0 := by
  unfold free
  refine BitVec.eq_of_getLsbD_eq fun i hi => ?_
  simp only [BitVec.getLsbD_and, BitVec.getLsbD_not, BitVec.getLsbD_or]
  cases mask.getLsbD i <;> simp

/-- Each round but the first poisons a later cycle. -/
theorem Holds.poisons {rounds : ℕ} (h : Holds H WSZ w uops taken) (hmask : mask ≠ 0) (hcur : w.curCycle ≤ start)
    (hfits : start < target → RangeFits H w.curPos w.curCycle taken mask target)
    (hrounds : target - start + 2 ≤ rounds ∨
      free (taken start) mask = 0 ∧ target - start + 1 ≤ rounds) :
    ∃ bs w', poison H WSZ target mask rounds start w = .ok (bs, w') ∧ Holds H WSZ w' uops (bs.foldl mark taken) := by
  induction rounds generalizing w taken start with
  | zero => omega
  | succ rounds ih =>
    rw [poison]
    by_cases hlt : start < target
    · have hmax : max start w.curCycle = start := Nat.max_eq_left hcur
      have hrange := hfits hlt
      obtain ⟨c, w₁, hok, hfirst, h₁, hcycle, hpos⟩ := @Holds.shadow H WSZ w uops taken mask start h hmask
        (hmax.symm ▸ hrange.fits hcur hlt)
      rw [hmax] at hfirst
      have hstart := hfirst.start_le
      have hnext : c < target → RangeFits H w₁.curPos w₁.curCycle (mark taken (c, mask)) mask target := by
        intro hc
        rw [hcycle, hpos]
        refine hrange.congr fun d hd => mark_of_ne ?_
        change d ≠ c
        omega
      have hfull : free (mark taken (c, mask) c) mask = 0 := by
        have hself := @mark_self taken (c, mask)
        rw [hself]
        exact free_marked
      have hlater : target - c + 1 ≤ rounds := by
        cases hrounds with
        | inl hmany => omega
        | inr hfew =>
          have hne : c ≠ start := by
            intro heq
            exact hfirst.free (heq ▸ hfew.1)
          omega
      obtain ⟨bs, w', hrest, h'⟩ := ih h₁ (by omega) hnext (Or.inr ⟨hfull, hlater⟩)
      refine ⟨(c, mask) :: bs, w', ?_, h'⟩
      rw [if_pos hlt]
      exact (ok_bind hok _).trans (ok_bind hrest _)
    · rw [if_neg hlt]
      exact ⟨[], w, rfl, h⟩

theorem Holds.poisonRanges (h : Holds H WSZ w uops taken) (hmask : mask ≠ 0)
    (hfits : w.curCycle < target → RangeFits H w.curPos w.curCycle taken mask target) :
    ∃ bs w', poisonRange H WSZ target mask w = .ok (bs, w') ∧ Holds H WSZ w' uops (bs.foldl mark taken) :=
  h.poisons hmask (Nat.le_refl _) hfits (Or.inl (by omega))

theorem placeFar_zero {touch : Bool} {ub : List (ℕ × WinCycle)} : placeFar touch 0 start ub = none := by
  have havail : ∀ wc : WinCycle, ¬ wc.avail 0 ≠ 0 := fun wc => not_not.mpr BitVec.and_zero
  induction ub generalizing start with
  | nil =>
    rw [placeFar, enter, if_neg (havail _)]
  | cons e rest ih =>
    obtain ⟨k, wc⟩ := e
    rw [placeFar, ih, ih, enter, if_neg (havail .empty), if_neg (havail wc)]
    split
    · rfl
    · split
      · rfl
      · rfl

/-- Nothing is free for an empty mask. -/
theorem poisonRange_zero (hlt : w.curCycle < target) : poisonRange H WSZ target 0 w = .error .noPort := by
  have hsearch : ∀ (win : ℕ → WinCycle) n pos, search win 0 n pos = none := by
    intro win n
    induction n with
    | zero => exact fun _ => rfl
    | succ n ih =>
      intro pos
      have havail : ¬ (win pos).avail 0 ≠ 0 := not_not.mpr BitVec.and_zero
      rw [search, if_neg havail]
      exact ih (pos + 1)
  have hbook : w.book H false w.curCycle 0 = none := by
    simp only [Window.book, hsearch, placeFar_zero, Option.map_none]
  have hinternal : scheduleInternal H WSZ false false w.curCycle 0 w = .error .noPort := by
    rw [scheduleInternal, observe_bind, if_neg Bool.false_ne_true]
    beta_reduce
    rw [observe_bind, id, hbook]
    rfl
  change poison H WSZ target 0 (8 * (target - w.curCycle) + 1 + 1) w.curCycle w = _
  rw [poison, if_pos hlt]
  exact error_bind hinternal _

end Ranges

end Zsim.IssueBookings
