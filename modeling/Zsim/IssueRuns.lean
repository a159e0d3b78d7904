import Zsim.GuardedRuns
import Zsim.IssueBookings

/-!
# Runs of an issue window

A jump does not move what has been booked along: it goes unnoticed only when there is nothing
booked that it would have to move. In runs whose calls fit, uops are where they were put, and
jumps are as good as advances.
-/

namespace Zsim.IssueRuns

open WeakestPre GuardedRuns IssueWindow IssueCells IssueBookings

section Jumps

variable {H WSZ : ℕ} {w w' : Window} {uops : List (ℕ × ℕ)} {taken : ℕ → BitVec 8} {c d n target : ℕ}

/-- Advances leave the cycles to come as they are. -/
theorem Holds.advances (h : Holds H WSZ w uops taken) (n : ℕ) : ∃ w', advances H n w = .ok ((), w') ∧
    Holds H WSZ w' uops taken ∧ w'.curCycle = w.curCycle + n ∧
      ∀ d, w.curCycle + n ≤ d → cell H w' d = cell H w d := by
  induction n generalizing w with
  | zero => exact ⟨w, rfl, h, rfl, fun d _ => rfl⟩
  | succ n ih =>
    obtain ⟨w₁, hok, h₁, hcycle, -, hcells⟩ := h.advance
    obtain ⟨w', hrest, h', hcycle', hcells'⟩ := ih h₁
    refine ⟨w', (ok_bind hok _).trans hrest, h', by omega, fun d hd => ?_⟩
    rw [hcells' d (by omega), hcells d (by omega)]

/-- Where the uops of a window are drained, or the target is reached. -/
structure Drains (uops : List (ℕ × ℕ)) (cur target cur' : ℕ) : Prop where
  le : cur ≤ cur'
  le_target : cur' ≤ target
  ends : cur' = target ∨ uopsFrom uops cur' = 0
  busy : ∀ c, cur ≤ c → c < cur' → uopsFrom uops c ≠ 0

theorem Holds.drains (h : Holds H WSZ w uops taken) (hle : w.curCycle ≤ target)
    (hrounds : target - w.curCycle + 1 ≤ n) : ∃ w', drain H target n w = .ok ((), w') ∧
      Holds H WSZ w' uops taken ∧ Drains uops w.curCycle target w'.curCycle ∧
        w'.curPos = (w.curPos + (w'.curCycle - w.curCycle)) % H ∧
          ∀ d, w'.curCycle ≤ d → cell H w' d = cell H w d := by
  induction n generalizing w with
  | zero => omega
  | succ n ih =>
    change ∃ w', (if w.occupancy ≠ 0 ∧ w.curCycle < target then (advancePos H >>= fun _ => drain H target n)
      else pure () : Act Unit) w = .ok ((), w') ∧ _
    by_cases hgo : w.occupancy ≠ 0 ∧ w.curCycle < target
    · obtain ⟨w₁, hok, h₁, hcycle, hpos, hcells⟩ := h.advance
      obtain ⟨w', hrest, h', hdrains, hpos', hcells'⟩ := ih h₁ (by omega) (by omega)
      have hstart := hdrains.le
      rw [if_pos hgo]
      refine ⟨w', (ok_bind hok _).trans hrest, h', ⟨by omega, hdrains.le_target, hdrains.ends, fun c hc hlt => ?_⟩,
        ?_, fun d hd => ?_⟩
      · by_cases hcur : c = w.curCycle
        · rw [hcur, ← h.occupancy]
          exact hgo.1
        · exact hdrains.busy c (by omega) hlt
      · have hsum : w'.curCycle - w.curCycle = w'.curCycle - w₁.curCycle + 1 := by omega
        rw [hpos', hpos, mod_step, hsum]
      · rw [hcells' d hd, hcells d (by omega)]
    · rw [if_neg hgo]
      refine ⟨w, rfl, h, ⟨Nat.le_refl _, hle, ?_, fun c hc hlt => by omega⟩, ?_, fun d _ => rfl⟩
      · rw [← h.occupancy]
        omega
      · rw [Nat.sub_self, Nat.add_zero, Nat.mod_eq_of_lt h.shaped.pos]

/-- There is nothing booked that a jump would have to move. -/
def Vacant (H pos cur : ℕ) (taken : ℕ → BitVec 8) (target : ℕ) : Prop :=
  ∀ c, cur ≤ c → c + pos < target + 2 * H → taken c = 0

/-- A jump over cycles in which nothing is booked. -/
theorem Holds.jump (h : Holds H WSZ w uops taken) (hle : w.curCycle ≤ target)
    (hnone : uopsFrom uops w.curCycle = 0) (hvacant : Vacant H w.curPos w.curCycle taken target) :
    Holds H WSZ { w with curCycle := target } uops taken ∧
      ∀ d, target ≤ d → cell H { w with curCycle := target } d = cell H w d := by
  have hstarted := h.shaped.started
  have hempty : ∀ c, w.curCycle ≤ c → c + w.curPos < target + 2 * H → cell H w c = .empty := by
    intro c hc hlt
    have hocc : (cell H w c).occUnits = 0 := (h.booked c hc).trans (hvacant c hc hlt)
    have hcount : (cell H w c).count = 0 := by
      have hsum := @uopsFrom_succ uops c
      have hanti := @uopsFrom_anti uops w.curCycle c hc
      rw [h.counts c hc]
      omega
    have heta : cell H w c = ⟨(cell H w c).occUnits, (cell H w c).count⟩ := rfl
    rw [heta, hocc, hcount]
    rfl
  have hcells : ∀ d, target ≤ d → cell H { w with curCycle := target } d = cell H w d := by
    intro d hd
    by_cases hwin : w.curPos + (d - target) < 2 * H
    · have hold : w.curPos + (w.curCycle + (d - target) - w.curCycle) = w.curPos + (d - target) := by omega
      have hshift : cell H { w with curCycle := target } d = cell H w (w.curCycle + (d - target)) := by
        rw [cell, cell, hold, cellAt, cellAt]
        change (if w.curPos + (d - target) < H then w.curWin (w.curPos + (d - target))
          else if w.curPos + (d - target) < 2 * H then w.nextWin (w.curPos + (d - target) - H) else _) = _
        split
        · rfl
        · rfl
      rw [hshift, hempty _ (by omega) (by omega), hempty d (by omega) (by omega)]
    · have hnew : target + (w.curPos + (d - target) - w.curPos) = d := by omega
      have hold : w.curCycle + (w.curPos + (d - w.curCycle) - w.curPos) = d := by omega
      rw [cell, cell, @cellAt_far H w _ (by omega), hold, cellAt_far (Nat.le_of_not_lt hwin)]
      change look w.ubWin (target + (w.curPos + (d - target) - w.curPos)) = _
      rw [hnew]
  have hzero : ∀ c, w.curCycle ≤ c → uopsFrom uops c = 0 := fun c hc =>
    Nat.le_zero.mp (Nat.le_trans (uopsFrom_anti hc) (Nat.le_of_eq hnone))
  refine ⟨⟨⟨h.shaped.bits, h.shaped.pos, Nat.le_trans hstarted hle, h.shaped.past, h.shaped.sorted, fun e he => ?_,
    h.shaped.filled, h.shaped.wide⟩, h.size, fun c hc => ?_, fun c hc => ?_, ?_, h.room, h.nodup, h.ports⟩, hcells⟩
  · change target - w.curPos + 2 * H ≤ e.1
    by_contra hlt
    have hfar := h.shaped.far e he
    have hpos := h.shaped.pos
    have hcell : cell H w e.1 = e.2 := by
      have hcycle : w.curCycle + (w.curPos + (e.1 - w.curCycle) - w.curPos) = e.1 := by omega
      rw [cell, cellAt_far (by omega), hcycle]
      exact look_mem h.shaped.sorted he
    refine h.shaped.filled e he ?_
    rw [← hcell, hempty e.1 (by omega) (by omega)]
    rfl
  · change target ≤ c at hc
    rw [occ, hcells c hc]
    exact h.booked c (Nat.le_trans hle hc)
  · change target ≤ c at hc
    rw [hcells c hc]
    exact h.counts c (Nat.le_trans hle hc)
  · change w.occupancy = uopsFrom uops target
    rw [h.occupancy, hnone, hzero target hle]

/-- A jump is noticed by nothing when its uops are drained at the target, or when there is nothing
booked that it would have to move. -/
def JumpFits (H : ℕ) (w : Window) (uops : List (ℕ × ℕ)) (taken : ℕ → BitVec 8) (target : ℕ) : Prop :=
  ∀ cur, Drains uops w.curCycle target cur → cur ≠ target →
    Vacant H ((w.curPos + (cur - w.curCycle)) % H) cur taken target

/-- A long advance leaves the cycles from its target on as they are. -/
theorem Holds.longAdvances (h : Holds H WSZ w uops taken) (hle : w.curCycle ≤ target)
    (hfits : JumpFits H w uops taken target) : ∃ w', longAdvance H target w = .ok ((), w') ∧
      Holds H WSZ w' uops taken ∧ w'.curCycle = target ∧ ∀ d, target ≤ d → cell H w' d = cell H w d := by
  obtain ⟨w₁, hdrain, h₁, hdrains, hpos, hcells⟩ := Holds.drains h hle (Nat.le_refl _)
  have hstart : longAdvance H target w = (observe id >>= fun w₁ : Window =>
      if w₁.occupancy ≠ 0 then ensure (w₁.curCycle = target) .badTarget
      else do
        ensure (w₁.curCycle ≤ target) .badTarget
        change fun w => { w with curCycle := target } : Act Unit) w₁ := by
    have hensure : (ensure (w.curCycle ≤ target) .badTarget : Act Unit) w = .ok ((), w) := by
      rw [ensure, if_pos hle]
      rfl
    exact (ok_bind rfl _).trans ((ok_bind hensure _).trans (ok_bind hdrain _))
  rw [hstart]
  change ∃ w', (if w₁.occupancy ≠ 0 then ensure (w₁.curCycle = target) .badTarget
    else (ensure (w₁.curCycle ≤ target) .badTarget >>= fun _ =>
      change fun w => { w with curCycle := target }) : Act Unit) w₁ = .ok ((), w') ∧ _
  have hletarget := hdrains.le_target
  by_cases hocc : w₁.occupancy ≠ 0
  · have htarget : w₁.curCycle = target := by
      cases hdrains.ends with
      | inl heq => exact heq
      | inr hzero => exact absurd (h₁.occupancy.trans hzero) hocc
    rw [if_pos hocc, ensure, if_pos htarget]
    exact ⟨w₁, rfl, h₁, htarget, fun d hd => hcells d (htarget.symm ▸ hd)⟩
  · rw [if_neg hocc, ensure, if_pos hletarget]
    have hzero : uopsFrom uops w₁.curCycle = 0 := h₁.occupancy.symm.trans (not_not.mp hocc)
    by_cases htarget : w₁.curCycle = target
    · refine ⟨w₁, ?_, h₁, htarget, fun d hd => hcells d (htarget.symm ▸ hd)⟩
      change Except.ok ((), { w₁ with curCycle := target }) = _
      rw [← htarget]
    · have hvacant := hfits w₁.curCycle hdrains htarget
      rw [← hpos] at hvacant
      obtain ⟨h₂, hcells₂⟩ := Holds.jump h₁ hletarget hzero hvacant
      refine ⟨_, rfl, h₂, rfl, fun d hd => ?_⟩
      rw [hcells₂ d hd, hcells d (Nat.le_trans hletarget hd)]

end Jumps

section Runs

variable {H WSZ : ℕ}

/-- What a call asks for fits. -/
def InReach (H WSZ : ℕ) (s : Core) : Op → Prop
  | .schedule sched mask extraSlots => UopFits H WSZ s.win s.uops s.taken sched mask extraSlots
  | .poisonRange target mask =>
    s.win.curCycle < target → mask ≠ 0 → RangeFits H s.win.curPos s.win.curCycle s.taken mask target
  | .advancePos => True
  | .longAdvance target => JumpFits H s.win s.uops s.taken target

/-- The calls of a run fit. -/
def Reach (H WSZ : ℕ) : Except WindowFailure Core → Op → Except WindowFailure Core → Prop
  | .ok s, op, _ => InReach H WSZ s op
  | .error _, _, _ => False

/-- What is booked is in the window, and the uops to come are counted. -/
structure Kept (H WSZ : ℕ) (s : Core) : Prop where
  booked : ∀ c, s.win.curCycle ≤ c → occ H s.win c = s.taken c
  occupancy : s.win.occupancy = uopsFrom s.uops s.win.curCycle
  room : s.win.occupancy ≤ WSZ

/-- A call puts a uop where it belongs, and keeps all that is booked. -/
def Serves (H WSZ : ℕ) : Except WindowFailure Core → Op → Except WindowFailure Core → Prop
  | .ok s, .schedule sched mask _, .ok s' => Kept H WSZ s' ∧
    ∃ u, Served WSZ s.win s.uops s.taken sched mask u s'.win ∧ s'.uops = u :: s.uops
  | .ok s, _, .ok s' => Kept H WSZ s' ∧ s'.uops = s.uops
  | .ok _, .poisonRange _ mask, .error e => mask = 0 ∧ e = .noPort
  | _, _, _ => False

/-- A long advance does what so many calls of `advancePos` do. -/
structure Jumped (H : ℕ) (w : Window) (target : ℕ) (w' : Window) : Prop where
  curCycle : w'.curCycle = target
  advances : ∃ w₁, advances H (target - w.curCycle) w = .ok ((), w₁) ∧ w'.occupancy = w₁.occupancy ∧
    ∀ d, target ≤ d → cell H w' d = cell H w₁ d
  cells : ∀ d, target ≤ d → cell H w' d = cell H w d

/-- A long advance jumps, and no call fails on an element of the map. -/
def Jumps (H : ℕ) : Except WindowFailure Core → Op → Except WindowFailure Core → Prop
  | .ok s, .longAdvance target, .ok s' => Jumped H s.win target s'.win
  | .ok _, .longAdvance _, .error _ => False
  | _, _, .error e => e ≠ .beyondLimit
  | _, _, .ok _ => True

/-- The invariant of a run. -/
def Sound (H WSZ : ℕ) : Except WindowFailure Core → Prop
  | .ok s => Holds H WSZ s.win s.uops s.taken
  | .error _ => True

/-- An empty window. -/
theorem sound_start (hH : 0 < H) (hbits : H < 2 ^ 32) (hsize : WSZ < 2 ^ 32) (cur : ℕ) :
    Sound H WSZ (.ok (.start cur)) := by
  have hcell : ∀ c, cell H (Window.new cur) c = .empty := by
    intro c
    rw [cell, cellAt]
    split
    · rfl
    · split
      · rfl
      · rfl
  refine ⟨⟨hbits, hH, Nat.zero_le _, fun i _ => rfl, .nil, fun e he => absurd he List.not_mem_nil,
    fun e he => absurd he List.not_mem_nil, fun _ => rfl⟩, hsize, fun c _ => ?_, fun c _ => ?_, rfl, Nat.zero_le _,
    .nil, fun u hu => absurd hu List.not_mem_nil⟩
  · change (cell H (Window.new cur) c).occUnits = 0
    rw [hcell]
    rfl
  · change (cell H (Window.new cur) c).count = 0
    rw [hcell]
    rfl

/-- Nothing is poisoned before the current cycle. -/
theorem poisonRange_past {w : Window} {target : ℕ} (h : target ≤ w.curCycle) (mask : BitVec 8) :
    poisonRange H WSZ target mask w = .ok ([], w) := by
  change poison H WSZ target mask (8 * (target - w.curCycle) + 1 + 1) w.curCycle w = _
  rw [poison, if_neg (Nat.not_lt.mpr h)]
  rfl

/-- Whatever fits is served, and nothing that is booked moves. -/
theorem step_sound (hW : 0 < WSZ) {s s' : Except WindowFailure Core} {op : Op} (h : Sound H WSZ s)
    (hstep : step H WSZ s op = some s') (hreach : Reach H WSZ s op s') :
    Sound H WSZ s' ∧ Serves H WSZ s op s' ∧ Jumps H s op s' := by
  cases s with
  | error e => cases hstep
  | ok s =>
    cases op with
    | schedule sched mask extraSlots =>
      change (if _ then _ else none) = some s' at hstep
      split at hstep
      · next hasked =>
        obtain ⟨c, p, bs, w', hok, h', hserved⟩ := Holds.schedules h hW hasked.1 extraSlots hreach
        rw [hok] at hstep
        cases hstep
        have hport : firstPort ((1 : BitVec 8) <<< p) = p := firstPort_shift hserved.port.1
        have huops : (c, firstPort ((1 : BitVec 8) <<< p)) :: s.uops = (c, p) :: s.uops := by rw [hport]
        have hsound : Holds H WSZ w' ((c, firstPort ((1 : BitVec 8) <<< p)) :: s.uops)
            (((c, (1 : BitVec 8) <<< p) :: bs).foldl mark s.taken) := by
          rw [huops]
          exact h'
        exact ⟨hsound, ⟨⟨hsound.booked, hsound.occupancy, hsound.room⟩, (c, p), hserved, huops⟩, trivial⟩
      · cases hstep
    | poisonRange target mask =>
      change some ((poisonRange H WSZ target mask s.win).map _) = some s' at hstep
      by_cases hlt : s.win.curCycle < target
      · by_cases hmask : mask = 0
        · rw [hmask, poisonRange_zero hlt] at hstep
          cases hstep
          exact ⟨trivial, ⟨hmask, rfl⟩, WindowFailure.noConfusion⟩
        · obtain ⟨bs, w', hok, h'⟩ := Holds.poisonRanges h hmask fun _ => hreach hlt hmask
          rw [hok] at hstep
          cases hstep
          exact ⟨h', ⟨⟨h'.booked, h'.occupancy, h'.room⟩, rfl⟩, trivial⟩
      · rw [poisonRange_past (Nat.le_of_not_lt hlt)] at hstep
        cases hstep
        exact ⟨h, ⟨⟨h.booked, h.occupancy, h.room⟩, rfl⟩, trivial⟩
    | advancePos =>
      obtain ⟨w', hok, h', -⟩ := Holds.advance h
      change some ((advancePos H s.win).map _) = some s' at hstep
      rw [hok] at hstep
      cases hstep
      exact ⟨h', ⟨⟨h'.booked, h'.occupancy, h'.room⟩, rfl⟩, trivial⟩
    | longAdvance target =>
      change (if _ then _ else none) = some s' at hstep
      split at hstep
      · next hle =>
        obtain ⟨w', hok, h', hcycle, hcells⟩ := Holds.longAdvances h hle hreach
        rw [hok] at hstep
        cases hstep
        obtain ⟨w₁, hadvances, h₁, hcycle₁, hcells₁⟩ := Holds.advances h (target - s.win.curCycle)
        have htarget : s.win.curCycle + (target - s.win.curCycle) = target := by omega
        rw [htarget] at hcycle₁ hcells₁
        refine ⟨h', ⟨⟨h'.booked, h'.occupancy, h'.room⟩, rfl⟩, hcycle, ⟨w₁, hadvances, ?_, fun d hd => ?_⟩, hcells⟩
        · change w'.occupancy = w₁.occupancy
          rw [h'.occupancy, h₁.occupancy, hcycle, hcycle₁]
        · change cell H w' d = cell H w₁ d
          rw [hcells d hd, hcells₁ d hd]
      · cases hstep

/-- A uop that may be put into the current cycle fits windows whose positions do. -/
theorem uopFits_now {w : Window} {uops : List (ℕ × ℕ)} {taken : ℕ → BitVec 8} {sched : ℕ} {mask : BitVec 8}
    (hH : 0 < H) (hbits : 2 * H < 2 ^ 32) (hsched : sched ≤ w.curCycle) : UopFits H WSZ w uops taken sched mask 0 := by
  intro cur hstalls
  have hlt : (w.curPos + (cur - w.curCycle)) % H < H := Nat.mod_lt _ hH
  have hmax : max sched cur = cur := Nat.max_eq_right (Nat.le_trans hsched hstalls.le)
  refine ⟨⟨?_, Or.inl hbits⟩, fun c _ => trivial⟩
  rw [hmax]
  omega

/-- No booking moves in a run whose calls fit. -/
theorem bookings_stay (hH : 0 < H) (hbits : H < 2 ^ 32) (hW : 0 < WSZ) (hsize : WSZ < 2 ^ 32) (cur : ℕ) {ops : List Op}
    (hreach : EveryStep (step H WSZ) (Reach H WSZ) (.ok (.start cur)) ops) :
    EveryStep (step H WSZ) (Serves H WSZ) (.ok (.start cur)) ops :=
  hreach.everyStep (fun _ _ _ h hstep hx => ⟨(step_sound hW h hstep hx).1, (step_sound hW h hstep hx).2.1⟩)
    (sound_start hH hbits hsize cur)

/-- Two uops of one port. -/
theorem bookings_stay_short :
    EveryStep (step 1 1) (Serves 1 1) (.ok (.start 0)) [.schedule 0 1 0, .advancePos, .schedule 0 1 0] := by
  refine bookings_stay (by decide) (by decide) (by decide) (by decide) 0 ?_
  refine EveryStep.cons rfl (uopFits_now (by decide) (by decide) (Nat.le_refl 0)) ?_
  refine EveryStep.cons rfl trivial ?_
  exact EveryStep.cons rfl (uopFits_now (by decide) (by decide) (Nat.zero_le _)) trivial

/-- A jump is as good as advances in a run whose calls fit. -/
theorem jumps_like_advances (hH : 0 < H) (hbits : H < 2 ^ 32) (hW : 0 < WSZ) (hsize : WSZ < 2 ^ 32) (cur : ℕ)
    {ops : List Op} (hreach : EveryStep (step H WSZ) (Reach H WSZ) (.ok (.start cur)) ops) :
    EveryStep (step H WSZ) (Jumps H) (.ok (.start cur)) ops :=
  hreach.everyStep (fun _ _ _ h hstep hx => ⟨(step_sound hW h hstep hx).1, (step_sound hW h hstep hx).2.2⟩)
    (sound_start hH hbits hsize cur)

/-- A jump over cycles in which nothing is booked. -/
theorem jumps_like_advances_short :
    EveryStep (step 4 1) (Jumps 4) (.ok (.start 0)) [.advancePos, .longAdvance 100, .schedule 0 1 0, .advancePos] := by
  refine @jumps_like_advances 4 1 (by decide) (by decide) (by decide) (by decide) 0 _ ?_
  refine EveryStep.cons rfl trivial (EveryStep.cons rfl (fun _ _ _ _ _ _ => rfl) ?_)
  exact EveryStep.cons rfl (uopFits_now (by decide) (by decide) (Nat.zero_le _)) (EveryStep.cons rfl trivial trivial)

/-- The ports that are taken in a cycle. -/
def occAt (H c : ℕ) : Except WindowFailure Core → Option (BitVec 8)
  | .ok s => some (occ H s.win c)
  | .error _ => none

/-- A jump takes what has been poisoned along. -/
theorem poison_jumps : ¬ ∀ H WSZ : ℕ, 0 < H → H < 2 ^ 32 → 0 < WSZ → WSZ < 2 ^ 32 → ∀ (cur : ℕ) (ops : List Op),
    EveryStep (step H WSZ) (Jumps H) (.ok (.start cur)) ops := by
  intro hall
  have hjumps := hall 4 1 (by decide) (by decide) (by decide) (by decide) 0
    ([.poisonRange 1 4] ++ [.longAdvance 100])
  have hfirst : (run (step 4 1) (.ok (.start 0)) [.poisonRange 1 4]).bind (occAt 4 100) = some 0 := by
    decide +kernel
  have hlast : ((run (step 4 1) (.ok (.start 0)) [.poisonRange 1 4]).bind fun s =>
      step 4 1 s (.longAdvance 100)).bind (occAt 4 100) = some 4 := by decide +kernel
  obtain ⟨s, hrun, hocc⟩ := Option.bind_eq_some_iff.mp hfirst
  rw [hrun] at hlast
  obtain ⟨s', hstep, hocc'⟩ := Option.bind_eq_some_iff.mp hlast
  have hjump := hjumps.at hrun hstep
  cases s with
  | error e => cases hocc
  | ok s =>
    cases s' with
    | error e => cases hocc'
    | ok s' =>
      have hcell := (congrArg WinCycle.occUnits (hjump.cells 100 (Nat.le_refl 100)))
      change some (cell 4 s.win 100).occUnits = some 0 at hocc
      change some (cell 4 s'.win 100).occUnits = some 4 at hocc'
      rw [Option.some.inj hocc, Option.some.inj hocc'] at hcell
      cases hcell

end Runs

section Wraps

variable {H WSZ : ℕ} {w : Window} {uops : List (ℕ × ℕ)} {taken : ℕ → BitVec 8} {mask : BitVec 8} {n start : ℕ}

/-- A request whose position wraps around goes to a cycle that has passed. -/
theorem book_wrapped (h : Shaped H w) (hpos : 0 < w.curPos) (hmask : mask ≠ 0) :
    w.book H false (w.curCycle + (2 ^ 32 - w.curPos)) mask =
      some (⟨w.curCycle + (2 ^ 32 - w.curPos), mask⟩, w.setCur 0 (WinCycle.empty.take false mask)) := by
  have hlt := h.pos
  have hbits := h.bits
  have hlate : w.curCycle + (2 ^ 32 - w.curPos) > w.curCycle := by omega
  have hdelay : (w.curCycle + (2 ^ 32 - w.curPos) - w.curCycle) % 2 ^ 32 = 2 ^ 32 - w.curPos := by omega
  have hwrap : (w.curPos + (2 ^ 32 - w.curPos)) % 2 ^ 32 = 0 := by omega
  have hcycle : sub32 0 w.curPos = 2 ^ 32 - w.curPos := by
    unfold sub32
    omega
  have havail : (w.curWin 0).avail mask = mask := by
    rw [h.past 0 hpos]
    exact free_empty
  obtain ⟨n, hn⟩ : ∃ n, H - 0 = n + 1 := ⟨H - 1, by omega⟩
  have hsearch : search w.curWin mask (H - 0) 0 = some 0 := by
    rw [hn, search, havail, if_pos hmask]
  simp only [Window.book, if_pos hlate, hdelay, hwrap, hsearch, hcycle, havail]
  rw [h.past 0 hpos]

theorem firstFree_here (hmask : mask ≠ 0) (hfree : taken start = 0) : FirstFree taken mask start start := by
  refine ⟨Nat.le_refl start, ?_, fun d hd hlt => absurd hlt (Nat.not_lt.mpr hd)⟩
  rw [hfree, free_empty]
  exact hmask

/-- Extra slots in cycles of which nothing is taken, up to the last one. -/
theorem Holds.freeSlots (h : Holds H WSZ w uops taken) (hmask : mask ≠ 0) (hbits : 2 * H < 2 ^ 32)
    (hcur : w.curCycle ≤ start) (hfree : ∀ c, start ≤ c → taken c = 0)
    (hreach : w.curPos + (start + n - w.curCycle) ≤ 2 ^ 32) :
    ∃ bs w', Holds H WSZ w' uops (bs.foldl mark taken) ∧ w'.curCycle = w.curCycle ∧ w'.curPos = w.curPos ∧
      (∀ c, start + n ≤ c → bs.foldl mark taken c = 0) ∧
      ∀ b w'', scheduleInternal H WSZ false false (start + n) mask w' = .ok (b, w'') →
        extraSlot H WSZ mask (n + 1) start w = .ok (bs ++ [b], w'') := by
  induction n generalizing w taken start with
  | zero => exact ⟨[], w, h, rfl, rfl, hfree, fun b w'' hok => (ok_bind hok _).trans rfl⟩
  | succ n ih =>
    have hmax : max start w.curCycle = start := Nat.max_eq_left hcur
    have hfits : Fits H w.curPos w.curCycle taken mask (max start w.curCycle) := by
      refine ⟨?_, Or.inl hbits⟩
      rw [hmax]
      omega
    obtain ⟨c, w₁, hok, hfirst, h₁, hcycle, hpos⟩ := @Holds.shadow H WSZ w uops taken mask start h hmask hfits
    rw [hmax] at hfirst
    have hc : c = start := hfirst.unique (firstFree_here hmask (hfree start (Nat.le_refl start)))
    rw [hc] at hok h₁
    have hfree₁ : ∀ d, start + 1 ≤ d → mark taken (start, mask) d = 0 := by
      intro d hd
      have hne : d ≠ start := by omega
      exact (mark_of_ne hne).trans (hfree d (by omega))
    have hsum : start + (n + 1) = start + 1 + n := by omega
    obtain ⟨bs, w', h', hcycle', hpos', hlater, hlast⟩ := ih h₁ (by omega) hfree₁ (by omega)
    refine ⟨(start, mask) :: bs, w', h', hcycle'.trans hcycle, hpos'.trans hpos, fun d hd => ?_, fun b w'' hb => ?_⟩
    · exact hlater d (by omega)
    · rw [hsum] at hb
      exact (ok_bind hok _).trans (ok_bind (hlast b w'' hb) _)

/-- The last of so many extra slots is reported in the cycle it was asked for, where it is not. -/
theorem Holds.slot_lost (h : Holds H WSZ w uops taken) (hmask : mask ≠ 0) (hbits : 2 * H < 2 ^ 32)
    (hcur : w.curCycle ≤ start) (hfree : ∀ c, start ≤ c → taken c = 0) (hpos : 0 < w.curPos)
    (hlast : start + n = w.curCycle + (2 ^ 32 - w.curPos)) :
    ∃ bs w', extraSlot H WSZ mask (n + 1) start w = .ok (bs ++ [(start + n, mask)], w') ∧
      w'.curCycle = w.curCycle ∧ w'.occupancy ≤ WSZ ∧ occ H w' (start + n) = 0 := by
  have hlt := h.shaped.pos
  obtain ⟨bs, w', h', hcycle, hpos', hlater, hslots⟩ :=
    @Holds.freeSlots H WSZ w uops taken mask n start h hmask hbits hcur hfree (by omega)
  have hpos₁ : 0 < w'.curPos := hpos'.symm ▸ hpos
  have hbook := book_wrapped h'.shaped hpos₁ hmask
  rw [hcycle, hpos', ← hlast] at hbook
  have hocc : occ H w' (start + n) = 0 := (h'.booked _ (by omega)).trans (hlater _ (Nat.le_refl _))
  have hfar : 2 * H ≤ w'.curPos + (start + n - w'.curCycle) := by omega
  refine ⟨bs, w'.setCur 0 (WinCycle.empty.take false mask), hslots (start + n, mask) _ (shadow_booked hbook), hcycle,
    h'.room, ?_⟩
  rw [← hocc]
  change (cellAt H _ (w'.curPos + (start + n - w'.curCycle))).occUnits =
    (cellAt H w' (w'.curPos + (start + n - w'.curCycle))).occUnits
  rw [cellAt_far hfar, cellAt_far hfar]
  rfl

theorem marked_ne_zero {c p : ℕ} (hp : p < 8) : mark taken (c, (1 : BitVec 8) <<< p) c ≠ 0 := by
  intro hzero
  have hself := @mark_self taken (c, (1 : BitVec 8) <<< p)
  rw [hzero] at hself
  have hbit := congrArg (fun m : BitVec 8 => m.getLsbD p) hself
  simp [hp] at hbit

/-- The last extra slot of such a uop is not in the window. -/
theorem Holds.uop_loses (h : Holds H WSZ w uops taken) (hmask : mask ≠ 0) (hbits : 2 * H < 2 ^ 32)
    (hroom : w.occupancy < WSZ) (hcur : w.curCycle ≤ start) (hfree : ∀ c, start ≤ c → taken c = 0)
    (hpos : 0 < w.curPos) (hlast : start + 1 + n = w.curCycle + (2 ^ 32 - w.curPos)) :
    ∃ r w', schedule H WSZ start mask (n + 1) w = .ok (r, w') ∧ w'.curCycle = w.curCycle ∧
      occ H w' (start + 1 + n) = 0 ∧ (r.1 :: r.2).foldl mark taken (start + 1 + n) ≠ 0 := by
  have hlt := h.shaped.pos
  have hmax : max start w.curCycle = start := Nat.max_eq_left hcur
  have hfits : Fits H w.curPos w.curCycle taken mask (max start w.curCycle) := by
    refine ⟨?_, Or.inl hbits⟩
    rw [hmax]
    omega
  obtain ⟨b, w₂, hbook, hfirst, havail, h₂, hcycle₂, hpos₂⟩ :=
    @Holds.uop H WSZ w uops taken mask start true h hmask hroom hfits
  rw [hmax] at hfirst
  have hb : b.cycle = start := hfirst.unique (firstFree_here hmask (hfree start (Nat.le_refl start)))
  rw [hb, hfree start (Nat.le_refl start), free_empty] at havail
  rw [hb, havail] at h₂
  have hstall : stall H WSZ (w.span H) w = .ok ((), w) := stall_stop (Nat.ne_of_lt hroom) _
  have hinternal := @uop_booked H WSZ w mask start w w₂ b (decide (n + 1 ≠ 0)) hstall hbook
  rw [hb, havail] at hinternal
  have hfree₂ : ∀ c, start + 1 ≤ c → mark taken (start, (1 : BitVec 8) <<< firstPort mask) c = 0 := by
    intro c hc
    have hne : c ≠ start := by omega
    exact (mark_of_ne hne).trans (hfree c (by omega))
  obtain ⟨bs, w₃, hextra, hcycle₃, hroom₃, hocc⟩ := @Holds.slot_lost H WSZ _ _ _ _ n (start + 1) h₂
    (one_shift_ne_zero firstPort_lt) hbits (by change w₂.curCycle ≤ _; omega) hfree₂ (hpos₂.symm ▸ hpos)
    (by change _ = w₂.curCycle + (2 ^ 32 - w₂.curPos); omega)
  refine ⟨_, w₃, schedule_booked hinternal hextra hroom₃, hcycle₃.trans hcycle₂, hocc, ?_⟩
  rw [← List.cons_append, List.foldl_append]
  exact marked_ne_zero firstPort_lt

theorem step_schedule {s : Core} {sched extraSlots : ℕ} {r : (ℕ × BitVec 8) × List (ℕ × BitVec 8)} {w' : Window}
    (hasked : mask ≠ 0 ∧ sched ≤ s.win.curCycle + 2 ^ 31 ∧ extraSlots < 2 ^ 32)
    (hok : schedule H WSZ sched mask extraSlots s.win = .ok (r, w')) :
    step H WSZ (.ok s) (.schedule sched mask extraSlots) =
      some (.ok ⟨w', (r.1.1, firstPort r.1.2) :: s.uops, (r.1 :: r.2).foldl mark s.taken⟩) := by
  rw [step, if_pos hasked, hok]
  rfl

/-- All calls but those of `longAdvance`. -/
def isShort : Op → Bool
  | .longAdvance _ => false
  | _ => true

/-- An extra slot that is too far ahead is booked in a cycle that has passed. -/
theorem extra_slot_lost : ¬ ∀ H WSZ : ℕ, 0 < H → H < 2 ^ 32 → 0 < WSZ → WSZ < 2 ^ 32 → ∀ (cur : ℕ) (ops : List Op),
    (∀ op ∈ ops, isShort op = true) → EveryStep (step H WSZ) (Serves H WSZ) (.ok (.start cur)) ops := by
  intro hall
  have hserves := hall 2 1 (by decide) (by decide) (by decide) (by decide) 0
    [.advancePos, .schedule (2 ^ 31 + 1) 1 (2 ^ 31 - 2 + 1)] (by decide)
  have h₀ : Holds 2 1 (Window.new 0) [] fun _ => 0 := sound_start (by decide) (by decide) (by decide) 0
  obtain ⟨w₁, hok₁, h₁, hcycle₁, hpos₁, -⟩ := h₀.advance
  have hcycle₁ : w₁.curCycle = 1 := hcycle₁
  have hpos₁ : w₁.curPos = 1 := hpos₁
  have hroom₁ : w₁.occupancy < 1 := by
    rw [h₁.occupancy]
    exact Nat.zero_lt_one
  obtain ⟨r, w₂, hok₂, hcycle₂, hlost, hmarked⟩ := @Holds.uop_loses 2 1 w₁ [] (fun _ => 0) 1 (2 ^ 31 - 2) (2 ^ 31 + 1)
    h₁ (by decide) (by decide) hroom₁ (by omega) (fun _ _ => rfl) (by omega) (by omega)
  have hfirst : step 2 1 (.ok (.start 0)) .advancePos = some (.ok ⟨w₁, [], fun _ => 0⟩) := by
    change some ((advancePos 2 (Window.new 0)).map _) = _
    rw [hok₁]
    rfl
  have hasked : (1 : BitVec 8) ≠ 0 ∧ 2 ^ 31 + 1 ≤ w₁.curCycle + 2 ^ 31 ∧ 2 ^ 31 - 2 + 1 < 2 ^ 32 :=
    ⟨by decide, by omega, by decide⟩
  have hlast : step 2 1 (.ok ⟨w₁, [], fun _ => 0⟩) (.schedule (2 ^ 31 + 1) 1 (2 ^ 31 - 2 + 1)) =
      some (.ok ⟨w₂, [(r.1.1, firstPort r.1.2)], (r.1 :: r.2).foldl mark fun _ => 0⟩) :=
    step_schedule hasked hok₂
  have hkept := ((hserves _ hfirst).2 _ hlast).1.1
  exact hmarked ((hkept.booked _ (by change w₂.curCycle ≤ _; omega)).symm.trans hlost)

end Wraps
end Zsim.IssueRuns
