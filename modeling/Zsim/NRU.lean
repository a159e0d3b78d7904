import Zsim.LegacyRank
import Zsim.Selection
import Zsim.TableCounts
import Mathlib.Data.Nat.Bitwise

/-!
# Not recently used lines

A line has two bits. An access sets the upper one, which makes the line young;
when half of the lines are young, every line is shifted and none is. The young
lines are counted one by one. A line that is replaced is cleared, but the count
is left as it was, so it stays exact only while no young line is replaced.
-/

namespace Zsim.NRU

open MemoryHierarchy DrivenArrays GuardedRuns LegacyRank Selection TableCounts

/-- `NRUReplPolicy`. -/
structure NRUReplPolicy where
  array : LineId → ℕ
  candArray : ℕ → LineId
  numLines : ℕ
  youngLines : ℕ
  candVal : ℕ
  candIdx : ℕ

namespace NRUReplPolicy

/-- The constructor. -/
def init (numLines : ℕ) : NRUReplPolicy where
  array _ := 0
  candArray _ := 0
  numLines := numLines
  youngLines := 0
  candVal := 2 ^ 20
  candIdx := 0

/-- The loop that shifts every line. -/
def shift (s : NRUReplPolicy) : NRUReplPolicy :=
  { s with
    array := fun i => if i < s.numLines then s.array i / 2 else s.array i
    youngLines := 0 }

/-- The first two lines of `update`; the count has 32 bits. -/
def touch (s : NRUReplPolicy) (id : LineId) : NRUReplPolicy :=
  { s with
    youngLines := (s.youngLines + 1 + (2 ^ 32 - s.array id / 2)) % 2 ^ 32
    array := Function.update s.array id (s.array id ||| 2) }

/-- `NRUReplPolicy::update`. -/
def update (s : NRUReplPolicy) (id : LineId) : NRUReplPolicy :=
  if s.numLines / 2 ≤ (s.touch id).youngLines then (s.touch id).shift else s.touch id

/-- `NRUReplPolicy::recordCandidate`. -/
def recordCandidate (s : NRUReplPolicy) (id : LineId) : NRUReplPolicy :=
  if s.array id < s.candVal then
    { s with
      candVal := s.array id
      candArray := Function.update s.candArray 0 id
      candIdx := 1 }
  else if s.array id = s.candVal then
    { s with
      candArray := Function.update s.candArray s.candIdx id
      candIdx := s.candIdx + 1 }
  else s

/-- `NRUReplPolicy::getBestCandidate`, with its assertion. -/
def getBestCandidate (s : NRUReplPolicy) : Option LineId :=
  if 0 < s.candIdx then some (s.candArray (s.youngLines % s.candIdx)) else none

/-- `NRUReplPolicy::replaced`. -/
def replaced (s : NRUReplPolicy) (id : LineId) : NRUReplPolicy :=
  { s with
    candVal := 2 ^ 20
    candIdx := 0
    array := Function.update s.array id 0 }

end NRUReplPolicy

/-- The policy interface of `NRUReplPolicy`. -/
def nru : LegacyReplPolicy NRUReplPolicy where
  update := NRUReplPolicy.update
  recordCandidate s _ id := s.recordCandidate id
  getBestCandidate := NRUReplPolicy.getBestCandidate
  replaced := NRUReplPolicy.replaced

/-- The number of lines whose value has bit 1 set. -/
def youngOf (numLines : ℕ) (array : LineId → ℕ) : ℕ := countOf numLines (fun i => array i / 2 % 2) 1

/-- The values have two bits, and nothing is recorded when the index is 0. -/
structure Sound (numLines : ℕ) (s : NRUReplPolicy) : Prop where
  numLines : s.numLines = numLines
  values : ∀ i, s.array i ≤ 3
  fresh : s.candIdx = 0 → s.candVal = 2 ^ 20

/-- The count of the young lines is exact. -/
def Accounted (s : NRUReplPolicy) : Prop := s.youngLines = youngOf s.numLines s.array

section Values

variable {numLines : ℕ} {s s' : NRUReplPolicy} {id : LineId} {cc : CCView} {cands : List LineId}
  {call : LegacyCall}

theorem sound_init : Sound numLines (.init numLines) :=
  ⟨rfl, fun _ => Nat.zero_le 3, fun _ => rfl⟩

/-- Setting bit 1 of two bits. -/
theorem or_two {v : ℕ} (h : v ≤ 3) : v ||| 2 ≤ 3 ∧ (v ||| 2) / 2 = 1 := by
  have hcases : v = 0 ∨ v = 1 ∨ v = 2 ∨ v = 3 := by omega
  obtain rfl | rfl | rfl | rfl := hcases <;> decide

theorem Sound.touch (h : Sound numLines s) : Sound numLines (s.touch id) := by
  refine ⟨h.numLines, fun i => ?_, h.fresh⟩
  simp only [NRUReplPolicy.touch]
  by_cases hi : i = id
  · rw [hi, Function.update_self]
    exact (or_two (h.values id)).1
  · rw [Function.update_of_ne hi]
    exact h.values i

theorem Sound.update (h : Sound numLines s) : Sound numLines (s.update id) := by
  have ht : Sound numLines (s.touch id) := h.touch
  unfold NRUReplPolicy.update
  split
  · refine ⟨ht.numLines, fun i => ?_, ht.fresh⟩
    have hi := ht.values i
    simp only [NRUReplPolicy.shift]
    split <;> omega
  · exact ht

theorem Sound.recordCandidate (h : Sound numLines s) : Sound numLines (s.recordCandidate id) := by
  unfold NRUReplPolicy.recordCandidate
  split
  · exact ⟨h.numLines, h.values, fun h1 => (nomatch h1)⟩
  · split
    · exact ⟨h.numLines, h.values, fun h1 => absurd h1 (Nat.succ_ne_zero _)⟩
    · exact h

theorem Sound.replaced (h : Sound numLines s) : Sound numLines (s.replaced id) := by
  refine ⟨h.numLines, fun i => ?_, fun _ => rfl⟩
  simp only [NRUReplPolicy.replaced]
  by_cases hi : i = id
  · rw [hi, Function.update_self]
    exact Nat.zero_le 3
  · rw [Function.update_of_ne hi]
    exact h.values i

/-- Recording candidates leaves the lines alone. -/
theorem record_lines : (nru.record s cc cands).array = s.array ∧
    (nru.record s cc cands).youngLines = s.youngLines ∧
      (nru.record s cc cands).numLines = s.numLines := by
  refine @record_invariant _ nru s cc cands (fun s' => s'.array = s.array ∧
    s'.youngLines = s.youngLines ∧ s'.numLines = s.numLines) (fun s' c h => ?_) ⟨rfl, rfl, rfl⟩
  change (s'.recordCandidate c).array = s.array ∧ (s'.recordCandidate c).youngLines = s.youngLines ∧
    (s'.recordCandidate c).numLines = s.numLines
  unfold NRUReplPolicy.recordCandidate
  split
  · exact h
  · split <;> exact h

theorem Sound.record (h : Sound numLines s) : Sound numLines (nru.record s cc cands) :=
  record_invariant (fun _ _ h => h.recordCandidate) h

theorem Sound.step (h : Sound numLines s) (hs : legacyStep nru numLines s call = some s') :
    Sound numLines s' := by
  cases call with
  | update id =>
    obtain ⟨-, rfl⟩ := legacyStep_update.mp hs
    exact h.update
  | rank cc cands =>
    obtain ⟨-, i, -, rfl⟩ := legacyStep_rank.mp hs
    exact h.record
  | replaced id =>
    obtain ⟨-, rfl⟩ := legacyStep_replaced.mp hs
    exact h.replaced

end Values

section Count

variable {numLines : ℕ} {s s' : NRUReplPolicy} {id : LineId} {call : LegacyCall}

/-- One write takes the old value out of the count and enters the new one. -/
theorem youngOf_update (a : LineId → ℕ) (v : ℕ) (hid : id < numLines) :
    youngOf numLines (Function.update a id v) + (if a id / 2 % 2 = 1 then 1 else 0) =
      youngOf numLines a + (if v / 2 % 2 = 1 then 1 else 0) := by
  have hclass : (fun i => Function.update a id v i / 2 % 2) =
      Function.update (fun i => a i / 2 % 2) id (v / 2 % 2) := by
    funext i
    by_cases hi : i = id
    · rw [hi, Function.update_self, Function.update_self]
    · rw [Function.update_of_ne hi, Function.update_of_ne hi]
  unfold youngOf
  rw [hclass]
  exact countOf_update hid _ _ 1

theorem Accounted.touch (h : Accounted s) (hs : Sound numLines s) (hn : numLines < 2 ^ 32)
    (hid : id < numLines) : Accounted (s.touch id) := by
  have hv := hs.values id
  have hcount := youngOf_update s.array (s.array id ||| 2) hid
  have hle : youngOf numLines (Function.update s.array id (s.array id ||| 2)) ≤ numLines :=
    countOf_le _ _ _
  have hnew : (s.array id ||| 2) / 2 % 2 = 1 := by rw [(or_two hv).2]
  have hold : s.youngLines = youngOf numLines s.array := by rw [h, hs.numLines]
  rw [if_pos hnew] at hcount
  simp only [Accounted, NRUReplPolicy.touch, hs.numLines]
  split at hcount <;> omega

/-- After the shift no line is young. -/
theorem accounted_shift (hs : Sound numLines s) : Accounted s.shift := by
  have hnone : ∀ i < s.numLines, s.shift.array i / 2 % 2 = 0 := by
    intro i hi
    have hv := hs.values i
    simp only [NRUReplPolicy.shift, if_pos hi]
    omega
  have hzero : countOf s.numLines (fun i => s.shift.array i / 2 % 2) 1 =
      countOf s.numLines (fun _ => 0) 1 := countOf_congr hnone 1
  rw [countOf_const_of_ne _ (by decide)] at hzero
  exact hzero.symm

theorem Accounted.update (h : Accounted s) (hs : Sound numLines s) (hn : numLines < 2 ^ 32)
    (hid : id < numLines) : Accounted (s.update id) := by
  have hs' : Sound numLines (s.touch id) := hs.touch
  unfold NRUReplPolicy.update
  split
  · exact accounted_shift hs'
  · exact h.touch hs hn hid

/-- A line that is replaced leaves the count exact unless it is young. -/
theorem accounted_replaced (h : Accounted s) (hs : Sound numLines s) (hid : id < numLines) :
    Accounted (s.replaced id) ↔ s.array id / 2 % 2 = 0 := by
  have hcount := youngOf_update s.array 0 hid
  have hold : s.youngLines = youngOf numLines s.array := by rw [h, hs.numLines]
  have hzero : ¬ 0 / 2 % 2 = 1 := by decide
  rw [if_neg hzero] at hcount
  simp only [Accounted, NRUReplPolicy.replaced, hs.numLines]
  split at hcount <;> omega

end Count

section Victim

variable {numLines : ℕ} {s : NRUReplPolicy} {seen cands : List LineId} {c : LineId} {cc : CCView}

/-- What is recorded of the candidates seen: all of those with the least value. -/
structure Recorded (s : NRUReplPolicy) (seen : List LineId) : Prop where
  pos : 0 < s.candIdx
  least : ∀ c ∈ seen, s.candVal ≤ s.array c
  held : ∀ j < s.candIdx, s.candArray j ∈ seen ∧ s.array (s.candArray j) = s.candVal

theorem Recorded.recordCandidate (h : Recorded s seen) (c : LineId) :
    Recorded (s.recordCandidate c) (seen ++ [c]) := by
  unfold NRUReplPolicy.recordCandidate
  by_cases hlt : s.array c < s.candVal
  · rw [if_pos hlt]
    refine ⟨Nat.zero_lt_one, fun d hd => ?_, fun j hj => ?_⟩
    · rw [List.mem_append, List.mem_singleton] at hd
      cases hd with
      | inl hd => exact hlt.le.trans (h.least d hd)
      | inr hd => exact hd ▸ le_rfl
    · have hj0 : j = 0 := Nat.lt_one_iff.mp hj
      simp [hj0]
  · have hleast : ∀ d ∈ seen ++ [c], s.candVal ≤ s.array d := by
      intro d hd
      rw [List.mem_append, List.mem_singleton] at hd
      cases hd with
      | inl hd => exact h.least d hd
      | inr hd => exact hd ▸ not_lt.mp hlt
    rw [if_neg hlt]
    split
    · next heq =>
      refine ⟨Nat.succ_pos _, hleast, fun j hj => ?_⟩
      dsimp only at hj ⊢
      by_cases hlast : j = s.candIdx
      · rw [hlast, Function.update_self]
        exact ⟨by simp, heq⟩
      · rw [Function.update_of_ne hlast]
        obtain ⟨hmem, hval⟩ := h.held j (by omega)
        exact ⟨List.mem_append_left _ hmem, hval⟩
    · refine ⟨h.pos, hleast, fun j hj => ?_⟩
      obtain ⟨hmem, hval⟩ := h.held j hj
      exact ⟨List.mem_append_left _ hmem, hval⟩

/-- The first candidate is recorded, for its value is below the initial one. -/
theorem recorded_first (h : Sound numLines s) (h0 : s.candIdx = 0) (c : LineId) :
    Recorded (s.recordCandidate c) [c] := by
  have hv := h.values c
  have hval := h.fresh h0
  unfold NRUReplPolicy.recordCandidate
  rw [if_pos (by omega)]
  refine ⟨Nat.zero_lt_one, fun d hd => ?_, fun j hj => ?_⟩
  · rw [List.mem_singleton] at hd
    exact hd ▸ le_rfl
  · have hj0 : j = 0 := Nat.lt_one_iff.mp hj
    simp [hj0]

theorem Recorded.record (h : Recorded s seen) :
    Recorded (nru.record s cc cands) (seen ++ cands) :=
  record_seen (fun _ _ c h => h.recordCandidate c) h

/-- Whichever of the recorded lines the count of young lines selects. -/
theorem Recorded.best (h : Recorded s seen) : ∃ i, s.getBestCandidate = some i ∧ Least s.array seen i := by
  obtain ⟨hmem, hval⟩ := h.held _ (Nat.mod_lt s.youngLines h.pos)
  refine ⟨_, if_pos h.pos, hmem, fun d hd => ?_⟩
  rw [hval]
  exact h.least d hd

theorem rank_least (h : Sound numLines s) (h0 : s.candIdx = 0) (hne : cands ≠ []) :
    ∃ i s', nru.rank s cc cands = some (i, s') ∧ Least s.array cands i := by
  cases cands with
  | nil => exact absurd rfl hne
  | cons c cands =>
    have hrecorded : Recorded (nru.record s cc (c :: cands)) (c :: cands) :=
      Recorded.record (recorded_first h h0 c)
    obtain ⟨i, hi, hleast⟩ := hrecorded.best
    have hlines : (nru.record s cc (c :: cands)).array = s.array := record_lines.1
    rw [hlines] at hleast
    exact ⟨i, _, congrArg (Option.map _) hi, hleast⟩

end Victim

section Runs

variable {numLines : ℕ} {s s' : NRUReplPolicy} {call : LegacyCall}

/-- No call replaces a line whose value has bit 1 set. -/
def ReplacesOld (s : NRUReplPolicy) : LegacyCall → Prop
  | .update _ => True
  | .rank .. => True
  | .replaced id => s.array id / 2 % 2 = 0

instance (s : NRUReplPolicy) : (call : LegacyCall) → Decidable (ReplacesOld s call)
  | .update _ => inferInstanceAs (Decidable True)
  | .rank .. => inferInstanceAs (Decidable True)
  | .replaced id => inferInstanceAs (Decidable (s.array id / 2 % 2 = 0))

theorem accounted_step (hn : numLines < 2 ^ 32) (h : Sound numLines s) (hacc : Accounted s)
    (hs : legacyStep nru numLines s call = some s') : Accounted s' ↔ ReplacesOld s call := by
  cases call with
  | update id =>
    obtain ⟨hid, rfl⟩ := legacyStep_update.mp hs
    exact iff_true_intro (hacc.update h hn hid)
  | rank cc cands =>
    obtain ⟨-, i, -, rfl⟩ := legacyStep_rank.mp hs
    obtain ⟨ha, hy, hnum⟩ := @record_lines s cc cands
    refine iff_true_intro ?_
    rw [Accounted, ha, hy, hnum]
    exact hacc
  | replaced id =>
    obtain ⟨hid, rfl⟩ := legacyStep_replaced.mp hs
    exact accounted_replaced hacc h hid

/-- While no replacement is under way nothing is recorded. -/
theorem protocol_fresh {s s' : NRUReplPolicy × Bool} (h : s.2 = false → s.1.candIdx = 0)
    (hs : protocolStep nru numLines s call = some s') : s'.2 = false → s'.1.candIdx = 0 := by
  refine (@protocolStep_idle _ nru numLines s s' call (fun _ => True) (fun r => r.candIdx = 0)
    (fun r id _ => ⟨trivial, fun h0 => ?_⟩) (fun _ _ _ _ => trivial) (fun _ _ _ => ⟨trivial, rfl⟩)
    ⟨trivial, h⟩ hs).2
  change (r.update id).candIdx = 0
  unfold NRUReplPolicy.update
  split <;> exact h0

/-- The values have two bits in every run. The count is exact after every call
exactly when no call replaces a line with bit 1 set. A ranking that starts with
nothing recorded, as each does in the order of calls of a replacement, returns a
candidate of the least value. -/
theorem nru_accounted_iff (numLines : ℕ) (hn : numLines < 2 ^ 32) :
    (∀ calls s, run (legacyStep nru numLines) (.init numLines) calls = some s →
      (∀ i, s.array i ≤ 3) ∧ (s.candIdx = 0 → ∀ cc cands, cands ≠ [] →
        ∃ i s', nru.rank s cc cands = some (i, s') ∧ Least s.array cands i)) ∧
    (∀ calls, EveryStep (legacyStep nru numLines) (fun _ _ s' => Accounted s') (.init numLines) calls ↔
      EveryStep (legacyStep nru numLines) (fun s call _ => ReplacesOld s call) (.init numLines) calls) ∧
    ∀ calls s, run (protocolStep nru numLines) (.init numLines, false) calls = some s →
      s.2 = false → s.1.candIdx = 0 := by
  have hsound : ∀ s call s', Sound numLines s → legacyStep nru numLines s call = some s' →
      Sound numLines s' := fun _ _ _ h hs => h.step hs
  refine ⟨fun calls s hrun => ?_, fun calls => ?_, fun calls s hrun => ?_⟩
  · have h : Sound numLines s := run_invariant hsound sound_init hrun
    exact ⟨h.values, fun h0 cc cands hne => rank_least h h0 hne⟩
  · have hinit : Accounted (.init numLines) := by
      have hnone : ∀ i < numLines, (NRUReplPolicy.init numLines).array i / 2 % 2 = 0 :=
        fun _ _ => by simp [NRUReplPolicy.init]
      have hzero := countOf_congr hnone 1
      rw [countOf_const_of_ne _ (by decide)] at hzero
      exact hzero.symm
    refine @everyStep_iff _ _ _ _ _ (fun s => Sound numLines s ∧ Accounted s)
      (fun s call s' h hs => accounted_step hn h.1 h.2 hs) (fun s call s' h hold hs => ?_) _ _
      ⟨sound_init, hinit⟩
    exact ⟨h.1.step hs, (accounted_step hn h.1 h.2 hs).mpr hold⟩
  · exact @run_invariant _ _ _ (fun s => s.2 = false → s.1.candIdx = 0)
      (fun _ _ _ h hs => protocol_fresh h hs) _ _ _ (fun _ => rfl) hrun

instance (s : NRUReplPolicy) : Decidable (Accounted s) :=
  inferInstanceAs (Decidable (s.youngLines = youngOf s.numLines s.array))

/-- In a cache of eight lines, one of two candidates that are not young is
replaced, and then used. -/
theorem nru_replaces_old : EveryStep (legacyStep nru 8) (fun _ _ s' => Accounted s') (.init 8)
    [.update 0, .rank ⟨fun _ => 0, fun _ => true⟩ [1, 2], .replaced 1, .update 1] := by
  refine ((nru_accounted_iff 8 (by decide)).2.1 _).mpr ?_
  exact EveryStep.cons rfl trivial (EveryStep.cons rfl trivial (EveryStep.cons rfl (by decide)
    (EveryStep.cons rfl trivial trivial)))

/-- The only candidate is young. It is replaced, no line is young any more, and
the count says that there is one. -/
theorem nru_drifts : ¬ ∀ numLines calls, EveryStep (protocolStep nru numLines)
    (fun _ _ s' => Accounted s'.1) (.init numLines, false) calls := by
  intro h
  have hlast := @EveryStep.at _ _ _ _ _ _ _
    [.update 0, .rank ⟨fun _ => 0, fun _ => true⟩ [0]] [] (.replaced 0) (h 8 _) rfl rfl
  exact absurd hlast (by decide)

end Runs
end Zsim.NRU
