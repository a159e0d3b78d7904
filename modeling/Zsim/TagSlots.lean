import Mathlib.Order.Bounds.Basic
import Zsim.GuardedRuns

/-!
# The tag port of a timing cache

Two numbers stand for all slots of the port that are taken, the last access and the last slot known to be
free. A high-priority access takes the first slot after all others, a low-priority access the one before its
own cycle. As long as cycles do not decrease no slot is taken twice. Cycles are natural numbers.
-/

namespace Zsim.TagSlots

open GuardedRuns

/-- The fields of the port, and the slots of the accesses so far, the last one first, as history that no
function reads. -/
structure TagPort where
  lastFreeCycle : ℕ
  lastAccCycle : ℕ
  high : List ℕ
  low : List ℕ
  deriving DecidableEq

namespace TagPort

/-- The fields after the constructor. -/
def new : TagPort := ⟨0, 0, [], []⟩

/-- The slots that are taken. -/
def slots (t : TagPort) : List ℕ := t.high ++ t.low

/-- `highPrioAccess`; none where the assertion fails. -/
def highPrioAccess (t : TagPort) (cycle : ℕ) : Option (ℕ × TagPort) :=
  if t.lastFreeCycle ≤ cycle then
    let lookupCycle := max cycle (t.lastAccCycle + 1)
    some (lookupCycle,
      { lastFreeCycle := if t.lastAccCycle < cycle - 1 then cycle - 1 else t.lastFreeCycle
        lastAccCycle := lookupCycle
        high := lookupCycle :: t.high
        low := t.low })
  else none

/-- `tryLowPrioAccess`, whose slot is the one before its cycle. -/
def tryLowPrioAccess (t : TagPort) (cycle : ℕ) : ℕ × TagPort :=
  if t.lastAccCycle < cycle - 1 ∨ t.lastFreeCycle = cycle - 1 then
    (cycle, { t with
      lastFreeCycle := 0
      lastAccCycle := max (cycle - 1) t.lastAccCycle
      low := (cycle - 1) :: t.low })
  else (0, t)

end TagPort

/-- An access to the port. -/
inductive Access where
  | high (cycle : ℕ)
  | low (cycle : ℕ)

def Access.cycle : Access → ℕ
  | .high cycle => cycle
  | .low cycle => cycle

/-- The port after an access; none where an assertion fails. -/
def step (t : TagPort) : Access → Option TagPort
  | .high cycle => (t.highPrioAccess cycle).map Prod.snd
  | .low cycle => some (t.tryLowPrioAccess cycle).2

section Slots

variable {t : TagPort} {now cycle : ℕ}

/-- The slots of a port when the last access was before the cycle. -/
structure Inv (t : TagPort) (now : ℕ) : Prop where
  nodup : t.slots.Nodup
  le_last : ∀ s ∈ t.slots, s ≤ t.lastAccCycle
  free : t.lastFreeCycle ≠ 0 →
    t.lastFreeCycle ∉ t.slots ∧ t.lastFreeCycle < t.lastAccCycle ∧ t.lastFreeCycle < now
  last : t.lastAccCycle ∈ t.high ∨ t.lastAccCycle < now

theorem inv_new : Inv .new 1 :=
  ⟨List.nodup_nil, fun _ hs => absurd hs List.not_mem_nil, fun h => absurd rfl h, .inr Nat.zero_lt_one⟩

/-- Time passes. -/
theorem Inv.mono (h : Inv t now) (hle : now ≤ cycle) : Inv t cycle where
  nodup := h.nodup
  le_last := h.le_last
  free hne := ⟨(h.free hne).1, (h.free hne).2.1, Nat.lt_of_lt_of_le (h.free hne).2.2 hle⟩
  last := h.last.imp_right fun hlt => Nat.lt_of_lt_of_le hlt hle

theorem Inv.lastFreeCycle_le (h : Inv t cycle) : t.lastFreeCycle ≤ cycle := by
  by_cases hzero : t.lastFreeCycle = 0
  · omega
  · exact Nat.le_of_lt (h.free hzero).2.2

/-- A slot after the last access is not taken. -/
theorem Inv.not_mem (h : Inv t now) {slot : ℕ} (hlt : t.lastAccCycle < slot) : slot ∉ t.slots :=
  fun hmem => Nat.not_lt.mpr (h.le_last slot hmem) hlt

/-- The slots an access may be given: not before its cycle, after those of all high-priority accesses, and
not taken. -/
def Eligible (t : TagPort) (cycle : ℕ) : Set ℕ :=
  {slot | cycle ≤ slot ∧ (∀ s ∈ t.high, s < slot) ∧ slot ∉ t.slots}

/-- A high-priority access takes the first eligible slot. -/
theorem Inv.highPrioAccess (h : Inv t cycle) (hcycle : 2 ≤ cycle) : ∃ slot t',
    t.highPrioAccess cycle = some (slot, t') ∧ Inv t' cycle ∧ IsLeast (Eligible t cycle) slot := by
  have hfree := h.free
  have hfresh : max cycle (t.lastAccCycle + 1) ∉ t.slots := h.not_mem (by omega)
  refine ⟨_, _, if_pos h.lastFreeCycle_le, ?_, ?_, ?_⟩
  · constructor
    · exact List.nodup_cons.mpr ⟨hfresh, h.nodup⟩
    · intro s hs
      dsimp only
      rcases List.mem_cons.mp hs with heq | hs
      · exact heq.le
      · have hle := h.le_last s hs
        omega
    · intro hne
      have hslots : ∀ s, s < max cycle (t.lastAccCycle + 1) → s ∉ t.slots →
          s ∉ max cycle (t.lastAccCycle + 1) :: t.slots :=
        fun s hlt hs => List.not_mem_cons_of_ne_of_not_mem (Nat.ne_of_lt hlt) hs
      dsimp only at hne ⊢
      split at hne
      · next hgap =>
        rw [if_pos hgap]
        exact ⟨hslots _ (by omega) (h.not_mem hgap), by omega, by omega⟩
      · next hgap =>
        rw [if_neg hgap]
        obtain ⟨hnot, hlast, hnow⟩ := hfree hne
        exact ⟨hslots _ (by omega) hnot, by omega, by omega⟩
    · exact .inl List.mem_cons_self
  · refine ⟨by omega, fun s hs => ?_, hfresh⟩
    have hle := h.le_last s (List.mem_append_left _ hs)
    omega
  · intro slot hslot
    obtain ⟨hge, hafter, -⟩ := hslot
    rcases h.last with hmem | hlt
    · have hlast := hafter _ hmem
      omega
    · omega

/-- A low-priority access takes a slot that is free, if any. -/
theorem Inv.tryLowPrioAccess (h : Inv t cycle) (hcycle : 2 ≤ cycle) :
    Inv (t.tryLowPrioAccess cycle).2 cycle := by
  unfold TagPort.tryLowPrioAccess
  split
  · next hgrant =>
    have hfresh : cycle - 1 ∉ t.slots := by
      rcases hgrant with hgap | hfree
      · exact h.not_mem hgap
      · rw [← hfree]
        exact (h.free (by omega)).1
    constructor
    · exact (List.perm_middle.nodup_iff).mpr (List.nodup_cons.mpr ⟨hfresh, h.nodup⟩)
    · intro s hs
      dsimp only
      rcases List.mem_cons.mp ((List.perm_middle.mem_iff).mp hs) with heq | hs
      · omega
      · have hle := h.le_last s hs
        omega
    · exact fun hne => absurd rfl hne
    · dsimp only
      rcases Nat.le_total t.lastAccCycle (cycle - 1) with hle | hle
      · exact .inr (by omega)
      · rw [Nat.max_eq_right hle]
        exact h.last
  · exact h

end Slots

section Runs

variable {t : TagPort} {now : ℕ} {accs : List Access}

/-- A high-priority access gets the first eligible slot, and a low-priority access the one before its cycle or
none. -/
def Granted (t : TagPort) : Access → TagPort → Prop
  | .high cycle, t' => ∃ slot, t.highPrioAccess cycle = some (slot, t') ∧ t'.slots.Perm (slot :: t.slots) ∧
      IsLeast (Eligible t cycle) slot
  | .low cycle, t' => (t.tryLowPrioAccess cycle).1 = cycle ∧ t'.slots.Perm ((cycle - 1) :: t.slots) ∨
      (t.tryLowPrioAccess cycle).1 = 0 ∧ t' = t

/-- An access is performed. -/
theorem Inv.access {a : Access} (h : Inv t a.cycle) (hcycle : 2 ≤ a.cycle) :
    ∃ t', step t a = some t' ∧ Inv t' a.cycle ∧ Granted t a t' := by
  cases a with
  | high cycle =>
    obtain ⟨slot, t', haccess, hinv, hleast⟩ := Inv.highPrioAccess h hcycle
    refine ⟨t', congrArg (Option.map Prod.snd) haccess, hinv, slot, haccess, ?_, hleast⟩
    rw [TagPort.highPrioAccess, if_pos h.lastFreeCycle_le] at haccess
    cases haccess
    exact .refl _
  | low cycle =>
    refine ⟨_, rfl, Inv.tryLowPrioAccess h hcycle, ?_⟩
    by_cases hfree : t.lastAccCycle < cycle - 1 ∨ t.lastFreeCycle = cycle - 1
    · rw [Granted, TagPort.tryLowPrioAccess, if_pos hfree]
      exact .inl ⟨rfl, List.perm_middle⟩
    · rw [Granted, TagPort.tryLowPrioAccess, if_neg hfree]
      exact .inr ⟨rfl, rfl⟩

/-- What holds of the accesses of a run. -/
theorem Inv.accesses (h : Inv t now) (hsorted : (accs.map Access.cycle).Pairwise (· ≤ ·))
    (hstart : ∀ a ∈ accs, now ≤ a.cycle ∧ 2 ≤ a.cycle) :
    (∃ t', run step t accs = some t' ∧ t'.slots.Nodup) ∧ EveryStep step Granted t accs := by
  induction accs generalizing t now with
  | nil => exact ⟨⟨t, rfl, h.nodup⟩, trivial⟩
  | cons a accs ih =>
    obtain ⟨hlater, hsorted⟩ := List.pairwise_cons.mp hsorted
    obtain ⟨⟨hnow, hcycle⟩, hcycles⟩ := List.forall_mem_cons.mp hstart
    obtain ⟨t₁, hstep, h₁, hgranted⟩ := (h.mono hnow).access hcycle
    have hrest := ih h₁ hsorted fun b hb => ⟨hlater b.cycle (List.mem_map_of_mem hb), (hcycles b hb).2⟩
    obtain ⟨⟨t', hrun, hnodup⟩, hevery⟩ := hrest
    exact ⟨⟨t', run_cons.mpr ⟨t₁, hstep, hrun⟩, hnodup⟩, .cons hstep hgranted hevery⟩

/-- No slot of the port is taken twice, and no assertion fails. -/
theorem slots_distinct (hsorted : (accs.map Access.cycle).Pairwise (· ≤ ·)) (hcycles : ∀ a ∈ accs, 2 ≤ a.cycle) :
    (∃ t, run step .new accs = some t ∧ t.slots.Nodup) ∧ EveryStep step Granted .new accs :=
  inv_new.accesses hsorted fun a ha => ⟨Nat.le_of_lt (hcycles a ha), hcycles a ha⟩

/-- The second low-priority access in a cycle is denied, and a later one takes the slot that was left free. -/
theorem slots_distinct_of_six : (∃ t, run step .new
    [.high 2, .high 2, .low 5, .low 5, .high 9, .low 9] = some t ∧ t.slots.Nodup) ∧
      EveryStep step Granted .new [.high 2, .high 2, .low 5, .low 5, .high 9, .low 9] :=
  slots_distinct (by decide) (by decide)

end Runs

end Zsim.TagSlots
