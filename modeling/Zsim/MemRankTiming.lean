import Zsim.MemTiming

/-!
# What a detailed memory rank knows of its history

The parts of an access, one after the other: the ACT with the PRE before it,
the read or write, and the PRE of the closed policy. Each keeps the invariant
of the rank, and fails no assertion of `MemRankBase`.
-/

namespace Zsim.MemRankTiming

open WeakestPre Outcomes DetailedMemParams MemAddressMap MemChannel MemTiming

/-- Every failure but those of the assertions of `MemRankBase` and of accesses
outside an allocation. -/
def Benign (e : MemFailure) : Prop := e ≠ .monotone ∧ e ≠ .outside

theorem benign_order : Benign .order := by
  constructor <;> decide

theorem benign_rowHit : Benign .rowHit := by
  constructor <;> decide

theorem benign_powerDown : Benign .powerDown := by
  constructor <;> decide

variable (p : MemParam)

/-- What the fields of a rank say of its commands. -/
structure Core (r : MemRankBase) : Prop where
  legal : Legal p r.log
  acts : ∀ x ∈ acts r.log, x.2 ≤ (r.banks x.1).lastActCycle ∧ x.1 < p.bankCount.toNat
  index : r.tFAWIndex < 4
  ring : ∀ k < 4, r.tFAWCycle ((r.tFAWIndex + 3 - k) % 4) =
    ((MemTiming.acts r.log)[k]?.map fun x => x.2).getD 0
  pre : ∀ bank c, .pre bank c ∈ r.log → 0 < c ∧ c ≤ (r.banks bank).lastPreCycle
  lastPre : ∀ bank, 0 < (r.banks bank).lastPreCycle → .pre bank (r.banks bank).lastPreCycle ∈ r.log
  lastRdWr : ∀ last, lastRdWr r.log = some last →
    last = ((r.banks r.lastBank).lastType, (r.banks r.lastBank).lastRdWrCycle)
  newest : ∀ bank, (r.banks bank).lastRdWrCycle ≤ (r.banks r.lastBank).lastRdWrCycle
  served : (r.banks r.lastBank).lastRdWrCycle ≤ r.lastAccessCycle

/-- What a bank knows of its row. -/
structure RowKept (r : MemRankBase) (bank : ℕ) : Prop where
  row : (r.banks bank).isOpen = true ∨ 0 < (r.banks bank).lastPreCycle →
    ∃ c, lastAct bank r.log = some ((r.banks bank).lastRow, c) ∧
      c + p.tRCD.toNat ≤ (r.banks bank).lastRdWrCycle
  pre : (r.banks bank).isOpen = true → (r.banks bank).lastPreCycle ≤ (r.banks bank).lastActCycle

/-- The invariant between two accesses. -/
structure Sound (r : MemRankBase) : Prop extends Core p r where
  rows : ∀ bank, RowKept p r bank

theorem sound_new : Sound p .new where
  legal := trivial
  acts _ hx := absurd hx List.not_mem_nil
  index := by decide
  ring _ _ := rfl
  pre _ _ hc := absurd hc List.not_mem_nil
  lastPre _ h := absurd h (Nat.lt_irrefl 0)
  lastRdWr _ h := by cases h
  newest _ := le_rfl
  served := le_rfl
  rows bank := by
    constructor
    · intro h
      rcases h with h | h
      · cases h
      · exact absurd h (Nat.lt_irrefl 0)
    · intro h
      cases h

variable {p} {r : MemRankBase} {bank row : ℕ}

section Activate

/-- The rank after an ACT. -/
def activated (r : MemRankBase) (bank row c : ℕ) : MemRankBase :=
  { r.modifyBank bank fun b => { b with lastActCycle := c, isOpen := true } with
    tFAWCycle := Function.update r.tFAWCycle r.tFAWIndex c
    tFAWIndex := (r.tFAWIndex + 1) % 4
    log := .act bank row c :: r.log }

/-- The oldest entry of the ring is the fourth ACT from the end. -/
theorem Core.oldest (h : Core p r) : r.tFAWCycle r.tFAWIndex =
    ((MemTiming.acts r.log)[3]?.map fun x => x.2).getD 0 := by
  have hring := h.ring 3 (by decide)
  have hidx := h.index
  rwa [show (r.tFAWIndex + 3 - 3) % 4 = r.tFAWIndex by omega] at hring

/-- What an allowed ACT knows of the fields that `SetFAWCycle`, `SetLastActCycle`
and the next `SetLastPreCycle` compare it with. -/
theorem Core.late_of_allowed (h : Core p r) {c : ℕ} (hallowed : Allowed p r.log (.act bank row c)) :
    r.tFAWCycle r.tFAWIndex ≤ c ∧ (r.banks bank).lastPreCycle ≤ c := by
  obtain ⟨-, hfaw, hpre⟩ := hallowed
  constructor
  · rw [h.oldest]
    cases hx : (MemTiming.acts r.log)[3]? with
    | none => exact Nat.zero_le _
    | some x =>
      have := hfaw x hx
      change x.2 ≤ c
      omega
  · rcases Nat.eq_zero_or_pos (r.banks bank).lastPreCycle with hzero | hpos
    · omega
    · have := hpre _ (h.lastPre bank hpos)
      omega

/-- The bank's own last ACT is the latest ACT it compares with. -/
theorem lastActCycle_le_latest {b : ℕ} (hb : b < p.bankCount.toNat) :
    (r.banks b).lastActCycle ≤ r.latestActCycle p := by
  have hfold : ∀ (l : List ℕ) (n : ℕ), n ≤ l.foldl (fun latest i => max latest (r.banks i).lastActCycle) n ∧
      ∀ i ∈ l, (r.banks i).lastActCycle ≤
        l.foldl (fun latest i => max latest (r.banks i).lastActCycle) n := by
    intro l
    induction l with
    | nil => exact fun n => ⟨le_rfl, fun i hi => absurd hi List.not_mem_nil⟩
    | cons x l ih =>
      intro n
      obtain ⟨hle, hall⟩ := ih (max n (r.banks x).lastActCycle)
      constructor
      · exact (le_max_left _ _).trans hle
      · intro i hi
        rcases List.mem_cons.mp hi with rfl | hi
        · exact (le_max_right _ _).trans hle
        · exact hall i hi
  exact (hfold _ 0).2 b (List.mem_range.mpr hb)

/-- `CalcActConst` answers a cycle at which the ACT is allowed. When it returns
early, the cycle it was given must be one. -/
theorem calcActConst_ends (h : Core p r) (hbank : r.tFAWIndex < p.bankCount.toNat) {issuable : ℕ}
    (hfirst : (r.banks bank).lastActCycle = 0 → Allowed p r.log (.act bank row issuable)) :
    ends Benign (CalcActConst p bank issuable) (fun c r' => r' = r ∧ issuable ≤ c ∧
      Allowed p r.log (.act bank row c) ∧ (r.banks bank).lastActCycle ≤ c) r := by
  simp only [CalcActConst, ends_bind, ends_observe, ends_ite, ends_ensure, ends_pure]
  by_cases hzero : (r.banks bank).lastActCycle = 0
  · rw [if_pos hzero]
    exact ⟨trivial, le_rfl, hfirst hzero, by omega⟩
  · rw [if_neg hzero]
    refine ⟨fun _ => ⟨trivial, ?_, ⟨?_, ?_, ?_⟩, ?_⟩, fun hout => absurd hbank hout⟩
    · split <;> omega
    · intro x hx
      obtain ⟨hle, hb⟩ := h.acts x hx
      have hlatest := lastActCycle_le_latest (r := r) hb
      by_cases hxb : x.1 = bank
      · rw [if_pos hxb]
        rw [hxb] at hle
        split <;> omega
      · rw [if_neg hxb]
        split <;> omega
    · intro x hx
      have hold := h.oldest
      rw [hx] at hold
      change r.tFAWCycle r.tFAWIndex = x.2 at hold
      omega
    · intro c hc
      obtain ⟨hpos, hle⟩ := h.pre bank c hc
      rw [if_pos (by omega)]
      omega
    · split <;> omega

/-- The ring after one more entry. -/
theorem ring_push {buf : ℕ → ℕ} {idx : ℕ} {l : List (ℕ × ℕ)} {x : ℕ × ℕ} (hidx : idx < 4)
    (h : ∀ k < 4, buf ((idx + 3 - k) % 4) = (l[k]?.map fun x => x.2).getD 0) :
    ∀ k < 4, Function.update buf idx x.2 (((idx + 1) % 4 + 3 - k) % 4) =
      ((x :: l)[k]?.map fun x => x.2).getD 0 := by
  intro k hk
  cases k with
  | zero =>
    rw [show ((idx + 1) % 4 + 3 - 0) % 4 = idx by omega, Function.update_self]
    rfl
  | succ k =>
    have hne : ((idx + 1) % 4 + 3 - (k + 1)) % 4 ≠ idx := by omega
    rw [Function.update_of_ne hne, List.getElem?_cons_succ, ← h k (by omega)]
    congr 1
    omega

theorem core_activated (h : Core p r) (hbank : bank < p.bankCount.toNat) {c : ℕ}
    (hallowed : Allowed p r.log (.act bank row c)) (hlast : (r.banks bank).lastActCycle ≤ c) :
    Core p (activated r bank row c) := by
  have hkeep : ∀ b, (activated r bank row c).banks b =
      { r.banks b with
        lastActCycle := if b = bank then c else (r.banks b).lastActCycle
        isOpen := if b = bank then true else (r.banks b).isOpen } := by
    intro b
    change Function.update r.banks bank _ b = _
    by_cases hb : b = bank
    · rw [hb, if_pos rfl, if_pos rfl, Function.update_self]
    · rw [if_neg hb, if_neg hb, Function.update_of_ne hb]
  constructor
  · exact ⟨hallowed, h.legal⟩
  · intro x hx
    rw [hkeep]
    dsimp only
    rcases List.mem_cons.mp hx with rfl | hx
    · rw [if_pos rfl]
      exact ⟨le_rfl, hbank⟩
    · obtain ⟨hle, hb⟩ := h.acts x hx
      refine ⟨?_, hb⟩
      split
      · next heq =>
        rw [heq] at hle
        omega
      · exact hle
  · exact Nat.mod_lt _ (by decide)
  · exact ring_push (x := (bank, c)) h.index h.ring
  · intro b n hn
    rw [hkeep]
    rcases List.mem_cons.mp hn with hn | hn
    · cases hn
    · exact h.pre b n hn
  · intro b hb
    rw [hkeep] at hb ⊢
    exact List.mem_cons_of_mem _ (h.lastPre b hb)
  · intro last hl
    rw [hkeep]
    exact h.lastRdWr last hl
  · intro b
    rw [hkeep, hkeep]
    exact h.newest b
  · rw [hkeep]
    exact h.served

end Activate

section Precharge

/-- The rank after a PRE. -/
def precharged (r : MemRankBase) (bank c : ℕ) : MemRankBase :=
  { r.modifyBank bank fun b => { b with lastPreCycle := c, isOpen := false } with
    log := .pre bank c :: r.log }

theorem issuePrecharge_ends {c : ℕ} (h : (r.banks bank).lastPreCycle ≤ c) :
    ends Benign (IssuePrecharge bank c) (fun _ r' => r' = precharged r bank c) r := by
  simp only [IssuePrecharge, ends_bind, ends_observe, ends_ensure, ends_change]
  exact ⟨fun _ => rfl, fun hlt => absurd h hlt⟩

theorem precharged_banks (c b : ℕ) : (precharged r bank c).banks b =
    { r.banks b with
      lastPreCycle := if b = bank then c else (r.banks b).lastPreCycle
      isOpen := if b = bank then false else (r.banks b).isOpen } := by
  change Function.update r.banks bank _ b = _
  by_cases hb : b = bank
  · rw [hb, if_pos rfl, if_pos rfl, Function.update_self]
  · rw [if_neg hb, if_neg hb, Function.update_of_ne hb]

theorem core_precharged (h : Core p r) {c : ℕ} (hpos : 0 < c)
    (hlast : (r.banks bank).lastPreCycle ≤ c) : Core p (precharged r bank c) := by
  constructor
  · exact ⟨trivial, h.legal⟩
  · intro x hx
    rw [precharged_banks]
    exact h.acts x hx
  · exact h.index
  · exact h.ring
  · intro b n hn
    rw [precharged_banks]
    dsimp only
    rcases List.mem_cons.mp hn with hn | hn
    · cases hn
      rw [if_pos rfl]
      exact ⟨hpos, le_rfl⟩
    · obtain ⟨hn0, hle⟩ := h.pre b n hn
      refine ⟨hn0, ?_⟩
      split
      · next heq =>
        rw [heq] at hle
        omega
      · exact hle
  · intro b hb
    rw [precharged_banks] at hb ⊢
    dsimp only at hb ⊢
    split at hb
    · next heq =>
      rw [if_pos heq, heq]
      exact List.mem_cons_self
    · next hne =>
      rw [if_neg hne]
      exact List.mem_cons_of_mem _ (h.lastPre b hb)
  · intro last hl
    rw [precharged_banks]
    exact h.lastRdWr last hl
  · intro b
    rw [precharged_banks, precharged_banks]
    exact h.newest b
  · rw [precharged_banks]
    exact h.served

/-- A PRE leaves the rows of the other banks, and of its own the last ACT. -/
theorem rowKept_precharged {b c : ℕ} (h : RowKept p r b)
    (hopen : b = bank → (r.banks b).isOpen = true) : RowKept p (precharged r bank c) b := by
  constructor
  · intro hb
    rw [precharged_banks] at hb ⊢
    dsimp only at hb ⊢
    split at hb
    · next heq => exact h.row (.inl (hopen heq))
    · exact h.row hb
  · intro hb
    rw [precharged_banks] at hb ⊢
    dsimp only at hb ⊢
    split at hb
    · cases hb
    · next hne =>
      rw [if_neg hne]
      exact h.pre hb

end Precharge

section Window

/-- The rank with another count of the accesses in the refresh period. -/
def windowed (r : MemRankBase) (n : ℕ) : MemRankBase := { r with accessInRefresh := n }

theorem core_windowed (h : Core p r) (n : ℕ) : Core p (windowed r n) :=
  ⟨h.legal, h.acts, h.index, h.ring, h.pre, h.lastPre, h.lastRdWr, h.newest, h.served⟩

theorem rowKept_windowed (h : RowKept p r bank) (n : ℕ) : RowKept p (windowed r n) bank :=
  ⟨h.row, h.pre⟩

variable {rowHit : Bool} {type : MemAccessType} {arrivalCycle refreshNum : ℕ}

theorem calcIntraIssueCycle_ends (r : MemRankBase) :
    ends Benign (CalcIntraIssueCycle p rowHit type arrivalCycle refreshNum) (fun i r' =>
      i = r.intraIssueCycle p rowHit type arrivalCycle refreshNum ∧
      r' = windowed r (r.nextAccessInRefresh p refreshNum)) r := ⟨rfl, rfl⟩

/-- A row hit waits for the turnaround, if the window of the last refresh lets it. -/
theorem turnaround_le_intraIssueCycle {r : MemRankBase} (hL : (r.banks r.lastBank).lastRdWrCycle ≠ 0)
    (hwindow : r.lastRefreshCycle ≠ 0 → r.lastAccessCycle - r.lastRefreshCycle ≤ p.GetRefreshCycle.toNat →
      r.lastRefreshCycle ≤ r.lastAccessCycle →
      (r.banks r.lastBank).lastRdWrCycle +
        (p.GetRdWrDelay type (r.banks r.lastBank).lastType).toNat ≤
          max (r.lastAccessCycle + p.GetRefreshCycle.toNat) arrivalCycle) :
    (r.banks r.lastBank).lastRdWrCycle + (p.GetRdWrDelay type (r.banks r.lastBank).lastType).toNat ≤
      r.intraIssueCycle p true type arrivalCycle 0 := by
  unfold MemRankBase.intraIssueCycle MemRankBase.nextAccessInRefresh
  dsimp only
  rw [if_pos rfl]
  by_cases hin : r.lastRefreshCycle ≠ 0 ∧
      r.lastAccessCycle - r.lastRefreshCycle ≤ p.GetRefreshCycle.toNat ∧
      r.lastRefreshCycle ≤ r.lastAccessCycle
  · have hlate := hwindow hin.1 hin.2.1 hin.2.2
    have hle := hin.2.2
    rw [if_pos hin, if_pos (by decide), if_neg (by decide)]
    omega
  · rw [if_neg hin, if_neg (by decide), if_pos hL, if_pos rfl]
    exact le_max_left _ _

end Window

section OpenRow

variable {rowHit : Bool} {type : MemAccessType} {arrivalCycle refreshNum : ℕ}

/-- What the part of an access before the read or write leaves as it was. -/
structure SameColumns (r r' : MemRankBase) : Prop where
  lastBank : r'.lastBank = r.lastBank
  lastAccessCycle : r'.lastAccessCycle = r.lastAccessCycle
  lastRdWrCycle : ∀ b, (r'.banks b).lastRdWrCycle = (r.banks b).lastRdWrCycle
  lastType : ∀ b, (r'.banks b).lastType = (r.banks b).lastType

theorem sameColumns_precharged (c : ℕ) : SameColumns r (precharged r bank c) where
  lastBank := rfl
  lastAccessCycle := rfl
  lastRdWrCycle b := by rw [precharged_banks]
  lastType b := by rw [precharged_banks]

/-- The access may open a row: the index of the ring is inside its allocation,
and a bank without an ACT, for which `CalcActConst` returns early, is given a
cycle at which the ACT is allowed. -/
structure MayActivate (p : MemParam) (r : MemRankBase) (bank row issueCycle : ℕ) : Prop where
  room : r.tFAWIndex < p.bankCount.toNat
  first : (r.banks bank).lastActCycle = 0 → Allowed p r.log (.act bank row issueCycle)

/-- The rank is ready for an ACT of the bank from the cycle on. -/
structure ActReady (p : MemParam) (r r' : MemRankBase) (bank row issuable : ℕ) : Prop where
  core : Core p r'
  others : ∀ b ≠ bank, RowKept p r' b
  same : SameColumns r r'
  room : r'.tFAWIndex < p.bankCount.toNat
  first : (r'.banks bank).lastActCycle = 0 → Allowed p r'.log (.act bank row issuable)

theorem openPolicyStart_ends (hpos : p.Positive) (h : Sound p r)
    (hmay : rowHit = false → MayActivate p r bank row
      (r.intraIssueCycle p rowHit type arrivalCycle refreshNum)) :
    ends Benign (openPolicyStart p rowHit type arrivalCycle refreshNum bank) (fun o r' =>
      match o.1 with
      | none => r' = r ∧ o.2 = false ∧ rowHit = true
      | some issuable => ActReady p r r' bank row issuable) r := by
  cases rowHit with
  | true =>
    rw [openPolicyStart, if_pos rfl]
    exact ⟨rfl, rfl, rfl⟩
  | false =>
    obtain ⟨hroom, hfirst⟩ := hmay rfl
    rw [openPolicyStart, if_neg (by decide), ends_bind]
    refine ends_mono (calcIntraIssueCycle_ends r) fun issue r₁ hends => ?_
    obtain ⟨hissue, h₁⟩ := hends
    rw [← hissue] at hfirst
    have hcore₁ := core_windowed h.toCore (r.nextAccessInRefresh p refreshNum)
    have hrows₁ := fun b => rowKept_windowed (h.rows b) (r.nextAccessInRefresh p refreshNum)
    have hfirst₁ : (r₁.banks bank).lastActCycle = 0 → Allowed p r₁.log (.act bank row issue) := by
      rw [h₁]
      exact hfirst
    have hsame₁ : SameColumns r r₁ := by
      rw [h₁]
      exact ⟨rfl, rfl, fun _ => rfl, fun _ => rfl⟩
    have hroom₁ : r₁.tFAWIndex < p.bankCount.toNat := by
      rw [h₁]
      exact hroom
    rw [← h₁] at hcore₁ hrows₁
    simp only [ends_bind, ends_observe, ends_ite, ends_ensure, ends_pure]
    split
    · -- the PRE of the open row comes before the ACT
      next hopen =>
      have htras := hpos.tRAS
      have hkept := (hrows₁ bank).pre hopen
      generalize hpre : r₁.CalcPreConst p bank (r₁.banks bank).lastType issue = c
      have hc : issue ≤ c ∧ (r₁.banks bank).lastActCycle + p.tRAS.toNat ≤ c := by
        rw [← hpre, MemRankBase.CalcPreConst]
        omega
      refine ⟨fun _ => ?_, fun hne => absurd hc.1 hne⟩
      refine ends_mono (issuePrecharge_ends (by omega)) fun _ r₂ h₂ => ?_
      rw [h₂]
      constructor
      · exact core_precharged hcore₁ (by omega) (by omega)
      · exact fun b hb => rowKept_precharged (hrows₁ b) fun heq => absurd heq hb
      · have hpre₂ : SameColumns r₁ (precharged r₁ bank c) := sameColumns_precharged c
        exact ⟨hsame₁.lastBank, hsame₁.lastAccessCycle,
          fun b => (hpre₂.lastRdWrCycle b).trans (hsame₁.lastRdWrCycle b),
          fun b => (hpre₂.lastType b).trans (hsame₁.lastType b)⟩
      · exact hroom₁
      · intro hzero
        rw [precharged_banks] at hzero
        obtain ⟨hacts, hfaw, hpres⟩ := hfirst₁ hzero
        refine ⟨fun x hx => (hacts x hx).trans (by omega), fun x hx => (hfaw x hx).trans (by omega), ?_⟩
        intro n hn
        rcases List.mem_cons.mp hn with hn | hn
        · cases hn
          exact le_rfl
        · have := hpres n hn
          omega
    · constructor
      · exact hcore₁
      · exact fun b _ => hrows₁ b
      · exact hsame₁
      · exact hroom₁
      · exact hfirst₁

theorem closedPolicyStart_ends (h : Sound p r)
    (hmay : r.CheckContinuousAccess p arrivalCycle bank row = false →
      MayActivate p r bank row (r.intraIssueCycle p rowHit type arrivalCycle refreshNum)) :
    ends Benign (closedPolicyStart p rowHit type arrivalCycle refreshNum row bank) (fun o r' =>
      match o.1 with
      | none => r' = r ∧ o.2 = true ∧ r.CheckContinuousAccess p arrivalCycle bank row = true
      | some issuable => ActReady p r r' bank row issuable) r := by
  simp only [closedPolicyStart, ends_bind, ends_observe, ends_ite, ends_ensure, ends_pure]
  refine ⟨fun _ => ?_, fun _ => benign_rowHit⟩
  split
  · next hcont => exact ⟨trivial, trivial, hcont⟩
  · next hcont =>
    obtain ⟨hroom, hfirst⟩ := hmay (Bool.eq_false_iff.mpr hcont)
    refine ends_mono (calcIntraIssueCycle_ends r) fun issue r₁ hends => ?_
    obtain ⟨hissue, h₁⟩ := hends
    rw [← hissue] at hfirst
    rw [h₁]
    constructor
    · exact core_windowed h.toCore _
    · exact fun b _ => rowKept_windowed (h.rows b) _
    · exact ⟨rfl, rfl, fun _ => rfl, fun _ => rfl⟩
    · exact hroom
    · exact hfirst

/-- The access issues an ACT. -/
def Activates (p : MemParam) (r : MemRankBase) (rowHit : Bool) (arrivalCycle bank row : ℕ) : Prop :=
  if p.openPolicy then rowHit = false else r.CheckContinuousAccess p arrivalCycle bank row = false

/-- The rank after the ACT of the access. -/
structure Activated (p : MemParam) (r r' : MemRankBase) (bank row c : ℕ) : Prop where
  core : Core p r'
  others : ∀ b ≠ bank, RowKept p r' b
  same : SameColumns r r'
  act : lastAct bank r'.log = some (row, c)
  pre : (r'.banks bank).lastPreCycle ≤ c
  lastActCycle : (r'.banks bank).lastActCycle = c

theorem rowKept_activated {b c : ℕ} (h : RowKept p r b) (hb : b ≠ bank) :
    RowKept p (activated r bank row c) b := by
  have hbank : (activated r bank row c).banks b = r.banks b := Function.update_of_ne hb _ _
  have hact : lastAct b (activated r bank row c).log = lastAct b r.log := by
    change (Command.act bank row c :: r.log).findSome? (actOn b) = _
    rw [List.findSome?_cons, actOn, if_neg (Ne.symm hb)]
    rfl
  constructor
  · rw [hbank, hact]
    exact h.row
  · rw [hbank]
    exact h.pre

/-- `CalcActConst` and `IssueActivate`, one after the other. -/
theorem activate_ends {r₀ : MemRankBase} (hbank : bank < p.bankCount.toNat) {issuable : ℕ}
    (h : ActReady p r₀ r bank row issuable) (continuous : Bool) :
    ends Benign (do
      let actIssueCycle ← CalcActConst p bank issuable
      IssueActivate p bank row actIssueCycle
      ensure (arrivalCycle ≤ actIssueCycle) .order
      pure (some actIssueCycle, continuous)) (fun o r' =>
        ∃ c, o = (some c, continuous) ∧ Activated p r₀ r' bank row c) r := by
  rw [ends_bind]
  refine ends_mono (calcActConst_ends h.core h.room h.first) fun c r₁ hends => ?_
  obtain ⟨h₁, _, hallowed, hlast⟩ := hends
  rw [h₁]
  obtain ⟨hfaw, hpre⟩ := h.core.late_of_allowed hallowed
  simp only [IssueActivate, ends_bind, ends_observe, ends_ensure, ends_change, ends_pure]
  refine ⟨fun _ => ⟨fun _ => ⟨fun _ => ⟨fun _ => ?_, fun _ => benign_order⟩,
    fun hne => absurd hlast hne⟩, fun hne => absurd hfaw hne⟩, fun hne => absurd h.room hne⟩
  refine ⟨c, rfl, ?_⟩
  have hself : (activated r bank row c).banks bank =
      { r.banks bank with lastActCycle := c, isOpen := true } := Function.update_self _ _ _
  have hcolumns : SameColumns r (activated r bank row c) := by
    have hkeep : ∀ b, ((activated r bank row c).banks b).lastRdWrCycle = (r.banks b).lastRdWrCycle ∧
        ((activated r bank row c).banks b).lastType = (r.banks b).lastType := by
      intro b
      by_cases hb : b = bank
      · rw [hb, hself]
        exact ⟨rfl, rfl⟩
      · have hother : (activated r bank row c).banks b = r.banks b := Function.update_of_ne hb _ _
        rw [hother]
        exact ⟨rfl, rfl⟩
    exact ⟨rfl, rfl, fun b => (hkeep b).1, fun b => (hkeep b).2⟩
  change Activated p r₀ (activated r bank row c) bank row c
  constructor
  · exact core_activated h.core hbank hallowed hlast
  · exact fun b hb => rowKept_activated (h.others b hb) hb
  · exact ⟨h.same.lastBank, h.same.lastAccessCycle,
      fun b => (hcolumns.lastRdWrCycle b).trans (h.same.lastRdWrCycle b),
      fun b => (hcolumns.lastType b).trans (h.same.lastType b)⟩
  · change (Command.act bank row c :: r.log).findSome? (actOn bank) = _
    rw [List.findSome?_cons, actOn, if_pos rfl]
  · rw [hself]
    exact hpre
  · rw [hself]

/-- The ACT of an access, or the reason why it needs none. -/
theorem openRow_ends (hpos : p.Positive) (h : Sound p r) (hbank : bank < p.bankCount.toNat)
    (hmay : Activates p r rowHit arrivalCycle bank row → MayActivate p r bank row
      (r.intraIssueCycle p rowHit type arrivalCycle refreshNum)) :
    ends Benign (openRow p rowHit type arrivalCycle refreshNum row bank) (fun o r' =>
      match o with
      | (some c, _) => Activated p r r' bank row c
      | (none, true) => r' = r ∧ p.openPolicy = false ∧
          r.CheckContinuousAccess p arrivalCycle bank row = true
      | (none, false) => r' = r ∧ p.openPolicy = true ∧ rowHit = true) r := by
  unfold openRow
  unfold Activates at hmay
  simp only [ends_bind, ends_ite]
  split
  · next hpolicy =>
    rw [if_pos hpolicy] at hmay
    refine ends_mono (openPolicyStart_ends hpos h hmay) fun o r₁ h₁ => ?_
    obtain ⟨_ | issuable, continuous⟩ := o
    · obtain ⟨rfl, hcont, hhit⟩ := h₁
      dsimp only at hcont
      rw [hcont]
      exact ⟨rfl, hpolicy, hhit⟩
    · refine ends_mono (activate_ends hbank h₁ continuous) fun o r₂ hends => ?_
      obtain ⟨c, ho, h₂⟩ := hends
      rw [ho]
      exact h₂
  · next hpolicy =>
    rw [if_neg hpolicy] at hmay
    refine ends_mono (closedPolicyStart_ends h hmay) fun o r₁ h₁ => ?_
    obtain ⟨_ | issuable, continuous⟩ := o
    · obtain ⟨rfl, hcont, hhit⟩ := h₁
      dsimp only at hcont
      rw [hcont]
      exact ⟨rfl, Bool.eq_false_iff.mpr hpolicy, hhit⟩
    · refine ends_mono (activate_ends hbank h₁ continuous) fun o r₂ hends => ?_
      obtain ⟨c, ho, h₂⟩ := hends
      rw [ho]
      exact h₂

end OpenRow

section Column

variable {rowHit : Bool} {type : MemAccessType} {arrivalCycle refreshNum start : ℕ}

/-- The rank is ready for a read or write of the row from the cycle `start` on. -/
structure Ready (p : MemParam) (r : MemRankBase) (bank row : ℕ) (type : MemAccessType)
    (start : ℕ) : Prop extends Core p r where
  others : ∀ b ≠ bank, RowKept p r b
  target : ∃ c, lastAct bank r.log = some (row, c) ∧ c + p.tRCD.toNat ≤ start
  turnaround : (r.banks r.lastBank).lastRdWrCycle +
    (p.GetRdWrDelay type (r.banks r.lastBank).lastType).toNat ≤ start
  closing : p.openPolicy = false → (r.banks bank).lastPreCycle ≤ start + (p.GetPreDelay type).toNat
  opening : p.openPolicy = true → (r.banks bank).lastPreCycle ≤ (r.banks bank).lastActCycle

/-- The conditions on an access that needs no ACT: in the window of a refresh a
row hit comes late enough for the turnaround, and a continuous access late
enough for the PRE that it moves. -/
structure MayContinue (p : MemParam) (r : MemRankBase) (rowHit : Bool) (type : MemAccessType)
    (arrivalCycle bank row : ℕ) : Prop where
  window : rowHit = true → r.lastRefreshCycle ≠ 0 →
    r.lastAccessCycle - r.lastRefreshCycle ≤ p.GetRefreshCycle.toNat →
    r.lastRefreshCycle ≤ r.lastAccessCycle →
    (r.banks r.lastBank).lastRdWrCycle + (p.GetRdWrDelay type (r.banks r.lastBank).lastType).toNat ≤
      max (r.lastAccessCycle + p.GetRefreshCycle.toNat) arrivalCycle
  pre : p.openPolicy = false → r.CheckContinuousAccess p arrivalCycle bank row = true →
    (r.banks bank).lastPreCycle ≤ r.CalcRdWrConst p type arrivalCycle + (p.GetPreDelay type).toNat

/-- The cycle from which the read or write may be issued. -/
theorem rdwrStart_ends (hpos : p.Positive) {r₀ : MemRankBase} (h : Sound p r₀) {o : Option ℕ × Bool}
    (ho : match o with
      | (some c, _) => Activated p r₀ r bank row c
      | (none, true) => r = r₀ ∧ p.openPolicy = false ∧
          r₀.CheckContinuousAccess p arrivalCycle bank row = true
      | (none, false) => r = r₀ ∧ p.openPolicy = true ∧ rowHit = true)
    (hhit : rowHit = true → refreshNum = 0 ∧ r₀.IsRowBufferHit row bank = true)
    (hmay : MayContinue p r₀ rowHit type arrivalCycle bank row) :
    ends Benign (rdwrStart p o rowHit type arrivalCycle refreshNum)
      (fun start r' => Ready p r' bank row type start ∧ SameColumns r r') r := by
  have hrefl : SameColumns r r := ⟨rfl, rfl, fun _ => rfl, fun _ => rfl⟩
  obtain ⟨_ | c, continuous⟩ := o
  · cases continuous with
    | true =>
      obtain ⟨rfl, hpolicy, hcont⟩ := ho
      rw [rdwrStart, ends_observe]
      have hcont' := hcont
      simp only [MemRankBase.CheckContinuousAccess, Bool.and_eq_true, decide_eq_true_eq] at hcont'
      obtain ⟨-, hlt, hrow⟩ := hcont'
      obtain ⟨c, hact, hc⟩ := (h.rows bank).row (.inr (by omega))
      have hnewest := h.newest bank
      rw [hrow] at hact
      refine ⟨?_, hrefl⟩
      constructor
      · exact h.toCore
      · exact fun b _ => h.rows b
      · refine ⟨c, hact, ?_⟩
        rw [MemRankBase.CalcRdWrConst]
        omega
      · exact le_max_right _ _
      · exact fun _ => hmay.pre hpolicy hcont
      · intro hopen
        rw [hpolicy] at hopen
        cases hopen
    | false =>
      obtain ⟨rfl, hpolicy, rfl⟩ := ho
      obtain ⟨rfl, hbuffer⟩ := hhit rfl
      simp only [rdwrStart, ends_bind, ends_ensure]
      refine ⟨fun _ => ⟨fun _ => ?_, fun _ => benign_rowHit⟩, fun _ => benign_rowHit⟩
      refine ends_mono (calcIntraIssueCycle_ends r) fun start r₁ hends => ?_
      obtain ⟨hstart, h₁⟩ := hends
      simp only [MemRankBase.IsRowBufferHit, Bool.and_eq_true, decide_eq_true_eq] at hbuffer
      obtain ⟨hopen, hrow⟩ := hbuffer
      obtain ⟨c, hact, hc⟩ := (h.rows bank).row (.inl hopen)
      have htrcd := hpos.tRCD
      have hnewest := h.newest bank
      have hlate := turnaround_le_intraIssueCycle (by omega) (hmay.window rfl)
      rw [← hstart] at hlate
      rw [hrow] at hact
      rw [h₁]
      refine ⟨?_, rfl, rfl, fun _ => rfl, fun _ => rfl⟩
      constructor
      · exact core_windowed h.toCore _
      · exact fun b _ => rowKept_windowed (h.rows b) _
      · refine ⟨c, hact, ?_⟩
        omega
      · exact hlate
      · intro hclosed
        rw [hpolicy] at hclosed
        cases hclosed
      · exact fun _ => (h.rows bank).pre hopen
  · rw [rdwrStart, ends_observe]
    have hact : Activated p r₀ r bank row c := ho
    have hstart : c + p.tRCD.toNat ≤ r.CalcRdWrConst p type (c + p.tRCD.toNat) := le_max_left _ _
    refine ⟨?_, hrefl⟩
    constructor
    · exact hact.core
    · exact hact.others
    · exact ⟨c, hact.act, hstart⟩
    · exact le_max_right _ _
    · intro _
      have := hact.pre
      omega
    · intro _
      rw [hact.lastActCycle]
      exact hact.pre

/-- The rank after a read or write. -/
def accessed (r : MemRankBase) (bank row : ℕ) (type : MemAccessType) (accessCycle c : ℕ) : MemRankBase :=
  { r.modifyBank bank fun b => { b with lastRdWrCycle := c, lastRow := row, lastType := type } with
    lastAccessCycle := max r.lastAccessCycle accessCycle
    lastBank := bank
    log := .rdwr bank row type c :: r.log }

/-- What is left to do after the read or write: the PRE of the closed policy. -/
structure Closing (p : MemParam) (r : MemRankBase) (bank : ℕ) (type : MemAccessType)
    (issued : ℕ) : Prop extends Core p r where
  others : ∀ b ≠ bank, RowKept p r b
  row : ∃ c, lastAct bank r.log = some ((r.banks bank).lastRow, c) ∧
    c + p.tRCD.toNat ≤ (r.banks bank).lastRdWrCycle
  command : (r.banks bank).lastRdWrCycle = issued
  closing : p.openPolicy = false → (r.banks bank).lastPreCycle ≤ issued + (p.GetPreDelay type).toNat
  opening : p.openPolicy = true → (r.banks bank).lastPreCycle ≤ (r.banks bank).lastActCycle

theorem access_ends (h : Ready p r bank row type start) (hpos : 0 < (p.GetRdWrDelay type
    (r.banks r.lastBank).lastType).toNat) {issued accessCycle : ℕ} (hstart : start ≤ issued)
    (haccess : issued ≤ accessCycle) :
    ends Benign (MemRankBase.access accessCycle issued row bank type)
      (fun _ r' => Closing p r' bank type issued) r := by
  have hturn := h.turnaround
  have hlt : (r.banks bank).lastRdWrCycle < issued := by
    have := h.newest bank
    omega
  simp only [MemRankBase.access, ends_bind, ends_observe, ends_ensure, ends_change]
  refine ⟨fun _ => ?_, fun hne => absurd hlt hne⟩
  change Closing p (accessed r bank row type accessCycle issued) bank type issued
  have hself : (accessed r bank row type accessCycle issued).banks bank =
      { r.banks bank with lastRdWrCycle := issued, lastRow := row, lastType := type } :=
    Function.update_self _ _ _
  have hother : ∀ b ≠ bank, (accessed r bank row type accessCycle issued).banks b = r.banks b :=
    fun b hb => Function.update_of_ne hb _ _
  have hkeep : ∀ b, ((accessed r bank row type accessCycle issued).banks b).lastActCycle =
      (r.banks b).lastActCycle ∧
      ((accessed r bank row type accessCycle issued).banks b).lastPreCycle =
        (r.banks b).lastPreCycle := by
    intro b
    by_cases hb : b = bank
    · rw [hb, hself]
      exact ⟨rfl, rfl⟩
    · rw [hother b hb]
      exact ⟨rfl, rfl⟩
  obtain ⟨c, hact, hc⟩ := h.target
  constructor
  · constructor
    · refine ⟨⟨⟨c, hact, by omega⟩, ?_⟩, h.legal⟩
      intro last hlast
      rw [h.lastRdWr last hlast]
      dsimp only
      omega
    · intro x hx
      rw [(hkeep x.1).1]
      exact h.acts x hx
    · exact h.index
    · exact h.ring
    · intro b n hn
      rw [(hkeep b).2]
      rcases List.mem_cons.mp hn with hn | hn
      · cases hn
      · exact h.pre b n hn
    · intro b hb
      rw [(hkeep b).2] at hb ⊢
      exact List.mem_cons_of_mem _ (h.lastPre b hb)
    · intro last hlast
      change some (type, issued) = some last at hlast
      change last = (((accessed r bank row type accessCycle issued).banks bank).lastType,
        ((accessed r bank row type accessCycle issued).banks bank).lastRdWrCycle)
      rw [hself, Option.some.inj hlast]
    · intro b
      change _ ≤ ((accessed r bank row type accessCycle issued).banks bank).lastRdWrCycle
      rw [hself]
      dsimp only
      by_cases hb : b = bank
      · rw [hb, hself]
      · rw [hother b hb]
        have := h.newest b
        omega
    · change ((accessed r bank row type accessCycle issued).banks bank).lastRdWrCycle ≤
        max r.lastAccessCycle accessCycle
      rw [hself]
      exact haccess.trans (le_max_right _ _)
  · intro b hb
    have hkept := h.others b hb
    constructor
    · rw [hother b hb]
      exact hkept.row
    · rw [hother b hb]
      exact hkept.pre
  · rw [hself]
    refine ⟨c, hact, ?_⟩
    change c + p.tRCD.toNat ≤ issued
    omega
  · rw [hself]
  · intro hclosed
    rw [(hkeep bank).2]
    have := h.closing hclosed
    omega
  · intro hopen
    rw [(hkeep bank).2, (hkeep bank).1]
    exact h.opening hopen

theorem closeRow_ends (hpos : p.Positive) {issued : ℕ} (h : Closing p r bank type issued) :
    ends Benign (closeRow p type bank issued) (fun _ r' => Sound p r') r := by
  unfold closeRow
  rw [ends_ite]
  split
  · next hclosed =>
    have hlast := h.closing hclosed
    have hissued := h.command
    have htras := hpos.tRAS
    simp only [ends_bind, ends_observe, ends_ensure]
    generalize hpre : r.CalcPreConst p bank type issued = c
    have hc : issued + (p.GetPreDelay type).toNat ≤ c ∧
        (r.banks bank).lastActCycle + p.tRAS.toNat ≤ c := by
      rw [← hpre, MemRankBase.CalcPreConst]
      omega
    refine ⟨fun _ => ?_, fun _ => benign_order⟩
    refine ends_mono (issuePrecharge_ends (by omega)) fun _ r₁ h₁ => ?_
    rw [h₁]
    refine ⟨core_precharged h.toCore (by omega) (by omega), fun b => ?_⟩
    by_cases hb : b = bank
    · constructor
      · intro _
        rw [precharged_banks, hb]
        exact h.row
      · intro hopen
        rw [precharged_banks, hb] at hopen
        dsimp only at hopen
        rw [if_pos rfl] at hopen
        cases hopen
    · exact rowKept_precharged (h.others b hb) fun heq => absurd heq hb
  · next hopen =>
    refine ⟨h.toCore, fun b => ?_⟩
    by_cases hb : b = bank
    · rw [hb]
      exact ⟨fun _ => h.row, fun _ => h.opening (Bool.not_eq_false _ ▸ hopen)⟩
    · exact h.others b hb

end Column

end Zsim.MemRankTiming
