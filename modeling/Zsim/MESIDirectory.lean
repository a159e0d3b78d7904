import Zsim.MemoryHierarchy
import Mathlib.Algebra.Order.BigOperators.Group.Finset
import Mathlib.Data.Finset.Card
import Mathlib.Data.Finset.Range
import Mathlib.Tactic.SplitIfs

/-!
# Directory entries and the states they describe

An entry of `MESITopCC` lists the children that hold a line and whether its
single sharer is exclusive. The exclusive flag is left behind when the sharers
disappear, so only `isExclusive` is meaningful. `Agrees` relates an entry to
the state of its own cache and the states of the children; each move of the
protocol preserves it.
-/

namespace Zsim.MESIDirectory

open MemoryHierarchy

/-- `MESITopCC::Entry`. -/
structure Entry where
  numSharers : ℕ
  sharers : ℕ → Bool
  exclusive : Bool

/-- `Entry::clear`. -/
def Entry.clear : Entry := ⟨0, fun _ => false, false⟩

/-- `Entry::isEmpty`. -/
def Entry.isEmpty (e : Entry) : Bool := e.numSharers == 0

/-- `Entry::isExclusive`. -/
def Entry.isExclusive (e : Entry) : Bool := e.numSharers == 1 && e.exclusive

/-- Set the bit of a child and count it. -/
def Entry.addSharer (e : Entry) (c : ℕ) : Entry :=
  { e with sharers := Function.update e.sharers c true, numSharers := e.numSharers + 1 }

/-- Clear the bit of a child and stop counting it. -/
def Entry.dropSharer (e : Entry) (c : ℕ) : Entry :=
  { e with sharers := Function.update e.sharers c false, numSharers := e.numSharers - 1 }

/-- Clear every bit, keeping the exclusive flag as the code does. -/
def Entry.dropAll (e : Entry) : Entry :=
  { e with sharers := fun _ => false, numSharers := 0 }

/-- Number of sharer bits set among the first `n` children. -/
def sharerCount (n : ℕ) (s : ℕ → Bool) : ℕ := ((Finset.range n).filter fun c => s c = true).card

/-- State of a line once it has been invalidated or downgraded. -/
def invState : InvType → MESIState → MESIState
  | .INV, _ => .I
  | .INVX, s => if s.exclusive = true then .S else s
  | .FWD, s => s

/-- Entry of a line once it has been invalidated or downgraded. -/
def invEntry : InvType → Entry → Entry
  | .INV, e => e.dropAll
  | .INVX, e => if e.isExclusive = true then { e with exclusive := false } else e
  | .FWD, e => e

/-- No child holds the line. -/
def Entry.Vacant (e : Entry) : Prop := e.numSharers = 0 ∧ ∀ c, e.sharers c = false

/-- The entry of a line describes the states of the children exactly, and the
cache's own state covers them. -/
structure Agrees (n : ℕ) (own : MESIState) (e : Entry) (child : ℕ → MESIState) : Prop where
  /-- A bit is set exactly when the child holds the line. -/
  sharers_iff : ∀ c, e.sharers c = true ↔ child c ≠ .I
  sharers_lt : ∀ c, e.sharers c = true → c < n
  count : e.numSharers = sharerCount n e.sharers
  /-- Inclusion. -/
  valid : ∀ c, child c ≠ .I → own ≠ .I
  exclusive_up : ∀ c, (child c).exclusive = true → own.exclusive = true ∧ e.isExclusive = true
  exclusive_down : e.isExclusive = true → ∀ c, e.sharers c = true → (child c).exclusive = true
  /-- The flag is stale only on an entry with at most one sharer. -/
  flag : e.exclusive = true → e.numSharers ≤ 1

@[simp] theorem exclusive_I : MESIState.exclusive .I = false := rfl
@[simp] theorem exclusive_S : MESIState.exclusive .S = false := rfl
@[simp] theorem exclusive_E : MESIState.exclusive .E = true := rfl
@[simp] theorem exclusive_M : MESIState.exclusive .M = true := rfl

theorem exclusive_iff (s : MESIState) : s.exclusive = true ↔ s = .M ∨ s = .E := by
  cases s <;> simp

theorem ne_I_of_exclusive {s : MESIState} (h : s.exclusive = true) : s ≠ .I := by
  rintro rfl
  cases h

@[simp] theorem invState_I (ty : InvType) : invState ty .I = .I := by
  cases ty <;> simp [invState]

theorem isExclusive_iff (e : Entry) :
    e.isExclusive = true ↔ e.numSharers = 1 ∧ e.exclusive = true := by
  simp [Entry.isExclusive]

theorem clear_vacant : Entry.clear.Vacant := ⟨rfl, fun _ => rfl⟩

theorem dropAll_vacant (e : Entry) : e.dropAll.Vacant := ⟨rfl, fun _ => rfl⟩

theorem Entry.Vacant.not_isExclusive {e : Entry} (h : e.Vacant) : e.isExclusive = false := by
  simp [Entry.isExclusive, h.1]

/-- A vacant entry has nothing left to lose. -/
theorem Entry.Vacant.invEntry_eq {e : Entry} (h : e.Vacant) (ty : InvType) :
    MESIDirectory.invEntry ty e = e := by
  cases ty with
  | INV =>
    have hs : e.sharers = fun _ => false := funext h.2
    simp only [MESIDirectory.invEntry, Entry.dropAll, ← hs, ← h.1]
  | INVX => simp [MESIDirectory.invEntry, h.not_isExclusive]
  | FWD => rfl

@[simp] theorem sharerCount_none (n : ℕ) : sharerCount n (fun _ => false) = 0 := by
  simp [sharerCount]

/-- Setting a clear bit below the bound adds one to the count. -/
theorem sharerCount_add {n c : ℕ} {s : ℕ → Bool} (hc : c < n) (hs : s c = false) :
    sharerCount n (Function.update s c true) = sharerCount n s + 1 := by
  have he : (Finset.range n).filter (fun d => Function.update s c true d = true) =
      insert c ((Finset.range n).filter fun d => s d = true) := by
    ext d
    by_cases hd : d = c
    · simp [hd, hc]
    · simp [hd]
  rw [sharerCount, he, Finset.card_insert_of_notMem (by simp [hs])]
  rfl

/-- Clearing a set bit below the bound takes one from the count. -/
theorem sharerCount_drop {n c : ℕ} {s : ℕ → Bool} (hc : c < n) (hs : s c = true) :
    sharerCount n (Function.update s c false) + 1 = sharerCount n s := by
  have ha := sharerCount_add (s:=Function.update s c false) hc (Function.update_self ..)
  rw [Function.update_idem, ← hs, Function.update_eq_self] at ha
  exact ha.symm

theorem sharerCount_pos {n c : ℕ} {s : ℕ → Bool} (hc : c < n) (hs : s c = true) :
    0 < sharerCount n s := by
  have h := sharerCount_drop hc hs
  omega

theorem countP_range (n : ℕ) (s : ℕ → Bool) : (List.range n).countP s = sharerCount n s := by
  induction n with
  | zero => rfl
  | succ n ih =>
    rw [List.range_succ, List.countP_append, ih, sharerCount, sharerCount, Finset.range_add_one,
      Finset.filter_insert]
    cases hs : s n with
    | false => simp [hs]
    | true => simp [hs]

/-- With a count of one there is one sharer only. -/
theorem sharer_unique {n c d : ℕ} {s : ℕ → Bool} (hone : sharerCount n s = 1)
    (hc : c < n) (hd : d < n) (hsc : s c = true) (hsd : s d = true) : c = d := by
  obtain ⟨x, hx⟩ := Finset.card_eq_one.mp hone
  have hcx : c ∈ ({x} : Finset ℕ) := hx ▸ by simp [hc, hsc]
  have hdx : d ∈ ({x} : Finset ℕ) := hx ▸ by simp [hd, hsd]
  rw [Finset.mem_singleton] at hcx hdx
  rw [hcx, hdx]

namespace Agrees

variable {n : ℕ} {own : MESIState} {e : Entry} {child : ℕ → MESIState}

/-- A vacant entry agrees with children that all lack the line. -/
theorem vacant (own : MESIState) (hv : e.Vacant) (hch : ∀ c, child c = .I) :
    Agrees n own e child where
  sharers_iff c := by simp [hv.2, hch]
  sharers_lt c := by simp [hv.2]
  count := by rw [hv.1, show e.sharers = fun _ => false from funext hv.2, sharerCount_none]
  valid c hc := absurd (hch c) hc
  exclusive_up c hc := by rw [hch c] at hc; cases hc
  exclusive_down := by simp [hv.not_isExclusive]
  flag _ := by simp [hv.1]

theorem child_lt (h : Agrees n own e child) {c : ℕ} (hc : child c ≠ .I) : c < n :=
  h.sharers_lt c ((h.sharers_iff c).mpr hc)

theorem child_I_of_vacant (h : Agrees n own e child) (hv : e.Vacant) (c : ℕ) : child c = .I := by
  by_contra hc
  have hs := (h.sharers_iff c).mpr hc
  rw [hv.2 c] at hs
  cases hs

theorem child_I_of_own_I (h : Agrees n .I e child) (c : ℕ) : child c = .I := by
  by_contra hc
  exact h.valid c hc rfl

/-- An entry without sharers is vacant. -/
theorem vacant_of_isEmpty (h : Agrees n own e child) (he : e.isEmpty = true) : e.Vacant := by
  have hz : e.numSharers = 0 := by simpa [Entry.isEmpty] using he
  refine ⟨hz, fun c => ?_⟩
  cases hs : e.sharers c with
  | false => rfl
  | true =>
    have hp := sharerCount_pos (h.sharers_lt c hs) hs
    rw [← h.count] at hp
    omega

/-- An exclusive entry has one sharer. -/
theorem unique (h : Agrees n own e child) (he : e.isExclusive = true) {c d : ℕ}
    (hc : child c ≠ .I) (hd : child d ≠ .I) : c = d :=
  sharer_unique (h.count ▸ ((isExclusive_iff e).mp he).1) (h.child_lt hc) (h.child_lt hd)
    ((h.sharers_iff c).mpr hc) ((h.sharers_iff d).mpr hd)

/-- An exclusive entry has a sharer. -/
theorem exists_sharer (h : Agrees n own e child) (he : e.isExclusive = true) :
    ∃ c, e.sharers c = true := by
  have hone : sharerCount n e.sharers = 1 := h.count ▸ ((isExclusive_iff e).mp he).1
  obtain ⟨c, hc⟩ := Finset.card_eq_one.mp hone
  have hm : c ∈ ((Finset.range n).filter fun c => e.sharers c = true) := by rw [hc]; simp
  exact ⟨c, (Finset.mem_filter.mp hm).2⟩

/-- Next to an exclusive child no other child holds the line. -/
theorem others_I (h : Agrees n own e child) {c d : ℕ} (hc : (child c).exclusive = true)
    (hd : d ≠ c) : child d = .I := by
  by_contra hne
  exact hd (h.unique (h.exclusive_up c hc).2 hne (ne_I_of_exclusive hc))

/-- The own state may change as long as it still covers the children. -/
theorem changeOwn (h : Agrees n own e child) {own' : MESIState}
    (hvalid : ∀ c, child c ≠ .I → own' ≠ .I)
    (hexcl : ∀ c, (child c).exclusive = true → own'.exclusive = true) :
    Agrees n own' e child :=
  { h with
    valid := hvalid
    exclusive_up := fun c hc => ⟨hexcl c hc, (h.exclusive_up c hc).2⟩ }

/-- Gaining permission never hurts. -/
theorem upgradeOwn (h : Agrees n own e child) {own' : MESIState} (hne : own' ≠ .I)
    (hx : own.exclusive = true → own'.exclusive = true) : Agrees n own' e child :=
  h.changeOwn (fun _ _ => hne) fun c hc => hx (h.exclusive_up c hc).1

/-- PUTS and PUTX: the child leaves the sharer set. -/
theorem put (h : Agrees n own e child) {c : ℕ} (hc : child c ≠ .I) :
    Agrees n own (e.dropSharer c) (Function.update child c .I) := by
  have hs := (h.sharers_iff c).mpr hc
  have hcount := sharerCount_drop (h.sharers_lt c hs) hs
  have hnum := h.count
  refine ⟨fun d => ?_, fun d hd => ?_, ?_, fun d hd => ?_, fun d hd => ?_, fun hx d hd => ?_,
    fun hf => ?_⟩
  · by_cases hdc : d = c
    · simp [Entry.dropSharer, hdc]
    · simpa [Entry.dropSharer, Function.update_of_ne hdc] using h.sharers_iff d
  · by_cases hdc : d = c
    · simp [Entry.dropSharer, hdc] at hd
    · exact h.sharers_lt d (by simpa [Entry.dropSharer, Function.update_of_ne hdc] using hd)
  · simp only [Entry.dropSharer]
    omega
  · by_cases hdc : d = c
    · simp [hdc] at hd
    · exact h.valid d (by simpa [Function.update_of_ne hdc] using hd)
  · by_cases hdc : d = c
    · simp [hdc] at hd
    · rw [Function.update_of_ne hdc] at hd
      exact absurd (h.others_I hd (Ne.symm hdc)) hc
  · have hone := ((isExclusive_iff _).mp hx).1
    have hle := h.flag ((isExclusive_iff _).mp hx).2
    simp only [Entry.dropSharer] at hone
    omega
  · have hle := h.flag hf
    simp only [Entry.dropSharer]
    omega

/-- GETS at a cache with exclusive permission and no other sharer. -/
theorem getsExclusive (h : Agrees n own e child) {c : ℕ} (he : e.isEmpty = true)
    (hown : own.exclusive = true) (hc : c < n) :
    Agrees n own ⟨1, Function.update e.sharers c true, true⟩ (Function.update child c .E) := by
  have hv := h.vacant_of_isEmpty he
  have hch := h.child_I_of_vacant hv
  refine ⟨fun d => ?_, fun d hd => ?_, ?_, fun _ _ => ne_I_of_exclusive hown, fun d _ => ⟨hown, rfl⟩,
    fun _ d hd => ?_, fun _ => le_rfl⟩
  · by_cases hdc : d = c
    · simp [hdc]
    · simp [Function.update_of_ne hdc, hv.2, hch]
  · by_cases hdc : d = c
    · rwa [hdc]
    · simp [Function.update_of_ne hdc, hv.2] at hd
  · have ha := sharerCount_add hc (hv.2 c)
    rw [← h.count, hv.1] at ha
    exact ha.symm
  · by_cases hdc : d = c
    · simp [hdc]
    · simp [Function.update_of_ne hdc, hv.2] at hd

/-- GETS answered in S, once no child is exclusive. -/
theorem getsShared (h : Agrees n own e child) {c : ℕ} (he : e.isExclusive = false)
    (hown : own ≠ .I) (hc : c < n) (hI : child c = .I) :
    Agrees n own { e.addSharer c with exclusive := false } (Function.update child c .S) := by
  have hs : e.sharers c = false := by
    cases hs : e.sharers c with
    | false => rfl
    | true => exact absurd hI ((h.sharers_iff c).mp hs)
  have hnone : ∀ d, (child d).exclusive = false := by
    intro d
    cases hd : (child d).exclusive with
    | false => rfl
    | true => rw [(h.exclusive_up d hd).2] at he; cases he
  refine ⟨fun d => ?_, fun d hd => ?_, ?_, fun _ _ => hown, fun d hd => ?_, fun hx => ?_,
    fun hf => ?_⟩
  · by_cases hdc : d = c
    · simp [Entry.addSharer, hdc]
    · simpa [Entry.addSharer, Function.update_of_ne hdc] using h.sharers_iff d
  · by_cases hdc : d = c
    · rwa [hdc]
    · exact h.sharers_lt d (by simpa [Entry.addSharer, Function.update_of_ne hdc] using hd)
  · simp only [Entry.addSharer]
    rw [sharerCount_add hc hs, h.count]
  · by_cases hdc : d = c
    · simp [hdc] at hd
    · rw [Function.update_of_ne hdc, hnone d] at hd
      cases hd
  · exact absurd ((isExclusive_iff _).mp hx).2 (by simp)
  · cases hf

/-- GETX, once every other copy is gone. -/
theorem getx {c : ℕ} (hv : e.Vacant) (hown : own.exclusive = true) (hc : c < n)
    (hch : ∀ d, d ≠ c → child d = .I) :
    Agrees n own { e.addSharer c with exclusive := true } (Function.update child c .M) := by
  have hone : e.numSharers + 1 = 1 := by rw [hv.1]
  refine ⟨fun d => ?_, fun d hd => ?_, ?_, fun _ _ => ne_I_of_exclusive hown, fun d _ => ⟨hown, ?_⟩,
    fun _ d hd => ?_, fun _ => hone.le⟩
  · by_cases hdc : d = c
    · simp [Entry.addSharer, hdc]
    · simp [Entry.addSharer, Function.update_of_ne hdc, hv.2, hch d hdc]
  · by_cases hdc : d = c
    · rwa [hdc]
    · simp [Entry.addSharer, Function.update_of_ne hdc, hv.2] at hd
  · simp only [Entry.addSharer]
    rw [sharerCount_add hc (hv.2 c), show e.sharers = fun _ => false from funext hv.2,
      sharerCount_none, hv.1]
  · simp [Entry.isExclusive, Entry.addSharer, hv.1]
  · by_cases hdc : d = c
    · simp [hdc]
    · simp [Entry.addSharer, Function.update_of_ne hdc, hv.2] at hd

/-- INV and INVX applied to the line in a whole subtree. -/
theorem inv (h : Agrees n own e child) (ty : InvType) :
    Agrees n (invState ty own) (invEntry ty e) fun c => invState ty (child c) := by
  cases ty with
  | INV => exact vacant _ (dropAll_vacant e) fun _ => rfl
  | FWD => exact h
  | INVX =>
    have hch : ∀ s : MESIState, (invState .INVX s ≠ .I ↔ s ≠ .I) ∧
        (invState .INVX s).exclusive = false := by
      intro s
      cases s <;> simp [invState]
    have hsh : (invEntry .INVX e).sharers = e.sharers ∧
        (invEntry .INVX e).numSharers = e.numSharers := by
      unfold invEntry
      dsimp only
      split <;> exact ⟨rfl, rfl⟩
    have hx : (invEntry .INVX e).isExclusive = false := by
      unfold invEntry
      dsimp only
      split
      · simp [Entry.isExclusive]
      · next hne => exact Bool.eq_false_of_not_eq_true hne
    refine ⟨fun c => ?_, fun c hc => ?_, ?_, fun c hc => ?_, fun c hc => ?_, fun hf => ?_,
      fun hf => ?_⟩
    · rw [hsh.1, h.sharers_iff, (hch _).1]
    · exact h.sharers_lt c (by rwa [hsh.1] at hc)
    · rw [hsh.1, hsh.2, h.count]
    · exact (hch own).1.mpr (h.valid c ((hch _).1.mp hc))
    · rw [(hch _).2] at hc
      cases hc
    · rw [hx] at hf
      cases hf
    · rw [hsh.2]
      refine h.flag ?_
      unfold invEntry at hf
      dsimp only at hf
      split at hf
      · cases hf
      · exact hf

/-- A store to a line held in E. -/
theorem silent (h : Agrees n own e child) {c : ℕ} (hc : child c = .E) :
    Agrees n own e (Function.update child c .M) := by
  have hI : ∀ d, Function.update child c .M d ≠ .I ↔ child d ≠ .I := by
    intro d
    by_cases hd : d = c
    · simp [hd, hc]
    · rw [Function.update_of_ne hd]
  have hx : ∀ d, (Function.update child c .M d).exclusive = (child d).exclusive := by
    intro d
    by_cases hd : d = c
    · simp [hd, hc]
    · rw [Function.update_of_ne hd]
  exact ⟨fun d => (h.sharers_iff d).trans (hI d).symm, h.sharers_lt, h.count,
    fun d hd => h.valid d ((hI d).mp hd), fun d hd => h.exclusive_up d (hx d ▸ hd),
    fun he d hd => (hx d).trans (h.exclusive_down he d hd), h.flag⟩

/-- INVX at the exclusive sharer alone. -/
theorem downgrade (h : Agrees n own e child) (he : e.isExclusive = true) {c : ℕ}
    (hc : e.sharers c = true) : Agrees n own { e with exclusive := false }
      (Function.update child c (invState .INVX (child c))) := by
  have hx := h.exclusive_down he c hc
  have hentry : invEntry .INVX e = { e with exclusive := false } := if_pos he
  have hchild : (fun d => invState .INVX (child d)) =
      Function.update child c (invState .INVX (child c)) := by
    funext d
    by_cases hd : d = c
    · simp [hd]
    · rw [Function.update_of_ne hd, h.others_I hx hd, invState_I]
  rw [← hentry, ← hchild]
  refine (h.inv .INVX).changeOwn (fun d hd => ?_) fun d hd => ?_
  · refine h.valid d fun hI => hd ?_
    rw [hI, invState_I]
  · exact (h.exclusive_up c hx).1

end Agrees

end Zsim.MESIDirectory
