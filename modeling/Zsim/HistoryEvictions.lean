import Zsim.GuardedRuns
import Zsim.HitHistory

/-!
# Which entry the hit history table evicts

The recencies rise when another entry is inserted and fall when their own is
inserted, but neither a search nor a pushed hit count touches them. They order
the entries by their insertion, so the victim is the entry inserted first; it
is the one used least recently only if no later hit has made it younger.
-/

namespace Zsim.HistoryEvictions

open MemoryHierarchy HitHistory GuardedRuns

/-- The calls of the table's methods. -/
inductive TableOp where
  /-- `searchHHT`, for a block that is filled. -/
  | search (lineAddr : Address)
  /-- `updateHHT`, with the hit count of the line. -/
  | enter (lineAddr : Address) (hits : ℕ)

/-- A table with the times of its insertions and uses. -/
structure TracedTable where
  table : Table ℕ
  inserted : ℕ → Fin 16 → ℕ
  used : ℕ → Fin 16 → ℕ
  clock : ℕ

/-- Record a time for one way of an index. -/
def stamp (times : ℕ → Fin 16 → ℕ) (index : ℕ) (way : Fin 16) (clock : ℕ) : ℕ → Fin 16 → ℕ :=
  Function.update times index (Function.update (times index) way clock)

namespace TracedTable

/-- The table as allocated. -/
def init : TracedTable := ⟨empty, fun _ _ => 0, fun _ _ => 0, 0⟩

/-- The way of an address, if the table holds it. -/
def found (t : TracedTable) (lineAddr : Address) : Option (Fin 16) :=
  searchHHT t.table (tagOf lineAddr) (indexOf lineAddr)

/-- A way that is found is used. -/
def use (t : TracedTable) (lineAddr : Address) : ℕ → Fin 16 → ℕ :=
  match t.found lineAddr with
  | some way => stamp t.used (indexOf lineAddr) way t.clock
  | none => t.used

/-- An address that is not found is inserted in the way of the victim. -/
def insertAt (t : TracedTable) (times : ℕ → Fin 16 → ℕ) (lineAddr : Address) : ℕ → Fin 16 → ℕ :=
  match t.found lineAddr, victimWay (t.table (indexOf lineAddr)) with
  | none, some victim => stamp times (indexOf lineAddr) victim t.clock
  | _, _ => times

/-- One call. -/
def step (t : TracedTable) : TableOp → Option TracedTable
  | .search lineAddr => some { t with used := t.use lineAddr, clock := t.clock + 1 }
  | .enter lineAddr hits => some
    { table := updateHHT t.table lineAddr hits
      inserted := t.insertAt t.inserted lineAddr
      used := t.insertAt (t.use lineAddr) lineAddr
      clock := t.clock + 1 }

/-- The call inserts an entry though every way of its index is valid. -/
def Evicts (t : TracedTable) (op : TableOp) (index : ℕ) : Prop :=
  ∃ lineAddr hits, op = .enter lineAddr hits ∧ index = indexOf lineAddr ∧
    t.found lineAddr = none ∧ ∀ way, (t.table index way).valid = true

/-- The way that is overwritten was used least recently. -/
def EvictsLRU (t : TracedTable) (op : TableOp) : Prop :=
  ∀ index, t.Evicts op index → ∀ victim, victimWay (t.table index) = some victim →
    ∀ way, t.used index victim ≤ t.used index way

/-- The entry that was inserted first was used least recently. -/
def FirstInUsedLeast (t : TracedTable) (op : TableOp) : Prop :=
  ∀ index, t.Evicts op index → ∀ way, (∀ way', t.inserted index way ≤ t.inserted index way') →
    ∀ way', t.used index way ≤ t.used index way'

end TracedTable

open TracedTable

/-- The recencies order the entries of an index by their insertion. -/
structure Ordered (ways : Ways ℕ) (inserted : Fin 16 → ℕ) (clock : ℕ) : Prop where
  queued : Queued ways
  past : ∀ way, (ways way).valid = true → inserted way < clock
  order : ∀ way way', (ways way).valid = true → (ways way').valid = true →
    (ways way).lruRecency < (ways way').lruRecency → inserted way' < inserted way

section Order

variable {ways ways' : Ways ℕ} {inserted : Fin 16 → ℕ} {clock tag hits : ℕ} {victim : Fin 16}

/-- What an insertion does to the recencies. -/
theorem addHHTEntry_recency (h : Queued ways) (hvictim : victimWay ways = some victim) :
    (addHHTEntry ways tag hits victim).lruRecency = 0 ∧ ∀ way, way ≠ victim →
      (addHHTEntry ways tag hits way).valid = (ways way).valid ∧ ((ways way).valid = true →
        (addHHTEntry ways tag hits way).lruRecency = (ways way).lruRecency + 1) := by
  constructor
  · simp only [addHHTEntry, hvictim, if_true]
  · intro way hway
    simp only [addHHTEntry, hvictim, if_neg hway]
    by_cases hvalid : (ways way).valid = true
    · have hlt := h.lt way hvalid
      have hcard : (validWays ways).card ≤ 16 := (Finset.card_le_univ _).trans_eq (Fintype.card_fin 16)
      simp only [if_pos hvalid]
      exact ⟨trivial, fun _ => Nat.mod_eq_of_lt (by omega)⟩
    · simp only [if_neg hvalid]
      exact ⟨trivial, fun htrue => absurd htrue hvalid⟩

/-- An insertion puts its entry at the young end. -/
theorem Ordered.addHHTEntry (h : Ordered ways inserted clock) (hvictim : victimWay ways = some victim) :
    Ordered (addHHTEntry ways tag hits) (Function.update inserted victim clock) (clock + 1) := by
  obtain ⟨hzero, hrise⟩ := @addHHTEntry_recency ways tag hits victim h.queued hvictim
  have hpast : ∀ way, way ≠ victim → (HitHistory.addHHTEntry ways tag hits way).valid = true →
      inserted way < clock := fun way hway hvalid => h.past way ((hrise way hway).1 ▸ hvalid)
  refine ⟨h.queued.addHHTEntry, fun way hvalid => ?_, fun way way' hvalid hvalid' hlt => ?_⟩
  · by_cases hway : way = victim
    · rw [hway, Function.update_self]
      exact Nat.lt_succ_self clock
    · rw [Function.update_of_ne hway]
      exact (hpast way hway hvalid).trans (Nat.lt_succ_self clock)
  · by_cases hway' : way' = victim
    · rw [hway', hzero] at hlt
      exact absurd hlt (Nat.not_lt_zero _)
    · rw [Function.update_of_ne hway']
      by_cases hway : way = victim
      · rw [hway, Function.update_self]
        exact hpast way' hway' hvalid'
      · obtain ⟨hsame, hrec⟩ := hrise way hway
        obtain ⟨hsame', hrec'⟩ := hrise way' hway'
        rw [hsame] at hvalid
        rw [hsame'] at hvalid'
        rw [hrec hvalid, hrec' hvalid'] at hlt
        rw [Function.update_of_ne hway]
        exact h.order way way' hvalid hvalid' (by omega)

/-- A use leaves the order alone. -/
theorem Ordered.congr (h : Ordered ways inserted clock) (hsame : ∀ way,
    (ways' way).valid = (ways way).valid ∧ (ways' way).lruRecency = (ways way).lruRecency) :
    Ordered ways' inserted (clock + 1) := by
  refine ⟨h.queued.congr hsame, fun way hvalid => ?_, fun way way' hvalid hvalid' hlt => ?_⟩
  · have hpast := h.past way ((hsame way).1 ▸ hvalid)
    omega
  · rw [(hsame way).2, (hsame way').2] at hlt
    exact h.order way way' ((hsame way).1 ▸ hvalid) ((hsame way').1 ▸ hvalid') hlt

/-- Among valid ways the victim is the one inserted first, and no other is. -/
theorem Ordered.victim_iff (h : Ordered ways inserted clock) (hall : ∀ way, (ways way).valid = true)
    (way : Fin 16) : victimWay ways = some way ↔ ∀ way', inserted way ≤ inserted way' := by
  obtain ⟨victim, hvictim, hcase⟩ := h.queued.victim
  have hmax : ∀ way', (ways way').lruRecency ≤ (ways victim).lruRecency := by
    cases hcase with
    | inl hinvalid => exact nomatch hinvalid.symm.trans (hall victim)
    | inr hvalid => exact hvalid.2
  have hfirst : ∀ way', way' ≠ victim → inserted victim < inserted way' := by
    intro way' hway'
    have hne : (ways way').lruRecency ≠ (ways victim).lruRecency := fun heq =>
      hway' (h.queued.unique way' victim (hall way') (hall victim) heq)
    exact h.order way' victim (hall way') (hall victim) (lt_of_le_of_ne (hmax way') hne)
  rw [hvictim, Option.some.injEq]
  constructor
  · intro heq way'
    by_cases hway' : way' = victim
    · rw [← heq, hway']
    · rw [← heq]
      exact (hfirst way' hway').le
  · intro hleast
    by_contra hne
    have hlt := hfirst way (Ne.symm hne)
    have hle := hleast victim
    omega

end Order

section Runs

variable {t t' : TracedTable} {op : TableOp}

/-- The other indices are left alone. -/
theorem insertAt_of_ne {times : ℕ → Fin 16 → ℕ} {lineAddr : Address} {index : ℕ}
    (h : index ≠ indexOf lineAddr) : t.insertAt times lineAddr index = times index := by
  unfold insertAt stamp
  cases t.found lineAddr with
  | some way => rfl
  | none =>
    cases victimWay (t.table (indexOf lineAddr)) with
    | none => rfl
    | some victim => exact Function.update_of_ne h ..

/-- Every index is in order. -/
def AllOrdered (t : TracedTable) : Prop := ∀ index, Ordered (t.table index) (t.inserted index) t.clock

theorem allOrdered_init : AllOrdered .init := fun index => ⟨queued_empty index, nofun, nofun⟩

/-- A call keeps the order. -/
theorem AllOrdered.step (h : AllOrdered t) (hstep : t.step op = some t') : AllOrdered t' := by
  intro index
  cases op with
  | search lineAddr =>
    cases hstep
    exact (h index).congr fun _ => ⟨rfl, rfl⟩
  | enter lineAddr hits =>
    cases hstep
    dsimp only [updateHHT]
    by_cases hindex : index = indexOf lineAddr
    · subst hindex
      rw [Function.update_self]
      cases hfound : t.found lineAddr with
      | some way =>
        simp only [insertAt, hfound]
        rw [TracedTable.found] at hfound
        rw [hfound]
        dsimp only
        refine (h (indexOf lineAddr)).congr fun way' => ?_
        by_cases hway : way' = way
        · rw [hway, Function.update_self]
          exact ⟨rfl, rfl⟩
        · rw [Function.update_of_ne hway]
          exact ⟨rfl, rfl⟩
      | none =>
        obtain ⟨victim, hvictim, -⟩ := (h (indexOf lineAddr)).queued.victim
        simp only [insertAt, hfound, hvictim, stamp, Function.update_self]
        rw [TracedTable.found] at hfound
        rw [hfound]
        exact (h (indexOf lineAddr)).addHHTEntry hvictim
    · rw [Function.update_of_ne hindex]
      rw [insertAt_of_ne hindex]
      exact (h index).congr fun _ => ⟨rfl, rfl⟩

/-- The victim was used least recently at every eviction of a run exactly when,
at every eviction, the entry inserted first was. -/
theorem evictsLRU_iff (ops : List TableOp) :
    EveryStep TracedTable.step (fun t op _ => t.EvictsLRU op) .init ops ↔
      EveryStep TracedTable.step (fun t op _ => t.FirstInUsedLeast op) .init ops := by
  have hiff : ∀ t op t', AllOrdered t → t.step op = some t' → (t.EvictsLRU op ↔ t.FirstInUsedLeast op) := by
    intro t op t' h _
    refine forall_congr' fun index => forall_congr' fun hevicts => forall_congr' fun way => ?_
    obtain ⟨lineAddr, hits, -, -, -, hall⟩ := hevicts
    rw [(h index).victim_iff hall way]
  have hinv : ∀ t op t', AllOrdered t → t.FirstInUsedLeast op → t.step op = some t' → AllOrdered t' :=
    fun t op t' h _ hstep => h.step hstep
  exact everyStep_iff hiff hinv allOrdered_init

/-- Sixteen entries of one index, in the order of their tags. -/
def sixteen : List TableOp := (List.range 16).map fun tag => .enter (tag * 2 ^ 13) 0

/-- The entry inserted first is found by a later search, and is evicted though
the entry of the second way has not been used since before. -/
theorem recently_used_evicted : ¬ EveryStep TracedTable.step (fun t op _ => t.EvictsLRU op) .init
    (sixteen ++ [.search 0] ++ [.enter (16 * 2 ^ 13) 0]) := by
  intro h
  have hstate : (run TracedTable.step .init (sixteen ++ [.search 0])).map (fun t =>
      (t.found (16 * 2 ^ 13), decide (∀ way, (t.table 0 way).valid = true), victimWay (t.table 0),
        t.used 0 0, t.used 0 1)) = some (none, true, some 0, 16, 1) := by decide +kernel
  obtain ⟨t, hrun, ht⟩ := Option.map_eq_some_iff.mp hstate
  simp only [Prod.mk.injEq, decide_eq_true_eq] at ht
  obtain ⟨hfound, hall, hvictim, hused, hother⟩ := ht
  have hlru := h.at hrun (rfl : t.step (.enter (16 * 2 ^ 13) 0) = some _)
  have hindex : 0 = indexOf (16 * 2 ^ 13) := by decide
  have hle := hlru 0 ⟨_, _, rfl, hindex, hfound, hall⟩ 0 hvictim 1
  omega

end Runs

end Zsim.HistoryEvictions
