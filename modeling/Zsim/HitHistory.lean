import Mathlib.Algebra.Order.Ring.Int
import Zsim.MemoryHierarchy
import Mathlib.Data.Fin.VecNotation
import Mathlib.Data.Finset.Card
import Mathlib.Data.Fintype.Card
import Mathlib.Logic.Function.Basic
import Mathlib.Tactic.FinCases

/-!
# The hit history table

Sixteen ways for each of 128 indices, found by a tag, keep the last four hit
counts of the blocks of one address. The counts can be of any type: the policy
stores numbers, its history stores where each number comes from, and the table
treats both alike. The recencies make the ways of an index a queue, so a victim
is always found and no recency overflows.
-/

namespace Zsim.HitHistory

open MemoryHierarchy

variable {β γ : Type}

/-- The queue of hit counts has four places, numbered from 0. -/
scoped instance hitCountQueue_ne_zero : NeZero 4 := ⟨by decide⟩

/-- `HHTEntry`. -/
structure HHTEntry (β : Type) where
  valid : Bool
  tag : ℕ
  lruRecency : ℕ
  hitCountQueue : Fin 4 → β

/-- The ways of one index. -/
abbrev Ways (β : Type) := Fin 16 → HHTEntry β

/-- `HHT`. -/
abbrev Table (β : Type) := ℕ → Ways β

/-- The bits of a line address kept as tag. -/
def tagOf (lineAddr : Address) : ℕ := (lineAddr >>> 13) &&& 0xFFFFF

/-- The bits of a line address that select the ways. -/
def indexOf (lineAddr : Address) : ℕ := (lineAddr >>> 6) &&& 0x7F

/-- `searchHHT`: the way that holds the tag. -/
def searchHHT (table : Table β) (tag index : ℕ) : Option (Fin 16) :=
  (List.finRange 16).find? fun way => (table index way).valid && (table index way).tag == tag

/-- The loop that chooses the victim: the first invalid way, or the first of
the greatest recency above `maxLRU`. -/
def victimLoop (ways : Ways β) : List (Fin 16) → Option (Fin 16) → ℕ → Option (Fin 16)
  | [], victimWay, _ => victimWay
  | way :: l, victimWay, maxLRU =>
    if (ways way).valid = false then some way
    else if maxLRU < (ways way).lruRecency then victimLoop ways l (some way) (ways way).lruRecency
    else victimLoop ways l victimWay maxLRU

/-- `victimWay`, none for -1. -/
def victimWay (ways : Ways β) : Option (Fin 16) := victimLoop ways (List.finRange 16) none 0

variable [Zero β] [Zero γ]

/-- The table as allocated. -/
def empty : Table β := fun _ _ => ⟨false, 0, 0, fun _ => 0⟩

/-- `addHHTEntry`. Without a victim the source writes outside the table; no
run of the policy gets there. -/
def addHHTEntry (ways : Ways β) (tag : ℕ) (currentHitCount : β) : Ways β :=
  match victimWay ways with
  | none => ways
  | some victim => fun way =>
    if way = victim then ⟨true, tag, 0, ![currentHitCount, 0, 0, 0]⟩
    else if (ways way).valid = true then
      { ways way with lruRecency := ((ways way).lruRecency + 1) % 256 }
    else ways way

omit [Zero β] in
/-- Shift the queue and put a hit count at its front. -/
def HHTEntry.push (entry : HHTEntry β) (hits : β) : HHTEntry β :=
  { entry with hitCountQueue := ![hits, entry.hitCountQueue 0, entry.hitCountQueue 1,
      entry.hitCountQueue 2] }

/-- `updateHHT`, with the hit count of the line. -/
def updateHHT (table : Table β) (lineAddress : Address) (hits : β) : Table β :=
  let tag := tagOf lineAddress
  let index := indexOf lineAddress
  Function.update table index
    (match searchHHT table tag index with
    | none => addHHTEntry (table index) tag hits
    | some way => Function.update (table index) way ((table index way).push hits))

section Search

variable {table : Table β} {tag index : ℕ} {way : Fin 16} {a b : Address}

omit [Zero β] in
theorem searchHHT_some (h : searchHHT table tag index = some way) :
    (table index way).valid = true ∧ (table index way).tag = tag := by
  have hway := List.find?_some h
  simpa using hway

theorem tagOf_eq (a : Address) : tagOf a = a / 2 ^ 6 / 2 ^ 7 % 2 ^ 20 := by
  rw [tagOf, show 0xFFFFF = 2 ^ 20 - 1 from rfl, Nat.and_two_pow_sub_one_eq_mod,
    show 13 = 6 + 7 from rfl, Nat.shiftRight_add, Nat.shiftRight_eq_div_pow,
    Nat.shiftRight_eq_div_pow]

theorem indexOf_eq (a : Address) : indexOf a = a / 2 ^ 6 % 2 ^ 7 := by
  rw [indexOf, show 0x7F = 2 ^ 7 - 1 from rfl, Nat.and_two_pow_sub_one_eq_mod,
    Nat.shiftRight_eq_div_pow]

/-- Tag and index are bits 6 to 32 of the line address. -/
theorem same_key_iff : tagOf a = tagOf b ∧ indexOf a = indexOf b ↔
    a / 2 ^ 6 % 2 ^ 27 = b / 2 ^ 6 % 2 ^ 27 := by
  have hsplit : ∀ x y : ℕ, x / 2 ^ 7 % 2 ^ 20 = y / 2 ^ 7 % 2 ^ 20 ∧ x % 2 ^ 7 = y % 2 ^ 7 ↔
      x % 2 ^ 27 = y % 2 ^ 27 := by
    intro x y
    omega
  rw [tagOf_eq, tagOf_eq, indexOf_eq, indexOf_eq]
  exact hsplit _ _

end Search

section Update

variable {table : Table β} {a : Address} {hits : β} {ways : Ways β}

/-- A property of every queue element together with the key it is kept under. -/
def Everywhere (P : ℕ → ℕ → β → Prop) (table : Table β) : Prop :=
  ∀ index way i, P index (table index way).tag ((table index way).hitCountQueue i)

/-- A property of the queue elements of some ways. -/
theorem addHHTEntry_elements {P : ℕ → β → Prop} (h0 : ∀ tag, P tag 0) {tag : ℕ}
    (h : ∀ way i, P (ways way).tag ((ways way).hitCountQueue i)) (hhits : P tag hits)
    (way : Fin 16) (i : Fin 4) :
    P (addHHTEntry ways tag hits way).tag ((addHHTEntry ways tag hits way).hitCountQueue i) := by
  unfold addHHTEntry
  cases victimWay ways with
  | none => exact h way i
  | some victim =>
    dsimp only
    split
    · fin_cases i
      · exact hhits
      all_goals exact h0 tag
    · split
      · exact h way i
      · exact h way i

/-- What holds of the pushed count and of the initial one holds everywhere. -/
theorem everywhere_updateHHT {P : ℕ → ℕ → β → Prop} (h0 : ∀ index tag, P index tag 0)
    (h : Everywhere P table) (hhits : P (indexOf a) (tagOf a) hits) :
    Everywhere P (updateHHT table a hits) := by
  intro index way i
  by_cases hindex : index = indexOf a
  · subst hindex
    simp only [updateHHT, Function.update_self]
    cases hs : searchHHT table (tagOf a) (indexOf a) with
    | none => exact addHHTEntry_elements (h0 _) (h _) hhits way i
    | some found =>
      dsimp only
      by_cases hway : way = found
      · subst hway
        obtain ⟨-, htag⟩ := searchHHT_some hs
        rw [Function.update_self]
        fin_cases i
        · exact htag ▸ hhits
        all_goals exact h (indexOf a) way _
      · rw [Function.update_of_ne hway]
        exact h (indexOf a) way i
  · simp only [updateHHT, Function.update_of_ne hindex]
    exact h index way i

omit [Zero β] in
theorem Everywhere.found {P : ℕ → ℕ → β → Prop} (h : Everywhere P table) {way : Fin 16}
    (hs : searchHHT table (tagOf a) (indexOf a) = some way) (i : Fin 4) :
    P (indexOf a) (tagOf a) ((table (indexOf a) way).hitCountQueue i) :=
  (searchHHT_some hs).2 ▸ h (indexOf a) way i

end Update

section Values

variable (f : β → γ)

omit [Zero β] [Zero γ] in
/-- The entry with other values for its counts. -/
def HHTEntry.map (entry : HHTEntry β) : HHTEntry γ :=
  { entry with hitCountQueue := f ∘ entry.hitCountQueue }

omit [Zero β] [Zero γ] in
/-- The table with other values for its counts. -/
def mapTable (table : Table β) : Table γ := fun index way => (table index way).map f

omit [Zero β] [Zero γ] in
@[simp] theorem HHTEntry.map_valid (entry : HHTEntry β) : (entry.map f).valid = entry.valid := rfl

omit [Zero β] [Zero γ] in
@[simp] theorem HHTEntry.map_lruRecency (entry : HHTEntry β) :
    (entry.map f).lruRecency = entry.lruRecency := rfl

omit [Zero β] [Zero γ] in
theorem HHTEntry.map_push (entry : HHTEntry β) (hits : β) :
    (entry.push hits).map f = (entry.map f).push (f hits) := by
  simp only [HHTEntry.map, HHTEntry.push, HHTEntry.mk.injEq, true_and]
  funext i
  fin_cases i <;> rfl

omit [Zero β] [Zero γ] in
theorem searchHHT_map (table : Table β) (tag index : ℕ) :
    searchHHT (mapTable f table) tag index = searchHHT table tag index := rfl

omit [Zero β] [Zero γ] in
theorem victimLoop_map (ways : Ways β) (l : List (Fin 16)) (victim : Option (Fin 16))
    (maxLRU : ℕ) :
    victimLoop (fun way => (ways way).map f) l victim maxLRU = victimLoop ways l victim maxLRU := by
  induction l generalizing victim maxLRU with
  | nil => rfl
  | cons way l ih => simp only [victimLoop, HHTEntry.map_valid, HHTEntry.map_lruRecency, ih]

theorem addHHTEntry_map (hf : f 0 = 0) (ways : Ways β) (tag : ℕ) (hits : β) :
    addHHTEntry (fun way => (ways way).map f) tag (f hits) =
      fun way => (addHHTEntry ways tag hits way).map f := by
  unfold addHHTEntry
  rw [victimWay, victimLoop_map, ← victimWay]
  cases victimWay ways with
  | none => rfl
  | some victim =>
    funext way
    dsimp only
    by_cases hway : way = victim
    · simp only [if_pos hway, HHTEntry.map, HHTEntry.mk.injEq, true_and]
      funext i
      fin_cases i
      · rfl
      all_goals exact hf.symm
    · rw [if_neg hway, if_neg hway, apply_ite (HHTEntry.map f)]
      rfl

/-- Entering a count commutes with replacing the values. -/
theorem updateHHT_map (hf : f 0 = 0) (table : Table β) (a : Address) (hits : β) :
    updateHHT (mapTable f table) a (f hits) = mapTable f (updateHHT table a hits) := by
  funext index way
  by_cases hindex : index = indexOf a
  · subst hindex
    simp only [updateHHT, searchHHT_map, mapTable, Function.update_self]
    cases searchHHT table (tagOf a) (indexOf a) with
    | none => exact congrFun (addHHTEntry_map f hf _ _ _) way
    | some found =>
      dsimp only
      by_cases hway : way = found
      · subst hway
        rw [Function.update_self, Function.update_self, HHTEntry.map_push]
      · rw [Function.update_of_ne hway, Function.update_of_ne hway]
        rfl
  · simp only [updateHHT, mapTable, Function.update_of_ne hindex]

end Values

section Queue

variable {ways : Ways β} {tag : ℕ} {hits : β}

omit [Zero β] in
/-- The valid ways. -/
def validWays (ways : Ways β) : Finset (Fin 16) := Finset.univ.filter fun way => (ways way).valid

omit [Zero β] in
/-- The recencies number the valid ways in the order they were entered. -/
structure Queued (ways : Ways β) : Prop where
  lt : ∀ way, (ways way).valid = true → (ways way).lruRecency < (validWays ways).card
  unique : ∀ way way', (ways way).valid = true → (ways way').valid = true →
    (ways way).lruRecency = (ways way').lruRecency → way = way'

theorem queued_empty (index : ℕ) : Queued ((empty : Table β) index) := ⟨nofun, nofun⟩

omit [Zero β] in
/-- The loop ends at an invalid way, or at the way of the greatest recency if
that exceeds the one it started with. -/
theorem victimLoop_spec (l : List (Fin 16)) (victim : Option (Fin 16)) (maxLRU : ℕ) :
    (∃ way, (ways way).valid = false ∧ victimLoop ways l victim maxLRU = some way) ∨
    (∀ way ∈ l, (ways way).valid = true) ∧
      ((victimLoop ways l victim maxLRU = victim ∧ ∀ way ∈ l, (ways way).lruRecency ≤ maxLRU) ∨
        ∃ way ∈ l, victimLoop ways l victim maxLRU = some way ∧ maxLRU < (ways way).lruRecency ∧
          ∀ way' ∈ l, (ways way').lruRecency ≤ (ways way).lruRecency) := by
  induction l generalizing victim maxLRU with
  | nil => exact .inr ⟨nofun, .inl ⟨rfl, nofun⟩⟩
  | cons way l ih =>
    simp only [victimLoop]
    by_cases hvalid : (ways way).valid = false
    · exact .inl ⟨way, hvalid, if_pos hvalid⟩
    · rw [if_neg hvalid]
      rw [Bool.not_eq_false] at hvalid
      by_cases hlt : maxLRU < (ways way).lruRecency
      · rw [if_pos hlt]
        rcases ih (some way) (ways way).lruRecency with hinv | ⟨hall, ⟨heq, hle⟩ | hfound⟩
        · exact .inl hinv
        · exact .inr ⟨List.forall_mem_cons.mpr ⟨hvalid, hall⟩, .inr ⟨way, List.mem_cons_self, heq,
            hlt, List.forall_mem_cons.mpr ⟨le_rfl, hle⟩⟩⟩
        · obtain ⟨way', hmem, heq, hgt, hle⟩ := hfound
          exact .inr ⟨List.forall_mem_cons.mpr ⟨hvalid, hall⟩, .inr ⟨way', List.mem_cons_of_mem _ hmem,
            heq, hlt.trans hgt, List.forall_mem_cons.mpr ⟨hgt.le, hle⟩⟩⟩
      · rw [if_neg hlt]
        rw [not_lt] at hlt
        rcases ih victim maxLRU with hinv | ⟨hall, ⟨heq, hle⟩ | hfound⟩
        · exact .inl hinv
        · exact .inr ⟨List.forall_mem_cons.mpr ⟨hvalid, hall⟩,
            .inl ⟨heq, List.forall_mem_cons.mpr ⟨hlt, hle⟩⟩⟩
        · obtain ⟨way', hmem, heq, hgt, hle⟩ := hfound
          exact .inr ⟨List.forall_mem_cons.mpr ⟨hvalid, hall⟩, .inr ⟨way', List.mem_cons_of_mem _ hmem,
            heq, hgt, List.forall_mem_cons.mpr ⟨hlt.trans hgt.le, hle⟩⟩⟩

omit [Zero β] in
/-- There is always a victim: an invalid way, or the one entered first. -/
theorem Queued.victim (h : Queued ways) : ∃ way, victimWay ways = some way ∧
    ((ways way).valid = false ∨ ((∀ way', (ways way').valid = true) ∧
      ∀ way', (ways way').lruRecency ≤ (ways way).lruRecency)) := by
  have hmem := List.mem_finRange (n:=16)
  rcases (victimLoop_spec (List.finRange 16) none 0 : _ ∨ (∀ way ∈ _, (ways way).valid = true) ∧ _) with
    ⟨way, hinv, heq⟩ | ⟨hall, ⟨-, hle⟩ | ⟨way, -, heq, -, hle⟩⟩
  · exact ⟨way, heq, .inl hinv⟩
  · have hzero : ∀ way, (ways way).lruRecency = 0 := fun way => Nat.le_zero.mp (hle way (hmem way))
    have h01 := h.unique 0 1 (hall 0 (hmem 0)) (hall 1 (hmem 1)) ((hzero 0).trans (hzero 1).symm)
    exact absurd h01 (by decide)
  · exact ⟨way, heq, .inr ⟨fun w => hall w (hmem w), fun w => hle w (hmem w)⟩⟩

/-- A new entry keeps the ways a queue, and no recency overflows. -/
theorem Queued.addHHTEntry (h : Queued ways) : Queued (addHHTEntry ways tag hits) := by
  obtain ⟨victim, hvictim, hcase⟩ := h.victim
  obtain ⟨ways', hways'⟩ : ∃ ways', ways' = HitHistory.addHHTEntry ways tag hits := ⟨_, rfl⟩
  rw [← hways']
  have hself : ways' victim = ⟨true, tag, 0, ![hits, 0, 0, 0]⟩ := by
    simp only [hways', HitHistory.addHHTEntry, hvictim, if_true]
  have hother : ∀ way, way ≠ victim → (ways' way).valid = (ways way).valid ∧
      ((ways way).valid = true →
        (ways' way).lruRecency = ((ways way).lruRecency + 1) % 256) := by
    intro way hway
    simp only [hways', HitHistory.addHHTEntry, hvictim, if_neg hway]
    by_cases hvalid : (ways way).valid = true
    · simp [hvalid]
    · simp [hvalid]
  have hset : validWays ways' = insert victim (validWays ways) := by
    ext way
    by_cases hway : way = victim
    · simp [validWays, hway, hself]
    · simp [validWays, hway, (hother way hway).1]
  have hcard : (validWays ways').card ≤ 16 := (Finset.card_le_univ _).trans_eq (Fintype.card_fin 16)
  -- the recencies that rise stay below the new number of ways
  have hrise : ∀ way, way ≠ victim → (ways way).valid = true →
      (ways way).lruRecency + 1 < (validWays ways').card := by
    intro way hway hvalid
    rw [hset]
    rcases hcase with hinvalid | ⟨hall, hmax⟩
    · rw [Finset.card_insert_of_notMem (by simp [validWays, hinvalid])]
      exact Nat.succ_lt_succ (h.lt way hvalid)
    · have hne : (ways way).lruRecency ≠ (ways victim).lruRecency := fun heq =>
        hway (h.unique way victim hvalid (hall victim) heq)
      have hle := hmax way
      have hlt := h.lt victim (hall victim)
      rw [Finset.insert_eq_of_mem (by simp [validWays, hall])]
      omega
  have hrecency : ∀ way, way ≠ victim → (ways' way).valid = true → (ways way).valid = true ∧
      (ways' way).lruRecency = (ways way).lruRecency + 1 := by
    intro way hway hvalid
    obtain ⟨hsame, hstep⟩ := hother way hway
    rw [hsame] at hvalid
    have hlt := hrise way hway hvalid
    exact ⟨hvalid, by rw [hstep hvalid, Nat.mod_eq_of_lt (by omega)]⟩
  refine ⟨fun way hvalid => ?_, fun way way' hvalid hvalid' heq => ?_⟩
  · by_cases hway : way = victim
    · subst hway
      rw [hself]
      exact Finset.card_pos.mpr ⟨way, by simp [hset]⟩
    · obtain ⟨hold, hrec⟩ := hrecency way hway hvalid
      exact hrec ▸ hrise way hway hold
  · by_cases hway : way = victim
    · by_cases hway' : way' = victim
      · rw [hway, hway']
      · obtain ⟨-, hrec⟩ := hrecency way' hway' hvalid'
        rw [hrec, hway, hself] at heq
        cases heq
    · obtain ⟨hold, hrec⟩ := hrecency way hway hvalid
      by_cases hway' : way' = victim
      · rw [hrec, hway', hself] at heq
        cases heq
      · obtain ⟨hold', hrec'⟩ := hrecency way' hway' hvalid'
        exact h.unique way way' hold hold' (by omega)

omit [Zero β] in
theorem Queued.congr (h : Queued ways) {ways' : Ways β} (hsame : ∀ way,
    (ways' way).valid = (ways way).valid ∧ (ways' way).lruRecency = (ways way).lruRecency) :
    Queued ways' := by
  have hset : validWays ways' = validWays ways := by
    ext way
    simp [validWays, (hsame way).1]
  refine ⟨fun way hvalid => ?_, fun way way' hvalid hvalid' heq => ?_⟩
  · rw [hset, (hsame way).2]
    exact h.lt way ((hsame way).1 ▸ hvalid)
  · rw [(hsame way).2, (hsame way').2] at heq
    exact h.unique way way' ((hsame way).1 ▸ hvalid) ((hsame way').1 ▸ hvalid') heq

/-- Every index stays a queue. -/
theorem Queued.updateHHT {table : Table β} (h : ∀ index, Queued (table index)) (a : Address)
    (index : ℕ) : Queued (updateHHT table a hits index) := by
  by_cases hindex : index = indexOf a
  · subst hindex
    simp only [HitHistory.updateHHT, Function.update_self]
    cases searchHHT table (tagOf a) (indexOf a) with
    | none => exact (h (indexOf a)).addHHTEntry
    | some found =>
      dsimp only
      refine (h (indexOf a)).congr fun way => ?_
      by_cases hway : way = found
      · subst hway
        rw [Function.update_self]
        exact ⟨rfl, rfl⟩
      · rw [Function.update_of_ne hway]
        exact ⟨rfl, rfl⟩
  · simp only [HitHistory.updateHHT, Function.update_of_ne hindex]
    exact h index

/-- An address that has been entered is found. -/
theorem searchHHT_updateHHT {table : Table β} {a : Address} (h : Queued (table (indexOf a))) :
    ∃ way, searchHHT (HitHistory.updateHHT table a hits) (tagOf a) (indexOf a) = some way := by
  have hway : ∃ way, (HitHistory.updateHHT table a hits (indexOf a) way).valid = true ∧
      (HitHistory.updateHHT table a hits (indexOf a) way).tag = tagOf a := by
    simp only [HitHistory.updateHHT, Function.update_self]
    cases hs : searchHHT table (tagOf a) (indexOf a) with
    | none =>
      obtain ⟨victim, hvictim, -⟩ := h.victim
      refine ⟨victim, ?_⟩
      simp [HitHistory.addHHTEntry, hvictim]
    | some found =>
      refine ⟨found, ?_⟩
      simpa [HHTEntry.push] using searchHHT_some hs
  obtain ⟨way, hvalid, htag⟩ := hway
  refine Option.isSome_iff_exists.mp (List.find?_isSome.mpr ⟨way, List.mem_finRange way, ?_⟩)
  simp [hvalid, htag]

end Queue

end Zsim.HitHistory
