import Zsim.HitHistory
import Mathlib.Data.Set.Function

/-!
# The hit history table over whole runs

Whatever counts are entered for whatever addresses, the valid ways of an index
come first, hold different tags, and are numbered without gaps by their
recencies. So the recencies stay within the four bits they are meant for, and
the search for the greatest one never starts from sixteen zeros: it always ends
with a victim.
-/

namespace Zsim.HistoryQueues

open MemoryHierarchy HitHistory

variable {β : Type} {ways : Ways β}

/-- What every update keeps of the ways of one index. -/
structure Arranged (ways : Ways β) : Prop where
  queued : Queued ways
  /-- Invalid ways form a suffix. -/
  suffix : ∀ way way', way ≤ way' → (ways way').valid = true → (ways way).valid = true
  tags : ∀ way way', (ways way).valid = true → (ways way').valid = true →
    (ways way).tag = (ways way').tag → way = way'

/-- The loop stops at the first invalid way, if there is one. -/
theorem victimLoop_invalid (l : List (Fin 16)) (victim : Option (Fin 16)) (maxLRU : ℕ)
    (h : ∃ way ∈ l, (ways way).valid = false) :
    victimLoop ways l victim maxLRU = l.find? fun way => !(ways way).valid := by
  induction l generalizing victim maxLRU with
  | nil =>
    obtain ⟨way, hmem, -⟩ := h
    cases hmem
  | cons way l ih =>
    rw [victimLoop, List.find?_cons]
    cases hvalid : (ways way).valid with
    | false => rfl
    | true =>
      obtain ⟨way', hmem, hinvalid⟩ := h
      have hmem : way' ∈ l := by
        rcases List.mem_cons.mp hmem with rfl | hmem
        · rw [hvalid] at hinvalid
          cases hinvalid
        · exact hmem
      simp only [Bool.true_eq_false, if_false, Bool.not_true]
      split
      · exact ih _ _ ⟨way', hmem, hinvalid⟩
      · exact ih _ _ ⟨way', hmem, hinvalid⟩

/-- Every way before the victim is valid. -/
theorem valid_of_lt_victim {victim way : Fin 16} (hvictim : victimWay ways = some victim)
    (hway : way < victim) (hinvalid : (ways victim).valid = false) : (ways way).valid = true := by
  rw [victimWay, victimLoop_invalid _ _ _ ⟨victim, List.mem_finRange victim, hinvalid⟩] at hvictim
  obtain ⟨-, before, after, hsplit, hbefore⟩ := List.find?_eq_some_iff_append.mp hvictim
  have hsorted := List.pairwise_lt_finRange 16
  rw [hsplit, List.pairwise_append, List.pairwise_cons] at hsorted
  have hmem : way ∈ before ++ victim :: after := hsplit ▸ List.mem_finRange way
  rcases List.mem_append.mp hmem with hmem | hmem
  · simpa using hbefore way hmem
  · rcases List.mem_cons.mp hmem with rfl | hmem
    · exact absurd hway (lt_irrefl way)
    · exact absurd (hsorted.2.1.1 way hmem) (lt_asymm hway)

section Updates

variable [Zero β] {table : Table β} {tag : ℕ} {a : Address} {hits : β}

theorem arranged_empty (index : ℕ) : Arranged ((empty : Table β) index) :=
  ⟨queued_empty index, fun _ _ _ => nofun, nofun⟩

/-- A tag that is not in the set is entered at the first invalid way, or at the
least recent one when all are valid. -/
theorem Arranged.addHHTEntry (h : Arranged ways)
    (hnew : ∀ way, (ways way).valid = true → (ways way).tag ≠ tag) :
    Arranged (addHHTEntry ways tag hits) := by
  obtain ⟨victim, hvictim, hcase⟩ := h.queued.victim
  have hself : HitHistory.addHHTEntry ways tag hits victim = ⟨true, tag, 0, ![hits, 0, 0, 0]⟩ := by
    simp only [HitHistory.addHHTEntry, hvictim, if_true]
  have hother : ∀ way, way ≠ victim →
      (HitHistory.addHHTEntry ways tag hits way).valid = (ways way).valid ∧
      (HitHistory.addHHTEntry ways tag hits way).tag = (ways way).tag := by
    intro way hway
    simp only [HitHistory.addHHTEntry, hvictim, if_neg hway]
    split
    · exact ⟨rfl, rfl⟩
    · exact ⟨rfl, rfl⟩
  refine ⟨h.queued.addHHTEntry, fun way way' hle hvalid' => ?_, fun way way' hvalid hvalid' htag => ?_⟩
  · by_cases hway : way = victim
    · rw [hway, hself]
    · rw [(hother way hway).1]
      by_cases hway' : way' = victim
      · rcases hcase with hinvalid | ⟨hall, -⟩
        · exact valid_of_lt_victim hvictim (lt_of_le_of_ne (hway' ▸ hle) hway) hinvalid
        · exact hall way
      · exact h.suffix way way' hle ((hother way' hway').1 ▸ hvalid')
  · by_cases hway : way = victim
    · by_cases hway' : way' = victim
      · rw [hway, hway']
      · rw [hway, hself, (hother way' hway').2] at htag
        exact absurd htag.symm (hnew way' ((hother way' hway').1 ▸ hvalid'))
    · rw [(hother way hway).1] at hvalid
      by_cases hway' : way' = victim
      · rw [hway', hself, (hother way hway).2] at htag
        exact absurd htag (hnew way hvalid)
      · rw [(hother way hway).2, (hother way' hway').2] at htag
        exact h.tags way way' hvalid ((hother way' hway').1 ▸ hvalid') htag

omit [Zero β] in
/-- Another count of an entry is no matter. -/
theorem Arranged.push (h : Arranged ways) (found : Fin 16) (hits : β) :
    Arranged (Function.update ways found ((ways found).push hits)) := by
  have hsame : ∀ way, (Function.update ways found ((ways found).push hits) way).valid = (ways way).valid ∧
      (Function.update ways found ((ways found).push hits) way).tag = (ways way).tag ∧
      (Function.update ways found ((ways found).push hits) way).lruRecency = (ways way).lruRecency := by
    intro way
    by_cases hway : way = found
    · subst hway
      rw [Function.update_self]
      exact ⟨rfl, rfl, rfl⟩
    · rw [Function.update_of_ne hway]
      exact ⟨rfl, rfl, rfl⟩
  refine ⟨h.queued.congr fun way => ⟨(hsame way).1, (hsame way).2.2⟩, fun way way' hle hvalid' => ?_,
    fun way way' hvalid hvalid' htag => ?_⟩
  · rw [(hsame way).1]
    exact h.suffix way way' hle ((hsame way').1 ▸ hvalid')
  · rw [(hsame way).2.1, (hsame way').2.1] at htag
    exact h.tags way way' ((hsame way).1 ▸ hvalid) ((hsame way').1 ▸ hvalid') htag

/-- One update keeps every index arranged. -/
theorem Arranged.updateHHT (h : ∀ index, Arranged (table index)) (a : Address) (hits : β) (index : ℕ) :
    Arranged (updateHHT table a hits index) := by
  by_cases hindex : index = indexOf a
  · subst hindex
    simp only [HitHistory.updateHHT, Function.update_self]
    cases hsearch : searchHHT table (tagOf a) (indexOf a) with
    | none =>
      refine (h (indexOf a)).addHHTEntry fun way hvalid htag => ?_
      have hnone := List.find?_eq_none.mp hsearch way (List.mem_finRange way)
      simp [hvalid, htag] at hnone
    | some found => exact (h (indexOf a)).push found hits
  · simp only [HitHistory.updateHHT, Function.update_of_ne hindex]
    exact h index

/-- The table after calls of `updateHHT` with these addresses and hit counts. -/
def entered (updates : List (Address × β)) : Table β :=
  updates.foldl (fun table u => updateHHT table u.1 u.2) empty

theorem arranged_entered (updates : List (Address × β)) (index : ℕ) : Arranged (entered updates index) := by
  suffices hrun : ∀ table : Table β, (∀ index, Arranged (table index)) →
      ∀ index, Arranged (updates.foldl (fun table u => HitHistory.updateHHT table u.1 u.2) table index) from
    hrun empty arranged_empty index
  induction updates with
  | nil => exact fun table h => h
  | cons u updates ih => exact fun table h => ih _ (Arranged.updateHHT h u.1 u.2)

end Updates

/-- Recencies that are different and below the number of valid ways are all
numbers below it. -/
theorem Queued.bijOn (h : Queued ways) :
    Set.BijOn (fun way => (ways way).lruRecency) {way | (ways way).valid = true}
      (Set.Iio (validWays ways).card) := by
  have hmaps : Set.MapsTo (fun way => (ways way).lruRecency) (validWays ways)
      (Finset.range (validWays ways).card) := by
    intro way hway
    exact Finset.mem_coe.mpr (Finset.mem_range.mpr (h.lt way (by simpa [validWays] using hway)))
  have hinj : Set.InjOn (fun way => (ways way).lruRecency) (validWays ways) := by
    intro way hway way' hway' heq
    exact h.unique way way' (by simpa [validWays] using hway) (by simpa [validWays] using hway') heq
  have hsurj := Finset.surjOn_of_injOn_of_card_le _ hmaps hinj (Finset.card_range _).le
  have hset : ((validWays ways : Finset (Fin 16)) : Set (Fin 16)) = {way | (ways way).valid = true} := by
    ext way
    simp [validWays]
  rw [hset] at hmaps hinj hsurj
  rw [← Finset.coe_range]
  exact ⟨hmaps, hinj, hsurj⟩

/-- After all updates, at every index: the valid ways have different tags, their
recencies are the numbers below their count, which is at most sixteen, the
invalid ways come last, and there is a victim. -/
theorem table_arranged [Zero β] (updates : List (Address × β)) (index : ℕ) :
    (∀ way way', (entered updates index way).valid = true → (entered updates index way').valid = true →
      (entered updates index way).tag = (entered updates index way').tag → way = way') ∧
    Set.BijOn (fun way => (entered updates index way).lruRecency)
      {way | (entered updates index way).valid = true} (Set.Iio (validWays (entered updates index)).card) ∧
    (∀ way, (entered updates index way).valid = true → (entered updates index way).lruRecency < 2 ^ 4) ∧
    (∀ way way', way ≤ way' → (entered updates index way').valid = true →
      (entered updates index way).valid = true) ∧
    ∃ victim, victimWay (entered updates index) = some victim := by
  have h := arranged_entered updates index
  have hcard : (validWays (entered updates index)).card ≤ 16 :=
    (Finset.card_le_univ _).trans_eq (Fintype.card_fin 16)
  obtain ⟨victim, hvictim, -⟩ := h.queued.victim
  exact ⟨h.tags, Queued.bijOn h.queued, fun way hvalid => (h.queued.lt way hvalid).trans_le hcard, h.suffix,
    victim, hvictim⟩

end Zsim.HistoryQueues
