import Zsim.IdealLRU
import Mathlib.Data.List.Perm.Basic
import Mathlib.Data.List.Dedup
import Mathlib.Data.List.Range

/-!
# The ideal LRU array is a fully associative LRU cache

The list of lines is cut in two: the lines in use, in the order of the abstract
cache, and behind them the empty lines, which have never been moved. Every call
keeps this relation and answers as the abstract cache does.
-/

namespace Zsim.IdealLRURuns

open WeakestPre MemoryHierarchy CheckedTables PartPolicy IntrusiveList IdealLRU Conformance
open WayPart (int32)

/-- The map takes exactly the addresses of the lines that are not empty, to them. -/
def Inverse (numLines : ℕ) (m : Address → Option LineId) (t : Table Address) : Prop :=
  ∀ a i, m a = some i ↔ a ≠ 0 ∧ i < numLines ∧ t.cell i = a

/-- An address is exchanged for a new one in both directions. -/
theorem Inverse.insert {numLines : ℕ} {m : Address → Option LineId} {t : Table Address}
    (h : Inverse numLines m t) {a : Address} {id : LineId} (ha : a ≠ 0) (hmiss : m a = none)
    (hid : id < numLines) :
    Inverse numLines (Function.update (Function.update m (t.cell id) none) a (some id))
      (t.set id a) := by
  have hother : ∀ i, i ≠ id → (t.set id a).cell i = t.cell i := fun i hi =>
    set_cell_of_ne _ _ _ hi
  intro b i
  by_cases hba : b = a
  · subst hba
    rw [Function.update_self]
    constructor
    · rintro ⟨rfl⟩
      exact ⟨ha, hid, set_cell_self ..⟩
    · rintro ⟨-, hi, hcell⟩
      by_contra hne
      have hii : i ≠ id := fun hii => hne (congrArg some hii.symm)
      rw [hother i hii] at hcell
      rw [(h b i).mpr ⟨ha, hi, hcell⟩] at hmiss
      cases hmiss
  · rw [Function.update_of_ne hba]
    by_cases hold : b = t.cell id
    · rw [hold, Function.update_self]
      refine ⟨by simp, fun hi => ?_⟩
      obtain ⟨hb, hi, hcell⟩ := hi
      have hii : i ≠ id := by
        rintro rfl
        rw [set_cell_self] at hcell
        exact hba (hold.trans hcell.symm)
      rw [hother i hii] at hcell
      have h₁ := (h _ i).mpr ⟨hb, hi, hcell⟩
      rw [(h _ id).mpr ⟨hb, hid, rfl⟩] at h₁
      cases h₁
      exact absurd rfl hii
    · rw [Function.update_of_ne hold, h]
      refine and_congr_right fun _ => and_congr_right fun _ => ?_
      by_cases hii : i = id
      · rw [hii, set_cell_self]
        exact ⟨fun hc => absurd hc.symm hold, fun hc => absurd hc.symm hba⟩
      · rw [hother i hii]

/-- A missing address is not the one being replaced, or is not mapped either way. -/
theorem erased_misses {m : Address → Option LineId} {a b : Address} (h : m a = none) :
    Function.update m b none a = none := by
  by_cases hab : a = b
  · rw [hab, Function.update_self]
  · rw [Function.update_of_ne hab]
    exact h

/-- The list of lines, the addresses and the map agree; `ys` are the lines in use
and `zs` the empty ones. -/
structure Ordered (numLines : ℕ) (s : IdealLRUArray) (ys zs : List LineId) : Prop where
  linked : Linked s.nodes 0 s.lruList (ys ++ zs)
  lines : ∀ i, i ∈ ys ++ zs ↔ i < numLines
  length : s.lineAddrs.length = numLines
  used : ∀ i ∈ ys, s.lineAddrs.cell i ≠ 0
  unused : ∀ i ∈ zs, s.lineAddrs.cell i = 0
  distinct : (ys.map s.lineAddrs.cell).Nodup
  mapped : Inverse numLines s.lineMap s.lineAddrs

section Lists

variable {α β : Type} [DecidableEq β] {f : α → β} {x : α} {pre post : List α}

/-- An element with its own image is erased from the images by its image. -/
theorem erase_map (h : ((pre ++ x :: post).map f).Nodup) :
    ((pre ++ x :: post).map f).erase (f x) = (pre ++ post).map f := by
  rw [List.map_append, List.map_cons] at h ⊢
  have hnot : f x ∉ pre.map f := fun hx =>
    (List.nodup_append'.mp h).2.2 hx List.mem_cons_self
  rw [List.erase_append_right _ hnot, List.erase_cons_head, List.map_append]

/-- Moving an element to the front moves its image. -/
theorem move_map (h : ((pre ++ x :: post).map f).Nodup) :
    (x :: (pre ++ post)).map f = f x :: ((pre ++ x :: post).map f).erase (f x) := by
  rw [erase_map h, List.map_cons]

end Lists

section Moves

variable {numLines : ℕ} {s : IdealLRUArray} {id : LineId} {pre post ys zs : List LineId}

theorem moveToFront_spec (hl : Linked s.nodes 0 s.lruList (pre ++ id :: post)) :
    wp (moveToFront id) (fun _ s' => ∃ h L, s' = { s with nodes := h, lruList := L } ∧
      Linked h 0 L (id :: (pre ++ post))) s := by
  obtain ⟨h₁, L₁, hrun₁, hl₁, hfree, -⟩ := remove_spec hl
  obtain ⟨h₂, L₂, hrun₂, hl₂, -⟩ := pushFront_spec hl₁ hfree
  simp only [moveToFront, listRemove, listPushFront, listMethod, wp_bind, wp_observe, hrun₁, wp_change, hrun₂]
  exact ⟨h₂, L₂, rfl, hl₂⟩

theorem Ordered.mem (h : Ordered numLines s ys zs) {i : LineId} (hi : i < numLines)
    (hne : s.lineAddrs.cell i ≠ 0) : i ∈ ys := by
  rcases List.mem_append.mp ((h.lines i).mpr hi) with hy | hz
  · exact hy
  · exact absurd (h.unused i hz) hne

theorem Ordered.mem_resident (h : Ordered numLines s ys zs) {a : Address} :
    a ∈ ys.map s.lineAddrs.cell ↔ s.lineMap a ≠ none := by
  rw [List.mem_map, Option.ne_none_iff_exists']
  constructor
  · rintro ⟨i, hi, rfl⟩
    have hlt := (h.lines i).mp (List.mem_append_left zs hi)
    exact ⟨i, (h.mapped _ i).mpr ⟨h.used i hi, hlt, rfl⟩⟩
  · rintro ⟨i, hi⟩
    obtain ⟨hne, hlt, rfl⟩ := (h.mapped a i).mp hi
    exact ⟨i, h.mem hlt hne, rfl⟩

/-- A line in use moves to the front, with its address. -/
theorem Ordered.touch (h : Ordered numLines s (pre ++ id :: post) zs) {nodes : Heap} {L : InList}
    (hl : Linked nodes 0 L (id :: (pre ++ post ++ zs))) :
    Ordered numLines { s with nodes := nodes, lruList := L } (id :: (pre ++ post)) zs := by
  have hperm : ∀ {i}, i ∈ id :: (pre ++ post) ↔ i ∈ pre ++ id :: post :=
    List.perm_middle.symm.mem_iff
  refine ⟨hl, fun i => ?_, h.length, fun i hi => h.used i (hperm.mp hi), h.unused, ?_, h.mapped⟩
  · rw [← h.lines i, List.mem_append, List.mem_append, hperm]
  · have hnodup := h.distinct
    rwa [(List.perm_middle.map _).nodup_iff] at hnodup

end Moves

section Insertion

variable {numLines : ℕ} {s : IdealLRUArray} {ys zs rest zs' : List LineId} {id : LineId} {a : Address}

/-- Only the chosen line changes its address. -/
theorem insert_map (h : (id :: (rest ++ zs')).Nodup) :
    (id :: rest).map (s.lineAddrs.set id a).cell = a :: rest.map s.lineAddrs.cell := by
  have hid : id ∉ rest := fun hr => (List.nodup_cons.mp h).1 (List.mem_append_left zs' hr)
  rw [List.map_cons, set_cell_self]
  refine congrArg _ (List.map_congr_left fun i hi => set_cell_of_ne _ _ _ ?_)
  rintro rfl
  exact hid hi

/-- The chosen line enters the lines in use with a new address. -/
theorem Ordered.insert (h : Ordered numLines s ys zs) (ha : a ≠ 0)
    (hnew : a ∉ ys.map s.lineAddrs.cell) {nodes : Heap} {L : InList}
    (hl : Linked nodes 0 L (id :: (rest ++ zs')))
    (hlines : ∀ i, i ∈ id :: (rest ++ zs') ↔ i < numLines) (hrest : ∀ i ∈ rest, i ∈ ys)
    (hdistinct : (rest.map s.lineAddrs.cell).Nodup) (hunused : ∀ i ∈ zs', s.lineAddrs.cell i = 0)
    {m : Address → Option LineId} (hmapped : Inverse numLines m (s.lineAddrs.set id a)) :
    Ordered numLines { s with
      lineAddrs := s.lineAddrs.set id a
      lineMap := m
      nodes := nodes
      lruList := L } (id :: rest) zs' := by
  obtain ⟨hnot, -⟩ := List.nodup_cons.mp hl.nodup
  refine ⟨hl, hlines, h.length, fun i hi => ?_, fun i hi => ?_, ?_, hmapped⟩
  · rcases List.mem_cons.mp hi with rfl | hi
    · dsimp only
      rw [set_cell_self]
      exact ha
    · have hii : i ≠ id := fun hii => hnot (List.mem_append_left zs' (hii ▸ hi))
      exact (set_cell_of_ne _ _ _ hii).trans_ne (h.used i (hrest i hi))
  · have hii : i ≠ id := fun hii => hnot (List.mem_append_right rest (hii ▸ hi))
    exact (set_cell_of_ne _ _ _ hii).trans (hunused i hi)
  · dsimp only
    rw [insert_map hl.nodup]
    refine List.nodup_cons.mpr ⟨fun hin => ?_, hdistinct⟩
    obtain ⟨i, hi, hcell⟩ := List.mem_map.mp hin
    exact hnew (List.mem_map.mpr ⟨i, hrest i hi, hcell⟩)

end Insertion

/-- No line id of a cache is taken for a miss. -/
theorem int32_ne {id : ℕ} (h : id + 1 < 2 ^ 32) : int32 id ≠ -1 := by
  unfold int32
  intro heq
  split at heq <;> simp only [Int.ofNat_eq_natCast] at heq <;> omega

section Calls

variable {numLines : ℕ} {s : IdealLRUArray} {ys zs : List LineId} {a : Address}

/-- A lookup finds the resident addresses, and a use moves the line to the front. -/
theorem lookup_spec (h : Ordered numLines s ys zs) (hsmall : numLines < 2 ^ 32) (u : Bool) :
    wp (lookup a u) (fun r s' => decide (r ≠ -1) = decide (a ∈ ys.map s.lineAddrs.cell) ∧
      s'.lineAddrs = s.lineAddrs ∧ ∃ ys', Ordered numLines s' ys' zs ∧
        ys'.map s'.lineAddrs.cell = if u = true ∧ a ∈ ys.map s.lineAddrs.cell then
          a :: (ys.map s.lineAddrs.cell).erase a else ys.map s.lineAddrs.cell) s := by
  simp only [lookup, wp_bind, wp_observe]
  cases hmap : s.lineMap a with
  | none =>
    have hnot : a ∉ ys.map s.lineAddrs.cell := fun ha => h.mem_resident.mp ha hmap
    rw [wp_pure]
    refine ⟨by simp [hnot], rfl, ys, h, ?_⟩
    rw [if_neg fun hua => hnot hua.2]
  | some id =>
    have hin : a ∈ ys.map s.lineAddrs.cell := h.mem_resident.mpr (by rw [hmap]; exact (by simp))
    obtain ⟨hne, hid, rfl⟩ := (h.mapped a id).mp hmap
    have hhit : int32 id ≠ -1 := int32_ne (Nat.lt_of_le_of_lt (Nat.succ_le_of_lt hid) hsmall)
    obtain ⟨pre, post, rfl⟩ := List.append_of_mem (h.mem hid hne)
    have hdecide : decide (int32 id ≠ -1) =
        decide (s.lineAddrs.cell id ∈ (pre ++ id :: post).map s.lineAddrs.cell) := by
      rw [decide_eq_true hhit, decide_eq_true hin]
    simp only [wp_bind, wp_ite]
    split
    · next hu =>
      have hl := h.linked
      rw [List.append_assoc, List.cons_append] at hl
      refine wp_mono (moveToFront_spec hl) ?_
      rintro _ s' ⟨nodes, L, rfl, hl'⟩
      rw [← List.append_assoc] at hl'
      rw [wp_pure]
      refine ⟨hdecide, rfl, _, h.touch hl', ?_⟩
      rw [if_pos ⟨hu, hin⟩]
      exact move_map h.distinct
    · next hu =>
      simp only [wp_pure]
      refine ⟨hdecide, trivial, _, h, ?_⟩
      rw [if_neg fun hua => hu hua.1]

/-- The victim is the least recently used line, an empty one if there is any. -/
theorem preinsert_spec (h : Ordered numLines s ys zs) (hpos : 0 < numLines) :
    wp preinsert (fun r s' => s' = s ∧ r.1 < numLines ∧ r.2 = s.lineAddrs.cell r.1 ∧
      r.2 = (⟨ys.map s.lineAddrs.cell, none⟩ : LRUCache).victim numLines) s := by
  have hperm : (ys ++ zs).Perm (List.range numLines) :=
    (List.perm_ext_iff_of_nodup h.linked.nodup List.nodup_range).mpr fun i => by
      rw [h.lines i, List.mem_range]
  have hlength := hperm.length_eq
  rw [List.length_append, List.length_range] at hlength
  simp only [preinsert, wp_bind, wp_observe]
  rw [h.linked.tail]
  rcases List.eq_nil_or_concat zs with rfl | ⟨zs, z, rfl⟩
  · rcases List.eq_nil_or_concat ys with rfl | ⟨ys, y, rfl⟩
    · simp only [List.length_nil] at hlength
      omega
    · rw [List.concat_eq_append] at h hlength ⊢
      rw [List.append_nil, List.getLast?_concat]
      have hy : y < numLines := (h.lines y).mp (by simp)
      simp only [wp_bind, wp_readCell, wp_pure]
      refine ⟨by rw [h.length]; exact hy, trivial, hy, trivial, ?_⟩
      rw [LRUCache.victim, if_neg (by simp only [List.length_map, List.length_nil] at hlength ⊢; omega),
        List.map_append, List.map_singleton]
      simp
  · rw [List.concat_eq_append] at h hlength ⊢
    rw [← List.append_assoc, List.getLast?_concat]
    have hz : z < numLines := (h.lines z).mp (by simp)
    simp only [wp_bind, wp_readCell, wp_pure]
    refine ⟨by rw [h.length]; exact hz, trivial, hz, trivial, ?_⟩
    rw [LRUCache.victim, if_pos]
    · exact h.unused z (List.mem_append_right _ List.mem_cons_self)
    · simp only [List.length_map, List.length_append, List.length_cons] at hlength ⊢
      omega

/-- An insertion exchanges the address of the chosen line for the new one, which
is then the most recently used. -/
theorem postinsert_spec (h : Ordered numLines s ys zs) {id : LineId} (hid : id < numLines)
    (ha : a ≠ 0) (hnew : a ∉ ys.map s.lineAddrs.cell) :
    wp (postinsert a id) (fun _ s' => ∃ ys' zs', Ordered numLines s' ys' zs' ∧
      ys'.map s'.lineAddrs.cell =
        a :: (ys.map s.lineAddrs.cell).erase (s.lineAddrs.cell id)) s := by
  have hmiss : s.lineMap a = none := by
    by_contra hmap
    exact hnew (h.mem_resident.mpr hmap)
  have hlen : id < s.lineAddrs.length := by rwa [h.length]
  have hmapped := h.mapped.insert ha hmiss hid
  simp only [postinsert, wp_bind, wp_readCell, wp_change, wp_observe, wp_ensure, wp_modifyCell]
  refine ⟨hlen, erased_misses hmiss, hlen, ?_⟩
  rcases List.mem_append.mp ((h.lines id).mpr hid) with hy | hz
  · -- the line of another address
    obtain ⟨pre, post, rfl⟩ := List.append_of_mem hy
    have hl := h.linked
    rw [List.append_assoc, List.cons_append] at hl
    refine wp_mono (moveToFront_spec hl) ?_
    rintro _ s' ⟨nodes, L, rfl, hl'⟩
    rw [← List.append_assoc] at hl'
    have hdistinct := h.distinct
    rw [(List.perm_middle.map _).nodup_iff, List.map_cons, List.nodup_cons] at hdistinct
    have hrest : ∀ i ∈ pre ++ post, i ∈ pre ++ id :: post := fun i hi =>
      List.perm_middle.mem_iff.mpr (List.mem_cons_of_mem id hi)
    refine ⟨_, _, h.insert ha hnew hl' (fun i => ?_) hrest hdistinct.2 h.unused hmapped, ?_⟩
    · rw [← h.lines i, ← List.cons_append, List.mem_append, List.mem_append,
        List.perm_middle.mem_iff]
    · rw [insert_map hl'.nodup, erase_map h.distinct]
  · -- an empty line
    obtain ⟨pre, post, rfl⟩ := List.append_of_mem hz
    have hl := h.linked
    rw [← List.append_assoc] at hl
    refine wp_mono (moveToFront_spec hl) ?_
    rintro _ s' ⟨nodes, L, rfl, hl'⟩
    rw [List.append_assoc] at hl'
    have hzero : s.lineAddrs.cell id = 0 := h.unused id hz
    refine ⟨_, _, h.insert ha hnew hl' (fun i => ?_) (fun i hi => hi) h.distinct (fun i hi => ?_)
      hmapped, ?_⟩
    · rw [← h.lines i, ← List.append_assoc, ← List.append_assoc, List.perm_middle.mem_iff]
    · exact h.unused i (List.perm_middle.mem_iff.mpr (List.mem_cons_of_mem id hi))
    · rw [insert_map hl'.nodup, hzero, List.erase_of_not_mem]
      rw [List.mem_map]
      rintro ⟨i, hi, hcell⟩
      exact h.used i hi hcell

end Calls

/-- The two caches hold the same addresses in the same order, and have the same
insertion under way. -/
def Agrees (numLines : ℕ) (s : Driven) (t : LRUCache) : Prop :=
  ∃ ys zs, Ordered numLines s.array ys zs ∧ t.resident = ys.map s.array.lineAddrs.cell ∧
    ((s.pending = none ∧ t.pending = none) ∨
      ∃ a id, s.pending = some (a, id) ∧ t.pending = some (a, s.array.lineAddrs.cell id) ∧
        id < numLines ∧ a ≠ 0 ∧ a ∉ t.resident)

section Simulation

variable {numLines : ℕ} {s : Driven} {t : LRUCache}

theorem step_agrees (hpos : 0 < numLines) (hsmall : numLines < 2 ^ 32) {op : Op}
    (h : Agrees numLines s t) (hallowed : t.Allowed op) :
    ∃ o s' t', step s op = .ok (o, s') ∧ (LRUCache.spec numLines).next t op o t' ∧
      Agrees numLines s' t' := by
  obtain ⟨ys, zs, horder, hres, hpending⟩ := h
  cases op with
  | lookup a u =>
    obtain ⟨r, array, hrun, hfound, hcells, ys', horder', hres'⟩ := lookup_spec horder hsmall u (a := a)
    rw [← hres] at hfound hres'
    refine ⟨_, ⟨array, s.pending⟩, _, ?_, rfl, ys', zs, horder', ?_, ?_⟩
    · rw [step, hrun, ← hfound]
      rfl
    · dsimp only [LRUCache.next]
      rw [hres']
      split <;> rfl
    · have hmem : ∀ b, b ∈ (if u = true ∧ a ∈ t.resident then
          { t with resident := a :: t.resident.erase a } else t).resident ↔ b ∈ t.resident := by
        intro b
        split
        · next hu => exact (List.perm_cons_erase hu.2).mem_iff.symm
        · rfl
      have hpend : (if u = true ∧ a ∈ t.resident then
          { t with resident := a :: t.resident.erase a } else t).pending = t.pending := by
        split <;> rfl
      dsimp only [LRUCache.next]
      rw [hpend, hcells]
      rcases hpending with hnone | ⟨b, id, hs, ht, hid, hb, hnew⟩
      · exact .inl hnone
      · exact .inr ⟨b, id, hs, ht, hid, hb, (hmem b).not.mpr hnew⟩
  | preinsert a =>
    obtain ⟨ha, hnew, hnone⟩ := hallowed
    obtain ⟨⟨id, wb⟩, _, hrun, rfl, hid, hwb, hvictim⟩ := preinsert_spec horder hpos
    dsimp only at hid hwb hvictim
    have hvictim : wb = t.victim numLines := by
      rw [hvictim, ← hres]
      rfl
    refine ⟨_, ⟨s.array, some (a, id)⟩, _, ?_, rfl, ys, zs, horder, hres,
      .inr ⟨a, id, rfl, ?_, hid, ha, hnew⟩⟩
    · rw [step, hrun, ← hvictim]
      rfl
    · dsimp only [LRUCache.next]
      rw [← hvictim, hwb]
  | postinsert =>
    rcases hpending with ⟨-, hnone⟩ | ⟨a, id, hs, ht, hid, ha, hnew⟩
    · exact absurd hnone hallowed
    · rw [hres] at hnew
      obtain ⟨_, array, hrun, ys', zs', horder', hres'⟩ := postinsert_spec horder hid ha hnew
      refine ⟨.done, ⟨array, none⟩, ⟨a :: t.resident.erase (s.array.lineAddrs.cell id), none⟩, ?_, ?_,
        ys', zs', horder', ?_, .inl ⟨rfl, rfl⟩⟩
      · simp only [step, hs, hrun]
        rfl
      · show t.next numLines .postinsert = _
        simp only [LRUCache.next, ht]
      · dsimp only
        rw [hres', hres]

end Simulation

section Construction

variable {numLines : ℕ}

/-- All lines are empty. -/
theorem construct_spec (numLines : ℕ) :
    wp construct (fun _ s => ∃ zs, Ordered numLines s [] zs) (allocated numLines) := by
  simp only [construct, wp_bind, wp_observe]
  refine wp_mono (wp_forUpTo (fun k _ s => s.lineAddrs.length = numLines ∧
    (∀ i, s.lineAddrs.cell i = 0) ∧ (∀ a, s.lineMap a = none) ∧ (∀ i, k ≤ i → s.nodes i = Node.free) ∧
    ∃ zs, Linked s.nodes 0 s.lruList zs ∧ ∀ i, i ∈ zs ↔ i < k) ?_ ?_) ?_
  · rintro i _ s hi ⟨hlen, hcells, hmap, hfree, zs, hl, hlines⟩
    obtain ⟨h, L, hrun, hl', hframe⟩ := pushFront_spec hl (hfree i le_rfl)
    simp only [listPushFront, listMethod, wp_bind, wp_modifyCell, wp_observe, hrun, wp_change]
    refine ⟨by rw [hlen]; exact hi, hlen, fun j => ?_, hmap, fun j hj => ?_, i :: zs, hl', fun j => ?_⟩
    · by_cases hji : j = i
      · rw [hji, set_cell_self]
      · rw [set_cell_of_ne _ _ _ hji]
        exact hcells j
    · have hnot : j ∉ i :: zs := by
        rw [List.mem_cons, hlines]
        omega
      rw [hframe j hnot]
      exact hfree j (by omega)
    · rw [List.mem_cons, hlines]
      omega
  · exact ⟨rfl, fun _ => rfl, fun _ => rfl, fun _ _ => rfl, [], linked_empty _ _, by simp⟩
  · rintro _ s ⟨hlen, hcells, hmap, -, zs, hl, hlines⟩
    refine ⟨zs, hl, hlines, hlen, by simp, fun i _ => hcells i, List.nodup_nil, fun a i => ?_⟩
    rw [hmap a, hcells i]
    exact ⟨by simp, fun hi => absurd hi.2.2.symm hi.1⟩

/-- The ideal LRU array answers every sequence of calls as a fully associative
cache with true LRU replacement does. -/
theorem lru_refines (hpos : 0 < numLines) (hsmall : numLines < 2 ^ 32) :
    ∃ s, construct (allocated numLines) = .ok ((), s) ∧ ∀ ops,
      Conforms step (LRUCache.spec numLines) ⟨s, none⟩ ⟨[], none⟩ ops := by
  obtain ⟨_, s, hrun, zs, horder⟩ := construct_spec numLines
  refine ⟨s, hrun, conforms_of_simulation (fun s t op h ha => step_agrees hpos hsmall h ha) ?_⟩
  exact ⟨[], zs, horder, rfl, .inl ⟨rfl, rfl⟩⟩

end Construction

end Zsim.IdealLRURuns
