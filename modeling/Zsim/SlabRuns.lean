import Zsim.SlabAllocator
import Zsim.Outcomes
import Zsim.GuardedRuns
import Mathlib.Data.List.Perm.Subperm
import Mathlib.Data.List.Nodup

/-!
# The elements of the slabs

Every slab is on the free list and empty, or it is the current slab, or it has been
filled and still has elements. The elements of a slab are as many as it counts, and lie in
the bytes it has used. A slab has used a byte for each of its elements at least, and is
taken for a broken one when it has used no more than that.
-/

namespace Zsim.SlabRuns

open WeakestPre Outcomes GuardedRuns SlabAllocator

section Ledgers

/-- The elements of a slab. -/
def countIn (live : List Elem) (slab : ℕ) : ℕ := live.countP fun e => slabOf e.ptr = slab

/-- The bytes of two elements are disjoint. -/
def Apart (e e' : Elem) : Prop := e.ptr + e.size ≤ e'.ptr ∨ e'.ptr + e'.size ≤ e.ptr

/-- A slab that is being filled. -/
structure Open (x : Slab) : Prop where
  counted : x.liveElems ≤ x.usedBytes
  room : x.usedBytes < bufSize
  drained : x.liveElems = 0 → x.usedBytes = 0

/-- A slab that has been filled and has not been emptied since. -/
structure Retired (x : Slab) : Prop where
  pos : 0 < x.liveElems
  counted : x.liveElems < bufSize
  full : bufSize ≤ x.usedBytes

/-- An element lies in the bytes that its slab has used. -/
structure Placed (a : SlabAlloc) (e : Elem) : Prop where
  size : 0 < e.size
  made : slabOf e.ptr ∈ a.made
  first : slabOf e.ptr + headerSize ≤ e.ptr
  used : e.ptr + e.size ≤ slabOf e.ptr + headerSize + (a.slabs (slabOf e.ptr)).usedBytes
  last : e.ptr + e.size < slabOf e.ptr + slabSize

/-- Each slab is accounted for once. -/
structure Pool (a : SlabAlloc) : Prop where
  ne_zero : ∀ b ∈ a.made, b ≠ 0
  aligned : ∀ b ∈ a.made, b % slabSize = 0
  inside : ∀ b ∈ a.made, b + slabSize ≤ 2 ^ 47
  made : a.made.Nodup
  free_made : ∀ b ∈ a.freeList, b ∈ a.made
  free : a.freeList.Nodup
  liveSlabs : a.liveSlabs + a.freeList.length = a.made.length

/-- The slabs and their elements, while the given slab is being filled. -/
structure Ledger (a : SlabAlloc) (live : List Elem) (filling : Option ℕ) : Prop where
  pool : Pool a
  filling_made : ∀ b, filling = some b → b ∈ a.made ∧ b ∉ a.freeList
  cleared : ∀ b ∈ a.freeList, a.slabs b = ⟨0, 0⟩
  opened : ∀ b, filling = some b → Open (a.slabs b)
  retired : ∀ b ∈ a.made, b ∉ a.freeList → filling ≠ some b → Retired (a.slabs b)
  counts : ∀ b ∈ a.made, (a.slabs b).liveElems = countIn live b
  placed : ∀ e ∈ live, Placed a e
  apart : live.Pairwise Apart

variable {a : SlabAlloc} {live live' : List Elem} {filling filling' : Option ℕ} {b sz : ℕ} {e : Elem}
  {x : Slab} {heap : Option ℕ}

@[simp] theorem setSlab_self : (a.setSlab b x).slabs b = x := Function.update_self ..

theorem setSlab_of_ne {b' : ℕ} (h : b' ≠ b) : (a.setSlab b x).slabs b' = a.slabs b' :=
  Function.update_of_ne h _ _

theorem Pool.setSlab (h : Pool a) : Pool (a.setSlab b x) := ⟨h.1, h.2, h.3, h.4, h.5, h.6, h.7⟩

theorem countIn_cons : countIn (e :: live) b = countIn live b + if slabOf e.ptr = b then 1 else 0 := by
  simp [countIn, List.countP_cons]

theorem countIn_erase (h : e ∈ live) :
    countIn (live.erase e) b + (if slabOf e.ptr = b then 1 else 0) = countIn live b := by
  have hperm := (List.perm_cons_erase h).countP_eq fun e => slabOf e.ptr = b
  rw [countIn, countIn, hperm, List.countP_cons]
  simp

theorem countIn_pos (h : e ∈ live) : 0 < countIn live (slabOf e.ptr) :=
  List.countP_pos_iff.mpr ⟨e, h, decide_eq_true rfl⟩

theorem slabOf_ne (h : countIn live b = 0) (he : e ∈ live) : slabOf e.ptr ≠ b := by
  rintro rfl
  exact Nat.ne_of_gt (countIn_pos he) h

theorem slabOf_eq {ptr : ℕ} (hb : b % slabSize = 0) (hfirst : b ≤ ptr) (hlast : ptr < b + slabSize) :
    slabOf ptr = b := by
  unfold slabOf slabSize at *
  omega

theorem Placed.setSlab (h : Placed a e) (hx : slabOf e.ptr = b → (a.slabs b).usedBytes ≤ x.usedBytes) :
    Placed (a.setSlab b x) e where
  size := h.size
  made := h.made
  first := h.first
  last := h.last
  used := by
    have hused := h.used
    by_cases hb : slabOf e.ptr = b
    · have hle := hx hb
      rw [hb] at hused ⊢
      rw [setSlab_self]
      omega
    · rw [setSlab_of_ne hb]
      exact hused

/-- Distinct slabs are at most as many as fit into the address space. -/
theorem Pool.length_le (h : Pool a) : a.made.length ≤ 2 ^ 31 := by
  have hnodup : (a.made.map fun b => b / slabSize).Nodup := by
    refine h.made.map_on fun b hb b' hb' heq => ?_
    have haligned := h.aligned b hb
    have haligned' := h.aligned b' hb'
    unfold slabSize at *
    omega
  have hsub : (a.made.map fun b => b / slabSize) ⊆ List.range (2 ^ 31) := by
    intro i hi
    obtain ⟨b, hb, rfl⟩ := List.mem_map.mp hi
    have hinside := h.inside b hb
    rw [List.mem_range]
    unfold slabSize at *
    omega
  have hle := (List.subperm_of_subset hnodup hsub).length_le
  rw [List.length_map, List.length_range] at hle
  exact hle

/-- Distinct slabs that are not on the free list are live. -/
theorem Pool.live_le (h : Pool a) (bs : List ℕ) (hbs : bs.Nodup) (hmade : ∀ b ∈ bs, b ∈ a.made)
    (hfree : ∀ b ∈ bs, b ∉ a.freeList) : bs.length ≤ a.liveSlabs := by
  have hnodup : (bs ++ a.freeList).Nodup := by
    refine List.nodup_append.mpr ⟨hbs, h.free, fun b hb b' hb' heq => ?_⟩
    exact hfree b hb (heq ▸ hb')
  have hsub : bs ++ a.freeList ⊆ a.made := by
    intro b hb
    cases List.mem_append.mp hb with
    | inl hb => exact hmade b hb
    | inr hb => exact h.free_made b hb
  have hle := (List.subperm_of_subset hnodup hsub).length_le
  have hlive := h.liveSlabs
  rw [List.length_append] at hle
  omega

/-- One slab that is not on the free list changes, and its elements with it. -/
theorem Ledger.setSlab (h : Ledger a live filling) (hb : b ∈ a.made) (hfree : b ∉ a.freeList)
    (hfilling : ∀ b', b' ≠ b → (filling' = some b' ↔ filling = some b'))
    (hopen : filling' = some b → Open x) (hretired : filling' ≠ some b → Retired x)
    (hcount : x.liveElems = countIn live' b)
    (hcounts : ∀ b', b' ≠ b → countIn live' b' = countIn live b')
    (hplaced : ∀ e ∈ live', Placed (a.setSlab b x) e) (hapart : live'.Pairwise Apart) :
    Ledger (a.setSlab b x) live' filling' where
  pool := h.pool.setSlab
  filling_made b' hb' := by
    by_cases hne : b' = b
    · subst hne
      exact ⟨hb, hfree⟩
    · exact h.filling_made b' ((hfilling b' hne).mp hb')
  cleared b' hb' := by
    have hne : b' ≠ b := fun heq => hfree (heq ▸ hb')
    rw [setSlab_of_ne hne]
    exact h.cleared b' hb'
  opened b' hb' := by
    by_cases hne : b' = b
    · subst hne
      rw [setSlab_self]
      exact hopen hb'
    · rw [setSlab_of_ne hne]
      exact h.opened b' ((hfilling b' hne).mp hb')
  retired b' hmade hb' hf := by
    by_cases hne : b' = b
    · subst hne
      rw [setSlab_self]
      exact hretired hf
    · rw [setSlab_of_ne hne]
      exact h.retired b' hmade hb' fun hsome => hf ((hfilling b' hne).mpr hsome)
  counts b' hmade := by
    by_cases hne : b' = b
    · subst hne
      rw [setSlab_self]
      exact hcount
    · rw [setSlab_of_ne hne, hcounts b' hne]
      exact h.counts b' hmade
  placed := hplaced
  apart := hapart

/-- An element that is put into the slab being filled is known to be in it. -/
theorem Ledger.slabOf_new (h : Ledger a live (some b)) (hroom : (a.slabs b).usedBytes < bufSize) :
    slabOf (b + headerSize + (a.slabs b).usedBytes) = b := by
  refine slabOf_eq (h.pool.aligned b (h.filling_made b rfl).1) (by omega) ?_
  unfold headerSize bufSize slabSize at *
  omega

/-- An element is put after what the slab has used. -/
theorem Ledger.fill (h : Ledger a live (some b)) (hsz : 0 < sz)
    (hroom : (a.slabs b).usedBytes + sz < bufSize) :
    Ledger (a.setSlab b ⟨(a.slabs b).liveElems + 1, (a.slabs b).usedBytes + sz⟩)
      (⟨b + headerSize + (a.slabs b).usedBytes, sz⟩ :: live) (some b) := by
  obtain ⟨hb, hfree⟩ := h.filling_made b rfl
  have hopen := h.opened b rfl
  have haligned := h.pool.aligned b hb
  have hslab := h.slabOf_new hopen.room
  refine h.setSlab hb hfree (fun b' hne => Iff.rfl) (fun _ => ?_) (fun hne => (hne rfl).elim) ?_
    (fun b' hne => ?_) (fun e he => ?_) (List.pairwise_cons.mpr ⟨fun e he => ?_, h.apart⟩)
  · have hcounted := hopen.counted
    constructor
    · change (a.slabs b).liveElems + 1 ≤ (a.slabs b).usedBytes + sz
      omega
    · exact hroom
    · intro hzero
      exact (Nat.succ_ne_zero _ hzero).elim
  · rw [countIn_cons, if_pos hslab, ← h.counts b hb]
  · rw [countIn_cons, if_neg fun heq => hne (heq.symm.trans hslab), Nat.add_zero]
  · cases List.mem_cons.mp he with
    | inl heq =>
      subst heq
      constructor
      · exact hsz
      · exact hslab.symm ▸ hb
      · change slabOf (b + headerSize + (a.slabs b).usedBytes) + headerSize ≤ _
        rw [hslab]
        exact Nat.le_add_right ..
      · change _ ≤ slabOf (b + headerSize + (a.slabs b).usedBytes) + headerSize +
          ((a.setSlab b _).slabs (slabOf (b + headerSize + (a.slabs b).usedBytes))).usedBytes
        rw [hslab, setSlab_self]
        exact Nat.le_of_eq (Nat.add_assoc ..)
      · change b + headerSize + (a.slabs b).usedBytes + sz <
          slabOf (b + headerSize + (a.slabs b).usedBytes) + slabSize
        rw [hslab]
        unfold headerSize bufSize slabSize at *
        omega
    | inr he => exact (h.placed e he).setSlab fun _ => Nat.le_add_right ..
  · -- An element of another slab is in another block, and the others end before the new one.
    have hplaced := h.placed e he
    have hfirst := hplaced.first
    have hlast := hplaced.last
    have hused := hplaced.used
    have haligned' := h.pool.aligned _ hplaced.made
    change b + headerSize + (a.slabs b).usedBytes + sz ≤ e.ptr ∨
      e.ptr + e.size ≤ b + headerSize + (a.slabs b).usedBytes
    by_cases hb' : slabOf e.ptr = b
    · rw [hb'] at hused
      exact Or.inr hused
    · unfold headerSize bufSize slabSize at *
      omega

/-- A slab that cannot hold the next element is no longer filled. -/
theorem Ledger.retire (h : Ledger a live (some b)) (hsz : sz < bufSize)
    (hfull : bufSize ≤ (a.slabs b).usedBytes + sz) :
    Ledger (a.setSlab b ⟨(a.slabs b).liveElems, (a.slabs b).usedBytes + sz⟩) live none := by
  obtain ⟨hb, hfree⟩ := h.filling_made b rfl
  have hopen := h.opened b rfl
  refine h.setSlab hb hfree (fun b' hne => ?_) (fun hnone => nomatch hnone) (fun _ => ?_)
    (h.counts b hb) (fun b' hne => rfl) (fun e he => ?_) h.apart
  · constructor
    · intro hnone
      cases hnone
    · intro hsome
      exact (hne (Option.some.inj hsome).symm).elim
  · have hcounted := hopen.counted
    have hroom := hopen.room
    have hdrained := hopen.drained
    refine ⟨?_, Nat.lt_of_le_of_lt hcounted hroom, hfull⟩
    change 0 < (a.slabs b).liveElems
    omega
  · exact (h.placed e he).setSlab fun _ => Nat.le_add_right ..

/-- The only element of a slab that is not filled is freed. -/
theorem Ledger.release (h : Ledger a live filling) (he : e ∈ live) (hb : slabOf e.ptr = b)
    (hlast : (a.slabs b).liveElems = 1) (hfilling : filling ≠ some b) :
    Ledger { a.setSlab b ⟨0, 0⟩ with freeList := b :: a.freeList, liveSlabs := a.liveSlabs - 1 }
      (live.erase e) filling := by
  have hmade : b ∈ a.made := hb ▸ (h.placed e he).made
  have hfree : b ∉ a.freeList := by
    intro hmem
    rw [h.cleared b hmem] at hlast
    cases hlast
  have hcount : countIn (live.erase e) b = 0 := by
    have herase := @countIn_erase live b e he
    rw [if_pos hb, ← h.counts b hmade] at herase
    omega
  have hlive := h.pool.live_le [b] (List.nodup_singleton b) (by simpa using hmade) (by simpa using hfree)
  have hother : ∀ e' ∈ live.erase e, slabOf e'.ptr ≠ b := fun e' he' => slabOf_ne hcount he'
  constructor
  · have hsum := h.pool.liveSlabs
    refine ⟨h.pool.ne_zero, h.pool.aligned, h.pool.inside, h.pool.made, fun b' hb' => ?_,
      List.nodup_cons.mpr ⟨hfree, h.pool.free⟩, ?_⟩
    · cases List.mem_cons.mp hb' with
      | inl heq => exact heq ▸ hmade
      | inr hb' => exact h.pool.free_made b' hb'
    · change a.liveSlabs - 1 + (a.freeList.length + 1) = a.made.length
      rw [List.length_singleton] at hlive
      omega
  · intro b' hsome
    obtain ⟨hmade', hfree'⟩ := h.filling_made b' hsome
    refine ⟨hmade', fun hmem => ?_⟩
    cases List.mem_cons.mp hmem with
    | inl heq => exact hfilling (heq ▸ hsome)
    | inr hmem => exact hfree' hmem
  · intro b' hmem
    change (a.setSlab b ⟨0, 0⟩).slabs b' = ⟨0, 0⟩
    by_cases hne : b' = b
    · rw [hne, setSlab_self]
    · rw [setSlab_of_ne hne]
      exact h.cleared b' (List.mem_of_ne_of_mem hne hmem)
  · intro b' hsome
    have hne : b' ≠ b := fun heq => hfilling (heq ▸ hsome)
    change Open ((a.setSlab b ⟨0, 0⟩).slabs b')
    rw [setSlab_of_ne hne]
    exact h.opened b' hsome
  · intro b' hmade' hnot hne
    have hne' : b' ≠ b := fun heq => hnot (heq ▸ List.mem_cons_self)
    change Retired ((a.setSlab b ⟨0, 0⟩).slabs b')
    rw [setSlab_of_ne hne']
    exact h.retired b' hmade' (fun hmem => hnot (List.mem_cons_of_mem b hmem)) hne
  · intro b' hmade'
    change ((a.setSlab b ⟨0, 0⟩).slabs b').liveElems = _
    by_cases hne : b' = b
    · rw [hne, setSlab_self, hcount]
    · have herase := @countIn_erase live b' e he
      rw [if_neg fun heq => hne (heq.symm.trans hb)] at herase
      rw [setSlab_of_ne hne, h.counts b' hmade']
      omega
  · intro e' he'
    have hplaced := (h.placed e' (List.mem_of_mem_erase he')).setSlab (x := ⟨0, 0⟩)
      fun heq => (hother e' he' heq).elim
    exact ⟨hplaced.1, hplaced.2, hplaced.3, hplaced.4, hplaced.5⟩
  · exact h.apart.erase e

/-- An element of a slab with others, or of the slab being filled, is freed. -/
theorem Ledger.drop (h : Ledger a live filling) (he : e ∈ live) (hb : slabOf e.ptr = b)
    (hcount : x.liveElems + 1 = (a.slabs b).liveElems)
    (hused : x.usedBytes = if x.liveElems = 0 then 0 else (a.slabs b).usedBytes)
    (hlast : x.liveElems = 0 → filling = some b) :
    Ledger (a.setSlab b x) (live.erase e) filling := by
  have hmade : b ∈ a.made := hb ▸ (h.placed e he).made
  have hfree : b ∉ a.freeList := by
    intro hmem
    rw [h.cleared b hmem] at hcount
    cases hcount
  have herase := @countIn_erase live b e he
  rw [if_pos hb, ← h.counts b hmade] at herase
  refine h.setSlab hmade hfree (fun b' hne => Iff.rfl) (fun hsome => ?_) (fun hne => ?_) ?_
    (fun b' hne => ?_) (fun e' he' => ?_) (h.apart.erase e)
  · have hopen := h.opened b hsome
    have hcounted := hopen.counted
    have hroom := hopen.room
    split at hused
    · next hzero =>
      refine ⟨Nat.le_of_eq (hzero.trans hused.symm), ?_, fun _ => hused⟩
      rw [hused]
      decide
    · next hzero =>
      refine ⟨?_, hused ▸ hroom, fun hz => (hzero hz).elim⟩
      omega
  · have hretired := h.retired b hmade hfree hne
    have hcounted := hretired.counted
    have hzero : x.liveElems ≠ 0 := fun hz => hne (hlast hz)
    rw [if_neg hzero] at hused
    refine ⟨Nat.pos_of_ne_zero hzero, ?_, hused ▸ hretired.full⟩
    omega
  · omega
  · have herase' := @countIn_erase live b' e he
    rw [if_neg fun heq => hne (heq.symm.trans hb)] at herase'
    omega
  · refine (h.placed e' (List.mem_of_mem_erase he')).setSlab fun heq => ?_
    have hpos := countIn_pos he'
    rw [heq] at hpos
    have hzero : x.liveElems ≠ 0 := by omega
    exact Nat.le_of_eq (hused.trans (if_neg hzero)).symm

/-- The global heap answers with a slab, which may be used at once. -/
theorem Ledger.supply (h : Ledger a live none) (hb : Answers a.made b) :
    Ledger { a.setSlab b ⟨0, 0⟩ with made := b :: a.made, freeList := b :: a.freeList } live none := by
  have hfree : b ∉ a.freeList := fun hmem => hb.unused (h.pool.free_made b hmem)
  have hother : ∀ b' ∈ a.made, b' ≠ b := fun b' hb' heq => hb.unused (heq ▸ hb')
  have hslab : ∀ b' ∈ a.made, (a.setSlab b ⟨0, 0⟩).slabs b' = a.slabs b' := fun b' hb' =>
    setSlab_of_ne (hother b' hb')
  constructor
  · have hsum := h.pool.liveSlabs
    constructor
    · exact List.forall_mem_cons.mpr ⟨hb.ne_zero, h.pool.ne_zero⟩
    · exact List.forall_mem_cons.mpr ⟨hb.aligned, h.pool.aligned⟩
    · exact List.forall_mem_cons.mpr ⟨hb.inside, h.pool.inside⟩
    · exact List.nodup_cons.mpr ⟨hb.unused, h.pool.made⟩
    · refine List.forall_mem_cons.mpr ⟨List.mem_cons_self, fun b' hb' => ?_⟩
      exact List.mem_cons_of_mem b (h.pool.free_made b' hb')
    · exact List.nodup_cons.mpr ⟨hfree, h.pool.free⟩
    · change a.liveSlabs + (a.freeList.length + 1) = a.made.length + 1
      omega
  · exact fun b' hnone => nomatch hnone
  · refine List.forall_mem_cons.mpr ⟨setSlab_self, fun b' hb' => ?_⟩
    exact (hslab b' (h.pool.free_made b' hb')).trans (h.cleared b' hb')
  · exact fun b' hnone => nomatch hnone
  · intro b' hmade hnot hne
    have hne' : b' ≠ b := by
      intro heq
      subst heq
      exact hnot List.mem_cons_self
    have hmade' := List.mem_of_ne_of_mem hne' hmade
    change Retired ((a.setSlab b ⟨0, 0⟩).slabs b')
    rw [hslab b' hmade']
    exact h.retired b' hmade' (fun hmem => hnot (List.mem_cons_of_mem b hmem)) hne
  · refine List.forall_mem_cons.mpr ⟨?_, fun b' hmade => ?_⟩
    · have hzero : countIn live b = 0 := by
        refine List.countP_eq_zero.mpr fun e he => ?_
        rw [decide_eq_true_iff]
        exact hother _ (h.placed e he).made
      change ((a.setSlab b ⟨0, 0⟩).slabs b).liveElems = countIn live b
      rw [setSlab_self, hzero]
    · change ((a.setSlab b ⟨0, 0⟩).slabs b').liveElems = countIn live b'
      rw [hslab b' hmade]
      exact h.counts b' hmade
  · intro e he
    have hplaced := h.placed e he
    refine ⟨hplaced.size, List.mem_cons_of_mem b hplaced.made, hplaced.first, ?_, hplaced.last⟩
    change _ ≤ _ + ((a.setSlab b ⟨0, 0⟩).slabs (slabOf e.ptr)).usedBytes
    rw [hslab _ hplaced.made]
    exact hplaced.used
  · exact h.apart

/-- A slab of the free list is filled next. -/
theorem Ledger.next {freeList : List ℕ} (h : Ledger a live none) (hfree : a.freeList = b :: freeList) :
    Ledger { a with curSlab := b, freeList := freeList, liveSlabs := a.liveSlabs + 1 } live (some b) := by
  have hmem : b ∈ a.freeList := hfree ▸ List.mem_cons_self
  have hsub : ∀ b' ∈ freeList, b' ∈ a.freeList := fun b' hb' => hfree ▸ List.mem_cons_of_mem b hb'
  have hnodup := h.pool.free
  rw [hfree] at hnodup
  obtain ⟨hnot, hnodup⟩ := List.nodup_cons.mp hnodup
  constructor
  · have hsum := h.pool.liveSlabs
    rw [hfree, List.length_cons] at hsum
    refine ⟨h.pool.ne_zero, h.pool.aligned, h.pool.inside, h.pool.made,
      fun b' hb' => h.pool.free_made b' (hsub b' hb'), hnodup, ?_⟩
    change a.liveSlabs + 1 + freeList.length = a.made.length
    omega
  · intro b' hsome
    cases hsome
    exact ⟨h.pool.free_made b hmem, hnot⟩
  · exact fun b' hb' => h.cleared b' (hsub b' hb')
  · intro b' hsome
    cases hsome
    change Open (a.slabs b)
    rw [h.cleared b hmem]
    exact ⟨Nat.le_refl 0, by decide, fun _ => rfl⟩
  · intro b' hmade hnot' hne
    refine h.retired b' hmade (fun hmem' => ?_) fun hnone => nomatch hnone
    rw [hfree] at hmem'
    cases List.mem_cons.mp hmem' with
    | inl heq => exact hne (heq ▸ rfl)
    | inr hmem' => exact hnot' hmem'
  · exact h.counts
  · intro e he
    have hplaced := h.placed e he
    exact ⟨hplaced.1, hplaced.2, hplaced.3, hplaced.4, hplaced.5⟩
  · exact h.apart

/-- The counters of a slab and of the allocator do not wrap. -/
theorem add32_of_lt {x y : ℕ} (h : x + y < 2 ^ 32) : add32 x y = x + y := Nat.mod_eq_of_lt h

theorem pred32_of_pos {x : ℕ} (hpos : 0 < x) (h : x < 2 ^ 32) : pred32 x = x - 1 := by
  unfold pred32
  omega

theorem Pool.liveSlabs_lt (h : Pool a) : a.liveSlabs + 1 < 2 ^ 32 := by
  have hle := h.length_le
  have hsum := h.liveSlabs
  omega

theorem Ledger.usedBytes_lt (h : Ledger a live (some b)) (hsz : sz < bufSize) :
    (a.slabs b).usedBytes + sz < 2 ^ 32 := by
  have hroom := (h.opened b rfl).room
  unfold bufSize slabSize at *
  omega

theorem Ledger.liveElems_lt (h : Ledger a live filling) (hb : b ∈ a.made) :
    (a.slabs b).liveElems < bufSize := by
  by_cases hfree : b ∈ a.freeList
  · rw [h.cleared b hfree]
    decide
  · by_cases hfilling : filling = some b
    · have hopen := h.opened b hfilling
      exact Nat.lt_of_le_of_lt hopen.counted hopen.room
    · exact (h.retired b hb hfree hfilling).counted

/-- `Slab::alloc` puts the element into the slab, or finds that it is too large. -/
theorem Slab.alloc_ends {E : SlabFailure → Prop} (h : Ledger a live (some b)) (hsz : sz < bufSize)
    (Q : Option ℕ → SlabAlloc → Prop) : ends E (Slab.alloc b sz) Q a ↔
      if (a.slabs b).usedBytes + sz < bufSize then
        Q (some (b + headerSize + (a.slabs b).usedBytes))
          (a.setSlab b ⟨(a.slabs b).liveElems + 1, (a.slabs b).usedBytes + sz⟩)
      else Q none (a.setSlab b ⟨(a.slabs b).liveElems, (a.slabs b).usedBytes + sz⟩) := by
  have hlive := h.liveElems_lt (h.filling_made b rfl).1
  have hcount : (a.slabs b).liveElems + 1 < 2 ^ 32 := by
    unfold bufSize slabSize at hlive
    omega
  simp only [Slab.alloc, modifySlab, ends_bind, ends_observe, ends_change, ends_ite, ends_pure,
    add32_of_lt (h.usedBytes_lt hsz), add32_of_lt hcount, SlabAlloc.setSlab, Function.update_self,
    Function.update_idem]

/-- What `allocSlab` leaves behind: an empty current slab, and no further free slabs. -/
def Renewed (a : SlabAlloc) (live : List Elem) (a' : SlabAlloc) : Prop :=
  Ledger a' live (some a'.curSlab) ∧ a'.slabs a'.curSlab = ⟨0, 0⟩ ∧ ∀ b ∈ a'.freeList, b ∈ a.freeList

theorem allocSlab_ends (h : Ledger a live none) (hheap : ∀ b ∈ heap, Answers a.made b) :
    ends (fun e => e = .outOfMemory) (allocSlab heap) (fun _ a' => Renewed a live a') a := by
  have hlive := add32_of_lt (y := 1) (Nat.lt_of_le_of_lt (Nat.le_refl _) h.pool.liveSlabs_lt)
  unfold allocSlab
  simp only [ends_bind, ends_observe, ends_change]
  cases hfree : a.freeList with
  | cons b freeList =>
    have hmem : b ∈ a.freeList := hfree ▸ List.mem_cons_self
    have hne := h.pool.ne_zero b (h.pool.free_made b hmem)
    simp only [nextSlab, ends_bind, ends_change, ends_ensure]
    refine ⟨fun _ => ?_, fun hzero => (hzero hne).elim⟩
    rw [hlive]
    exact ⟨h.next hfree, h.cleared b hmem, fun b' hb' => hfree ▸ List.mem_cons_of_mem b hb'⟩
  | nil =>
    cases heap with
    | none =>
      simp only [nextSlab, gmMemalign, ends_bind, ends_ensure, ends_abort]
      exact ⟨fun _ => trivial, fun hlayout => (hlayout rfl).elim⟩
    | some b =>
      have hanswers := hheap b rfl
      have halign : slabOf b = b :=
        slabOf_eq hanswers.aligned (Nat.le_refl b) (Nat.lt_add_of_pos_right (by decide))
      simp only [nextSlab, gmMemalign, clear, modifySlab, ends_bind, ends_ensure, ends_change, ends_pure]
      refine ⟨fun _ => ⟨fun _ => ?_, fun hne => (hne halign).elim⟩, fun hlayout => (hlayout rfl).elim⟩
      have hnext := @Ledger.next _ live b [] (h.supply hanswers) (congrArg (b :: ·) hfree)
      refine ⟨?_, setSlab_self, fun b' hb' => hfree ▸ hb'⟩
      change Ledger ⟨b, a.freeList, add32 a.liveSlabs 1, Function.update a.slabs b ⟨0, 0⟩, b :: a.made⟩
        live (some b)
      rw [hlive, hfree]
      exact hnext

/-- `alloc` adds an element of the size asked for, and takes no slab out of use. -/
theorem alloc_ends (h : Ledger a live (some a.curSlab)) (hpos : 0 < sz) (hsz : sz < bufSize)
    (hheap : ∀ b ∈ heap, Answers a.made b) :
    ends (fun e => e = .outOfMemory) (alloc sz heap) (fun ptr a' =>
      Ledger a' (⟨ptr, sz⟩ :: live) (some a'.curSlab) ∧ ∀ b ∈ a'.freeList, b ∈ a.freeList) a := by
  have hsize : sz < slabSize := by
    unfold bufSize at hsz
    omega
  simp only [alloc, ends_bind, ends_ensure, ends_observe, Slab.alloc_ends h hsz]
  refine ⟨fun _ => ?_, fun hlarge => (hlarge hsize).elim⟩
  split
  · next hroom =>
    simp only [retry, ends_pure]
    refine ⟨fun _ => ⟨h.fill hpos hroom, fun b hb => hb⟩, fun hstray => (hstray ?_).elim⟩
    exact h.slabOf_new (Nat.lt_of_le_of_lt (Nat.le_add_right ..) hroom)
  · next hfull =>
    have hretired := h.retire hsz (Nat.le_of_not_lt hfull)
    simp only [retry, ends_bind]
    refine ends_mono (allocSlab_ends hretired hheap) fun _ a' hrenewed => ?_
    obtain ⟨hledger, hempty, hfree⟩ := hrenewed
    have hroom : (a'.slabs a'.curSlab).usedBytes + sz < bufSize := by
      rw [hempty]
      exact Nat.lt_of_le_of_lt (Nat.le_of_eq (Nat.zero_add sz)) hsz
    simp only [ends_observe, Slab.alloc_ends hledger hsz, if_pos hroom, ends_pure]
    refine ⟨fun _ => ⟨hledger.fill hpos hroom, hfree⟩, fun hstray => (hstray ?_).elim⟩
    exact hledger.slabOf_new (Nat.lt_of_le_of_lt (Nat.le_add_right ..) hroom)

theorem countIn_eq_zero : countIn live b = 0 ↔ ∀ e ∈ live, slabOf e.ptr ≠ b := by
  simp only [countIn, List.countP_eq_zero, decide_eq_true_iff, ne_eq]

/-- A slab that has elements has used a byte for each of them. -/
theorem Ledger.counted_le (h : Ledger a live filling) (hb : b ∈ a.made) :
    countIn live b ≤ (a.slabs b).usedBytes := by
  rw [← h.counts b hb]
  by_cases hfree : b ∈ a.freeList
  · have hclear := h.cleared b hfree
    simp only [hclear, Nat.le_refl]
  · by_cases hfilling : filling = some b
    · exact (h.opened b hfilling).counted
    · have hretired := h.retired b hb hfree hfilling
      exact Nat.le_of_lt (Nat.lt_of_lt_of_le hretired.counted hretired.full)

/-- The given slab, when it is not the current one, is free from now on if it is empty. -/
def Recycles (a a' : SlabAlloc) (live' : List Elem) (b : ℕ) : Prop :=
  ∀ b', b' ∈ a'.freeList ∧ b' ∉ a.freeList ↔ b' = b ∧ b' ≠ a.curSlab ∧ countIn live' b' = 0

theorem recycles_of_eq {a' : SlabAlloc} (heq : a'.freeList = a.freeList)
    (hnot : b ≠ a.curSlab → countIn live' b ≠ 0) : Recycles a a' live' b := by
  intro b'
  constructor
  · intro hb'
    exact (hb'.2 (heq ▸ hb'.1)).elim
  · intro hb'
    obtain ⟨rfl, hne, hzero⟩ := hb'
    exact (hnot hne hzero).elim

/-- The only element of the current slab is freed, or that of another slab. -/
theorem freeSlab_ends {E : SlabFailure → Prop} (h : Ledger a live (some a.curSlab)) (he : e ∈ live)
    (hb : slabOf e.ptr = b) (hlast : (a.slabs b).liveElems = 1) :
    ends E (freeSlab b) (fun _ a' =>
      Ledger a' (live.erase e) (some a'.curSlab) ∧ Recycles a a' (live.erase e) b) (a.setSlab b x) := by
  have hmade : b ∈ a.made := hb ▸ (h.placed e he).made
  have hfree : b ∉ a.freeList := by
    intro hmem
    rw [h.cleared b hmem] at hlast
    cases hlast
  obtain ⟨hcurMade, hcurFree⟩ := h.filling_made a.curSlab rfl
  have hclear : (a.setSlab b x).setSlab b ⟨0, 0⟩ = a.setSlab b ⟨0, 0⟩ := by
    simp only [SlabAlloc.setSlab, Function.update_idem]
  have hcount : countIn (live.erase e) b = 0 := by
    have herase := @countIn_erase live b e he
    rw [if_pos hb, ← h.counts b hmade] at herase
    omega
  simp only [freeSlab, clear, modifySlab, ends_bind, ends_change, ends_observe, ends_ite,
    ends_ensure, hclear]
  split
  · next hne =>
    have hne : b ≠ a.curSlab := hne
    have htwo := h.pool.live_le [a.curSlab, b] (by simpa using hne.symm) (by simp [hcurMade, hmade])
      (by simp [hcurFree, hfree])
    have hlt := h.pool.liveSlabs_lt
    simp only [List.length_cons, List.length_nil] at htwo
    have hpred : pred32 a.liveSlabs = a.liveSlabs - 1 := pred32_of_pos (by omega) (by omega)
    have hlive : a.liveSlabs - 1 ≠ 0 := by omega
    have hreleased := h.release he hb hlast fun hsome => hne (Option.some.inj hsome).symm
    rw [← hpred] at hreleased hlive
    refine ⟨fun _ => ⟨hreleased, fun b' => ?_⟩, fun hzero => (hzero hlive).elim⟩
    constructor
    · intro hb'
      have heq : b' = b := by
        by_contra hne'
        exact hb'.2 (List.mem_of_ne_of_mem hne' hb'.1)
      subst heq
      exact ⟨rfl, hne, hcount⟩
    · intro hb'
      obtain ⟨rfl, -, -⟩ := hb'
      exact ⟨List.mem_cons_self, hfree⟩
  · next heq =>
    have heq : b = a.curSlab := Decidable.not_not.mp heq
    have hone := h.pool.live_le [b] (List.nodup_singleton b) (by simpa using hmade)
      (by simpa using hfree)
    rw [List.length_singleton] at hone
    refine ⟨fun _ => ⟨h.drop he hb hlast.symm rfl fun _ => congrArg some heq.symm,
      recycles_of_eq rfl fun hne => (hne heq).elim⟩, fun hzero => (hzero ?_).elim⟩
    exact Nat.ne_of_gt hone

/-- An element is freed, unless its slab has used one byte for each of its elements. -/
theorem freeElem_ends (h : Ledger a live (some a.curSlab)) (he : e ∈ live) (hb : slabOf e.ptr = b) :
    ends (fun failure => failure = .badLiveElems ∧ (a.slabs b).usedBytes = countIn live b)
      (freeElem e.ptr) (fun _ a' => (a.slabs b).usedBytes ≠ countIn live b ∧
        Ledger a' (live.erase e) (some a'.curSlab) ∧ Recycles a a' (live.erase e) b) a := by
  have hmade : b ∈ a.made := hb ▸ (h.placed e he).made
  have hcount := h.counts b hmade
  have hpos := countIn_pos he
  rw [hb, ← hcount] at hpos
  have hle := h.counted_le hmade
  have hlt := h.liveElems_lt hmade
  have hpred : pred32 (a.slabs b).liveElems = (a.slabs b).liveElems - 1 :=
    pred32_of_pos hpos (Nat.lt_trans hlt (by decide))
  simp only [freeElem, Slab.freeElem, modifySlab, ends_bind, ends_observe, ends_change, setSlab_self,
    ends_ensure, ends_ite, ends_pure, hb, hpred]
  rw [← hcount] at hle ⊢
  refine ⟨fun hensure => ?_, fun hnot => ⟨trivial, by omega⟩⟩
  have hne : (a.slabs b).usedBytes ≠ (a.slabs b).liveElems := Nat.ne_of_gt hensure.2
  split
  · next hlast =>
    exact ends_mono (freeSlab_ends h he hb hlast) fun _ a' hfreed => ⟨hne, hfreed⟩
  · next hmore =>
    have hrest : (a.slabs b).liveElems - 1 ≠ 0 := by omega
    refine ⟨hne, h.drop he hb (Nat.sub_add_cancel hpos) (if_neg hrest).symm fun hzero => (hrest hzero).elim,
      recycles_of_eq rfl fun _ => ?_⟩
    have herase := @countIn_erase live b e he
    rw [if_pos hb, ← hcount] at herase
    omega

end Ledgers

section Runs

/-- What a client relies on. -/
structure Correct (s : Heap) : Prop where
  inside : ∀ e ∈ s.live, slabOf e.ptr ∈ s.alloc.made ∧ slabOf e.ptr + headerSize ≤ e.ptr ∧
    e.ptr + e.size ≤ slabOf e.ptr + headerSize + bufSize
  apart : s.live.Pairwise Apart
  counts : ∀ b ∈ s.alloc.made, (s.alloc.slabs b).liveElems = countIn s.live b
  made : s.alloc.made.Nodup
  free : s.alloc.freeList.Nodup
  free_made : ∀ b ∈ s.alloc.freeList, b ∈ s.alloc.made ∧ countIn s.live b = 0
  current : s.alloc.curSlab ∈ s.alloc.made ∧ s.alloc.curSlab ∉ s.alloc.freeList
  /-- A slab that is neither free nor the current one becomes free with its last element. -/
  kept : ∀ b ∈ s.alloc.made, b ∉ s.alloc.freeList → b ≠ s.alloc.curSlab → 0 < countIn s.live b
  liveSlabs : s.alloc.liveSlabs = s.alloc.made.countP fun b => b ∉ s.alloc.freeList

/-- A slab is put on the free list when it is not the current one and its last element is freed,
and only then. -/
def FreesDrained (s : Heap) (op : Op) (s' : Heap) : Prop :=
  ∀ b, b ∈ s'.alloc.freeList ∧ b ∉ s.alloc.freeList ↔
    ∃ e, op = .freeElem e ∧ slabOf e.ptr = b ∧ b ≠ s.alloc.curSlab ∧ ∀ e' ∈ s'.live, slabOf e'.ptr ≠ b

/-- No assertion fails, and the elements and the slabs are in order. -/
def Meets : Except SlabFailure Heap → Op → Except SlabFailure Heap → Prop
  | .ok s, op, .ok s' => Correct s' ∧ FreesDrained s op s'
  | .ok _, _, .error e => e = .outOfMemory
  | .error _, _, _ => False

/-- The slab of an element to be freed has used more than one byte for each of its elements. -/
def Spare : Except SlabFailure Heap → Op → Prop
  | .ok s, .freeElem e => (s.alloc.slabs (slabOf e.ptr)).usedBytes ≠ countIn s.live (slabOf e.ptr)
  | _, _ => True

instance : ∀ (r : Except SlabFailure Heap) (op : Op), Decidable (Spare r op)
  | .ok s, .freeElem e =>
    inferInstanceAs (Decidable ((s.alloc.slabs (slabOf e.ptr)).usedBytes ≠ countIn s.live (slabOf e.ptr)))
  | .ok _, .alloc _ _ => isTrue trivial
  | .error _, _ => isTrue trivial

/-- The invariant of an allocator and its elements. -/
def Sound (s : Heap) : Prop := Ledger s.alloc s.live (some s.alloc.curSlab)

/-- The invariant, up to a failure. -/
def SoundUntilFailure (r : Except SlabFailure Heap) : Prop := ∀ s, r = .ok s → Sound s

variable {s : Heap} {r r' : Except SlabFailure Heap} {op : Op} {sz : ℕ} {heap : Option ℕ} {e : Elem}

/-- The slabs that are not on the free list. -/
theorem Pool.countP_live {a : SlabAlloc} (h : Pool a) :
    a.liveSlabs = a.made.countP fun b => b ∉ a.freeList := by
  have hperm : (a.made.filter (· ∈ a.freeList)).Perm a.freeList := by
    refine (List.perm_ext_iff_of_nodup (h.made.filter _) h.free).mpr fun b => ?_
    rw [List.mem_filter, decide_eq_true_iff]
    exact ⟨fun hb => hb.2, fun hb => ⟨h.free_made b hb, hb⟩⟩
  have hlength := hperm.length_eq
  have hsplit := List.length_eq_countP_add_countP (l := a.made) fun b => decide (b ∈ a.freeList)
  have hsum := h.liveSlabs
  rw [← List.countP_eq_length_filter] at hlength
  simp only [decide_eq_true_iff] at hsplit
  omega

theorem Sound.correct (h : Sound s) : Correct s where
  inside e he := by
    have hplaced := h.placed e he
    refine ⟨hplaced.made, hplaced.first, ?_⟩
    have hlast := hplaced.last
    unfold headerSize bufSize slabSize at *
    omega
  apart := h.apart
  counts := h.counts
  made := h.pool.made
  free := h.pool.free
  free_made b hb := by
    have hmade := h.pool.free_made b hb
    rw [← h.counts b hmade, h.cleared b hb]
    exact ⟨hmade, rfl⟩
  current := h.filling_made _ rfl
  kept b hmade hfree hne := by
    rw [← h.counts b hmade]
    exact (h.retired b hmade hfree fun hsome => hne (Option.some.inj hsome).symm).pos
  liveSlabs := h.pool.countP_live

theorem step_alloc (h : Sound s) (hs : step (.ok s) (.alloc sz heap) = some r') :
    r' = .error .outOfMemory ∨
      ∃ s', r' = .ok s' ∧ Sound s' ∧ ∀ b ∈ s'.alloc.freeList, b ∈ s.alloc.freeList := by
  simp only [step] at hs
  split at hs
  · next hlegal =>
    have hends := alloc_ends h hlegal.1 hlegal.2.1 hlegal.2.2
    unfold ends at hends
    cases hs
    cases hm : alloc sz heap s.alloc with
    | error failure =>
      rw [hm] at hends
      exact Or.inl (congrArg Except.error hends)
    | ok x =>
      rw [hm] at hends
      exact Or.inr ⟨_, rfl, hends⟩
  · cases hs

theorem step_freeElem (h : Sound s) (hs : step (.ok s) (.freeElem e) = some r') :
    (r' = .error .badLiveElems ∧ ¬ Spare (.ok s) (.freeElem e)) ∨
      ∃ s', r' = .ok s' ∧ Spare (.ok s) (.freeElem e) ∧ Sound s' ∧ FreesDrained s (.freeElem e) s' := by
  simp only [step] at hs
  split at hs
  · next hlive =>
    have hends := freeElem_ends h hlive rfl
    unfold ends at hends
    cases hs
    cases hm : freeElem e.ptr s.alloc with
    | error failure =>
      rw [hm] at hends
      exact Or.inl ⟨congrArg Except.error hends.1, fun hspare => hspare hends.2⟩
    | ok x =>
      rw [hm] at hends
      obtain ⟨hspare, hsound, hrecycles⟩ := hends
      refine Or.inr ⟨_, rfl, hspare, hsound, fun b => (hrecycles b).trans ?_⟩
      constructor
      · intro hb
        exact ⟨e, rfl, hb.1.symm, hb.2.1, countIn_eq_zero.mp hb.2.2⟩
      · intro hb
        obtain ⟨e', heq, hslab, hne, hlast⟩ := hb
        cases heq
        exact ⟨hslab.symm, hne, countIn_eq_zero.mpr hlast⟩
  · cases hs

/-- A step is as it should be exactly when the condition holds, and then it keeps the invariant. -/
theorem step_meets (h : SoundUntilFailure r) (hs : step r op = some r') :
    (Meets r op r' ↔ Spare r op) ∧ (Spare r op → SoundUntilFailure r') := by
  cases r with
  | error failure => cases hs
  | ok s =>
    have hsound := h s rfl
    cases op with
    | alloc sz heap =>
      cases step_alloc hsound hs with
      | inl herror =>
        subst herror
        exact ⟨⟨fun _ => trivial, fun _ => rfl⟩, fun _ s' hs' => nomatch hs'⟩
      | inr hok =>
        obtain ⟨s', rfl, hsound', hfree⟩ := hok
        refine ⟨⟨fun _ => trivial, fun _ => ⟨hsound'.correct, fun b => ?_⟩⟩, fun _ s₁ hs₁ => ?_⟩
        · constructor
          · intro hb
            exact (hb.2 (hfree b hb.1)).elim
          · intro hb
            obtain ⟨e, heq, -⟩ := hb
            cases heq
        · cases hs₁
          exact hsound'
    | freeElem e =>
      cases step_freeElem hsound hs with
      | inl herror =>
        obtain ⟨rfl, hspare⟩ := herror
        exact ⟨⟨fun hmeets => (nomatch hmeets), fun h => (hspare h).elim⟩, fun h => (hspare h).elim⟩
      | inr hok =>
        obtain ⟨s', rfl, hspare, hsound', hfrees⟩ := hok
        refine ⟨⟨fun _ => hspare, fun _ => ⟨hsound'.correct, hfrees⟩⟩, fun _ s₁ hs₁ => ?_⟩
        cases hs₁
        exact hsound'

/-- Before its first slab an allocator has neither slabs nor elements. -/
theorem ledger_empty (memory : ℕ → Slab) : Ledger ⟨0, [], 0, memory, []⟩ [] none where
  pool := ⟨nofun, nofun, nofun, List.nodup_nil, nofun, List.nodup_nil, rfl⟩
  filling_made _ hb := nomatch hb
  cleared := nofun
  opened _ hb := nomatch hb
  retired := nofun
  counts := nofun
  placed := nofun
  apart := .nil

theorem start_sound {memory : ℕ → Slab} (hheap : ∀ b ∈ heap, Answers [] b) :
    Heap.start memory heap = .error .outOfMemory ∨
      ∃ s, Heap.start memory heap = .ok s ∧ Sound s ∧ s.live = [] := by
  have hends := allocSlab_ends (ledger_empty memory) hheap
  unfold ends at hends
  unfold Heap.start construct
  cases hm : allocSlab heap ⟨0, [], 0, memory, []⟩ with
  | error failure =>
    rw [hm] at hends
    exact Or.inl (congrArg Except.error hends)
  | ok x =>
    rw [hm] at hends
    exact Or.inr ⟨_, rfl, hends.1, rfl⟩

/-- In every run from a new allocator, no assertion fails and the elements and the slabs stay
in order exactly when no element is freed whose slab has used one byte for each of its
elements. -/
theorem allocator_correct (memory : ℕ → Slab) (heap : Option ℕ) (hheap : ∀ b ∈ heap, Answers [] b)
    (ops : List Op) :
    (Heap.start memory heap = .error .outOfMemory ∨
        ∃ s, Heap.start memory heap = .ok s ∧ Correct s ∧ s.live = []) ∧
      (EveryStep step Meets (Heap.start memory heap) ops ↔
        EveryStep step (fun r op _ => Spare r op) (Heap.start memory heap) ops) := by
  have hstart := @start_sound heap memory hheap
  constructor
  · cases hstart with
    | inl herror => exact Or.inl herror
    | inr hok =>
      obtain ⟨s, hs, hsound, hlive⟩ := hok
      exact Or.inr ⟨s, hs, hsound.correct, hlive⟩
  · refine @everyStep_iff _ _ _ _ _ SoundUntilFailure (fun r op r' h hs => (step_meets h hs).1)
      (fun r op r' h hspare hs => (step_meets h hs).2 hspare) _ _ fun s hs => ?_
    cases hstart with
    | inl herror => rw [herror] at hs; cases hs
    | inr hok =>
      obtain ⟨s', hs', hsound, -⟩ := hok
      rw [hs'] at hs
      cases hs
      exact hsound

/-- Two events share a slab, and both are freed. -/
theorem events_meet : EveryStep step Meets (Heap.start (fun _ => ⟨7, 9⟩) (some 65536))
    [.alloc 64 none, .alloc 48 none, .freeElem ⟨65552, 64⟩, .freeElem ⟨65616, 48⟩] := by
  refine (allocator_correct (fun _ => ⟨7, 9⟩) (some 65536) ?_ _).2.mpr ?_
  · intro b hb
    cases hb
    decide
  · exact .cons rfl trivial (.cons rfl trivial (.cons rfl (by decide) (.cons rfl (by decide) trivial)))

def failureOf : Except SlabFailure Heap → Option SlabFailure
  | .ok _ => none
  | .error e => some e

/-- One byte is handed out and given back. -/
theorem byte_not_freed : ¬ EveryStep step Meets (Heap.start (fun _ => ⟨0, 0⟩) (some 65536))
    ([.alloc 1 none] ++ [.freeElem ⟨65552, 1⟩]) := by
  intro hmeets
  have hfails : (run step (Heap.start (fun _ => ⟨0, 0⟩) (some 65536))
      ([.alloc 1 none] ++ [.freeElem ⟨65552, 1⟩])).bind failureOf = some .badLiveElems := by decide +kernel
  obtain ⟨r, r', hstep, hlast, hfailure⟩ := hmeets.last hfails
  cases r with
  | error e => cases hstep
  | ok s =>
    cases r' with
    | ok s' => cases hfailure
    | error e =>
      cases hfailure
      cases hlast

end Runs
end Zsim.SlabRuns
