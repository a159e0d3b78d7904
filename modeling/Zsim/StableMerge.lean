import Mathlib.Data.List.Perm.Subperm
import Mathlib.Data.List.Pairwise
import Mathlib.Logic.Function.Basic
import Mathlib.Order.Basic

/-!
# Merging sources that are read piecemeal

Records arrive in one stream. Those of each source wait in a queue of their
own, and are written from the heads of the queues, the least key first, as
long as no source of a record still to come has an empty queue. If each source
arrives in order, what has been written is never above what is still to be
written, so the merge is sorted and keeps the order of each source.
-/

namespace Zsim.StableMerge

variable {α ι κ : Type} [DecidableEq ι] [Preorder κ] {src : α → ι} {key : α → κ}

/-- The stream, the queues and what has been written. -/
structure State (α ι : Type) where
  unread : List α
  queue : ι → List α
  out : List α

/-- Nothing is read yet. -/
def start (ι : Type) (input : List α) : State α ι := ⟨input, fun _ => [], []⟩

/-- The first record of the stream enters its queue. -/
def State.read (src : α → ι) (s : State α ι) (x : α) (unread : List α) : State α ι :=
  { s with unread := unread, queue := Function.update s.queue (src x) (s.queue (src x) ++ [x]) }

/-- The head of a queue is written. -/
def State.write (s : State α ι) (c : ι) (x : α) (xs : List α) : State α ι :=
  { s with queue := Function.update s.queue c xs, out := s.out ++ [x] }

/-- The records of one source. -/
def ofSource (src : α → ι) (c : ι) (l : List α) : List α := l.filter fun x => src x = c

/-- Each source is in order. -/
def SourceSorted (src : α → ι) (key : α → κ) (l : List α) : Prop :=
  ∀ c, (ofSource src c l).Pairwise fun x y => key x ≤ key y

/-- What the merge keeps. -/
structure Inv (src : α → ι) (key : α → κ) (input : List α) (s : State α ι) : Prop where
  /-- Written, queued and unread, the records of a source are those of the input. -/
  kept : ∀ c, ofSource src c s.out ++ s.queue c ++ ofSource src c s.unread = ofSource src c input
  own : ∀ c, ∀ x ∈ s.queue c, src x = c
  sorted : s.out.Pairwise fun x y => key x ≤ key y
  low : ∀ x ∈ s.out, (∀ c, ∀ y ∈ s.queue c, key x ≤ key y) ∧ ∀ y ∈ s.unread, key x ≤ key y

section Steps

variable {input : List α} {s : State α ι} {x : α} {xs : List α} {c : ι}

theorem inv_start (input : List α) : Inv src key input (start ι input) :=
  ⟨fun _ => rfl, fun _ _ => nofun, List.Pairwise.nil, fun _ => nofun⟩

/-- The queues after a read. -/
theorem mem_queue_read {unread : List α} {y : α} (hy : y ∈ (s.read src x unread).queue c) :
    y ∈ s.queue c ∨ (y = x ∧ c = src x) := by
  simp only [State.read] at hy
  by_cases hc : c = src x
  · subst hc
    rw [Function.update_self] at hy
    rcases List.mem_append.mp hy with hy | hy
    · exact .inl hy
    · exact .inr ⟨List.mem_singleton.mp hy, rfl⟩
  · rw [Function.update_of_ne hc] at hy
    exact .inl hy

/-- Reading moves a record from the stream to the end of its queue. -/
theorem Inv.read (h : Inv src key input s) {unread : List α} (hs : s.unread = x :: unread) :
    Inv src key input (s.read src x unread) := by
  refine ⟨fun c => ?_, fun c y hy => ?_, h.sorted, fun y hy => ⟨fun c z hz => ?_, fun z hz => ?_⟩⟩
  · have hkept := h.kept c
    rw [hs] at hkept
    by_cases hc : c = src x
    · subst hc
      rw [ofSource, ofSource, List.filter_cons_of_pos (by simp)] at hkept
      simpa [State.read, ofSource] using hkept
    · rw [ofSource, ofSource, List.filter_cons_of_neg (by simpa using Ne.symm hc)] at hkept
      simpa [State.read, ofSource, Function.update_of_ne hc] using hkept
  · rcases mem_queue_read hy with hy | ⟨rfl, hc⟩
    · exact h.own c y hy
    · exact hc.symm
  · obtain ⟨hqueued, hunread⟩ := h.low y hy
    rcases mem_queue_read hz with hz | ⟨rfl, -⟩
    · exact hqueued c z hz
    · exact hunread z (hs ▸ List.mem_cons_self)
  · exact (h.low y hy).2 z (hs ▸ List.mem_cons_of_mem x hz)

/-- What waits is of the input. -/
theorem Inv.mem_input (h : Inv src key input s) (hx : x ∈ s.queue (src x) ∨ x ∈ s.unread) : x ∈ input := by
  suffices hmem : x ∈ ofSource src (src x) input from (List.mem_filter.mp hmem).1
  rw [← h.kept (src x), List.mem_append, List.mem_append]
  rcases hx with hx | hx
  · exact .inl (.inr hx)
  · exact .inr (List.mem_filter.mpr ⟨hx, by simp⟩)

/-- What waits of a source, queued or unread, is in order. -/
theorem Inv.waiting_sorted (h : Inv src key input s) (hinput : SourceSorted src key input) (c : ι) :
    (s.queue c ++ ofSource src c s.unread).Pairwise fun x y => key x ≤ key y := by
  have hsorted := hinput c
  rw [← h.kept c, List.append_assoc] at hsorted
  exact (List.pairwise_append.mp hsorted).2.1

/-- The least head may be written once no record to come has an empty queue. -/
theorem Inv.write (h : Inv src key input s) (hinput : SourceSorted src key input) (hc : s.queue c = x :: xs)
    (hleast : ∀ d y, (s.queue d).head? = some y → key x ≤ key y) (hready : ∀ y ∈ s.unread, s.queue (src y) ≠ []) :
    Inv src key input (s.write c x xs) := by
  have hown : src x = c := h.own c x (hc ▸ List.mem_cons_self)
  -- a head is below all that waits of its source
  have hbelow : ∀ d, s.queue d ≠ [] → ∀ y ∈ s.queue d ++ ofSource src d s.unread, key x ≤ key y := by
    intro d hd y hy
    obtain ⟨z, zs, hz⟩ := List.exists_cons_of_ne_nil hd
    have hxz := hleast d z (by rw [hz]; rfl)
    have hsorted := h.waiting_sorted hinput d
    rw [hz, List.cons_append] at hsorted hy
    rcases List.mem_cons.mp hy with rfl | hy
    · exact hxz
    · exact hxz.trans ((List.pairwise_cons.mp hsorted).1 y hy)
  have hunread : ∀ y ∈ s.unread, key x ≤ key y := fun y hy =>
    hbelow (src y) (hready y hy) y (List.mem_append_right _ (List.mem_filter.mpr ⟨hy, by simp⟩))
  have hqueued : ∀ d, ∀ y ∈ Function.update s.queue c xs d, y ∈ s.queue d := by
    intro d y hy
    by_cases hd : d = c
    · subst hd
      rw [Function.update_self] at hy
      exact hc ▸ List.mem_cons_of_mem x hy
    · rwa [Function.update_of_ne hd] at hy
  refine ⟨fun d => ?_, fun d y hy => h.own d y (hqueued d y hy), ?_, fun y hy => ?_⟩
  · have hkept := h.kept d
    by_cases hd : d = c
    · subst hd
      rw [hc] at hkept
      simpa [State.write, ofSource, hown] using hkept
    · have hne : ¬ src x = d := fun hx => hd (hx.symm.trans hown)
      simpa [State.write, ofSource, Function.update_of_ne hd, hne] using hkept
  · refine List.pairwise_append.mpr ⟨h.sorted, List.pairwise_singleton _ _, fun y hy z hz => ?_⟩
    rw [List.mem_singleton.mp hz]
    exact (h.low y hy).1 c x (hc ▸ List.mem_cons_self)
  · rcases List.mem_append.mp hy with hy | hy
    · exact ⟨fun d z hz => (h.low y hy).1 d z (hqueued d z hz), (h.low y hy).2⟩
    · rw [List.mem_singleton.mp hy]
      refine ⟨fun d z hz => ?_, hunread⟩
      have hz := hqueued d z hz
      exact hbelow d (List.ne_nil_of_mem hz) z (List.mem_append_left _ hz)

end Steps

section Results

variable [DecidableEq α] {input : List α} {s : State α ι}

theorem count_ofSource (src : α → ι) (x : α) (l : List α) : (ofSource src (src x) l).count x = l.count x := by
  rw [ofSource, List.count_filter (by simp)]

/-- What has been written, what waits of one source and what is unread fit into
the input. -/
theorem Inv.length_le (h : Inv src key input s) (c : ι) :
    s.out.length + (s.queue c).length + s.unread.length ≤ input.length := by
  have hsub : (s.out ++ s.queue c ++ s.unread).Subperm input := by
    refine List.subperm_ext_iff.mpr fun x _ => ?_
    have hcount := congrArg (List.count x) (h.kept (src x))
    rw [List.count_append, List.count_append, count_ofSource, count_ofSource, count_ofSource] at hcount
    rw [List.count_append, List.count_append]
    by_cases hc : c = src x
    · rw [hc]
      omega
    · have hnone : (s.queue c).count x = 0 := List.count_eq_zero.mpr fun hx => hc (h.own c x hx).symm
      omega
  have hlength := hsub.length_le
  rwa [List.length_append, List.length_append] at hlength

/-- When nothing waits, the merge is a sorted permutation that keeps the order
of each source. -/
theorem Inv.done (h : Inv src key input s) (hunread : s.unread = []) (hqueue : ∀ c, s.queue c = []) :
    s.out.Perm input ∧ s.out.Pairwise (fun x y => key x ≤ key y) ∧
      ∀ c, ofSource src c s.out = ofSource src c input := by
  have hkept : ∀ c, ofSource src c s.out = ofSource src c input := by
    intro c
    have hc := h.kept c
    rwa [hqueue, hunread, List.append_nil, ofSource, ofSource, List.filter_nil, List.append_nil] at hc
  refine ⟨List.perm_iff_count.mpr fun x => ?_, h.sorted, hkept⟩
  rw [← count_ofSource src x s.out, hkept, count_ofSource]

end Results

end Zsim.StableMerge
