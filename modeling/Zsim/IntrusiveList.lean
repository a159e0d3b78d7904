import Mathlib.Data.Nat.Notation
import Mathlib.Data.List.Nodup
import Mathlib.Logic.Function.Basic

/-!
# Intrusive doubly linked lists

The links are kept in the elements, together with the list that owns each of
them, so that an element is unlinked without a search. A heap maps elements to
their nodes. A list of elements is linked when the nodes point along it in both
directions; unlinking an element and linking one at the front act on that list
as erasing and consing do, and leave every other element alone.
-/

namespace Zsim.IntrusiveList

/-- `InListNode`; elements and lists are numbered. -/
@[ext] structure Node where
  next : Option ℕ
  prev : Option ℕ
  owner : Option ℕ
  deriving DecidableEq, Repr

/-- A node outside every list. -/
def Node.free : Node := ⟨none, none, none⟩

/-- The node of each element. -/
abbrev Heap := ℕ → Node

/-- `InList`. -/
structure InList where
  head : Option ℕ
  tail : Option ℕ
  elems : ℕ

def InList.empty : InList := ⟨none, none, 0⟩

def setPrev (h : Heap) (x p : Option ℕ) : Heap :=
  match x with
  | some x => Function.update h x { h x with prev := p }
  | none => h

def setNext (h : Heap) (x n : Option ℕ) : Heap :=
  match x with
  | some x => Function.update h x { h x with next := n }
  | none => h

/-- `InListNode::unlink`; nothing if the list is not the owner. -/
def unlink (h : Heap) (l e : ℕ) : Option Heap :=
  let h := setPrev h (h e).next (h e).prev
  let h := setNext h (h e).prev (h e).next
  if (h e).owner = some l then some (Function.update h e Node.free) else none

/-- `InList::remove`. -/
def remove (h : Heap) (l : ℕ) (L : InList) (e : ℕ) : Option (Heap × InList) :=
  let head := if L.head = some e then (h e).next else L.head
  let tail := if L.tail = some e then (h e).prev else L.tail
  (unlink h l e).map fun h => (h, ⟨head, tail, L.elems - 1⟩)

/-- `InList::push_front`. -/
def pushFront (h : Heap) (l : ℕ) (L : InList) (e : ℕ) : Option (Heap × InList) :=
  if h e = Node.free then
    match L.head with
    | none => some (Function.update h e { h e with owner := some l }, ⟨some e, some e, L.elems + 1⟩)
    | some x =>
      if (h x).prev = none ∧ (h x).owner = some l then
        let h := Function.update h e { h e with next := some x }
        let h := Function.update h x { h x with prev := some e }
        let h := Function.update h e { h e with owner := some l }
        some (h, ⟨some e, L.tail, L.elems + 1⟩)
      else none
  else none

/-- The nodes of `xs` point along it, from the element before it to the one
after it. -/
def Segment (h : Heap) (l : ℕ) : Option ℕ → List ℕ → Option ℕ → Prop
  | _, [], _ => True
  | p, e :: xs, n =>
    ((h e).owner = some l ∧ (h e).prev = p ∧ (h e).next = xs.head?.or n) ∧
      Segment h l (some e) xs n

/-- The list is linked, its ends are known and its elements counted. -/
structure Linked (h : Heap) (l : ℕ) (L : InList) (xs : List ℕ) : Prop where
  nodup : xs.Nodup
  segment : Segment h l none xs none
  head : L.head = xs.head?
  tail : L.tail = xs.getLast?
  elems : L.elems = xs.length

section Segments

variable {h h' : Heap} {l e : ℕ} {p n : Option ℕ} {xs ys : List ℕ}

theorem segment_congr (heq : ∀ x ∈ xs, h' x = h x) (hs : Segment h l p xs n) :
    Segment h' l p xs n := by
  induction xs generalizing p with
  | nil => trivial
  | cons e xs ih =>
    obtain ⟨he, hs⟩ := hs
    refine ⟨?_, ih (fun x hx => heq x (List.mem_cons_of_mem e hx)) hs⟩
    rw [heq e List.mem_cons_self]
    exact he

/-- A linked list can be cut anywhere. -/
theorem segment_append : Segment h l p (xs ++ ys) n ↔
    Segment h l p xs (ys.head?.or n) ∧ Segment h l (xs.getLast?.or p) ys n := by
  induction xs generalizing p with
  | nil => simp [Segment]
  | cons e xs ih =>
    simp only [List.cons_append, Segment, ih, List.head?_append, List.getLast?_cons, Option.or_assoc]
    cases xs <;> simp [and_assoc]

/-- Only the last element sees what follows. -/
theorem segment_next {n' : Option ℕ} (hnodup : xs.Nodup)
    (hlast : ∀ x, xs.getLast? = some x → h' x = { h x with next := n' })
    (hother : ∀ x ∈ xs, xs.getLast? ≠ some x → h' x = h x) (hs : Segment h l p xs n) :
    Segment h' l p xs n' := by
  induction xs generalizing p with
  | nil => trivial
  | cons e xs ih =>
    obtain ⟨⟨ho, hp, hn⟩, hs⟩ := hs
    obtain ⟨hnot, hnodup⟩ := List.nodup_cons.mp hnodup
    cases xs with
    | nil =>
      rw [Segment, hlast e rfl]
      exact ⟨⟨ho, hp, rfl⟩, trivial⟩
    | cons x xs =>
      rw [List.getLast?_cons_cons] at hlast hother
      have he : h' e = h e := hother e List.mem_cons_self fun hl =>
        hnot (List.mem_of_getLast? hl)
      refine ⟨⟨by rw [he, ho], by rw [he, hp], by rw [he, hn]; rfl⟩, ih hnodup hlast ?_ hs⟩
      exact fun y hy => hother y (List.mem_cons_of_mem e hy)

/-- Only the first element sees what comes before. -/
theorem segment_prev {p' : Option ℕ} (hnodup : xs.Nodup)
    (hfirst : ∀ x, xs.head? = some x → h' x = { h x with prev := p' })
    (hother : ∀ x ∈ xs, xs.head? ≠ some x → h' x = h x) (hs : Segment h l p xs n) :
    Segment h' l p' xs n := by
  cases xs with
  | nil => trivial
  | cons e xs =>
    obtain ⟨⟨ho, hp, hn⟩, hs⟩ := hs
    obtain ⟨hnot, -⟩ := List.nodup_cons.mp hnodup
    have he := hfirst e rfl
    refine ⟨⟨by rw [he]; exact ho, by rw [he], by rw [he]; exact hn⟩, segment_congr ?_ hs⟩
    intro x hx
    refine hother x (List.mem_cons_of_mem e hx) ?_
    rintro ⟨rfl⟩
    exact hnot hx

theorem segment_owner (hs : Segment h l p xs n) {x : ℕ} (hx : x ∈ xs) : (h x).owner = some l := by
  induction xs generalizing p with
  | nil => cases hx
  | cons e xs ih =>
    obtain ⟨⟨ho, -⟩, hs⟩ := hs
    rcases List.mem_cons.mp hx with rfl | hx
    · exact ho
    · exact ih hs hx

end Segments

section Lists

variable {h h' : Heap} {l e : ℕ} {L : InList} {xs : List ℕ}

theorem linked_empty (h : Heap) (l : ℕ) : Linked h l InList.empty [] :=
  ⟨List.nodup_nil, trivial, rfl, rfl, rfl⟩

/-- A list does not depend on the elements outside it. -/
theorem Linked.congr (hl : Linked h l L xs) (heq : ∀ x ∈ xs, h' x = h x) : Linked h' l L xs :=
  { hl with segment := segment_congr heq hl.segment }

theorem Linked.owner (hl : Linked h l L xs) {x : ℕ} (hx : x ∈ xs) : (h x).owner = some l :=
  segment_owner hl.segment hx

theorem setPrev_of_ne {x : Option ℕ} {p : Option ℕ} {y : ℕ} (hy : x ≠ some y) :
    setPrev h x p y = h y := by
  cases x with
  | none => rfl
  | some x => exact Function.update_of_ne (fun hyx => hy (congrArg some hyx.symm)) _ _

theorem setNext_of_ne {x : Option ℕ} {n : Option ℕ} {y : ℕ} (hy : x ≠ some y) :
    setNext h x n y = h y := by
  cases x with
  | none => rfl
  | some x => exact Function.update_of_ne (fun hyx => hy (congrArg some hyx.symm)) _ _

theorem setPrev_some (x : ℕ) (p : Option ℕ) : setPrev h (some x) p x = { h x with prev := p } :=
  Function.update_self ..

theorem setNext_some (x : ℕ) (n : Option ℕ) : setNext h (some x) n x = { h x with next := n } :=
  Function.update_self ..

/-- Removing an element erases it, frees its node and leaves the rest alone. -/
theorem remove_spec {pre post : List ℕ} (hl : Linked h l L (pre ++ e :: post)) :
    ∃ h' L', remove h l L e = some (h', L') ∧ Linked h' l L' (pre ++ post) ∧ h' e = Node.free ∧
      ∀ x, x ∉ pre ++ e :: post → h' x = h x := by
  obtain ⟨hnodup, hseg, hhead, htail, helems⟩ := hl
  obtain ⟨hpre, ⟨⟨ho, hp, hn⟩, hpost⟩⟩ := segment_append.mp hseg
  rw [Option.or_none] at hp hn
  rw [List.nodup_append'] at hnodup
  obtain ⟨hnpre, hnpost, hdisj⟩ := hnodup
  obtain ⟨hepost, hnpost⟩ := List.nodup_cons.mp hnpost
  have hepre : e ∉ pre := fun he => hdisj he List.mem_cons_self
  have hfirst : post.head? ≠ some e := fun he => hepost (List.mem_of_head? he)
  have hlast : pre.getLast? ≠ some e := fun he => hepre (List.mem_of_getLast? he)
  -- the neighbours of `e` are linked to each other
  set h₂ := setNext (setPrev h post.head? pre.getLast?) pre.getLast? post.head? with hh₂
  have he₂ : h₂ e = h e := by rw [hh₂, setNext_of_ne hlast, setPrev_of_ne hfirst]
  have hother : ∀ x, pre.getLast? ≠ some x → post.head? ≠ some x → h₂ x = h x := by
    intro x hx hx'
    rw [hh₂, setNext_of_ne hx, setPrev_of_ne hx']
  have hnotpost : ∀ x ∈ pre, post.head? ≠ some x := fun x hx hx' =>
    hdisj hx (List.mem_cons_of_mem e (List.mem_of_head? hx'))
  have hnotpre : ∀ x ∈ post, pre.getLast? ≠ some x := fun x hx hx' =>
    hdisj (List.mem_of_getLast? hx') (List.mem_cons_of_mem e hx)
  have hpre₂ : Segment h₂ l none pre post.head? := by
    refine segment_next hnpre (fun x hx => ?_) (fun x hx hx' => hother x hx' (hnotpost x hx)) hpre
    have hne := hnotpost x (List.mem_of_getLast? hx)
    rw [hh₂, hx, setNext_some, setPrev_of_ne hne]
  have hpost₂ : Segment h₂ l pre.getLast? post none := by
    refine segment_prev hnpost (fun x hx => ?_) (fun x hx hx' => hother x (hnotpre x hx) hx') hpost
    have hne := hnotpre x (List.mem_of_head? hx)
    rw [hh₂, setNext_of_ne hne, hx, setPrev_some]
  have hfree : ∀ x, x ≠ e → Function.update h₂ e Node.free x = h₂ x := fun x hx =>
    Function.update_of_ne hx _ _
  refine ⟨Function.update h₂ e Node.free, ⟨if L.head = some e then (h e).next else L.head,
    if L.tail = some e then (h e).prev else L.tail, L.elems - 1⟩, ?_, ⟨?_, ?_, ?_, ?_, ?_⟩,
    Function.update_self .., ?_⟩
  · simp only [remove, unlink]
    rw [hn, hp, setPrev_of_ne hfirst, hp, hn, ← hh₂, he₂, if_pos ho]
    rfl
  · exact List.nodup_append'.mpr ⟨hnpre, hnpost, fun x hx hx' => hdisj hx (List.mem_cons_of_mem e hx')⟩
  · refine segment_append.mpr ⟨?_, ?_⟩
    · rw [Option.or_none]
      exact segment_congr (fun x hx => hfree x (fun hxe => hepre (hxe ▸ hx))) hpre₂
    · rw [Option.or_none]
      exact segment_congr (fun x hx => hfree x (fun hxe => hepost (hxe ▸ hx))) hpost₂
  · dsimp only
    rw [hhead, hn]
    cases pre with
    | nil => exact if_pos rfl
    | cons a pre =>
      rw [List.cons_append, List.cons_append, List.head?_cons, List.head?_cons, if_neg]
      rintro ⟨rfl⟩
      exact hepre List.mem_cons_self
  · dsimp only
    rw [htail, hp]
    rcases List.eq_nil_or_concat post with rfl | ⟨post, z, rfl⟩
    · rw [List.getLast?_append, List.append_nil]
      exact if_pos rfl
    · rw [List.concat_eq_append, ← List.cons_append, ← List.append_assoc, ← List.append_assoc,
        List.getLast?_concat, List.getLast?_concat, if_neg]
      rintro ⟨rfl⟩
      rw [List.concat_eq_append] at hepost
      exact hepost (List.mem_append_right _ List.mem_cons_self)
  · dsimp only
    rw [helems, List.length_append, List.length_append, List.length_cons]
    omega
  · intro x hx
    rw [List.mem_append, List.mem_cons, not_or, not_or] at hx
    obtain ⟨hxpre, hxe, hxpost⟩ := hx
    rw [hfree x hxe]
    exact hother x (fun hx' => hxpre (List.mem_of_getLast? hx'))
      fun hx' => hxpost (List.mem_of_head? hx')

/-- Pushing a free element conses it and leaves the rest alone. -/
theorem pushFront_spec (hl : Linked h l L xs) (hfree : h e = Node.free) :
    ∃ h' L', pushFront h l L e = some (h', L') ∧ Linked h' l L' (e :: xs) ∧
      ∀ x, x ∉ e :: xs → h' x = h x := by
  have hnotin : e ∉ xs := by
    intro he
    have howner := hl.owner he
    rw [hfree] at howner
    cases howner
  obtain ⟨hnodup, hseg, hhead, htail, helems⟩ := hl
  cases xs with
  | nil =>
    refine ⟨Function.update h e { h e with owner := some l }, ⟨some e, some e, L.elems + 1⟩, ?_,
      ⟨List.nodup_singleton e, ?_, rfl, rfl, ?_⟩, ?_⟩
    · rw [pushFront, if_pos hfree, hhead]
      rfl
    · refine ⟨?_, trivial⟩
      rw [Function.update_self, hfree]
      exact ⟨rfl, rfl, rfl⟩
    · dsimp only
      rw [helems]
      rfl
    · intro x hx
      exact Function.update_of_ne (List.ne_of_not_mem_cons hx) _ _
  | cons x xs =>
    have hxe : x ≠ e := fun hxe => hnotin (hxe ▸ List.mem_cons_self)
    obtain ⟨⟨ho, hp, hn⟩, hrest⟩ := hseg
    set h₁ := Function.update h e { h e with next := some x } with hh₁
    set h₂ := Function.update h₁ x { h₁ x with prev := some e } with hh₂
    set h₃ := Function.update h₂ e { h₂ e with owner := some l } with hh₃
    have h₃e : h₃ e = ⟨some x, none, some l⟩ := by
      rw [hh₃, Function.update_self, hh₂, Function.update_of_ne hxe.symm, hh₁, Function.update_self,
        hfree]
      rfl
    have h₃x : h₃ x = { h x with prev := some e } := by
      rw [hh₃, Function.update_of_ne hxe, hh₂, Function.update_self, hh₁, Function.update_of_ne hxe]
    have h₃other : ∀ y, y ≠ e → y ≠ x → h₃ y = h y := by
      intro y hye hyx
      rw [hh₃, Function.update_of_ne hye, hh₂, Function.update_of_ne hyx, hh₁,
        Function.update_of_ne hye]
    refine ⟨h₃, ⟨some e, L.tail, L.elems + 1⟩, ?_, ⟨List.nodup_cons.mpr ⟨hnotin, hnodup⟩, ?_, rfl, ?_, ?_⟩,
      ?_⟩
    · rw [pushFront, if_pos hfree, hhead]
      exact if_pos ⟨hp, ho⟩
    · refine ⟨by rw [h₃e]; exact ⟨rfl, rfl, rfl⟩, ?_⟩
      refine segment_prev hnodup (fun y hy => ?_) (fun y hy hyx => ?_) ⟨⟨ho, hp, hn⟩, hrest⟩
      · cases hy
        exact h₃x
      · refine h₃other y (fun hye => hnotin (hye ▸ hy)) ?_
        rintro rfl
        exact hyx rfl
    · dsimp only
      rw [htail, List.getLast?_cons_cons]
    · dsimp only
      rw [helems]
      rfl
    · intro y hy
      exact h₃other y (List.ne_of_not_mem_cons hy)
        (List.ne_of_not_mem_cons (List.not_mem_of_not_mem_cons hy))

end Lists

end Zsim.IntrusiveList
