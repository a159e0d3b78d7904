import Zsim.IntrusiveList
import Zsim.GuardedRuns
import Mathlib.Data.List.Induction

/-!
# Runs over several intrusive lists

Six operations link elements into lists at either end or after another element
and unlink them again. Each patches the ends of its list, the neighbours and
the owner in its own order, with its own cases at the ends. In terms of the
contents they are the plain operations on lists of distinct elements, and an
assertion fails just when the plain operation is not defined.
-/

namespace Zsim.IntrusiveListRuns

open GuardedRuns IntrusiveList

/-- `InListNode::linkPrev`; none when an assertion fails. -/
def linkPrev (h : Heap) (l e p : ℕ) : Option Heap :=
  if h e = Node.free then
    match (h p).next with
    | none =>
      let h := Function.update h p { h p with next := some e }
      some (Function.update h e { h e with prev := some p, owner := some l })
    | some n =>
      if (h n).prev = some p then
        let h := Function.update h n { h n with prev := some e }
        let h := Function.update h e { h e with next := (h p).next }
        let h := Function.update h p { h p with next := some e }
        some (Function.update h e { h e with prev := some p, owner := some l })
      else none
  else none

/-- `InList::push_back`. -/
def pushBack (h : Heap) (l : ℕ) (L : InList) (e : ℕ) : Option (Heap × InList) :=
  if h e = Node.free then
    match L.head with
    | none => some (Function.update h e { h e with owner := some l }, ⟨some e, some e, L.elems + 1⟩)
    | some _ =>
      match L.tail with
      | none => none
      | some t => (linkPrev h l e t).map fun h => (h, ⟨L.head, some e, L.elems + 1⟩)
  else none

/-- `InList::pop_front`; nothing happens to an empty list. -/
def popFront (h : Heap) (l : ℕ) (L : InList) : Option (Heap × InList) :=
  match L.head with
  | none => some (h, L)
  | some e =>
    let head := (h e).next
    (unlink h l e).map fun h => (h, ⟨head, if head = none then none else L.tail, L.elems - 1⟩)

/-- `InList::pop_back`. -/
def popBack (h : Heap) (l : ℕ) (L : InList) : Option (Heap × InList) :=
  match L.head, L.tail with
  | none, _ => some (h, L)
  | some _, none => none
  | some _, some e =>
    let tail := (h e).prev
    (unlink h l e).map fun h => (h, ⟨if tail = none then none else L.head, tail, L.elems - 1⟩)

/-- `InList::insertAfter`. -/
def insertAfter (h : Heap) (l : ℕ) (L : InList) (prev e : ℕ) : Option (Heap × InList) :=
  if (h e).owner = none ∧ (h prev).owner = some l then
    (linkPrev h l e prev).map fun h =>
      (h, ⟨L.head, if L.tail = some prev then some e else L.tail, L.elems + 1⟩)
  else none

/-- A call on one of the lists. -/
inductive Call where
  | pushFront (l e : ℕ)
  | pushBack (l e : ℕ)
  | popFront (l : ℕ)
  | popBack (l : ℕ)
  /-- Remove a member. -/
  | remove (l e : ℕ)
  | insertAfter (l prev e : ℕ)
  deriving DecidableEq, Repr

/-- The list a call is made on. -/
def Call.list : Call → ℕ
  | pushFront l _ | pushBack l _ | popFront l | popBack l | remove l _ | insertAfter l _ _ => l

/-- The nodes of all elements and the lists. -/
structure Lists where
  heap : Heap
  lists : ℕ → InList

/-- Elements and lists as their constructors leave them. -/
def Lists.init : Lists := ⟨fun _ => Node.free, fun _ => InList.empty⟩

/-- What a call does to the nodes and to its list. -/
def Call.perform (h : Heap) (L : InList) : Call → Option (Heap × InList)
  | pushFront l e => IntrusiveList.pushFront h l L e
  | pushBack l e => IntrusiveListRuns.pushBack h l L e
  | popFront l => IntrusiveListRuns.popFront h l L
  | popBack l => IntrusiveListRuns.popBack h l L
  | remove l e => IntrusiveList.remove h l L e
  | insertAfter l prev e => IntrusiveListRuns.insertAfter h l L prev e

/-- One call; none when an assertion fails. -/
def Lists.call (s : Lists) (c : Call) : Option Lists :=
  (c.perform s.heap (s.lists c.list)).map fun (h, L) => ⟨h, Function.update s.lists c.list L⟩

/-- Follow the pointers until there is none, for at most so many elements. -/
def follow (next : ℕ → Option ℕ) : ℕ → Option ℕ → Option (List ℕ)
  | _, none => some []
  | 0, some _ => none
  | fuel + 1, some e => (follow next fuel (next e)).map (e :: ·)

/-- The contents read from the front by `next`. -/
def Lists.forwards (s : Lists) (l : ℕ) : Option (List ℕ) :=
  follow (fun e => (s.heap e).next) (s.lists l).elems (s.lists l).head

/-- The contents read from the back by `prev`. -/
def Lists.backwards (s : Lists) (l : ℕ) : Option (List ℕ) :=
  follow (fun e => (s.heap e).prev) (s.lists l).elems (s.lists l).tail

section Plain

/-- The elements of each list, front first. -/
abbrev Contents := ℕ → List ℕ

/-- Put an element after another one. -/
def placeAfter (prev e : ℕ) : List ℕ → List ℕ
  | [] => []
  | x :: xs => if x = prev then x :: e :: xs else x :: placeAfter prev e xs

/-- The element is in no list. -/
def Contents.Spare (c : Contents) (e : ℕ) : Prop := ∀ l, e ∉ c l

/-- What a call takes for granted. -/
def Contents.Allows (c : Contents) : Call → Prop
  | .pushFront _ e | .pushBack _ e => c.Spare e
  | .popFront _ | .popBack _ => True
  | .remove l e => e ∈ c l
  | .insertAfter l prev e => c.Spare e ∧ prev ∈ c l

/-- The elements of the list of a call afterwards. -/
def Call.result (xs : List ℕ) : Call → List ℕ
  | .pushFront _ e => e :: xs
  | .pushBack _ e => xs ++ [e]
  | .popFront _ => xs.tail
  | .popBack _ => xs.dropLast
  | .remove _ e => xs.erase e
  | .insertAfter _ prev e => placeAfter prev e xs

/-- The contents after a call. -/
def Contents.after (c : Contents) (x : Call) : Contents :=
  Function.update c x.list (x.result (c x.list))

/-- The calls are made in order, each where it is allowed. -/
def Contents.AllowsAll : Contents → List Call → Prop
  | _, [] => True
  | c, x :: xs => c.Allows x ∧ (c.after x).AllowsAll xs

theorem placeAfter_append {prev e : ℕ} {pre post : List ℕ} (hpre : prev ∉ pre) :
    placeAfter prev e (pre ++ prev :: post) = pre ++ prev :: e :: post := by
  induction pre with
  | nil => exact if_pos rfl
  | cons x pre ih =>
    rw [List.cons_append, placeAfter, if_neg (Ne.symm (List.ne_of_not_mem_cons hpre)),
      ih (List.not_mem_of_not_mem_cons hpre), List.cons_append]

end Plain

section Operations

variable {h h' : Heap} {l e p : ℕ} {L : InList} {xs pre post : List ℕ}

/-- An operation turns one list into another: nothing outside both changes, and
what leaves is freed. -/
def Turns (h : Heap) (l : ℕ) (xs : List ℕ) (r : Option (Heap × InList)) (xs' : List ℕ) : Prop :=
  ∃ h' L', r = some (h', L') ∧ Linked h' l L' xs' ∧ (∀ x, x ∉ xs → x ∉ xs' → h' x = h x) ∧
    ∀ x ∈ xs, x ∉ xs' → h' x = Node.free

theorem remove_turns (hl : Linked h l L (pre ++ e :: post)) :
    Turns h l (pre ++ e :: post) (remove h l L e) (pre ++ post) := by
  obtain ⟨h', L', hremove, hlinked, hfree, hframe⟩ := remove_spec hl
  refine ⟨h', L', hremove, hlinked, fun x hx _ => hframe x hx, fun x hx hx' => ?_⟩
  rw [List.mem_append, List.mem_cons] at hx
  rw [List.mem_append] at hx'
  have hxe : x = e := by tauto
  rw [hxe, hfree]

theorem pushFront_turns (hl : Linked h l L xs) (hfree : h e = Node.free) :
    Turns h l xs (pushFront h l L e) (e :: xs) := by
  obtain ⟨h', L', hpush, hlinked, hframe⟩ := pushFront_spec hl hfree
  exact ⟨h', L', hpush, hlinked, fun x _ hx => hframe x hx, fun x hx hx' => absurd (List.mem_cons_of_mem e hx) hx'⟩

/-- Linking an element after another one, in terms of the three nodes that change. -/
theorem segment_insert (hnodup : (pre ++ p :: e :: post).Nodup)
    (hseg : Segment h l none (pre ++ p :: post) none) (hp : h' p = { h p with next := some e })
    (he : h' e = ⟨post.head?, some p, some l⟩)
    (hn : ∀ n, post.head? = some n → h' n = { h n with prev := some e })
    (hother : ∀ x, x ≠ p → x ≠ e → post.head? ≠ some x → h' x = h x) :
    Segment h' l none (pre ++ p :: e :: post) none := by
  obtain ⟨-, hrest, hdisj⟩ := List.nodup_append'.mp hnodup
  obtain ⟨hpnot, hrest⟩ := List.nodup_cons.mp hrest
  obtain ⟨henot, hpost⟩ := List.nodup_cons.mp hrest
  obtain ⟨hpre, ⟨ho, hprev, hnext⟩, hposts⟩ := segment_append.mp hseg
  refine segment_append.mpr ⟨?_, ?_, ?_, ?_⟩
  · refine segment_congr (fun x hx => hother x ?_ ?_ ?_) hpre
    · rintro rfl
      exact hdisj hx List.mem_cons_self
    · rintro rfl
      exact hdisj hx (List.mem_cons_of_mem p List.mem_cons_self)
    · intro hx'
      exact hdisj hx (List.mem_cons_of_mem p (List.mem_cons_of_mem e (List.mem_of_head? hx')))
  · rw [hp]
    exact ⟨ho, hprev, rfl⟩
  · rw [he, Option.or_none]
    exact ⟨rfl, rfl, rfl⟩
  · refine segment_prev hpost hn (fun x hx hx' => hother x ?_ ?_ hx') hposts
    · rintro rfl
      exact hpnot (List.mem_cons_of_mem e hx)
    · rintro rfl
      exact henot hx

/-- `linkPrev` puts a free element after one of the list. -/
theorem linkPrev_spec (hl : Linked h l L (pre ++ p :: post)) (hfree : h e = Node.free) :
    ∃ h', linkPrev h l e p = some h' ∧ (pre ++ p :: e :: post).Nodup ∧
      Segment h' l none (pre ++ p :: e :: post) none ∧ ∀ x, x ∉ pre ++ p :: e :: post → h' x = h x := by
  have hnotin : e ∉ pre ++ p :: post := by
    intro he
    have howner := hl.owner he
    rw [hfree] at howner
    cases howner
  have hpe : p ≠ e := by
    rintro rfl
    exact hnotin (List.mem_append_right pre List.mem_cons_self)
  have hnodup : (pre ++ p :: e :: post).Nodup := by
    have hperm : (e :: (pre ++ p :: post)).Perm (pre ++ p :: e :: post) := by
      rw [← List.singleton_append (x:=e), List.append_cons pre p (e :: post), List.append_cons pre p post]
      exact List.perm_append_comm_assoc [e] (pre ++ [p]) post
    exact hperm.nodup (List.nodup_cons.mpr ⟨hnotin, hl.nodup⟩)
  obtain ⟨-, ⟨ho, hprev, hnext⟩, hposts⟩ := segment_append.mp hl.segment
  rw [Option.or_none] at hnext
  have hout : ∀ {x}, x ∉ pre ++ p :: e :: post → x ≠ p ∧ x ≠ e ∧ post.head? ≠ some x := by
    intro x hx
    rw [List.mem_append, List.mem_cons, List.mem_cons] at hx
    exact ⟨by tauto, by tauto, fun hx' => hx (.inr (.inr (.inr (List.mem_of_head? hx'))))⟩
  cases post with
  | nil =>
    set h' := Function.update (Function.update h p { h p with next := some e }) e
      ⟨none, some p, some l⟩ with hh'
    have hother : ∀ x, x ≠ p → x ≠ e → h' x = h x := by
      intro x hxp hxe
      rw [hh', Function.update_of_ne hxe, Function.update_of_ne hxp]
    refine ⟨h', ?_, hnodup, ?_, fun x hx => hother x (hout hx).1 (hout hx).2.1⟩
    · rw [linkPrev, if_pos hfree, hnext]
      simp only [List.head?_nil, Function.update_of_ne hpe.symm, hfree, hh', Node.free]
    · refine segment_insert hnodup hl.segment ?_ (Function.update_self ..) nofun fun x hxp hxe _ => hother x hxp hxe
      rw [hh', Function.update_of_ne hpe, Function.update_self]
  | cons n post =>
    obtain ⟨⟨hno, hnprev, hnnext⟩, -⟩ := hposts
    have hnp : n ≠ p := by
      rintro rfl
      have hdup := (List.nodup_append'.mp hl.nodup).2.1
      exact (List.nodup_cons.mp hdup).1 List.mem_cons_self
    have hne : n ≠ e := by
      rintro rfl
      exact hnotin (List.mem_append_right pre (List.mem_cons_of_mem p List.mem_cons_self))
    set h₁ := Function.update h n { h n with prev := some e } with hh₁
    set h₂ := Function.update h₁ e { h₁ e with next := (h₁ p).next } with hh₂
    set h₃ := Function.update h₂ p { h₂ p with next := some e } with hh₃
    set h₄ := Function.update h₃ e { h₃ e with prev := some p, owner := some l } with hh₄
    have h₄p : h₄ p = { h p with next := some e } := by
      rw [hh₄, Function.update_of_ne hpe, hh₃, Function.update_self, hh₂, Function.update_of_ne hpe, hh₁,
        Function.update_of_ne hnp.symm]
    have h₄e : h₄ e = ⟨some n, some p, some l⟩ := by
      rw [hh₄, Function.update_self, hh₃, Function.update_of_ne hpe.symm, hh₂, Function.update_self, hh₁,
        Function.update_of_ne hnp.symm, hnext]
      rfl
    have h₄n : h₄ n = { h n with prev := some e } := by
      rw [hh₄, Function.update_of_ne hne, hh₃, Function.update_of_ne hnp, hh₂, Function.update_of_ne hne, hh₁,
        Function.update_self]
    have hother : ∀ x, x ≠ p → x ≠ e → some n ≠ some x → h₄ x = h x := by
      intro x hxp hxe hxn
      have hxn : x ≠ n := fun hx => hxn (congrArg some hx.symm)
      rw [hh₄, Function.update_of_ne hxe, hh₃, Function.update_of_ne hxp, hh₂, Function.update_of_ne hxe, hh₁,
        Function.update_of_ne hxn]
    refine ⟨h₄, ?_, hnodup, ?_, fun x hx => hother x (hout hx).1 (hout hx).2.1 (hout hx).2.2⟩
    · rw [linkPrev, if_pos hfree, hnext]
      exact if_pos hnprev
    · refine segment_insert hnodup hl.segment h₄p h₄e (fun m hm => ?_) hother
      cases hm
      exact h₄n

/-- What linking an element after another one adds is that element only. -/
theorem insert_turns {tail : Option ℕ} (hl : Linked h l L (pre ++ p :: post)) (hfree : h e = Node.free)
    (htail : tail = (pre ++ p :: e :: post).getLast?) :
    Turns h l (pre ++ p :: post) ((linkPrev h l e p).map fun h => (h, ⟨L.head, tail, L.elems + 1⟩))
      (pre ++ p :: e :: post) := by
  obtain ⟨h', hlink, hnodup, hsegment, hframe⟩ := linkPrev_spec hl hfree
  refine ⟨h', ⟨L.head, tail, L.elems + 1⟩, by rw [hlink]; rfl, ⟨hnodup, hsegment, ?_, htail, ?_⟩,
    fun x _ hx => hframe x hx, fun x hx hx' => ?_⟩
  · rw [hl.head]
    cases pre <;> rfl
  · simp only [hl.elems, List.length_append, List.length_cons]
    omega
  · refine absurd ?_ hx'
    rw [List.mem_append, List.mem_cons] at hx ⊢
    rw [List.mem_cons]
    tauto

theorem pushBack_turns (hl : Linked h l L xs) (hfree : h e = Node.free) :
    Turns h l xs (pushBack h l L e) (xs ++ [e]) := by
  rw [pushBack, if_pos hfree]
  rcases List.eq_nil_or_concat xs with rfl | ⟨pre, t, rfl⟩
  · -- an empty list treats both ends alike
    have hpush := pushFront_turns hl hfree
    rw [pushFront, if_pos hfree, hl.head] at hpush
    rw [hl.head]
    exact hpush
  · rw [List.concat_eq_append] at hl ⊢
    have htail : L.tail = some t := hl.tail.trans List.getLast?_concat
    obtain ⟨x, hx⟩ : ∃ x, L.head = some x := by
      rw [hl.head]
      exact Option.isSome_iff_exists.mp (by simp)
    have hinsert := insert_turns hl hfree (show some e = (pre ++ t :: e :: []).getLast? by simp)
    rw [hx] at hinsert
    rw [List.append_assoc, List.singleton_append]
    simpa only [hx, htail] using hinsert

theorem insertAfter_turns (hl : Linked h l L (pre ++ p :: post)) (hfree : h e = Node.free) :
    Turns h l (pre ++ p :: post) (insertAfter h l L p e) (pre ++ p :: e :: post) := by
  have howners : (h e).owner = none ∧ (h p).owner = some l :=
    ⟨by rw [hfree]; rfl, hl.owner (List.mem_append_right pre List.mem_cons_self)⟩
  rw [insertAfter, if_pos howners]
  refine insert_turns hl hfree ?_
  rw [hl.tail]
  obtain ⟨-, hnodup, -⟩ := List.nodup_append'.mp hl.nodup
  rcases List.eq_nil_or_concat post with rfl | ⟨post, z, rfl⟩
  · rw [if_pos List.getLast?_concat, List.append_cons]
    exact (List.getLast?_concat (l:=pre ++ [p])).symm
  · rw [List.concat_eq_append] at hnodup ⊢
    have hzp : z ≠ p := by
      rintro rfl
      exact (List.nodup_cons.mp hnodup).1 (List.mem_append_right post List.mem_cons_self)
    rw [← List.cons_append, ← List.append_assoc, List.getLast?_concat, if_neg (fun hz => hzp (Option.some.inj hz)),
      ← List.cons_append, ← List.cons_append, ← List.append_assoc, List.getLast?_concat]

/-- Popping the front removes the first element. -/
theorem popFront_eq (hl : Linked h l L (e :: xs)) : popFront h l L = remove h l L e := by
  obtain ⟨⟨-, hprev, hnext⟩, -⟩ := hl.segment
  obtain ⟨hnot, -⟩ := List.nodup_cons.mp hl.nodup
  have hhead : L.head = some e := hl.head
  rw [Option.or_none] at hnext
  simp only [popFront, remove, hhead, if_true, hl.tail, hprev, hnext]
  cases xs with
  | nil => simp only [List.head?_nil, List.getLast?_singleton, if_true]
  | cons x xs =>
    have hlast : (e :: x :: xs).getLast? ≠ some e := by
      rw [List.getLast?_cons_cons]
      exact fun he => hnot (List.mem_of_getLast? he)
    rw [if_neg hlast]
    rfl

/-- Popping the back removes the last element. -/
theorem popBack_eq (hl : Linked h l L (xs ++ [e])) : popBack h l L = remove h l L e := by
  obtain ⟨-, ⟨-, hprev, hnext⟩, -⟩ := segment_append.mp hl.segment
  obtain ⟨-, -, hdisj⟩ := List.nodup_append'.mp hl.nodup
  have htail : L.tail = some e := hl.tail.trans List.getLast?_concat
  rw [Option.or_none] at hprev
  have hnone : (h e).next = none := hnext
  cases xs with
  | nil =>
    have hhead : L.head = some e := hl.head
    simp only [popBack, remove, hhead, htail, if_true, hprev, hnone]
    rfl
  | cons x xs =>
    have hhead : L.head = some x := hl.head
    have hxe : x ≠ e := by
      rintro rfl
      exact hdisj List.mem_cons_self List.mem_cons_self
    simp only [popBack, remove, hhead, htail, if_true, hprev, Option.some.injEq, if_neg hxe,
      List.getLast?_eq_none_iff, List.cons_ne_nil, if_false]

theorem popFront_turns (hl : Linked h l L xs) : Turns h l xs (popFront h l L) xs.tail := by
  cases xs with
  | nil =>
    refine ⟨h, L, ?_, hl, fun _ _ _ => rfl, nofun⟩
    rw [popFront, hl.head]
    rfl
  | cons e xs =>
    rw [popFront_eq hl]
    have hl' : Linked h l L ([] ++ e :: xs) := hl
    exact remove_turns hl'

theorem popBack_turns (hl : Linked h l L xs) : Turns h l xs (popBack h l L) xs.dropLast := by
  rcases List.eq_nil_or_concat xs with rfl | ⟨pre, e, rfl⟩
  · refine ⟨h, L, ?_, hl, fun _ _ _ => rfl, nofun⟩
    rw [popBack, hl.head]
    rfl
  · rw [List.concat_eq_append] at hl ⊢
    rw [popBack_eq hl, List.dropLast_concat]
    simpa only [List.append_nil] using remove_turns hl

/-- Unlinking leaves the owners of the neighbours alone, so the owner is checked
as it was. -/
theorem remove_eq_none (howner : (h e).owner ≠ some l) : remove h l L e = none := by
  have hprev : ∀ (h : Heap) x p, (setPrev h x p e).owner = (h e).owner := by
    intro h x p
    by_cases hx : x = some e
    · rw [hx, setPrev_some]
    · rw [setPrev_of_ne hx]
  have hnext : ∀ (h : Heap) x n, (setNext h x n e).owner = (h e).owner := by
    intro h x n
    by_cases hx : x = some e
    · rw [hx, setNext_some]
    · rw [setNext_of_ne hx]
  simp only [remove, unlink, hnext, hprev, if_neg howner, Option.map_none]

end Operations

section Runs

variable {s s' : Lists} {c : Contents} {x : Call}

/-- The nodes and lists link the contents, and all other nodes are free. -/
structure Represents (s : Lists) (c : Contents) : Prop where
  linked : ∀ l, Linked s.heap l (s.lists l) (c l)
  spare : ∀ e, c.Spare e → s.heap e = Node.free

theorem represents_init : Represents .init fun _ => [] :=
  ⟨fun l => linked_empty _ l, fun _ _ => rfl⟩

theorem Represents.owner_iff (h : Represents s c) (e l : ℕ) : (s.heap e).owner = some l ↔ e ∈ c l := by
  constructor
  · intro howner
    by_contra hnot
    by_cases hspare : c.Spare e
    · rw [h.spare e hspare] at howner
      cases howner
    · obtain ⟨l', hl'⟩ : ∃ l', e ∈ c l' := by simpa [Contents.Spare] using hspare
      rw [(h.linked l').owner hl'] at howner
      cases howner
      exact hnot hl'
  · exact fun he => (h.linked l).owner he

theorem Represents.spare_iff (h : Represents s c) (e : ℕ) : c.Spare e ↔ s.heap e = Node.free := by
  refine ⟨h.spare e, fun hfree l he => ?_⟩
  have howner := (h.linked l).owner he
  rw [hfree] at howner
  cases howner

/-- What the list of an allowed call holds afterwards was there or is new. -/
theorem mem_result {e : ℕ} (he : e ∈ x.result (c x.list)) (hallowed : c.Allows x) :
    e ∈ c x.list ∨ c.Spare e := by
  cases x with
  | pushFront l a =>
    rcases List.mem_cons.mp he with rfl | he
    · exact .inr hallowed
    · exact .inl he
  | pushBack l a =>
    rcases List.mem_append.mp he with he | he
    · exact .inl he
    · rw [List.mem_singleton] at he
      exact .inr (he ▸ hallowed)
  | popFront l => exact .inl (List.mem_of_mem_tail he)
  | popBack l => exact .inl (List.dropLast_subset _ he)
  | remove l a => exact .inl (List.mem_of_mem_erase he)
  | insertAfter l p a =>
    obtain ⟨hspare, hp⟩ := hallowed
    obtain ⟨pre, post, hxs, hpre⟩ := List.eq_append_cons_of_mem hp
    change e ∈ placeAfter p a (c l) at he
    change e ∈ c l ∨ c.Spare e
    rw [hxs, placeAfter_append hpre, List.mem_append, List.mem_cons, List.mem_cons] at he
    rw [hxs, List.mem_append, List.mem_cons]
    rcases he with he | he | rfl | he
    · tauto
    · tauto
    · exact .inr hspare
    · tauto

/-- Each operation does to its list what the call means. -/
theorem Represents.turns (h : Represents s c) (hallowed : c.Allows x) :
    Turns s.heap x.list (c x.list) (x.perform s.heap (s.lists x.list)) (x.result (c x.list)) := by
  have hl := h.linked x.list
  cases x with
  | pushFront l e => exact pushFront_turns hl (h.spare e hallowed)
  | pushBack l e => exact pushBack_turns hl (h.spare e hallowed)
  | popFront l => exact popFront_turns hl
  | popBack l => exact popBack_turns hl
  | remove l e =>
    obtain ⟨pre, post, hxs, hpre⟩ := List.eq_append_cons_of_mem hallowed
    change Turns s.heap l (c l) (remove s.heap l (s.lists l) e) ((c l).erase e)
    change Linked s.heap l (s.lists l) (c l) at hl
    rw [hxs] at hl ⊢
    rw [List.erase_append_right _ hpre, List.erase_cons_head]
    exact remove_turns hl
  | insertAfter l p e =>
    obtain ⟨hspare, hp⟩ := hallowed
    obtain ⟨pre, post, hxs, hpre⟩ := List.eq_append_cons_of_mem hp
    change Turns s.heap l (c l) (insertAfter s.heap l (s.lists l) p e) (placeAfter p e (c l))
    change Linked s.heap l (s.lists l) (c l) at hl
    rw [hxs] at hl ⊢
    rw [placeAfter_append hpre]
    exact insertAfter_turns hl (h.spare e hspare)

/-- An allowed call goes through, and the plain operation describes it. -/
theorem Represents.call (h : Represents s c) (hallowed : c.Allows x) :
    ∃ s', s.call x = some s' ∧ Represents s' (c.after x) := by
  obtain ⟨heap, L, hperform, hlinked, hframe, hfreed⟩ := h.turns hallowed
  refine ⟨⟨heap, Function.update s.lists x.list L⟩, by rw [Lists.call, hperform]; rfl, fun l => ?_, fun e he => ?_⟩
  · by_cases hlist : l = x.list
    · subst hlist
      simpa only [Contents.after, Function.update_self] using hlinked
    · simp only [Contents.after, Function.update_of_ne hlist]
      refine (h.linked l).congr fun e he => ?_
      have hout : e ∉ c x.list := by
        intro he'
        have howner := (h.owner_iff e x.list).mpr he'
        rw [(h.owner_iff e l).mpr he] at howner
        exact hlist (Option.some.inj howner)
      refine hframe e hout fun he' => ?_
      rcases mem_result he' hallowed with hin | hspare
      · exact hout hin
      · exact hspare l he
  · have hresult : e ∉ x.result (c x.list) := by
      simpa only [Contents.after, Function.update_self] using he x.list
    by_cases hin : e ∈ c x.list
    · exact hfreed e hin hresult
    · refine (hframe e hin hresult).trans (h.spare e fun l => ?_)
      by_cases hlist : l = x.list
      · exact hlist ▸ hin
      · simpa only [Contents.after, Function.update_of_ne hlist] using he l

/-- A call that is not allowed fails an assertion. -/
theorem Represents.call_none (h : Represents s c) (hnot : ¬ c.Allows x) : s.call x = none := by
  have hperform : x.perform s.heap (s.lists x.list) = none := by
    cases x with
    | pushFront l e => exact if_neg (mt (h.spare_iff e).mpr hnot)
    | pushBack l e => exact if_neg (mt (h.spare_iff e).mpr hnot)
    | popFront l => exact absurd trivial hnot
    | popBack l => exact absurd trivial hnot
    | remove l e => exact remove_eq_none (mt (h.owner_iff e l).mp hnot)
    | insertAfter l p e =>
      refine if_neg fun howners => hnot ⟨fun l' he => ?_, (h.owner_iff p l).mp howners.2⟩
      rw [(h.owner_iff e l').mpr he] at howners
      cases howners.1
  rw [Lists.call, hperform]
  rfl

/-- Following `next` along a linked list reads it. -/
theorem follow_next {h : Heap} {l : ℕ} {p : Option ℕ} {xs : List ℕ} (hs : Segment h l p xs none) :
    follow (fun e => (h e).next) xs.length xs.head? = some xs := by
  induction xs generalizing p with
  | nil => rfl
  | cons e xs ih =>
    obtain ⟨⟨-, -, hnext⟩, hs⟩ := hs
    rw [Option.or_none] at hnext
    rw [List.head?_cons, List.length_cons, follow, hnext, ih hs, Option.map_some]

/-- Following `prev` reads it backwards. -/
theorem follow_prev {h : Heap} {l : ℕ} {n : Option ℕ} {xs : List ℕ} (hs : Segment h l none xs n) :
    follow (fun e => (h e).prev) xs.length xs.getLast? = some xs.reverse := by
  induction xs using List.reverseRecOn generalizing n with
  | nil => rfl
  | append_singleton xs e ih =>
    obtain ⟨hs, ⟨-, hprev, -⟩, -⟩ := segment_append.mp hs
    rw [Option.or_none] at hprev
    rw [List.getLast?_concat, List.length_append, List.length_singleton, follow, hprev, ih hs, Option.map_some,
      List.reverse_concat]

/-- The state of the nodes and lists is that of lists with these contents. -/
structure Sound (s : Lists) (c : Contents) : Prop where
  forwards : ∀ l, s.forwards l = some (c l)
  backwards : ∀ l, s.backwards l = some (c l).reverse
  elems : ∀ l, (s.lists l).elems = (c l).length
  head : ∀ l, (s.lists l).head = none ↔ c l = []
  tail : ∀ l, (s.lists l).tail = none ↔ c l = []
  owner : ∀ e l, (s.heap e).owner = some l ↔ e ∈ c l
  spare : ∀ e, (∀ l, e ∉ c l) → s.heap e = ⟨none, none, none⟩

theorem Represents.sound (h : Represents s c) : Sound s c where
  forwards l := by
    rw [Lists.forwards, (h.linked l).elems, (h.linked l).head]
    exact follow_next (h.linked l).segment
  backwards l := by
    rw [Lists.backwards, (h.linked l).elems, (h.linked l).tail]
    exact follow_prev (h.linked l).segment
  elems l := (h.linked l).elems
  head l := by rw [(h.linked l).head, List.head?_eq_none_iff]
  tail l := by rw [(h.linked l).tail, List.getLast?_eq_none_iff]
  owner := h.owner_iff
  spare := h.spare

/-- The contents after some calls. -/
def Contents.afterAll (c : Contents) (calls : List Call) : Contents := calls.foldl Contents.after c

/-- Runs are as long as their calls are allowed, and represent the contents. -/
theorem Represents.run (h : Represents s c) (calls : List Call) :
    (c.AllowsAll calls → ∃ s', run Lists.call s calls = some s' ∧ Represents s' (c.afterAll calls)) ∧
      (¬ c.AllowsAll calls → GuardedRuns.run Lists.call s calls = none) := by
  induction calls generalizing s c with
  | nil => exact ⟨fun _ => ⟨s, rfl, h⟩, fun hnot => absurd trivial hnot⟩
  | cons x calls ih =>
    by_cases hallowed : c.Allows x
    · obtain ⟨s', hcall, h'⟩ := h.call hallowed
      obtain ⟨hgoes, hfails⟩ := ih h'
      constructor
      · intro hall
        obtain ⟨s'', hrun, h''⟩ := hgoes hall.2
        exact ⟨s'', run_cons.mpr ⟨s', hcall, hrun⟩, h''⟩
      · intro hnot
        have hrest := hfails fun hall => hnot ⟨hallowed, hall⟩
        rw [GuardedRuns.run, hcall, Option.bind_some, hrest]
    · refine ⟨fun hall => absurd hall.1 hallowed, fun _ => ?_⟩
      rw [GuardedRuns.run, h.call_none hallowed, Option.bind_none]

/-- After all calls that keep to the assertions the lists are those that the
plain operations make, read from either end; any other call fails. -/
theorem lists_sound (calls : List Call) :
    (Contents.AllowsAll (fun _ => []) calls → ∃ s, run Lists.call .init calls = some s ∧
      Sound s (Contents.afterAll (fun _ => []) calls)) ∧
    (¬ Contents.AllowsAll (fun _ => []) calls → run Lists.call .init calls = none) := by
  obtain ⟨hgoes, hfails⟩ := represents_init.run calls
  refine ⟨fun hall => ?_, hfails⟩
  obtain ⟨s, hrun, h⟩ := hgoes hall
  exact ⟨s, hrun, h.sound⟩

/-- Three elements in two lists; the second list ends empty. -/
theorem lists_sound_three : ∃ s, run Lists.call .init
    [.pushBack 0 1, .insertAfter 0 1 2, .pushFront 1 3, .popBack 1, .pushFront 0 3, .remove 0 1] = some s ∧
      Sound s (Contents.afterAll (fun _ => [])
        [.pushBack 0 1, .insertAfter 0 1 2, .pushFront 1 3, .popBack 1, .pushFront 0 3, .remove 0 1]) := by
  refine (lists_sound _).1 ?_
  simp only [Contents.AllowsAll, Contents.Allows, Contents.Spare, Contents.after, Call.list, Call.result,
    Function.update_apply]
  refine ⟨nofun, ⟨?_, by simp⟩, ?_, trivial, ?_, by decide, trivial⟩
  · intro l
    split <;> simp
  · intro l
    split <;> simp [placeAfter]
  · intro l
    split_ifs <;> simp_all [placeAfter]

end Runs

end Zsim.IntrusiveListRuns
