import Mathlib.Data.List.Chain
import Mathlib.Data.List.Nodup
import Mathlib.Data.Nat.Notation

/-!
# Lists in row-hit order

A list of requests to rows. A new request goes behind the last one to its row, with the next
number, as long as the number does not exceed a limit; else it goes to the end with number zero.
Numbers go up by one along a row, and the requests that can still go before a given one are
bounded by what the numbers leave.
-/

namespace Zsim.RowHitLists

/-- A request by its name, its row and its number in the row. -/
structure Entry where
  name : ℕ
  row : ℕ
  seq : ℕ

/-- How a request gets into the list. -/
inductive Inserts (limit : ℕ) (e : Entry) : List Entry → List Entry → Prop
  | after {pre post : List Entry} {m : Entry} (hrow : m.row = e.row) (hseq : e.seq = m.seq + 1)
      (hlimit : m.seq < limit) (hpost : ∀ y ∈ post, y.row ≠ e.row) :
      Inserts limit e (pre ++ m :: post) (pre ++ m :: e :: post)
  | last {l : List Entry} (hseq : e.seq = 0) : Inserts limit e l (l ++ [e])
  | first (hlimit : e.seq ≤ limit) : Inserts limit e [] [e]

/-- A number other than zero continues the one before it. -/
def Follows (a b : Entry) : Prop := b.seq ≠ 0 → a.row = b.row ∧ b.seq = a.seq + 1

/-- The numbers of a list. -/
structure Chained (limit : ℕ) (l : List Entry) : Prop where
  follows : l.IsChain Follows
  bounded : ∀ e ∈ l, e.seq ≤ limit

variable {limit : ℕ} {e m x : Entry} {l l' pre post : List Entry} {r : ℕ}

theorem chained_nil : Chained limit [] := ⟨List.isChain_nil, fun _ h => (nomatch h)⟩

theorem Chained.tail (h : Chained limit l) : Chained limit l.tail :=
  ⟨h.follows.tail, fun e he => h.bounded e (List.mem_of_mem_tail he)⟩

theorem Inserts.mem_iff (h : Inserts limit e l l') (y : Entry) : y ∈ l' ↔ y = e ∨ y ∈ l := by
  cases h with
  | after => simp only [List.mem_append, List.mem_cons]; tauto
  | last => rw [List.mem_append, List.mem_singleton, or_comm]
  | first => rw [List.mem_singleton, or_iff_left List.not_mem_nil]

/-- A new request keeps the numbers. -/
theorem Inserts.chained (hins : Inserts limit e l l') (h : Chained limit l) : Chained limit l' := by
  obtain ⟨hfollows, hbounded⟩ := h
  have hnew : e.seq ≤ limit := by
    cases hins with
    | after hrow hseq hlimit hpost => rw [hseq]; exact hlimit
    | last hseq => rw [hseq]; exact Nat.zero_le limit
    | first hlimit => exact hlimit
  refine ⟨?_, fun y hy => ?_⟩
  · cases hins with
    | first => exact List.isChain_singleton e
    | last hseq =>
      refine hfollows.append (List.isChain_singleton e) fun y _ z hz => ?_
      rw [List.head?_cons, Option.mem_some_iff] at hz
      exact fun hne => (hne (hz ▸ hseq)).elim
    | @after pre post m hrow hseq hlimit hpost =>
      obtain ⟨hpre, hrest⟩ := List.isChain_split.mp hfollows
      refine List.isChain_append_cons_cons.mpr ⟨hpre, fun _ => ⟨hrow, hseq⟩, ?_⟩
      cases post with
      | nil => exact List.isChain_singleton e
      | cons y post =>
        obtain ⟨hfirst, hpost'⟩ := List.isChain_cons_cons.mp hrest
        refine List.isChain_cons_cons.mpr ⟨fun hne => ?_, hpost'⟩
        exact (hpost y List.mem_cons_self ((hfirst hne).1.symm.trans hrow)).elim
  · cases (hins.mem_iff y).mp hy with
    | inl heq => rw [heq]; exact hnew
    | inr hold => exact hbounded y hold

/-- The requests to a row. -/
def ofRow (r : ℕ) (l : List Entry) : List Entry := l.filter (·.row = r)

theorem ofRow_append : ofRow r (l ++ l') = ofRow r l ++ ofRow r l' := List.filter_append ..

theorem ofRow_same (he : e.row = r) : ofRow r (e :: l) = e :: ofRow r l :=
  List.filter_cons_of_pos (decide_eq_true he)

theorem ofRow_other (he : e.row ≠ r) : ofRow r (e :: l) = ofRow r l :=
  List.filter_cons_of_neg fun h => he (of_decide_eq_true h)

theorem ofRow_eq_nil : ofRow r l = [] ↔ ∀ y ∈ l, y.row ≠ r := by
  unfold ofRow
  rw [List.filter_eq_nil_iff]
  simp only [decide_eq_true_eq, ne_eq]

/-- A new request is the last one to its row. -/
theorem Inserts.ofRow (h : Inserts limit e l l') : ofRow e.row l' = ofRow e.row l ++ [e] := by
  cases h with
  | last => rw [ofRow_append, ofRow_same rfl]; rfl
  | first => rw [ofRow_same rfl]; rfl
  | after hrow hseq hlimit hpost =>
    rw [ofRow_append, ofRow_append, ofRow_same hrow, ofRow_same hrow, ofRow_same rfl, ofRow_eq_nil.mpr hpost,
      List.append_assoc, List.cons_append, List.nil_append]

theorem Inserts.ofRow_ne (h : Inserts limit e l l') (hr : e.row ≠ r) : RowHitLists.ofRow r l' = RowHitLists.ofRow r l := by
  cases h with
  | last => rw [ofRow_append, ofRow_other hr]; exact List.append_nil _
  | first => exact ofRow_other hr
  | after hrow hseq hlimit hpost =>
    have hm := hrow.trans_ne hr
    rw [ofRow_append, ofRow_append, ofRow_other hm, ofRow_other hm, ofRow_other hr]

section Overtaking

/-- How many requests to the row can still go before what follows the list. -/
def room (limit r : ℕ) (l : List Entry) : ℕ := (ofRow r l).getLast?.elim 0 fun m => limit - m.seq

theorem room_le : room limit r l ≤ limit := by
  unfold room
  cases (ofRow r l).getLast? with
  | none => exact Nat.zero_le limit
  | some m => exact Nat.sub_le ..

theorem room_eq_zero (h : ∀ y ∈ l, y.row ≠ r) : room limit r l = 0 := by
  unfold room
  rw [ofRow_eq_nil.mpr h]
  rfl

theorem room_last (hm : m.row = r) (hpost : ∀ y ∈ post, y.row ≠ r) :
    room limit r (pre ++ m :: post) = limit - m.seq := by
  unfold room
  rw [ofRow_append, ofRow_same hm, ofRow_eq_nil.mpr hpost, List.getLast?_concat]
  rfl

theorem room_other (he : e.row ≠ r) : room limit r (pre ++ e :: post) = room limit r (pre ++ post) := by
  unfold room
  rw [ofRow_append, ofRow_append, ofRow_other he]

theorem room_tail : room limit r l ≤ room limit r (e :: l) := by
  by_cases he : e.row = r
  · unfold room
    rw [ofRow_same he]
    cases hl : ofRow r l with
    | nil => exact Nat.zero_le _
    | cons y ys => rw [List.getLast?_cons_cons]
  · exact (@room_other limit e [] l r he).ge

/-- How many requests to the row can still go before the one between the lists. -/
def budget (limit r : ℕ) (pre post : List Entry) : ℕ :=
  if ∃ y ∈ post, y.row = r then 0 else room limit r pre

theorem budget_le : budget limit r pre post ≤ limit := by
  unfold budget
  split
  · exact Nat.zero_le limit
  · exact room_le

theorem budget_eq_zero (h : ∀ y ∈ pre, y.row ≠ r) : budget limit r pre post = 0 := by
  unfold budget
  split
  · rfl
  · exact room_eq_zero h

theorem budget_tail : budget limit r pre post ≤ budget limit r (e :: pre) post := by
  unfold budget
  split
  · exact Nat.zero_le _
  · exact room_tail

theorem budget_behind (h : ∀ y ∈ post, y ∈ l) : budget limit r pre l ≤ budget limit r pre post := by
  unfold budget
  by_cases hpost : ∃ y ∈ post, y.row = r
  · obtain ⟨y, hy, hr⟩ := hpost
    rw [if_pos ⟨y, h y hy, hr⟩]
    exact Nat.zero_le _
  · rw [if_neg hpost]
    split
    · exact Nat.zero_le _
    · exact Nat.le_refl _

/-- A request that goes before others uses the budget of its row. -/
theorem budget_after {q : List Entry} (hrow : m.row = e.row) (hseq : e.seq = m.seq + 1) (hlimit : m.seq < limit)
    (hq : ∀ y ∈ q, y.row ≠ e.row) (hpost : ∀ y ∈ post, y.row ≠ e.row) :
    (if e.row = r then 1 else 0) + budget limit r (pre ++ m :: e :: q) post ≤
      budget limit r (pre ++ m :: q) post := by
  unfold budget
  by_cases hr : e.row = r
  · have hnone : ¬∃ y ∈ post, y.row = r := fun ⟨y, hy, hyr⟩ => hpost y hy (hyr.trans hr.symm)
    have hsplit : pre ++ m :: e :: q = (pre ++ [m]) ++ e :: q := by rw [List.append_assoc]; rfl
    rw [if_pos hr, if_neg hnone, if_neg hnone, hsplit, room_last hr (hr ▸ hq), room_last (hrow.trans hr) (hr ▸ hq)]
    omega
  · have hsplit : pre ++ m :: e :: q = (pre ++ [m]) ++ e :: q := by rw [List.append_assoc]; rfl
    rw [if_neg hr, Nat.zero_add, hsplit, room_other hr, List.append_assoc]
    rfl

/-- A request goes before another one, which uses the budget of its row, or behind it. -/
theorem Inserts.split (h : Inserts limit e (pre ++ x :: post) l') :
    (∃ p q, pre = p ++ q ∧ l' = p ++ e :: q ++ x :: post ∧ (∃ m ∈ p, m.row = e.row) ∧
      ∀ r, (if e.row = r then 1 else 0) + RowHitLists.budget limit r (p ++ e :: q) (x :: post) ≤
        RowHitLists.budget limit r pre (x :: post)) ∨
    ∃ p q, post = p ++ q ∧ l' = pre ++ x :: (p ++ e :: q) ∧
      ∀ r, RowHitLists.budget limit r pre (x :: (p ++ e :: q)) ≤ RowHitLists.budget limit r pre (x :: post) := by
  have hbehind : ∀ p q, post = p ++ q → ∀ r, RowHitLists.budget limit r pre (x :: (p ++ e :: q)) ≤
      RowHitLists.budget limit r pre (x :: post) := by
    intro p q hpost r
    refine budget_behind fun y hy => ?_
    cases List.mem_cons.mp hy with
    | inl heq => rw [heq]; exact List.mem_cons_self
    | inr hmem =>
      rw [hpost] at hmem
      exact List.mem_cons_of_mem x ((List.Sublist.append_left (List.sublist_cons_self e q) p).mem hmem)
  generalize hl : pre ++ x :: post = l at h
  cases h with
  | first => exact (List.append_ne_nil_of_right_ne_nil pre (List.cons_ne_nil x post) hl).elim
  | last hseq =>
    refine Or.inr ⟨post, [], (List.append_nil post).symm, ?_, hbehind post [] (List.append_nil post).symm⟩
    rw [← hl, List.append_assoc]
    rfl
  | @after p q m hrow hseq hlimit hpost =>
    cases List.append_eq_append_iff.mp hl with
    | inl hin =>
      obtain ⟨bs, rfl, hrest⟩ := hin
      cases bs with
      | nil =>
        obtain ⟨rfl, rfl⟩ := List.cons.inj hrest
        refine Or.inr ⟨[], post, rfl, ?_, hbehind [] post rfl⟩
        rw [List.append_nil]
        rfl
      | cons y bs =>
        obtain ⟨rfl, rfl⟩ := List.cons.inj hrest
        refine Or.inr ⟨bs ++ [m], q, ?_, ?_, hbehind (bs ++ [m]) q ?_⟩
        · rw [List.append_assoc]; rfl
        · rw [List.append_assoc, List.append_assoc]; rfl
        · rw [List.append_assoc]; rfl
    | inr hin =>
      obtain ⟨bs, rfl, hrest⟩ := hin
      cases bs with
      | nil =>
        obtain ⟨rfl, rfl⟩ := List.cons.inj hrest
        refine Or.inr ⟨[], q, rfl, ?_, ?_⟩
        · rw [List.append_nil]
          rfl
        · exact hbehind [] q rfl
      | cons y bs =>
        obtain ⟨rfl, rfl⟩ := List.cons.inj hrest
        have hfirst : ∀ z ∈ bs, z.row ≠ e.row := fun z hz => hpost z (List.mem_append_left _ hz)
        have hrest' : ∀ z ∈ x :: post, z.row ≠ e.row := fun z hz => hpost z (List.mem_append_right _ hz)
        refine Or.inl ⟨p ++ [m], bs, ?_, ?_, ⟨m, List.mem_append_right _ List.mem_cons_self, hrow⟩, fun r => ?_⟩
        · rw [List.append_assoc]; rfl
        · rw [List.append_assoc, List.append_assoc]; rfl
        · rw [List.append_assoc]
          exact budget_after hrow hseq hlimit hfirst hrest'

end Overtaking

end Zsim.RowHitLists
