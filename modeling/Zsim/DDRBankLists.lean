import Mathlib.Algebra.Order.BigOperators.Group.Finset
import Zsim.DDRTables
import Zsim.RowHitLists

/-!
# The lists of the banks

Requests are queued in the lists of their banks and leave them at the front. Each list is in
row-hit order at all times. A request is overtaken by later ones a limited number of times.
-/

namespace Zsim.DDRBankLists

open DDRChannel DDRController DDRFrames DDRTables GuardedRuns RowHitLists

/-- What happens to the requests of a queue: one is queued, while its bank is in some state, or the
first one of a bank is served. -/
inductive Op where
  | queue (bank : Bank) (req : Request) (memCycle : ℕ)
  | serve (id : ℕ)

/-- The table after an operation; none if the queue is full or the request is not the first one. -/
def step (rowHitLimit : ℕ) (t : ReqTable) : Op → Option ReqTable
  | .queue bank req memCycle => t.freeList.getLast?.map fun id => inserted t id rowHitLimit bank req memCycle
  | .serve id => if id ∈ t.reqList ∧ t.First id then some (t.remove id) else none

/-- The node with what decides its place. -/
def entryOf (t : ReqTable) (id : ℕ) : Entry := ⟨id, (t.elem id).loc.row, (t.elem id).rowHitSeq⟩

/-- The list of a bank. -/
def waiting (t : ReqTable) (bank : ℕ × ℕ) : List Entry := (t.bankReqs bank).map (entryOf t)

/-- The requests before another one. -/
def ahead (t : ReqTable) (id : ℕ) : List ℕ := (t.listOf id).takeWhile (· ≠ id)

def rowsAhead (t : ReqTable) (id : ℕ) : List ℕ := (ahead t id).map fun i => (t.elem i).loc.row

/-- The rows of the requests before another one that were not there before. -/
def newcomers (t t' : ReqTable) (id : ℕ) : List ℕ :=
  ((ahead t' id).filter fun i => i ∉ t.reqList).map fun i => (t'.elem i).loc.row

/-- The rows of the requests that arrive while another one waits and are placed before it. -/
def overtakers (rowHitLimit id : ℕ) : ReqTable → List Op → List ℕ
  | _, [] => []
  | t, op :: ops =>
    match step rowHitLimit t op with
    | none => []
    | some t' =>
      if id ∈ t'.reqList then newcomers t t' id ++ overtakers rowHitLimit id t' ops else []

section Waiting

variable {t t' : ReqTable} {n rowHitLimit memCycle id : ℕ} {bank : Bank} {req : Request} {b : ℕ × ℕ}
  {e x : Entry} {pre post : List Entry}

theorem names_waiting : (waiting t b).map Entry.name = t.bankReqs b := by
  unfold waiting
  rw [List.map_map]
  exact List.map_id _

theorem mem_waiting (he : e ∈ waiting t b) : e = entryOf t e.name ∧ e.name ∈ t.bankReqs b := by
  obtain ⟨i, hi, rfl⟩ := List.mem_map.mp he
  exact ⟨rfl, hi⟩

/-- The list only depends on the requests in it. -/
theorem waiting_congr (hreqs : t'.bankReqs b = t.bankReqs b) (helem : ∀ i ∈ t.bankReqs b, t'.elem i = t.elem i) :
    waiting t' b = waiting t b := by
  unfold waiting
  rw [hreqs]
  refine List.map_congr_left fun i hi => ?_
  unfold entryOf
  rw [helem i hi]

theorem insertAfter_append {m : ℕ} {p q : List ℕ} (hm : m ∉ p) : insertAfter m id (p ++ m :: q) = p ++ m :: id :: q := by
  induction p with
  | nil => exact if_pos rfl
  | cons a p ih =>
    have ha : a ≠ m := fun heq => hm (heq ▸ List.mem_cons_self)
    rw [List.cons_append, insertAfter, if_neg ha, ih fun hp => hm (List.mem_cons_of_mem a hp)]
    rfl

/-- Where `queue` puts a request. -/
theorem place_cases (hnodup : (t.bankReqs req.loc.bankId).Nodup) :
    (∃ p m q, t.bankReqs req.loc.bankId = p ++ m :: q ∧ (t.elem m).loc.row = req.loc.row ∧
      (∀ y ∈ q, (t.elem y).loc.row ≠ req.loc.row) ∧ (t.elem m).rowHitSeq < rowHitLimit ∧
      t.place id rowHitLimit bank req = ((t.elem m).rowHitSeq + 1, p ++ m :: id :: q)) ∨
    t.place id rowHitLimit bank req = (0, t.bankReqs req.loc.bankId ++ [id]) ∨
    (t.bankReqs req.loc.bankId = [] ∧ ∃ seq ≤ rowHitLimit, t.place id rowHitLimit bank req = (seq, [id])) := by
  unfold ReqTable.place
  dsimp only
  split
  · next m hfind =>
    split
    · next hlimit =>
      obtain ⟨hrow, as, bs, hrev, has⟩ := List.find?_eq_some_iff_append.mp hfind
      have hlist : t.bankReqs req.loc.bankId = bs.reverse ++ m :: as.reverse := by
        rw [← List.reverse_reverse (t.bankReqs req.loc.bankId), hrev, List.reverse_append, List.reverse_cons,
          List.append_assoc]
        rfl
      rw [hlist] at hnodup ⊢
      have hm : m ∉ bs.reverse := fun hmem =>
        (List.nodup_append.mp hnodup).2.2 m hmem m List.mem_cons_self rfl
      refine Or.inl ⟨bs.reverse, m, as.reverse, rfl, of_decide_eq_true hrow, fun y hy heq => ?_, hlimit, ?_⟩
      · have hnot := has y (List.mem_reverse.mp hy)
        rw [decide_eq_true heq] at hnot
        cases hnot
      · rw [insertAfter_append hm]
    · exact Or.inr (Or.inl rfl)
  · split
    · next hopen =>
      obtain ⟨-, -, hhits, hnil⟩ := hopen
      rw [hnil]
      exact Or.inr (Or.inr ⟨rfl, bank.curRowHits + 1, hhits, rfl⟩)
    · exact Or.inr (Or.inl rfl)

theorem bankReqs_inserted : (inserted t id rowHitLimit bank req memCycle).bankReqs b =
    if b = req.loc.bankId then
      (((t.alloc id).store id req).place id rowHitLimit bank (queuedAt req memCycle)).2
    else t.bankReqs b := by
  unfold inserted ReqTable.link
  dsimp only
  split
  · next hb =>
    rw [hb]
    exact Function.update_self ..
  · next hb => exact Function.update_of_ne hb ..

theorem entryOf_inserted : entryOf (inserted t id rowHitLimit bank req memCycle) id = ⟨id, req.loc.row,
    (((t.alloc id).store id req).place id rowHitLimit bank (queuedAt req memCycle)).1⟩ := by
  unfold entryOf
  rw [inserted_elem, if_pos rfl]
  rfl

theorem entryOf_inserted_ne {i : ℕ} (hi : i ≠ id) :
    entryOf (inserted t id rowHitLimit bank req memCycle) i = entryOf t i := by
  unfold entryOf
  rw [inserted_elem, if_neg hi]

/-- The list of its bank gets the request in row-hit order. -/
theorem inserts_inserted (h : TableOk n t) (hid : t.freeList.getLast? = some id) :
    Inserts rowHitLimit (entryOf (inserted t id rowHitLimit bank req memCycle) id) (waiting t req.loc.bankId)
      (waiting (inserted t id rowHitLimit bank req memCycle) req.loc.bankId) := by
  have hold : ∀ i ∈ t.bankReqs req.loc.bankId, i ≠ id := fun i hi heq =>
    h.free_notMem hid (heq ▸ ((h.listed _ i).mp hi).1)
  have hmap : ∀ q : List ℕ, (∀ i ∈ q, i ∈ t.bankReqs req.loc.bankId) →
      q.map (entryOf (inserted t id rowHitLimit bank req memCycle)) = q.map (entryOf t) := fun q hq =>
    List.map_congr_left fun i hi => entryOf_inserted_ne (hold i (hq i hi))
  have helem : ∀ i ∈ t.bankReqs req.loc.bankId, ((t.alloc id).store id req).elem i = t.elem i := fun i hi =>
    Function.update_of_ne (hold i hi) ..
  have hplace := @place_cases ((t.alloc id).store id req) rowHitLimit id bank (queuedAt req memCycle) (h.nodup _)
  change (∃ p m q, t.bankReqs req.loc.bankId = p ++ m :: q ∧ _) ∨ _ at hplace
  have hentry := @entryOf_inserted t rowHitLimit memCycle id bank req
  have hseq := congrArg Entry.seq hentry
  have hrow' := congrArg Entry.row hentry
  unfold waiting
  rw [bankReqs_inserted, if_pos rfl]
  rcases hplace with ⟨p, m, q, hlist, hrow, hq, hlimit, hplace⟩ | hplace | ⟨hnil, seq, hle, hplace⟩
  · rw [hplace] at hseq
    rw [hlist] at hmap helem hold ⊢
    have hmem : m ∈ p ++ m :: q := List.mem_append_right _ List.mem_cons_self
    have hinq : ∀ y ∈ q, y ∈ p ++ m :: q := fun y hy => List.mem_append_right _ (List.mem_cons_of_mem m hy)
    rw [hplace, List.map_append, List.map_append, List.map_cons, List.map_cons, List.map_cons,
      hmap p fun i hi => List.mem_append_left _ hi, hmap q hinq, entryOf_inserted_ne (hold m hmem)]
    refine Inserts.after ?_ ?_ ?_ fun y hy => ?_
    · rw [hrow']
      rw [helem m hmem] at hrow
      exact hrow
    · rw [hseq, helem m hmem]
      rfl
    · rw [helem m hmem] at hlimit
      exact hlimit
    · obtain ⟨i, hi, rfl⟩ := List.mem_map.mp hy
      have hne := hq i hi
      rw [helem i (hinq i hi)] at hne
      rw [hrow']
      exact hne
  · rw [hplace] at hseq
    have hall := hmap (t.bankReqs req.loc.bankId) fun i hi => hi
    rw [hplace, List.map_append]
    change Inserts _ _ _ ((t.bankReqs req.loc.bankId).map _ ++ _)
    rw [hall]
    exact Inserts.last hseq
  · rw [hplace] at hseq
    change t.bankReqs req.loc.bankId = [] at hnil
    rw [hnil, hplace]
    exact Inserts.first (hseq.trans_le hle)

theorem waiting_inserted_ne (h : TableOk n t) (hid : t.freeList.getLast? = some id) (hb : b ≠ req.loc.bankId) :
    waiting (inserted t id rowHitLimit bank req memCycle) b = waiting t b := by
  refine waiting_congr ?_ fun i hi => ?_
  · rw [bankReqs_inserted, if_neg hb]
  · have hne : i ≠ id := fun heq => h.free_notMem hid (heq ▸ ((h.listed b i).mp hi).1)
    rw [inserted_elem, if_neg hne]

/-- The front of a list leaves. -/
theorem waiting_remove (h : TableOk n t) (hid : id ∈ t.reqList) (hfirst : t.First id) :
    waiting t (t.elem id).loc.bankId = entryOf t id :: waiting (t.remove id) (t.elem id).loc.bankId := by
  obtain ⟨rest, hlist, -⟩ := h.first_head hid hfirst
  have hrest : (t.remove id).bankReqs (t.elem id).loc.bankId = rest := by
    unfold ReqTable.remove
    rw [hlist]
    exact Function.update_self ..
  unfold waiting
  rw [hrest]
  change (t.listOf id).map _ = _
  rw [hlist]
  rfl

theorem waiting_remove_ne (hb : b ≠ (t.elem id).loc.bankId) : waiting (t.remove id) b = waiting t b :=
  waiting_congr (Function.update_of_ne hb ..) fun _ _ => rfl

/-- What an operation does to the lists of the banks. -/
inductive Changes (rowHitLimit : ℕ) (t t' : ReqTable) (bank : ℕ × ℕ) (id : ℕ) : Prop
  | arrives (hnew : id ∉ t.reqList) (hreqs : t'.reqList = t.reqList ++ [id])
      (hins : Inserts rowHitLimit (entryOf t' id) (waiting t bank) (waiting t' bank))
  | leaves (hmem : id ∈ t.reqList) (hreqs : t'.reqList = t.reqList.erase id)
      (hfront : waiting t bank = entryOf t id :: waiting t' bank)

theorem step_cases {op : Op} (h : TableOk n t) (hs : step rowHitLimit t op = some t') :
    TableOk n t' ∧ ∃ bank id, Changes rowHitLimit t t' bank id ∧ ∀ b ≠ bank, waiting t' b = waiting t b := by
  cases op with
  | queue bank req memCycle =>
    obtain ⟨id, hid, rfl⟩ := Option.map_eq_some_iff.mp hs
    exact ⟨h.inserted hid, req.loc.bankId, id, .arrives (h.free_notMem hid) rfl (inserts_inserted h hid),
      fun b hb => waiting_inserted_ne h hid hb⟩
  | serve id =>
    rw [step] at hs
    split at hs
    · next hok =>
      cases hs
      exact ⟨h.remove hok.1 hok.2, (t.elem id).loc.bankId, id, .leaves hok.1 rfl (waiting_remove h hok.1 hok.2),
        fun b hb => waiting_remove_ne hb⟩
    · cases hs

end Waiting

section Order

variable {t t' : ReqTable} {n rowHitLimit id : ℕ} {op : Op} {ops : List Op} {b bank : ℕ × ℕ} {e x : Entry}
  {pre post : List Entry} {r : ℕ}

/-- The numbers of each list, and the requests to a row in the order they arrived in. -/
structure Ordered (n rowHitLimit : ℕ) (t : ReqTable) : Prop where
  table : TableOk n t
  chained : ∀ b, Chained rowHitLimit (waiting t b)
  arrival : ∀ b r, ((ofRow r (waiting t b)).map Entry.name).Sublist t.reqList

theorem ordered_new : Ordered n rowHitLimit (.new n) :=
  ⟨tableOk_new n, fun _ => chained_nil, fun _ _ => List.nil_sublist _⟩

theorem mem_reqList (h : TableOk n t) (he : e ∈ waiting t b) : e.name ∈ t.reqList :=
  ((h.listed b e.name).mp (mem_waiting he).2).1

theorem Ordered.step (h : Ordered n rowHitLimit t) (hs : step rowHitLimit t op = some t') :
    Ordered n rowHitLimit t' := by
  obtain ⟨htable, bank, id, hchanges, hother⟩ := step_cases h.table hs
  refine ⟨htable, fun b => ?_, fun b r => ?_⟩
  · by_cases hb : b = bank
    · rw [hb]
      cases hchanges with
      | arrives hnew hreqs hins => exact hins.chained (h.chained bank)
      | leaves hmem hreqs hfront =>
        have htail := (h.chained bank).tail
        rw [hfront] at htail
        exact htail
    · rw [hother b hb]
      exact h.chained b
  · have hold := h.arrival b r
    cases hchanges with
    | arrives hnew hreqs hins =>
      rw [hreqs]
      by_cases hb : b = bank
      · rw [hb] at hold ⊢
        by_cases hr : (entryOf t' id).row = r
        · rw [← hr] at hold ⊢
          rw [hins.ofRow, List.map_append]
          exact hold.append_right [id]
        · rw [hins.ofRow_ne hr]
          exact hold.trans (List.sublist_append_left ..)
      · rw [hother b hb]
        exact hold.trans (List.sublist_append_left ..)
    | leaves hmem hreqs hfront =>
      have hsub : ((RowHitLists.ofRow r (waiting t' b)).map Entry.name).Sublist t.reqList := by
        by_cases hb : b = bank
        · rw [hb] at hold ⊢
          rw [hfront] at hold
          exact ((List.Sublist.filter _ (List.sublist_cons_self ..)).map _).trans hold
        · rw [hother b hb]
          exact hold
      have hnot : id ∉ (RowHitLists.ofRow r (waiting t' b)).map Entry.name := by
        intro hin
        obtain ⟨y, hy, rfl⟩ := List.mem_map.mp hin
        have hreq := mem_reqList htable (List.mem_filter.mp hy).1
        rw [hreqs, h.table.reqList_nodup.mem_erase_iff] at hreq
        exact hreq.1 rfl
      have herase := hsub.erase id
      rw [List.erase_of_not_mem hnot, ← hreqs] at herase
      exact herase

/-- The requests before one in the list of its bank. -/
theorem ahead_eq (h : TableOk n t) (hlist : waiting t b = pre ++ x :: post) : ahead t x.name = pre.map Entry.name := by
  have hx : x ∈ waiting t b := by
    rw [hlist]
    exact List.mem_append_right _ List.mem_cons_self
  have hbank := ((h.listed b x.name).mp (mem_waiting hx).2).2
  have hnames : t.bankReqs b = pre.map Entry.name ++ x.name :: post.map Entry.name := by
    rw [← names_waiting, hlist, List.map_append, List.map_cons]
  have hnodup := h.nodup b
  rw [hnames] at hnodup
  have hne : ∀ i ∈ pre.map Entry.name, decide (i ≠ x.name) = true := fun i hi =>
    decide_eq_true fun heq => (List.nodup_append.mp hnodup).2.2 i hi x.name List.mem_cons_self heq
  unfold ahead ReqTable.listOf
  rw [hbank, hnames, List.takeWhile_append_of_pos hne, List.takeWhile_cons_of_neg (by simp), List.append_nil]

theorem rowsAhead_eq (h : TableOk n t) (hlist : waiting t b = pre ++ x :: post) :
    rowsAhead t x.name = pre.map Entry.row := by
  unfold rowsAhead
  rw [ahead_eq h hlist, List.map_map]
  refine List.map_congr_left fun y hy => ?_
  have hin : y ∈ waiting t b := by
    rw [hlist]
    exact List.mem_append_left _ hy
  exact (congrArg Entry.row (mem_waiting hin).1).symm

theorem newcomers_eq (h : TableOk n t') (hlist : waiting t' b = pre ++ x :: post) :
    newcomers t t' x.name = (pre.filter fun y => y.name ∉ t.reqList).map Entry.row := by
  unfold newcomers
  rw [ahead_eq h hlist, List.filter_map, List.map_map]
  refine List.map_congr_left fun y hy => ?_
  have hin : y ∈ waiting t' b := by
    rw [hlist]
    exact List.mem_append_left _ (List.mem_filter.mp hy).1
  exact (congrArg Entry.row (mem_waiting hin).1).symm

/-- What was there before is no newcomer. -/
theorem newcomers_eq_nil (h : TableOk n t') (hlist : waiting t' b = pre ++ x :: post)
    (hold : ∀ y ∈ pre, y.name ∈ t.reqList) : newcomers t t' x.name = [] := by
  have hnone : (pre.filter fun y => y.name ∉ t.reqList) = [] :=
    List.filter_eq_nil_iff.mpr fun y hy hnot => of_decide_eq_true hnot (hold y hy)
  rw [newcomers_eq h hlist, hnone, List.map_nil]

/-- While a request waits, the ones that are placed before it use up the budgets of their rows. -/
theorem newcomers_budget (h : TableOk n t) (hs : step rowHitLimit t op = some t')
    (hlist : waiting t b = pre ++ x :: post) (hx : x.name ∈ t'.reqList) :
    ∃ pre' post', waiting t' b = pre' ++ x :: post' ∧ ∀ r, (newcomers t t' x.name).count r +
      budget rowHitLimit r pre' (x :: post') ≤ budget rowHitLimit r pre (x :: post) := by
  obtain ⟨htable, bank, id, hchanges, hother⟩ := step_cases h hs
  have hpre : ∀ y ∈ pre, y.name ∈ t.reqList := fun y hy => by
    refine mem_reqList h (b := b) ?_
    rw [hlist]
    exact List.mem_append_left _ hy
  by_cases hb : b = bank
  · rw [hb] at hlist ⊢
    cases hchanges with
    | arrives hnew hreqs hins =>
      rw [hlist] at hins
      cases hins.split with
      | inl hbefore =>
        obtain ⟨p, q, rfl, hlist', -, hbudget⟩ := hbefore
        refine ⟨p ++ entryOf t' id :: q, post, hlist', fun r => ?_⟩
        have hp : (p.filter fun y => y.name ∉ t.reqList) = [] :=
          List.filter_eq_nil_iff.mpr fun y hy hnot => of_decide_eq_true hnot (hpre y (List.mem_append_left _ hy))
        have hq : (q.filter fun y => y.name ∉ t.reqList) = [] :=
          List.filter_eq_nil_iff.mpr fun y hy hnot => of_decide_eq_true hnot (hpre y (List.mem_append_right _ hy))
        have hnew' : newcomers t t' x.name = [(entryOf t' id).row] := by
          have hself : decide ((entryOf t' id).name ∉ t.reqList) = true := decide_eq_true hnew
          rw [newcomers_eq htable hlist', List.filter_append, hp, List.filter_cons, if_pos hself, hq]
          rfl
        rw [hnew', List.count_singleton]
        simp only [beq_iff_eq]
        exact hbudget r
      | inr hbehind =>
        obtain ⟨p, q, rfl, hlist', hbudget⟩ := hbehind
        refine ⟨pre, p ++ entryOf t' id :: q, hlist', fun r => ?_⟩
        rw [newcomers_eq_nil htable hlist' hpre, List.count_nil, Nat.zero_add]
        exact hbudget r
    | leaves hmem hreqs hfront =>
      rw [hlist] at hfront
      cases pre with
      | nil =>
        obtain ⟨rfl, -⟩ := List.cons.inj hfront
        rw [hreqs, h.reqList_nodup.mem_erase_iff] at hx
        exact (hx.1 rfl).elim
      | cons y pre =>
        obtain ⟨-, hlist'⟩ := List.cons.inj hfront
        refine ⟨pre, post, hlist'.symm, fun r => ?_⟩
        rw [newcomers_eq_nil htable hlist'.symm fun z hz => hpre z (List.mem_cons_of_mem y hz), List.count_nil,
          Nat.zero_add]
        exact budget_tail
  · rw [← hother b hb] at hlist
    refine ⟨pre, post, hlist, fun r => ?_⟩
    rw [newcomers_eq_nil htable hlist hpre, List.count_nil, Nat.zero_add]

theorem count_overtakers (h : TableOk n t) (hlist : waiting t b = pre ++ x :: post) (r : ℕ) :
    (overtakers rowHitLimit x.name t ops).count r ≤ budget rowHitLimit r pre (x :: post) := by
  induction ops generalizing t pre post with
  | nil => exact Nat.zero_le _
  | cons op ops ih =>
    unfold overtakers
    cases hs : step rowHitLimit t op with
    | none => exact Nat.zero_le _
    | some t' =>
      dsimp only
      split
      · next hx =>
        obtain ⟨pre', post', hlist', hbudget⟩ := newcomers_budget h hs hlist hx
        have hrest := ih (step_cases h hs).1 hlist'
        have hstep := hbudget r
        rw [List.count_append]
        omega
      · exact Nat.zero_le _

theorem length_le_of_count {l rows : List ℕ} {k : ℕ} (hmem : ∀ r ∈ l, r ∈ rows) (hcount : ∀ r, l.count r ≤ k) :
    l.length ≤ k * rows.toFinset.card := by
  have hsub : l.toFinset ⊆ rows.toFinset := fun r hr =>
    List.mem_toFinset.mpr (hmem r (List.mem_toFinset.mp hr))
  calc l.length = ∑ r ∈ l.toFinset, l.count r := (List.sum_toFinset_count_eq_length l).symm
    _ ≤ l.toFinset.card * k := Finset.sum_le_card_nsmul _ _ _ fun r _ => hcount r
    _ ≤ rows.toFinset.card * k := Nat.mul_le_mul_right k (Finset.card_le_card hsub)
    _ = k * rows.toFinset.card := Nat.mul_comm ..

/-- A request is overtaken as often as the limit says for each row that has a request before it. -/
theorem length_overtakers (h : TableOk n t) (hid : id ∈ t.reqList) :
    (overtakers rowHitLimit id t ops).length ≤ rowHitLimit * (rowsAhead t id).toFinset.card := by
  have hin : entryOf t id ∈ waiting t (t.elem id).loc.bankId := List.mem_map_of_mem (h.mem_listOf hid)
  obtain ⟨pre, post, hlist⟩ := List.append_of_mem hin
  have hcount := @count_overtakers t n rowHitLimit ops _ (entryOf t id) pre post h hlist
  refine length_le_of_count (fun r hr => ?_) fun r => (hcount r).trans budget_le
  have hrows := rowsAhead_eq h hlist
  change rowsAhead t id = _ at hrows
  rw [hrows]
  by_contra hnot
  have hzero : budget rowHitLimit r pre (entryOf t id :: post) = 0 :=
    budget_eq_zero fun y hy hrow => hnot (hrow ▸ List.mem_map_of_mem hy)
  exact Nat.lt_irrefl 0 ((List.count_pos_iff.mpr hr).trans_le (hzero ▸ hcount r))

end Order

section Controller

open WeakestPre Outcomes

variable {c : DDRConfig} {t : ReqTable} {n id curCycle : ℕ} {ch : Channel} {s s' : DDRMemory}

theorem run_ordered {rowHitLimit : ℕ} {ops : List Op} (hrun : run (step rowHitLimit) (.new n) ops = some t) :
    Ordered n rowHitLimit t :=
  run_invariant (fun _ _ _ h hs => h.step hs) ordered_new hrun

/-- Serving a request opens its row, or closes the bank. -/
theorem issue_open {r : Request} {closes : Bool} (hopen : ((ch.issue c r curCycle closes).bankOf r).isOpen = true) :
    closes = false ∧ ((ch.issue c r curCycle closes).bankOf r).openRow = r.loc.row := by
  unfold Channel.issue Channel.column Channel.bankOf at hopen ⊢
  dsimp only at hopen ⊢
  rw [Function.update_self] at hopen ⊢
  cases closes with
  | true => cases hopen
  | false =>
    refine ⟨rfl, ?_⟩
    split
    · next hhit => exact hhit.1.symm
    · unfold Channel.activate
      dsimp only
      rw [Function.update_self]

/-- With the closed-page policy the row of the request that is served stays open only for the next one. -/
theorem open_for_next {rowHitLimit : ℕ} (h : Ordered n rowHitLimit t) (hid : id ∈ t.reqList) (hfirst : t.First id)
    (hopen : ((ch.issue c (t.elem id) curCycle (!t.hitFollows id)).bankOf (t.elem id)).isOpen = true) :
    ∃ next, nextIn (t.listOf id) id = some next ∧ (t.elem next).loc.row =
      ((ch.issue c (t.elem id) curCycle (!t.hitFollows id)).bankOf (t.elem id)).openRow := by
  obtain ⟨hcloses, hrow⟩ := issue_open hopen
  rw [hrow]
  have hhit : t.hitFollows id = true := by
    rw [Bool.not_eq_false'] at hcloses
    exact hcloses
  obtain ⟨rest, hlist, -⟩ := h.table.first_head hid hfirst
  have hnext : nextIn (t.listOf id) id = rest.head? := by
    rw [hlist]
    exact if_pos rfl
  have hwaiting : waiting t (t.elem id).loc.bankId = entryOf t id :: rest.map (entryOf t) := by
    change (t.listOf id).map _ = _
    rw [hlist]
    rfl
  unfold ReqTable.hitFollows at hhit
  rw [hnext] at hhit ⊢
  cases rest with
  | nil => cases hhit
  | cons next rest =>
    have hseq : (t.elem next).rowHitSeq ≠ 0 := bne_iff_ne.mp hhit
    have hfollows := (h.chained (t.elem id).loc.bankId).follows
    rw [hwaiting] at hfollows
    exact ⟨next, rfl, ((List.isChain_cons_cons.mp hfollows).1 hseq).1.symm⟩

variable {P : ReqTable → Prop} {tables : Bool → ReqTable} {w : Bool}

theorem tables_update (h : ∀ w, P (tables w)) (ht : P t) (w' : Bool) : P (Function.update tables w t w') := by
  by_cases hw : w' = w
  · rw [hw, Function.update_self]
    exact ht
  · rw [Function.update_of_ne hw]
    exact h w'

theorem queues_trySchedule (sysCycle : ℕ) (s : DDRMemory) (curCycle : ℕ) :
    ends (fun _ => True) (trySchedule c curCycle sysCycle) (fun _ s' => queuesOf s' = queuesOf s ∨
      ∃ w id, id ∈ (s.tables w).reqList ∧ (s.tables w).First id ∧
        queuesOf s' = (Function.update s.tables w ((s.tables w).remove id), s.overflowQueue)) s := by
  unfold trySchedule
  rw [ends_bind, ends_observe, ends_ite]
  split
  · exact .inl rfl
  · rw [ends_ite]
    split
    · exact .inl rfl
    · rw [ends_bind, ends_ensure]
      refine ⟨fun _ => ?_, fun _ => trivial⟩
      split
      · exact .inl rfl
      · next id next hfind =>
        obtain ⟨hid, hfirst, -⟩ := findReady_some hfind
        exact ends_mono (queues_serve _ id sysCycle s curCycle) fun _ s' hs => .inr ⟨_, id, hid, hfirst, hs⟩

/-- What the operations on a table keep, every input of the controller keeps. -/
theorem tables_step (hP : ∀ t op t', P t → step c.rowHitLimit t op = some t' → P t')
    (h : ∀ w, P (s.tables w)) {x : Input} (hs : DDRController.step c s x = some s') (w : Bool) : P (s'.tables w) := by
  have harrive : ∀ (tables : Bool → ReqTable) w id bank req memCycle, (∀ w, P (tables w)) →
      (tables w).freeList.getLast? = some id →
      ∀ w', P (Function.update tables w (inserted (tables w) id c.rowHitLimit bank req memCycle) w') :=
    fun tables w id bank req memCycle h hid => tables_update h
      (hP (tables w) (.queue bank req memCycle) _ (h w) (Option.map_eq_some_iff.mpr ⟨id, hid, rfl⟩))
  refine of_step (queues_perform (V := fun queues => ∀ w, P (queues.1 w)) (fun s ev _ h => ?_)
    (fun s sysCycle curCycle h => ?_) (fun s memCycle minSchedCycle h => ?_) h) hs w
  · refine ends_mono (queues_enqueue s ev) fun _ s' hs => ?_
    obtain ⟨-, hs⟩ := hs
    cases hs with
    | inl hwait => rw [hwait]; exact h
    | inr hqueue =>
      obtain ⟨w, id, hid, hs⟩ := hqueue
      rw [hs]
      exact harrive s.tables w id _ _ _ h hid
  · refine ends_mono (queues_trySchedule sysCycle s curCycle) fun _ s' hs => ?_
    cases hs with
    | inl hsame => rw [hsame]; exact h
    | inr hserve =>
      obtain ⟨w, id, hid, hfirst, hs⟩ := hserve
      rw [hs]
      exact tables_update h (hP (s.tables w) (.serve id) _ (h w) (if_pos ⟨hid, hfirst⟩))
  · refine ends_mono (queues_takeOverflow memCycle s minSchedCycle) fun _ s' hs => ?_
    cases hs with
    | inl hsame => rw [hsame]; exact h
    | inr hnext =>
      obtain ⟨req, reqs, w, id, -, hid, hs⟩ := hnext
      rw [hs]
      exact harrive s.tables w id _ _ _ h hid

/-- The tables of the controller come from operations on them. -/
theorem tables_run {lastCmdWasWrite : Bool} {xs : List Input}
    (hrun : run (DDRController.step c) (.new c lastCmdWasWrite) xs = some s) (w : Bool) :
    ∃ ops, run (step c.rowHitLimit) (.new c.queueDepth) ops = some (s.tables w) := by
  revert w
  refine @run_invariant _ _ _ (fun s => ∀ w, ∃ ops, run (step c.rowHitLimit) (.new c.queueDepth) ops = some (s.tables w))
    (fun s x s' h hs => ?_) _ _ xs (fun w => ⟨[], rfl⟩) hrun
  refine @tables_step c s s' (fun t => ∃ ops, run (step c.rowHitLimit) (.new c.queueDepth) ops = some t)
    (fun t op t' ht hstep => ?_) h x hs
  obtain ⟨ops, hops⟩ := ht
  exact ⟨ops ++ [op], run_append.mpr ⟨t, hops, by rw [run, hstep]; rfl⟩⟩

/-- In every run of the controller requests are only queued and served at the front, and the lists of the banks are in
row-hit order. -/
theorem controller_ordered {lastCmdWasWrite : Bool} {xs : List Input}
    (hrun : run (DDRController.step c) (.new c lastCmdWasWrite) xs = some s) (w : Bool) :
    (∃ ops, run (step c.rowHitLimit) (.new c.queueDepth) ops = some (s.tables w)) ∧
      Ordered c.queueDepth c.rowHitLimit (s.tables w) := by
  obtain ⟨ops, hops⟩ := tables_run hrun w
  exact ⟨⟨ops, hops⟩, run_ordered hops⟩

/-- A read of a bank waits behind another one. -/
theorem controller_ordered_reads : ∃ s, run (DDRController.step twoBanks) (.new twoBanks false)
    [.access ⟨0, 0, false, 100⟩, .access ⟨1, 2, false, 101⟩] = some s ∧ (s.tables false).reqList.length = 2 ∧
      Ordered twoBanks.queueDepth twoBanks.rowHitLimit (s.tables false) := by
  have hstate : (run (DDRController.step twoBanks) (.new twoBanks false)
      [.access ⟨0, 0, false, 100⟩, .access ⟨1, 2, false, 101⟩]).map (fun s => (s.tables false).reqList.length) =
        some 2 := by decide +kernel
  obtain ⟨s, hrun, hs⟩ := Option.map_eq_some_iff.mp hstate
  exact ⟨s, hrun, hs, (controller_ordered hrun false).2⟩

end Controller

/-- Requests are queued in row-hit order and overtaken a limited number of times, and with the closed-page
policy a row stays open only for the next request. -/
theorem row_hit_order {n rowHitLimit : ℕ} {ops : List Op} {t : ReqTable}
    (hrun : run (step rowHitLimit) (.new n) ops = some t) :
    (∀ bank, (waiting t bank).IsChain fun a b => b.seq ≠ 0 → a.row = b.row ∧ b.seq = a.seq + 1) ∧
    (∀ bank, ∀ e ∈ waiting t bank, e.seq ≤ rowHitLimit) ∧
    (∀ bank row, (((waiting t bank).filter (·.row = row)).map Entry.name).Sublist t.reqList) ∧
    (∀ id ∈ t.reqList, ∀ later,
      (overtakers rowHitLimit id t later).length ≤ rowHitLimit * (rowsAhead t id).toFinset.card) ∧
    ∀ (c : DDRConfig) (ch : Channel) (id curCycle : ℕ), c.closedPage = true → id ∈ t.reqList → t.First id →
      ((ch.issue c (t.elem id) curCycle (c.closedPage && !t.hitFollows id)).bankOf (t.elem id)).isOpen = true →
      ∃ next, nextIn (t.listOf id) id = some next ∧ (t.elem next).loc.row =
        ((ch.issue c (t.elem id) curCycle (c.closedPage && !t.hitFollows id)).bankOf (t.elem id)).openRow := by
  have h := run_ordered hrun
  refine ⟨fun bank => (h.chained bank).follows, fun bank => (h.chained bank).bounded, h.arrival,
    fun id hid later => length_overtakers h.table hid, fun c ch id curCycle hclosed hid hfirst => ?_⟩
  rw [hclosed, Bool.true_and]
  exact open_for_next h hid hfirst

/-- A request to a row, while its bank is closed. -/
def arrival (row : ℕ) : Op := .queue ⟨0, false, 0, 0, 0, 0⟩ ⟨0, ⟨row, 0, 0, 0⟩, false, 0, 0, 0, none, 0⟩ 0

/-- A request to row 2 behind one to row 1 is overtaken by the next one to row 1. -/
theorem row_hit_order_three : ∃ t, run (step 4) (.new 3) [arrival 1, arrival 2] = some t ∧
    overtakers 4 1 t [arrival 1] = [1] ∧
    (overtakers 4 1 t [arrival 1]).length ≤ 4 * (rowsAhead t 1).toFinset.card := by
  refine ⟨_, rfl, by decide, ?_⟩
  obtain ⟨-, -, -, hovertakers, -⟩ := @row_hit_order 3 4 [arrival 1, arrival 2] _ rfl
  exact hovertakers 1 (by decide) [arrival 1]

end Zsim.DDRBankLists
