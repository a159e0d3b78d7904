import Zsim.OOOCore
import Zsim.Outcomes
import Mathlib.Data.List.Basic
import Mathlib.Algebra.BigOperators.Group.List.Basic

/-!
# The accesses of a basic block

A load whose predicate is false leaves an address that no load issues. A store does not look at
it: a store whose predicate is false reaches the data cache, the recorder and the forwarding table
under that address.
-/

namespace Zsim.OOOCoreAccesses

open WeakestPre Outcomes OOOCore

section Executed

/-- The access an operation makes when its predicate is true. -/
def executes (op : Op) : List (Bool × Address) :=
  match op.uop.type, op.addr with
  | .load, some addr => [(false, addr)]
  | .store, some addr => [(true, addr)]
  | _, _ => []

/-- The forwarding table after an access. -/
def forward (fwd : ℕ → FwdEntry) (a : Access) : ℕ → FwdEntry :=
  if a.isStore = true then Function.update fwd (fwdIdx a.addr) ⟨a.addr, a.respCycle + 4⟩ else fwd

/-- The data cache has got the accesses, the recorder has recorded them, and the forwarding table has their
stores. -/
structure Issues {L : Type} (accesses : List (Bool × Address)) (s s' : Lsu L) : Prop where
  issued : ∃ new recs, s'.calls = s.calls ++ new ∧ new.map (fun a => (a.isStore, a.addr)) = accesses ∧
    s'.cRec = s.cRec ++ recs ∧
    recs.map (fun r => (r.dispatchCycle, r.respCycle)) = new.map (fun a => (a.dispatchCycle, a.respCycle + 4)) ∧
    s'.fwdArray = new.foldl forward s.fwdArray

/-- No store has a false predicate, and no load the address that stands for one. -/
def Clean (ops : List Op) : Prop :=
  ∀ op ∈ ops, (op.uop.type = .store → op.addr ≠ none) ∧ (op.uop.type = .load → op.addr ≠ some predFalse)

/-- The accesses that the code makes for an operation. -/
def issues (op : Op) : List (Bool × Address) :=
  match op.uop.type with
  | .load => if op.addr.getD predFalse ≠ predFalse then [(false, op.addr.getD predFalse)] else []
  | .store => [(true, op.addr.getD predFalse)]
  | _ => []

end Executed

section Steps

variable {L : Type} {cache : L1D L} {uop : DynUop} {s s' s'' : Lsu L} {accesses accesses' : List (Bool × Address)}
  {curCycle dispatchCycle commitCycle : ℕ}

theorem Issues.trans (h : Issues accesses s s') (h' : Issues accesses' s' s'') : Issues (accesses ++ accesses') s s'' := by
  obtain ⟨new, recs, hcalls, hmap, hrec, hrecs, hfwd⟩ := h.issued
  obtain ⟨new', recs', hcalls', hmap', hrec', hrecs', hfwd'⟩ := h'.issued
  refine ⟨new ++ new', recs ++ recs', ?_, ?_, ?_, ?_, ?_⟩
  · rw [hcalls', hcalls, List.append_assoc]
  · rw [List.map_append, hmap, hmap']
  · rw [hrec', hrec, List.append_assoc]
  · rw [List.map_append, List.map_append, hrecs, hrecs']
  · rw [hfwd', hfwd, List.foldl_append]

/-- What a uop does to the addresses, and to the places in them. -/
structure Moves (uop : DynUop) (s s' : Lsu L) : Prop where
  loadAddrs : s'.loadAddrs = s.loadAddrs
  storeAddrs : s'.storeAddrs = s.storeAddrs
  loadIdx : s'.loadIdx = if uop.type = .load then s.loadIdx + 1 else s.loadIdx
  storeIdx : s'.storeIdx = if uop.type = .store then s.storeIdx + 1 else s.storeIdx

theorem Issues.refl (h : s'.calls = s.calls) (hrec : s'.cRec = s.cRec) (hfwd : s'.fwdArray = s.fwdArray) :
    Issues [] s s' :=
  ⟨[], [], by rw [h, List.append_nil], rfl, by rw [hrec, List.append_nil], rfl, hfwd⟩

/-- The operation of a uop, with the address at its place. -/
def opAt (uop : DynUop) (s : Lsu L) : Op where
  uop := uop
  addr := some (if uop.type = .load then s.loadAddrs s.loadIdx else s.storeAddrs s.storeIdx)

/-- What a uop does to the load-store unit. -/
structure Executes (uop : DynUop) (s s' : Lsu L) : Prop where
  moves : Moves uop s s'
  issues : Issues (OOOCoreAccesses.issues (opAt uop s)) s s'

theorem load_executes (htype : uop.type = .load) :
    ends (fun _ => True) (load cache curCycle dispatchCycle) (fun _ s' => Executes uop s s') s := by
  have hissues : issues (opAt uop s) =
      if s.loadAddrs s.loadIdx ≠ predFalse then [(false, s.loadAddrs s.loadIdx)] else [] := by
    simp only [issues, opAt, htype, if_true, Option.getD_some]
  have hmoves : ∀ s' : Lsu L, s'.loadAddrs = s.loadAddrs → s'.storeAddrs = s.storeAddrs →
      s'.loadIdx = s.loadIdx + 1 → s'.storeIdx = s.storeIdx → Moves uop s s' := by
    intro s' hload hstore hidx hidx'
    refine ⟨hload, hstore, ?_, ?_⟩
    · rw [if_pos htype, hidx]
    · rw [if_neg (by rw [htype]; exact UopType.noConfusion), hidx']
  simp only [load, ends_bind, ends_observe, ends_ensure, ends_change, ends_pure, ends_ite, id_eq]
  refine ⟨fun _ => ?_, fun _ => trivial⟩
  by_cases haddr : s.loadAddrs s.loadIdx ≠ predFalse
  · rw [if_pos haddr] at hissues ⊢
    refine ⟨hmoves _ rfl rfl rfl rfl, ?_⟩
    rw [hissues]
    exact ⟨[_], [_], rfl, rfl, rfl, rfl, rfl⟩
  · rw [if_neg haddr] at hissues ⊢
    refine ⟨hmoves _ rfl rfl rfl rfl, ?_⟩
    rw [hissues]
    exact Issues.refl rfl rfl rfl

theorem store_executes (htype : uop.type = .store) :
    ends (fun _ => True) (store cache curCycle dispatchCycle) (fun _ s' => Executes uop s s') s := by
  have hne : ¬ uop.type = .load := by
    rw [htype]
    exact UopType.noConfusion
  have hissues : issues (opAt uop s) = [(true, s.storeAddrs s.storeIdx)] := by
    simp only [issues, opAt, htype, Option.getD_some]
    rfl
  simp only [store, ends_bind, ends_observe, ends_ensure, ends_change, ends_pure]
  refine ⟨fun _ => ⟨⟨rfl, rfl, (if_neg hne).symm, (if_pos htype).symm⟩, ?_⟩, fun _ => trivial⟩
  rw [hissues]
  exact ⟨[_], [_], rfl, rfl, rfl, rfl, rfl⟩

/-- Each uop takes the address at its place, and issues it unless it is a load and the address that stands
for a false predicate. -/
theorem execute_executes :
    ends (fun _ => True) (execute cache uop curCycle dispatchCycle) (fun _ s' => Executes uop s s') s := by
  have hother : ∀ s' : Lsu L, uop.type ≠ .load → uop.type ≠ .store → s'.calls = s.calls → s'.cRec = s.cRec →
      s'.fwdArray = s.fwdArray → s'.loadAddrs = s.loadAddrs → s'.storeAddrs = s.storeAddrs →
      s'.loadIdx = s.loadIdx → s'.storeIdx = s.storeIdx → Executes uop s s' := by
    intro s' hload hstore hcalls hrec hfwd hla hsa hli hsi
    refine ⟨⟨hla, hsa, by rw [if_neg hload, hli], by rw [if_neg hstore, hsi]⟩, ?_⟩
    have hissues : issues (opAt uop s) = [] := by
      unfold issues opAt
      cases htype : uop.type with
      | load => exact absurd htype hload
      | store => exact absurd htype hstore
      | general => rfl
      | storeAddr => rfl
      | fence => rfl
    rw [hissues]
    exact Issues.refl hcalls hrec hfwd
  unfold execute
  cases htype : uop.type with
  | load => exact load_executes htype
  | store => exact store_executes htype
  | general => exact hother s (by simp [htype]) (by simp [htype]) rfl rfl rfl rfl rfl rfl rfl
  | storeAddr =>
    simp only [ends_bind, ends_change, ends_pure]
    exact hother _ (by simp [htype]) (by simp [htype]) rfl rfl rfl rfl rfl rfl rfl
  | fence =>
    simp only [ends_bind, ends_change, ends_pure]
    exact hother _ (by simp [htype]) (by simp [htype]) rfl rfl rfl rfl rfl rfl rfl

end Steps

section Blocks

variable {L : Type} {cache : L1D L} {s s' : Core L} {ops : List Op}

theorem ends_onPipe {α : Type} {act : PipeAct α} :
    ends (fun _ => True) (onPipe act : Act L α) (fun _ s' => s'.lsu = s.lsu ∧ s'.prevBbl = s.prevBbl) s := by
  unfold ends onPipe
  cases act s.pipe with
  | error e => trivial
  | ok r => exact ⟨rfl, rfl⟩

theorem ends_onLsu {α : Type} {act : LsuAct L α} {Q : α → Lsu L → Prop}
    (h : ends (fun _ => True) act Q s.lsu) :
    ends (fun _ => True) (onLsu act) (fun a s' => Q a s'.lsu ∧ s'.prevBbl = s.prevBbl) s := by
  unfold ends at h ⊢
  unfold onLsu
  cases hact : act s.lsu with
  | error e => trivial
  | ok r =>
    rw [hact] at h
    exact ⟨h, rfl⟩

theorem simulateUop_executes (uop : DynUop) :
    ends (fun _ => True) (simulateUop cache uop)
      (fun _ s' => Executes uop s.lsu s'.lsu ∧ s'.prevBbl = s.prevBbl) s := by
  unfold simulateUop
  rw [ends_bind]
  refine ends_mono ends_onPipe fun dispatchCycle s₁ h₁ => ?_
  simp only [ends_bind, ends_observe, ends_change]
  have hexec := ends_onLsu (@execute_executes L cache uop s₁.lsu s₁.pipe.curCycle dispatchCycle)
  refine ends_mono hexec fun commitCycle s₂ h₂ => ?_
  rw [← h₁.1, ← h₁.2]
  exact h₂

/-- The addresses that the callbacks of the loads leave, and those of the stores. -/
def addrsOf (type : UopType) (ops : List Op) : List Address :=
  (ops.filter fun op => op.uop.type = type).map fun op => op.addr.getD predFalse

/-- The addresses are in the array, from a place on. -/
def Feeds (addrs : ℕ → Address) (idx : ℕ) (l : List Address) : Prop := ∀ i a, l[i]? = some a → addrs (idx + i) = a

theorem feeds_cons {addrs : ℕ → Address} {idx : ℕ} {a : Address} {l : List Address} :
    Feeds addrs idx (a :: l) ↔ addrs idx = a ∧ Feeds addrs (idx + 1) l := by
  constructor
  · intro h
    refine ⟨h 0 a rfl, fun i b hb => ?_⟩
    have hi := h (i + 1) b hb
    rw [← hi]
    congr 1
    omega
  · intro h i b hb
    cases i with
    | zero =>
      cases hb
      exact h.1
    | succ i =>
      have hi := h.2 i b hb
      rw [← hi]
      congr 1
      omega

theorem addrsOf_cons {type : UopType} {op : Op} : addrsOf type (op :: ops) =
    if op.uop.type = type then op.addr.getD predFalse :: addrsOf type ops else addrsOf type ops := by
  unfold addrsOf
  by_cases h : op.uop.type = type
  · simp [h]
  · simp [h]

/-- The unit has the addresses of the operations that are still to come. -/
structure Fed (ops : List Op) (s : Lsu L) : Prop where
  loads : Feeds s.loadAddrs s.loadIdx (addrsOf .load ops)
  stores : Feeds s.storeAddrs s.storeIdx (addrsOf .store ops)

/-- A uop takes the address of its operation. -/
theorem Fed.step {op : Op} {s s' : Lsu L} (h : Fed (op :: ops) s) (hexec : Executes op.uop s s') :
    Fed ops s' ∧ Issues (issues op) s s' := by
  obtain ⟨hloads, hstores⟩ := h
  obtain ⟨⟨hla, hsa, hli, hsi⟩, hissues⟩ := hexec
  rw [addrsOf_cons] at hloads hstores
  refine ⟨⟨?_, ?_⟩, ?_⟩
  · rw [hla, hli]
    split at hloads
    · next htype =>
      rw [if_pos htype]
      exact (feeds_cons.mp hloads).2
    · next htype =>
      rw [if_neg htype]
      exact hloads
  · rw [hsa, hsi]
    split at hstores
    · next htype =>
      rw [if_pos htype]
      exact (feeds_cons.mp hstores).2
    · next htype =>
      rw [if_neg htype]
      exact hstores
  · have heq : issues (opAt op.uop s) = issues op := by
      unfold issues opAt
      cases htype : op.uop.type with
      | load =>
        rw [if_pos htype] at hloads
        simp only [if_true, Option.getD_some, (feeds_cons.mp hloads).1]
      | store =>
        rw [if_pos htype] at hstores
        simp only [reduceCtorEq, if_false, Option.getD_some, (feeds_cons.mp hstores).1]
      | general => rfl
      | storeAddr => rfl
      | fence => rfl
    rw [← heq]
    exact hissues

/-- The uops of a block issue what their operations do. -/
theorem simulate_issues (h : Fed ops s.lsu) :
    ends (fun _ => True) (simulate cache (ops.map Op.uop)) (fun _ s' => Issues (ops.flatMap issues) s.lsu s'.lsu) s := by
  induction ops generalizing s with
  | nil => exact Issues.refl rfl rfl rfl
  | cons op ops ih =>
    rw [List.map_cons, simulate, ends_bind]
    refine ends_mono (simulateUop_executes op.uop) fun _ s₁ hexec => ?_
    obtain ⟨hfed, hissues⟩ := h.step hexec.1
    refine ends_mono (ih hfed) fun _ s₂ hrest => ?_
    rw [List.flatMap_cons]
    exact hissues.trans hrest

end Blocks

section Callbacks

variable {L : Type} {s : Core L} {op : Op} {ops : List Op}

/-- An array of addresses with its length, after addresses have been appended. -/
structure Appends (l : List Address) (addrs : ℕ → Address) (n : ℕ) (addrs' : ℕ → Address) (n' : ℕ) : Prop where
  length : n' = n + l.length
  feeds : Feeds addrs' n l
  kept : ∀ i < n, addrs' i = addrs i

theorem appends_nil {addrs : ℕ → Address} {n : ℕ} : Appends [] addrs n addrs n :=
  ⟨rfl, fun _ _ h => (nomatch h), fun _ _ => rfl⟩

theorem appends_one {addrs : ℕ → Address} {n : ℕ} (a : Address) :
    Appends [a] addrs n (Function.update addrs n a) (n + 1) := by
  refine ⟨rfl, feeds_cons.mpr ⟨Function.update_self .., fun i a h => (nomatch h)⟩, fun i hi => ?_⟩
  exact Function.update_of_ne (Nat.ne_of_lt hi) ..

theorem Appends.trans {l l' : List Address} {addrs addrs' addrs'' : ℕ → Address} {n n' n'' : ℕ}
    (h : Appends l addrs n addrs' n') (h' : Appends l' addrs' n' addrs'' n'') :
    Appends (l ++ l') addrs n addrs'' n'' := by
  have hlen := h.length
  refine ⟨?_, fun i a hi => ?_, fun i hi => ?_⟩
  · rw [h'.length, hlen, List.length_append, Nat.add_assoc]
  · by_cases hlt : i < l.length
    · rw [List.getElem?_append_left hlt] at hi
      rw [h'.kept _ (by omega)]
      exact h.feeds i a hi
    · rw [List.getElem?_append_right (Nat.le_of_not_lt hlt)] at hi
      have hlater := h'.feeds _ a hi
      rw [← hlater]
      congr 1
      omega
  · rw [h'.kept i (by omega), h.kept i hi]

/-- What the callbacks leave for the block. -/
structure Recorded (ops : List Op) (s s' : Core L) : Prop where
  prevBbl : s'.prevBbl = s.prevBbl
  issues : Issues [] s.lsu s'.lsu
  loads : Appends (addrsOf .load ops) s.lsu.loadAddrs s.lsu.loads s'.lsu.loadAddrs s'.lsu.loads
  stores : Appends (addrsOf .store ops) s.lsu.storeAddrs s.lsu.stores s'.lsu.storeAddrs s'.lsu.stores

theorem addrsOf_one {type : UopType} :
    addrsOf type [op] = if op.uop.type = type then [op.addr.getD predFalse] else [] := addrsOf_cons

theorem callback_recorded : ends (fun _ => True) (callback op) (fun _ s' => Recorded [op] s s') s := by
  have hother : op.uop.type ≠ .load → op.uop.type ≠ .store → Recorded [op] s s := by
    intro hload hstore
    refine ⟨rfl, Issues.refl rfl rfl rfl, ?_, ?_⟩
    · rw [addrsOf_one, if_neg hload]
      exact appends_nil
    · rw [addrsOf_one, if_neg hstore]
      exact appends_nil
  unfold callback
  cases htype : op.uop.type with
  | load =>
    simp only [predLoad, recordLoad, ends_bind, ends_observe, ends_ensure, ends_change, id_eq]
    refine ⟨fun _ => ⟨rfl, Issues.refl rfl rfl rfl, ?_, ?_⟩, fun _ => trivial⟩
    · rw [addrsOf_one, if_pos htype]
      exact appends_one _
    · rw [addrsOf_one, if_neg (by rw [htype]; exact UopType.noConfusion)]
      exact appends_nil
  | store =>
    simp only [predStore, recordStore, ends_bind, ends_observe, ends_ensure, ends_change, id_eq]
    refine ⟨fun _ => ⟨rfl, Issues.refl rfl rfl rfl, ?_, ?_⟩, fun _ => trivial⟩
    · rw [addrsOf_one, if_neg (by rw [htype]; exact UopType.noConfusion)]
      exact appends_nil
    · rw [addrsOf_one, if_pos htype]
      exact appends_one _
  | general => exact hother (by simp [htype]) (by simp [htype])
  | storeAddr => exact hother (by simp [htype]) (by simp [htype])
  | fence => exact hother (by simp [htype]) (by simp [htype])

theorem Recorded.trans {ops' : List Op} {s' s'' : Core L} (h : Recorded ops s s') (h' : Recorded ops' s' s'') :
    Recorded (ops ++ ops') s s'' := by
  refine ⟨h'.prevBbl.trans h.prevBbl, h.issues.trans h'.issues, ?_, ?_⟩
  · rw [addrsOf, List.filter_append, List.map_append]
    exact h.loads.trans h'.loads
  · rw [addrsOf, List.filter_append, List.map_append]
    exact h.stores.trans h'.stores

theorem callbacks_recorded : ends (fun _ => True) (callbacks ops) (fun _ s' => Recorded ops s s') s := by
  induction ops generalizing s with
  | nil => exact ⟨rfl, Issues.refl rfl rfl rfl, appends_nil, appends_nil⟩
  | cons op ops ih =>
    rw [callbacks, ends_bind]
    refine ends_mono callback_recorded fun _ s₁ h₁ => ends_mono ih fun _ s₂ h₂ => ?_
    exact h₁.trans h₂

end Callbacks

section Main

variable {L : Type} {cache : L1D L} {s s' : Core L} {ops : List Op} {next : List DynUop}

/-- A block issues, for its operations, what the code makes of them. -/
theorem bbl_issues (hprev : s.prevBbl = some (ops.map Op.uop)) (hloads : s.lsu.loads = 0) (hstores : s.lsu.stores = 0) :
    ends (fun _ => True) (callbacks ops >>= fun _ => bbl cache next)
      (fun _ s' => Issues (ops.flatMap issues) s.lsu s'.lsu) s := by
  rw [ends_bind]
  refine ends_mono callbacks_recorded fun _ s₁ h₁ => ?_
  have hfed : Fed ops { s₁.lsu with loadIdx := 0, storeIdx := 0 } := by
    have hl := h₁.loads.feeds
    have hs := h₁.stores.feeds
    rw [hloads] at hl
    rw [hstores] at hs
    exact ⟨hl, hs⟩
  unfold bbl
  simp only [ends_bind, ends_observe, id_eq]
  rw [h₁.prevBbl, hprev]
  simp only [ends_bind, ends_observe, ends_ensure, ends_change, id_eq]
  refine ends_mono (simulate_issues hfed) fun _ s₂ h₂ => ?_
  refine ⟨fun _ => ⟨fun _ => ?_, fun _ => trivial⟩, fun _ => trivial⟩
  have hnew : Issues (ops.flatMap issues) s₁.lsu s₂.lsu := ⟨h₂.issued⟩
  exact ⟨(h₁.issues.trans hnew).issued⟩

/-- The code makes too many stores and too few loads. -/
theorem countP_issues (op : Op) :
    (executes op).countP (fun a => a.1) ≤ (issues op).countP (fun a => a.1) ∧
      (issues op).countP (fun a => !a.1) ≤ (executes op).countP (fun a => !a.1) := by
  unfold issues executes
  cases htype : op.uop.type with
  | load =>
    cases haddr : op.addr with
    | none => simp
    | some addr =>
      simp only [Option.getD_some]
      split
      · exact ⟨Nat.le_refl _, Nat.le_refl _⟩
      · exact ⟨Nat.le_refl 0, Nat.zero_le 1⟩
  | store =>
    cases haddr : op.addr with
    | none => simp
    | some addr => simp
  | general => simp
  | storeAddr => simp
  | fence => simp

theorem issues_eq_iff (op : Op) : issues op = executes op ↔
    (op.uop.type = .store → op.addr ≠ none) ∧ (op.uop.type = .load → op.addr ≠ some predFalse) := by
  unfold issues executes
  cases htype : op.uop.type with
  | load =>
    cases haddr : op.addr with
    | none => simp
    | some addr => simp
  | store =>
    cases haddr : op.addr with
    | none => simp
    | some addr => simp
  | general => simp
  | storeAddr => simp
  | fence => simp

/-- The number of accesses of each kind decides. -/
theorem issues_eq_of_counts {op : Op} (hstores : (issues op).countP (fun a => a.1) = (executes op).countP (fun a => a.1))
    (hloads : (issues op).countP (fun a => !a.1) = (executes op).countP (fun a => !a.1)) : issues op = executes op := by
  refine (issues_eq_iff op).mpr ⟨fun htype haddr => ?_, fun htype haddr => ?_⟩
  · simp [issues, executes, htype, haddr] at hstores
  · simp [issues, executes, htype, haddr] at hloads

section Counts

variable {β : Type} {f g : Op → List β} {p : β → Bool}

theorem countP_flatMap_le (hle : ∀ op, (f op).countP p ≤ (g op).countP p) :
    (ops.flatMap f).countP p ≤ (ops.flatMap g).countP p := by
  induction ops with
  | nil => exact Nat.le_refl _
  | cons op ops ih =>
    rw [List.flatMap_cons, List.flatMap_cons, List.countP_append, List.countP_append]
    exact Nat.add_le_add (hle op) ih

theorem countP_eq_of_flatMap (hle : ∀ op, (f op).countP p ≤ (g op).countP p)
    (h : (ops.flatMap f).countP p = (ops.flatMap g).countP p) : ∀ op ∈ ops, (f op).countP p = (g op).countP p := by
  induction ops with
  | nil => exact fun op hop => (nomatch hop)
  | cons op ops ih =>
    rw [List.flatMap_cons, List.flatMap_cons, List.countP_append, List.countP_append] at h
    have hop := hle op
    have hops := @countP_flatMap_le ops β f g p hle
    exact List.forall_mem_cons.mpr ⟨by omega, ih (by omega)⟩

end Counts

theorem flatMap_issues_iff : ops.flatMap issues = ops.flatMap executes ↔ Clean ops := by
  constructor
  · intro h op hop
    have hstores := countP_eq_of_flatMap (fun op => (countP_issues op).1) (congrArg _ h.symm) op hop
    have hloads := countP_eq_of_flatMap (fun op => (countP_issues op).2) (congrArg _ h) op hop
    exact (issues_eq_iff op).mp (issues_eq_of_counts hstores.symm hloads)
  · intro h
    exact List.flatMap_congr fun op hop => (issues_eq_iff op).mpr (h op hop)

/-- What is issued is known from the calls of the data cache. -/
theorem Issues.unique {accesses accesses' : List (Bool × Address)} {s s' : Lsu L} (h : Issues accesses s s')
    (h' : Issues accesses' s s') : accesses = accesses' := by
  obtain ⟨new, recs, hcalls, hmap, -⟩ := h.issued
  obtain ⟨new', recs', hcalls', hmap', -⟩ := h'.issued
  have hnew : new = new' := List.append_cancel_left (hcalls.symm.trans hcalls')
  rw [← hmap, ← hmap', hnew]

theorem issues_of_run (hprev : s.prevBbl = some (ops.map Op.uop)) (hloads : s.lsu.loads = 0)
    (hstores : s.lsu.stores = 0) (hrun : (callbacks ops >>= fun _ => bbl cache next) s = .ok ((), s')) :
    Issues (ops.flatMap issues) s.lsu s'.lsu := by
  have hends := @bbl_issues L cache s ops next hprev hloads hstores
  exact @answer_of_ends _ _ _ _ _ _ s s' () hends hrun

/-- A block makes exactly the accesses whose predicates are true when it is clean. -/
theorem bbl_executes_iff (hprev : s.prevBbl = some (ops.map Op.uop)) (hloads : s.lsu.loads = 0)
    (hstores : s.lsu.stores = 0) (hrun : (callbacks ops >>= fun _ => bbl cache next) s = .ok ((), s')) :
    Issues (ops.flatMap executes) s.lsu s'.lsu ↔ Clean ops := by
  have hissues := issues_of_run hprev hloads hstores hrun
  rw [← flatMap_issues_iff]
  constructor
  · exact fun h => hissues.unique h
  · intro h
    rw [← h]
    exact hissues

/-- A cache that answers at once. -/
def quickL1D : L1D Unit := ⟨fun _ _ _ cycle => (cycle, ())⟩

/-- A uop of the memory ports. -/
def memUop (type : UopType) : DynUop := ⟨(0, 0), (0, 0), 1, 0, type, 4, 0⟩

theorem simulate_keeps {uops : List DynUop} :
    ends (fun _ => True) (simulate cache uops) (fun _ s' => s'.prevBbl = s.prevBbl) s := by
  induction uops generalizing s with
  | nil => exact rfl
  | cons uop uops ih =>
    rw [simulate, ends_bind]
    exact ends_mono (simulateUop_executes uop) fun _ s₁ h₁ => ends_mono ih fun _ s₂ h₂ => h₂.trans h₁.2

/-- After a call the core is ready for the block of the call. -/
theorem bbl_ready : ends (fun _ => True) (bbl cache next)
    (fun _ s' => s'.prevBbl = some next ∧ s'.lsu.loads = 0 ∧ s'.lsu.stores = 0) s := by
  unfold bbl
  rw [ends_bind, ends_observe]
  cases hprev : (id s).prevBbl with
  | none => exact ⟨rfl, rfl, rfl⟩
  | some uops =>
    simp only [ends_bind, ends_observe, ends_ensure, ends_change]
    refine ends_mono simulate_keeps fun _ s' hkept => ?_
    exact ⟨fun _ => ⟨fun _ => ⟨hkept, rfl, rfl⟩, fun _ => trivial⟩, fun _ => trivial⟩

/-- A core that has got a block, in the cycle of its first decode. -/
def readyCore (ops : List Op) : Core Unit :=
  { Core.new () with
    prevBbl := some (ops.map Op.uop)
    pipe := { (Core.new ()).pipe with insWindow := .new 4 } }

theorem ok_of_isOk {m : Act L Unit} (h : (m s).isOk = true) : ∃ s', m s = .ok ((), s') := by
  cases hm : m s with
  | error e =>
    rw [hm] at h
    cases h
  | ok r => exact ⟨r.2, rfl⟩

/-- A load, a load with a false predicate and a store. -/
theorem bbl_executes_three :
    let ops : List Op := [⟨memUop .load, some 64⟩, ⟨memUop .load, none⟩, ⟨memUop .store, some 64⟩]
    ∃ s' : Core Unit, (callbacks ops >>= fun _ => bbl quickL1D []) (readyCore ops) = .ok ((), s') ∧
      (Issues (ops.flatMap executes) (readyCore ops).lsu s'.lsu ↔ Clean ops) := by
  intro ops
  obtain ⟨s', hrun⟩ := @ok_of_isOk Unit (readyCore ops) (callbacks ops >>= fun _ => bbl quickL1D []) (by decide +kernel)
  exact ⟨s', hrun, bbl_executes_iff rfl rfl rfl hrun⟩

/-- A store with a false predicate is issued. -/
theorem false_store_issued : ¬ ∀ (L : Type) (cache : L1D L) (s s' : Core L) (ops : List Op) (next : List DynUop),
    s.prevBbl = some (ops.map Op.uop) → s.lsu.loads = 0 → s.lsu.stores = 0 →
      (callbacks ops >>= fun _ => bbl cache next) s = .ok ((), s') →
        Issues (ops.flatMap executes) s.lsu s'.lsu := by
  intro hall
  obtain ⟨s', hrun⟩ := @ok_of_isOk Unit (readyCore [⟨memUop .store, none⟩])
    (callbacks [⟨memUop .store, none⟩] >>= fun _ => bbl quickL1D []) (by decide +kernel)
  have hexecutes := hall Unit quickL1D (readyCore [⟨memUop .store, none⟩]) s' [⟨memUop .store, none⟩] [] rfl rfl rfl hrun
  have hissues := @issues_of_run Unit quickL1D (readyCore [⟨memUop .store, none⟩]) s' [⟨memUop .store, none⟩] []
    rfl rfl rfl hrun
  have heq : [(true, predFalse)] = [] := Issues.unique hissues hexecutes
  cases heq

end Main
end Zsim.OOOCoreAccesses
