import Zsim.LRU

/-!
# Tree LRU

The class has the walk of a tree: it halves the recorded candidates and goes
into the half whose newest stamp is older. But it inherits the ranking of plain
LRU through the interface, and nothing records a candidate. The walk is right:
it ends at the leaf of the tree, which is never the newest candidate. The line
that is evicted is the leaf only when its score happens to be the least.
-/

namespace Zsim.TreeLRU

open MemoryHierarchy DrivenArrays GuardedRuns PolicyRuns Selection LRU

/-- `TreeLRUReplPolicy`. -/
structure TreeLRUReplPolicy extends LRUReplPolicy where
  candArray : ℕ → LineId
  numCands : ℕ
  candIdx : ℕ

namespace TreeLRUReplPolicy

/-- The constructor; it panics unless the candidates are a power of two. -/
def init (numCands : ℕ) : TreeLRUReplPolicy where
  toLRUReplPolicy := .init
  candArray _ := 0
  numCands := numCands
  candIdx := 0

/-- `LRUReplPolicy::update`, which is inherited. -/
def update (s : TreeLRUReplPolicy) (id : LineId) : TreeLRUReplPolicy :=
  { s with toLRUReplPolicy := s.toLRUReplPolicy.update id }

/-- `TreeLRUReplPolicy::replaced`. -/
def replaced (s : TreeLRUReplPolicy) (id : LineId) : TreeLRUReplPolicy :=
  { s with
    toLRUReplPolicy := s.toLRUReplPolicy.replaced id
    candIdx := 0 }

/-- `TreeLRUReplPolicy::recordCandidate`. -/
def recordCandidate (s : TreeLRUReplPolicy) (id : LineId) : TreeLRUReplPolicy :=
  { s with
    candArray := Function.update s.candArray s.candIdx id
    candIdx := s.candIdx + 1 }

/-- A loop over the candidates from `start` to `stop` for their newest stamp. -/
def newest (s : TreeLRUReplPolicy) (start stop : ℕ) : ℕ :=
  (List.range' start (stop - start)).foldl (fun t i => max t (s.array (s.candArray i))) 0

/-- The loop of `getBestCandidate`. -/
def descend (s : TreeLRUReplPolicy) (start stop : ℕ) : ℕ :=
  if 1 < stop - start then
    let pivot := start + (stop - start) / 2
    if s.newest pivot stop < s.newest start pivot then s.descend pivot stop
    else s.descend start pivot
  else start
termination_by stop - start

/-- `TreeLRUReplPolicy::getBestCandidate`, with its assertion. -/
def getBestCandidate (s : TreeLRUReplPolicy) : Option LineId :=
  if s.candIdx = s.numCands then some (s.candArray (s.descend 0 s.numCands)) else none

end TreeLRUReplPolicy

/-- The policy interface of `TreeLRUReplPolicy`: the ranking is that of
`LRUReplPolicy<true>`. -/
def treeLRU : ReplPolicy TreeLRUReplPolicy where
  update s id _ := s.update id
  replaced s id := s.replaced id
  rankCands s cc _ cands := some (s.rank true cc cands, s)

section Leaf

variable {ts : LineId → ℕ} {l l' : List LineId} {i : LineId} {k : ℕ}

/-- The newest stamp among the lines. -/
def newestOf (ts : LineId → ℕ) (l : List LineId) : ℕ := l.foldr (fun c t => max (ts c) t) 0

/-- The leaf of a tree over `2 ^ k` lines: go into the half whose newest stamp is
older. -/
def leaf (ts : LineId → ℕ) : ℕ → List LineId → Option LineId
  | 0, l => l.head?
  | k + 1, l =>
    if newestOf ts (l.drop (2 ^ k)) < newestOf ts (l.take (2 ^ k)) then leaf ts k (l.drop (2 ^ k))
    else leaf ts k (l.take (2 ^ k))

theorem le_newestOf (h : i ∈ l) : ts i ≤ newestOf ts l := by
  induction l with
  | nil => cases h
  | cons c l ih =>
    rw [newestOf, List.foldr_cons]
    cases List.mem_cons.mp h with
    | inl h => exact h ▸ le_max_left _ _
    | inr h => exact (ih h).trans (le_max_right _ _)

/-- The newest stamp is one of a line, or there is none. -/
theorem newestOf_mem : newestOf ts l = 0 ∨ ∃ c ∈ l, ts c = newestOf ts l := by
  induction l with
  | nil => exact Or.inl rfl
  | cons c l ih =>
    have hcons : newestOf ts (c :: l) = max (ts c) (newestOf ts l) := rfl
    right
    obtain hc | hl := le_total (newestOf ts l) (ts c)
    · exact ⟨c, by simp, by rw [hcons, max_eq_left hc]⟩
    · rw [hcons, max_eq_right hl]
      cases ih with
      | inl h0 => exact ⟨c, by simp, by omega⟩
      | inr hd =>
        obtain ⟨d, hd, hts⟩ := hd
        exact ⟨d, List.mem_cons_of_mem _ hd, hts⟩

/-- The halves of a list of `2 ^ (k + 1)` lines. -/
theorem halves_length (h : l.length = 2 ^ (k + 1)) :
    (l.take (2 ^ k)).length = 2 ^ k ∧ (l.drop (2 ^ k)).length = 2 ^ k := by
  rw [Nat.pow_succ] at h
  rw [List.length_take, List.length_drop]
  omega

/-- The walk ends at one of the lines. -/
theorem leaf_mem (h : l.length = 2 ^ k) : ∃ i ∈ l, leaf ts k l = some i := by
  induction k generalizing l with
  | zero =>
    obtain ⟨c, rfl⟩ := List.length_eq_one_iff.mp h
    exact ⟨c, by simp, rfl⟩
  | succ k ih =>
    obtain ⟨htake, hdrop⟩ := halves_length h
    rw [leaf]
    split
    · obtain ⟨i, hi, hleaf⟩ := ih hdrop
      exact ⟨i, List.mem_of_mem_drop hi, hleaf⟩
    · obtain ⟨i, hi, hleaf⟩ := ih htake
      exact ⟨i, List.mem_of_mem_take hi, hleaf⟩

/-- The first turn leaves the newest line behind, unless no line has a stamp. -/
theorem leaf_not_newest (hts : Distinct ts) (hnodup : l.Nodup) (h : l.length = 2 ^ k)
    (hdiff : ∃ c ∈ l, ∃ d ∈ l, ts c ≠ ts d) (hi : leaf ts k l = some i) : ∃ d ∈ l, ts i < ts d := by
  cases k with
  | zero =>
    obtain ⟨c, rfl⟩ := List.length_eq_one_iff.mp h
    obtain ⟨a, ha, b, hb, hab⟩ := hdiff
    rw [List.mem_singleton] at ha hb
    rw [ha, hb] at hab
    exact absurd rfl hab
  | succ k =>
    obtain ⟨htake, hdrop⟩ := halves_length h
    have hsplit := List.take_append_drop (2 ^ k) l
    -- a line of a half whose newest stamp is older is older than some line of the other half
    have holder : ∀ l₁ l₂ : List LineId, (∀ c ∈ l₂, c ∈ l) → i ∈ l₁ →
        newestOf ts l₁ < newestOf ts l₂ → ∃ d ∈ l, ts i < ts d := by
      intro l₁ l₂ hsub hmem hlt
      have hle : ts i ≤ newestOf ts l₁ := le_newestOf hmem
      cases @newestOf_mem ts l₂ with
      | inl h0 => omega
      | inr hd =>
        obtain ⟨d, hd, hts⟩ := hd
        exact ⟨d, hsub d hd, by omega⟩
    rw [leaf] at hi
    by_cases hlt : newestOf ts (l.drop (2 ^ k)) < newestOf ts (l.take (2 ^ k))
    · rw [if_pos hlt] at hi
      obtain ⟨j, hj, hleaf⟩ := @leaf_mem ts _ k hdrop
      have hji : j = i := Option.some.inj (hleaf.symm.trans hi)
      exact holder _ _ (fun c hc => List.mem_of_mem_take hc) (hji ▸ hj) hlt
    · rw [if_neg hlt] at hi
      obtain ⟨j, hj, hleaf⟩ := @leaf_mem ts _ k htake
      have hji : j = i := Option.some.inj (hleaf.symm.trans hi)
      obtain hlt' | heq := lt_or_eq_of_le (not_lt.mp hlt)
      · exact holder _ _ (fun c hc => List.mem_of_mem_drop hc) (hji ▸ hj) hlt'
      · -- the halves have no line in common, so neither has a stamp
        exfalso
        rw [← hsplit, List.nodup_append'] at hnodup
        have hzero : newestOf ts (l.take (2 ^ k)) = 0 := by
          by_contra hne
          cases @newestOf_mem ts (l.take (2 ^ k)) with
          | inl h0 => exact hne h0
          | inr hc =>
            obtain ⟨c, hc, hcts⟩ := hc
            cases @newestOf_mem ts (l.drop (2 ^ k)) with
            | inl h0 => omega
            | inr hd =>
              obtain ⟨d, hd, hdts⟩ := hd
              cases hts c d (by omega) with
              | inl hcd => exact hnodup.2.2 hc (hcd ▸ hd)
              | inr h0 => omega
        have hall : ∀ c ∈ l, ts c = 0 := by
          intro c hc
          rw [← hsplit, List.mem_append] at hc
          cases hc with
          | inl hc =>
            have hle : ts c ≤ _ := le_newestOf hc
            omega
          | inr hc =>
            have hle : ts c ≤ _ := le_newestOf hc
            omega
        obtain ⟨c, hc, d, hd, hcd⟩ := hdiff
        exact hcd ((hall c hc).trans (hall d hd).symm)

end Leaf

section Walk

variable {s : TreeLRUReplPolicy} {ts : LineId → ℕ} {l : List LineId} {k : ℕ}

theorem foldl_max (t : ℕ) : l.foldl (fun t c => max t (ts c)) t = max t (newestOf ts l) := by
  induction l generalizing t with
  | nil => exact (Nat.max_zero t).symm
  | cons c l ih =>
    rw [List.foldl_cons, ih, max_assoc]
    rfl

theorem newest_eq (start n : ℕ) : s.newest start (start + n) =
    newestOf s.array ((List.range' start n).map s.candArray) := by
  have hfold := @foldl_max s.array ((List.range' start n).map s.candArray) 0
  rw [List.foldl_map, Nat.zero_max] at hfold
  rw [TreeLRUReplPolicy.newest, Nat.add_sub_cancel_left]
  exact hfold

/-- The loop walks the tree over the part of the recorded candidates it is in. -/
theorem descend_leaf (start : ℕ) :
    leaf s.array k ((List.range' start (2 ^ k)).map s.candArray) =
      some (s.candArray (s.descend start (start + 2 ^ k))) := by
  induction k generalizing start with
  | zero =>
    rw [TreeLRUReplPolicy.descend, if_neg (by omega)]
    rfl
  | succ k ih =>
    have hpos := Nat.two_pow_pos k
    have htwice : 2 ^ (k + 1) = 2 ^ k + 2 ^ k := by rw [Nat.pow_succ, Nat.mul_two]
    have hpivot : start + (start + 2 ^ k + 2 ^ k - start) / 2 = start + 2 ^ k := by omega
    have hstop : start + 2 ^ (k + 1) = start + 2 ^ k + 2 ^ k := by omega
    have hrange : (List.range' start (2 ^ (k + 1))).map s.candArray =
        (List.range' start (2 ^ k)).map s.candArray ++
          (List.range' (start + 2 ^ k) (2 ^ k)).map s.candArray := by
      rw [htwice, ← List.map_append, List.range'_append_1]
    have hturn : s.descend start (start + 2 ^ (k + 1)) =
        if s.newest (start + 2 ^ k) (start + 2 ^ k + 2 ^ k) < s.newest start (start + 2 ^ k) then
          s.descend (start + 2 ^ k) (start + 2 ^ k + 2 ^ k)
        else s.descend start (start + 2 ^ k) := by
      rw [TreeLRUReplPolicy.descend, if_pos (by omega)]
      simp only [hstop, hpivot]
    rw [leaf, hrange, List.take_left' (by simp), List.drop_left' (by simp), ← newest_eq, ← newest_eq,
      ih, ih, hturn]
    split <;> rfl

/-- Recording appends to the candidates. -/
theorem record_all (cands : List LineId) :
    (cands.foldl TreeLRUReplPolicy.recordCandidate s).toLRUReplPolicy = s.toLRUReplPolicy ∧
    (cands.foldl TreeLRUReplPolicy.recordCandidate s).numCands = s.numCands ∧
    (cands.foldl TreeLRUReplPolicy.recordCandidate s).candIdx = s.candIdx + cands.length ∧
    (List.range (s.candIdx + cands.length)).map
        (cands.foldl TreeLRUReplPolicy.recordCandidate s).candArray =
      (List.range s.candIdx).map s.candArray ++ cands := by
  induction cands generalizing s with
  | nil => simp
  | cons c cands ih =>
    obtain ⟨hlru, hnum, hidx, hcands⟩ := @ih (s.recordCandidate c)
    rw [List.foldl_cons, List.length_cons]
    have hnext : s.candIdx + (cands.length + 1) = (s.recordCandidate c).candIdx + cands.length := by
      simp only [TreeLRUReplPolicy.recordCandidate]
      omega
    have hbefore : (List.range (s.recordCandidate c).candIdx).map (s.recordCandidate c).candArray =
        (List.range s.candIdx).map s.candArray ++ [c] := by
      simp only [TreeLRUReplPolicy.recordCandidate, List.range_succ, List.map_append, List.map_cons,
        List.map_nil, Function.update_self]
      congr 1
      refine List.map_congr_left fun i hi => Function.update_of_ne ?_ _ _
      exact (List.mem_range.mp hi).ne
    refine ⟨hlru, hnum, hidx.trans hnext.symm, ?_⟩
    rw [hnext, hcands, hbefore, List.append_assoc, List.singleton_append]

/-- Were the candidates recorded, `getBestCandidate` would return the leaf. -/
theorem getBestCandidate_leaf (hidx : s.candIdx = 0) (hnum : s.numCands = 2 ^ k)
    (h : l.length = 2 ^ k) :
    (l.foldl TreeLRUReplPolicy.recordCandidate s).getBestCandidate = leaf s.array k l := by
  obtain ⟨hlru, hnum', hidx', hcands⟩ := @record_all s l
  have hwalk := @descend_leaf (l.foldl TreeLRUReplPolicy.recordCandidate s) k 0
  rw [hidx, Nat.zero_add, h, List.range_zero, List.map_nil, List.nil_append,
    List.range_eq_range'] at hcands
  rw [hcands, hlru, Nat.zero_add] at hwalk
  rw [TreeLRUReplPolicy.getBestCandidate, if_pos (by omega), hnum', hnum]
  exact hwalk.symm

end Walk

section Runs

variable {numLines : ℕ} {s s' : TreeLRUReplPolicy} {ops : List PolicyOp}

/-- The stamps are those of plain LRU. -/
theorem run_lru (hr : run (callStep treeLRU numLines) s ops = some s') :
    run (callStep (lru true) numLines) s.toLRUReplPolicy ops = some s'.toLRUReplPolicy := by
  induction ops generalizing s with
  | nil =>
    cases hr
    rfl
  | cons op ops ih =>
    obtain ⟨s₁, hs₁, hrest⟩ := run_cons.mp hr
    refine run_cons.mpr ⟨s₁.toLRUReplPolicy, ?_, ih hrest⟩
    cases op with
    | hit id req =>
      obtain ⟨hid, rfl⟩ := callStep_hit.mp hs₁
      exact callStep_hit.mpr ⟨hid, rfl⟩
    | rank cc req cands =>
      obtain ⟨hcands, i, hi⟩ := callStep_rank.mp hs₁
      cases hi
      exact callStep_rank.mpr ⟨hcands, _, rfl⟩
    | fill id req =>
      obtain ⟨hid, rfl⟩ := callStep_fill.mp hs₁
      exact callStep_fill.mpr ⟨hid, rfl⟩

end Runs

/-- The line that is evicted is the one the walk ends at. -/
def EvictsLeaf (s : TreeLRUReplPolicy) (cc : CCView) (req : MemReq) (k : ℕ)
    (cands : List LineId) : Prop :=
  ∃ i, treeLRU.rankCands s cc req cands = some (i, s) ∧ leaf s.array k cands = some i

/-- The leaf is evicted exactly when the low half of its score is less than
those of the candidates before it and at most those of the candidates after it.
Evicted or not, the leaf is not the newest candidate when two stamps differ. -/
theorem treeLRU_leaf_iff (k : ℕ) (cands : List LineId) (hnodup : cands.Nodup)
    (hlen : cands.length = 2 ^ k) (numLines : ℕ) (ops : List PolicyOp) (s : TreeLRUReplPolicy)
    (hrun : run (callStep treeLRU numLines) (.init (2 ^ k)) ops = some s) :
    (∀ cc req, EvictsLeaf s cc req k cands ↔
      ∃ i, leaf s.array k cands = some i ∧ FirstLeast (s.lowScore true cc) cands i) ∧
    (ops.length < 2 ^ 64 - 1 → (∃ c ∈ cands, ∃ d ∈ cands, s.array c ≠ s.array d) →
      ∃ i, leaf s.array k cands = some i ∧ ∃ d ∈ cands, s.array i < s.array d) := by
  have hne : cands ≠ [] := by
    intro hnil
    have hpos := Nat.two_pow_pos k
    rw [hnil, List.length_nil] at hlen
    omega
  constructor
  · intro cc req
    have hfirst := rank_firstLeast true s.toLRUReplPolicy cc hne
    constructor
    · intro ⟨i, hi, hleaf⟩
      cases hi
      exact ⟨_, hleaf, hfirst⟩
    · intro ⟨i, hleaf, hi⟩
      exact ⟨i, congrArg (fun c => some (c, s)) (hfirst.unique hi), hleaf⟩
  · intro hops hdiff
    have hs : Stamped s.toLRUReplPolicy :=
      run_stamped stamped_init (by simp only [LRUReplPolicy.init]; omega)
        (run_lru hrun)
    obtain ⟨i, -, hleaf⟩ := @leaf_mem s.array cands k hlen
    exact ⟨i, hleaf, leaf_not_newest hs.distinct hnodup hlen hdiff hleaf⟩

section Runs

/-- Hits on the lines, in this order. -/
def hits (ids : List LineId) : List PolicyOp := ids.map fun id => .hit id (fetch 0)

/-- Of two lines of a set the older one is the leaf, and it is evicted. -/
theorem treeLRU_evicts_leaf : ∃ s, run (callStep treeLRU 2) (.init 2) (hits [1, 0]) = some s ∧
    EvictsLeaf s unshared (fetch 0) 1 [0, 1] ∧ leaf s.array 1 [0, 1] = some 1 := by
  have hrun : run (callStep treeLRU 2) (.init 2) (hits [1, 0]) =
      some (((TreeLRUReplPolicy.init 2).update 1).update 0) := rfl
  obtain ⟨hiff, hnewest⟩ := treeLRU_leaf_iff 1 [0, 1] (by decide) rfl 2 _ _ hrun
  have hfirst : FirstLeast (((TreeLRUReplPolicy.init 2).update 1).update 0 |>.lowScore true unshared)
      [0, 1] 1 := ⟨[0], [], rfl, by decide, by decide⟩
  exact ⟨_, hrun, (hiff unshared (fetch 0)).mpr ⟨1, rfl, hfirst⟩, rfl⟩

/-- Four lines are hit in the order 0, 2, 3, 1. The tree leaves the half with
line 1 and ends at line 2; line 0, the least recently used, is evicted. -/
theorem treeLRU_ignores_tree : ¬ ∀ k first numLines ops s,
    run (callStep treeLRU numLines) (.init (2 ^ k)) ops = some s →
      ∀ cc req, EvictsLeaf s cc req k (List.range' first (2 ^ k)) := by
  intro h
  obtain ⟨i, hi, hleaf⟩ := h 2 0 4 (hits [0, 2, 3, 1]) _ rfl unshared (fetch 0)
  have hvictim : i = 0 := by
    have hrank : treeLRU.rankCands (((((TreeLRUReplPolicy.init (2 ^ 2)).update 0).update 2).update
        3).update 1) unshared (fetch 0) (List.range' 0 (2 ^ 2)) = some (0, _) := rfl
    exact congrArg Prod.fst (Option.some.inj (hi.symm.trans hrank))
  have hleaf' : some 2 = some i := hleaf
  rw [hvictim] at hleaf'
  exact absurd hleaf' (by decide)

end Runs
end Zsim.TreeLRU
