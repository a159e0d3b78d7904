import Zsim.LinkedStacks
import Zsim.LRUStacks
import Zsim.UtilityMonitor
import Mathlib.Data.List.Nodup

/-!
# The nodes of the utility monitor

A set of a `UMon` is a chain of nodes, most recent first. An access walks along
the chain to the node of its address, or to the last node, and moves that node
to the head. The chain stays a permutation of the nodes of the set, and its
addresses are the list that the sets are elsewhere. The list holds the contents
of the LRU caches of all sizes, so the hits by position give the misses of each.
-/

namespace Zsim.UMonChains

open MemoryHierarchy CheckedTables PartPolicy UtilityMonitor LinkedStacks LRUStacks GuardedRuns

/-- The nodes of one set; `next` is nothing where the pointer is null. -/
structure UMonSet where
  head : ℕ
  addr : ℕ → Address
  next : ℕ → Option ℕ

namespace UMonSet

/-- The loop of the constructor of `UMon`. -/
def new (buckets : ℕ) : UMonSet where
  head := 0
  addr _ := 0
  next j := if j + 1 < buckets then some (j + 1) else none

/-- The search of `UMon::access`, with `left` positions to go from `b`: the
position of a hit, `prev` and `cur`. Nothing when it follows a null pointer. -/
def search (s : UMonSet) (lineAddr : Address) :
    ℕ → ℕ → Option ℕ → ℕ → Option (Option ℕ × Option ℕ × ℕ)
  | 0, _, prev, cur => some (none, prev, cur)
  | left + 1, b, prev, cur =>
    if s.addr cur = lineAddr then some (some b, prev, cur)
    else if 0 < left then (s.next cur).bind fun n => search s lineAddr left (b + 1) (some cur) n
    else search s lineAddr left (b + 1) prev cur

/-- Move cur to MRU. -/
def moveToFront (s : UMonSet) (prev : Option ℕ) (cur : ℕ) : UMonSet :=
  match prev with
  | none => s
  | some p => { s with
      head := cur
      next := Function.update (Function.update s.next p (s.next cur)) cur (some s.head) }

/-- The part of `UMon::access` on the set: the position of the hit, if it is one.
Nothing when a null pointer is followed or the assertion on the last node fails. -/
def access (s : UMonSet) (buckets : ℕ) (lineAddr : Address) : Option (Option ℕ × UMonSet) :=
  (s.search lineAddr buckets 0 none s.head).bind fun found =>
    match found with
    | (some b, prev, cur) => some (some b, s.moveToFront prev cur)
    | (none, prev, cur) =>
      if s.next cur = none then
        some (none, { s with addr := Function.update s.addr cur lineAddr }.moveToFront prev cur)
      else none

end UMonSet

/-- The chain of the set is a permutation of its nodes, with these addresses. -/
def Spells (s : UMonSet) (buckets : ℕ) (addrs : List Address) : Prop :=
  ∃ nodes, Chain s.next (some s.head) nodes ∧ nodes.Perm (List.range buckets) ∧
    nodes.map s.addr = addrs

section Sets

variable {s : UMonSet} {a : Address} {pre post : List ℕ} {cur b : ℕ}

/-- The search stops at the first node with the address, or at the last node. -/
theorem search_spec (hchain : Chain s.next (some cur) (cur :: post))
    (hpre : ∀ x ∈ pre, s.addr x ≠ a) :
    ∃ pre' cur' post' hit, pre ++ cur :: post = pre' ++ cur' :: post' ∧
      (∀ x ∈ pre', s.addr x ≠ a) ∧
      s.search a (post.length + 1) pre.length pre.getLast? cur = some (hit, pre'.getLast?, cur') ∧
      ((hit = some pre'.length ∧ s.addr cur' = a) ∨ (hit = none ∧ post' = [] ∧ s.addr cur' ≠ a)) := by
  induction post generalizing pre cur with
  | nil =>
    by_cases hcur : s.addr cur = a
    · refine ⟨pre, cur, [], _, rfl, hpre, ?_, Or.inl ⟨rfl, hcur⟩⟩
      rw [List.length_nil, UMonSet.search, if_pos hcur]
    · refine ⟨pre, cur, [], _, rfl, hpre, ?_, Or.inr ⟨rfl, rfl, hcur⟩⟩
      rw [List.length_nil, UMonSet.search, if_neg hcur, if_neg (by decide)]
      rfl
  | cons n post ih =>
    by_cases hcur : s.addr cur = a
    · refine ⟨pre, cur, n :: post, _, rfl, hpre, ?_, Or.inl ⟨rfl, hcur⟩⟩
      rw [UMonSet.search, if_pos hcur]
    · obtain ⟨-, hnext, htail⟩ := hchain
      have hpre' : ∀ x ∈ pre ++ [cur], s.addr x ≠ a := by
        intro x hx
        rw [List.mem_append, List.mem_singleton] at hx
        cases hx with
        | inl hx => exact hpre x hx
        | inr hx => exact hx ▸ hcur
      obtain ⟨pre', cur', post', hit, hsplit, hmiss, hsearch, hends⟩ := @ih (pre ++ [cur]) n
        ⟨rfl, htail⟩ hpre'
      refine ⟨pre', cur', post', hit, ?_, hmiss, ?_, hends⟩
      · rw [← hsplit, List.append_assoc, List.singleton_append]
      · rw [List.length_append, List.length_singleton, List.getLast?_concat] at hsearch
        rw [List.length_cons, UMonSet.search, if_neg hcur, if_pos (Nat.succ_pos _), hnext]
        exact hsearch

/-- The node that is moved comes first, and the others keep their order. -/
theorem moveToFront_chain (hchain : Chain s.next (some s.head) (pre ++ cur :: post))
    (hnodup : (pre ++ cur :: post).Nodup) :
    Chain (s.moveToFront pre.getLast? cur).next (some (s.moveToFront pre.getLast? cur).head)
      (cur :: (pre ++ post)) := by
  obtain rfl | ⟨front, p, rfl⟩ := List.eq_nil_or_concat pre
  · exact hchain
  · rw [List.concat_eq_append] at *
    rw [List.getLast?_concat]
    rw [List.append_assoc, List.singleton_append] at *
    have hrest := hchain.remove hnodup
    have hcur : cur ∉ front ++ p :: post := by
      intro hin
      have hperm : (front ++ p :: cur :: post).Perm (cur :: (front ++ p :: post)) := by
        have hmiddle := @List.perm_middle _ cur (front ++ [p]) post
        simpa using hmiddle
      exact (List.nodup_cons.mp (hperm.nodup_iff.mp hnodup)).1 hin
    exact hrest.push hcur

theorem moveToFront_addr (prev : Option ℕ) : (s.moveToFront prev cur).addr = s.addr := by
  cases prev <;> rfl

/-- The list of addresses after an access that looks for `a` in it. -/
def moved (addrs : List Address) (a : Address) : List Address :=
  match addrs.findIdx? (fun addr => addr == a) with
  | some b => a :: addrs.eraseIdx b
  | none => a :: addrs.dropLast

/-- An access finds the position of its address, and moves it to the front. -/
theorem access_spec {buckets : ℕ} {addrs : List Address} (hb : 0 < buckets)
    (h : Spells s buckets addrs) :
    ∃ s', s.access buckets a = some (addrs.findIdx? (fun addr => addr == a), s') ∧
      Spells s' buckets (moved addrs a) := by
  obtain ⟨nodes, hchain, hperm, rfl⟩ := h
  cases nodes with
  | nil =>
    have hlen := hperm.length_eq
    rw [List.length_nil, List.length_range] at hlen
    omega
  | cons n rest =>
    have hn : n = s.head := (Option.some.inj hchain.1).symm
    have hlen : rest.length + 1 = buckets := by
      have hlen := hperm.length_eq
      rwa [List.length_cons, List.length_range] at hlen
    obtain ⟨pre, cur, post, hit, hsplit, hmiss, hsearch, hends⟩ :=
      @search_spec s a [] rest n (hn ▸ hchain) (by simp)
    rw [List.nil_append] at hsplit
    rw [hlen, hn, List.length_nil, List.getLast?_nil] at hsearch
    rw [hsplit] at hchain hperm ⊢
    have hnodup : (pre ++ cur :: post).Nodup := hperm.nodup_iff.mpr List.nodup_range
    have hperm' : (cur :: (pre ++ post)).Perm (List.range buckets) := List.perm_middle.symm.trans hperm
    have hbefore : (pre.map s.addr).findIdx? (fun addr => addr == a) = none := by
      rw [List.findIdx?_eq_none_iff]
      intro x hx
      obtain ⟨y, hy, rfl⟩ := List.mem_map.mp hx
      simpa using hmiss y hy
    rw [List.map_append, List.map_cons]
    unfold moved
    rw [List.findIdx?_append, hbefore, Option.none_or, List.findIdx?_cons]
    obtain ⟨rfl, hcur⟩ | ⟨rfl, rfl, hcur⟩ := hends
    · have hcur' : (s.addr cur == a) = true := by simpa using hcur
      rw [if_pos hcur', Option.map_some, Nat.zero_add, List.length_map]
      refine ⟨s.moveToFront pre.getLast? cur, ?_, cur :: (pre ++ post), moveToFront_chain hchain hnodup,
        hperm', ?_⟩
      · change (s.search a buckets 0 none s.head).bind _ = _
        rw [hsearch]
        rfl
      · rw [moveToFront_addr, List.map_cons, hcur, List.map_append]
        congr 1
        rw [List.eraseIdx_append_of_length_le (by rw [List.length_map]), List.length_map, Nat.sub_self,
          List.eraseIdx_cons_zero]
    · have hcur' : ¬ (s.addr cur == a) = true := by simpa using hcur
      have hlast : s.next cur = none := hchain.last
      rw [if_neg hcur']
      refine ⟨{ s with addr := Function.update s.addr cur a }.moveToFront pre.getLast? cur, ?_,
        cur :: (pre ++ []), ?_, hperm', ?_⟩
      · change (s.search a buckets 0 none s.head).bind _ = _
        rw [hsearch]
        exact if_pos hlast
      · exact @moveToFront_chain { s with addr := Function.update s.addr cur a } pre [] cur hchain hnodup
      · have hpre : cur ∉ pre := by
          rw [List.append_nil] at hperm'
          exact (List.nodup_cons.mp (hperm'.nodup_iff.mpr List.nodup_range)).1
        rw [moveToFront_addr, List.append_nil, List.map_cons]
        simp only [Function.update_self, List.findIdx?_nil, Option.map_none, List.map_nil,
          List.dropLast_concat]
        congr 1
        refine List.map_congr_left fun x hx => Function.update_of_ne ?_ _ _
        exact ne_of_mem_of_not_mem hx hpre

theorem spells_new {buckets : ℕ} (hb : 0 < buckets) :
    Spells (.new buckets) buckets (List.replicate buckets 0) := by
  refine ⟨List.range buckets, ?_, List.Perm.refl _, ?_⟩
  · have hfrom : ∀ n j, j + n = buckets → 0 < n →
        Chain (UMonSet.new buckets).next (some j) (List.range' j n) := by
      intro n
      induction n with
      | zero => exact fun _ _ h => absurd h (Nat.lt_irrefl 0)
      | succ n ih =>
        intro j hj _
        rw [List.range'_succ]
        refine ⟨rfl, ?_⟩
        cases n with
        | zero => exact if_neg (by omega)
        | succ n =>
          have hnext : (UMonSet.new buckets).next j = some (j + 1) := if_pos (by omega)
          rw [hnext]
          exact ih (j + 1) (by omega) (Nat.succ_pos n)
    rw [List.range_eq_range']
    exact hfrom buckets 0 (Nat.zero_add buckets) hb
  · exact List.eq_replicate_iff.mpr ⟨by rw [List.length_map, List.length_range], by simp [UMonSet.new]⟩

end Sets

/-- `UMon`, with its nodes. -/
structure UMonNodes where
  buckets : ℕ
  samplingFactorBits : ℕ
  setsBits : ℕ
  curWayHits : ℕ → ℕ
  curMisses : ℕ
  sets : ℕ
  heads : ℕ → UMonSet

namespace UMonNodes

/-- The constructor of `UMon`. -/
def new (bankLines umonLines buckets : ℕ) : UMonNodes where
  buckets := buckets
  samplingFactorBits := Nat.log2 (bankLines / umonLines)
  setsBits := Nat.log2 (umonLines / buckets)
  curWayHits _ := 0
  curMisses := 0
  sets := umonLines / buckets
  heads _ := .new buckets

/-- `UMon::access`, with the hash family it was given. -/
def access (hash : ℕ → Address → ℕ) (u : UMonNodes) (lineAddr : Address) : Option UMonNodes :=
  if hash 0 lineAddr % 2 ^ u.samplingFactorBits ≠ 0 then some u
  else
    let set := hash 1 lineAddr % 2 ^ u.setsBits
    if set < u.sets then
      ((u.heads set).access u.buckets lineAddr).map fun found =>
        match found with
        | (some b, s) => { u with
            curWayHits := Function.update u.curWayHits b (inc64 (u.curWayHits b))
            heads := Function.update u.heads set s }
        | (none, s) => { u with
            curMisses := inc64 u.curMisses
            heads := Function.update u.heads set s }
    else none

/-- `UMon::startNextInterval`. -/
def startNextInterval (u : UMonNodes) : UMonNodes :=
  { u with curMisses := 0, curWayHits := fun _ => 0 }

/-- What `UMon::getMisses` has written after `i` turns of its loop, and `total`. -/
def curve (u : UMonNodes) : ℕ → (ℕ → ℕ) × ℕ
  | 0 => (fun _ => 0, u.curMisses)
  | i + 1 =>
    (Function.update (u.curve i).1 (u.buckets - i) (u.curve i).2,
      ((u.curve i).2 + u.curWayHits (u.buckets - i - 1)) % 2 ^ 64)

/-- `UMon::getMisses`. -/
def getMisses (u : UMonNodes) : ℕ → ℕ :=
  Function.update (u.curve u.buckets).1 0 (u.curve u.buckets).2

end UMonNodes

/-- The accesses to a monitor, and the ends of its intervals. -/
inductive UMonOp where
  | access (lineAddr : Address)
  | startNextInterval

/-- One operation on the nodes. -/
def nodesStep (hash : ℕ → Address → ℕ) : UMonNodes → UMonOp → Option UMonNodes
  | u, .access lineAddr => u.access hash lineAddr
  | u, .startNextInterval => some u.startNextInterval

/-- One operation on the lists of addresses. -/
def listsStep (hash : ℕ → Address → ℕ) : UMon → UMonOp → UMon
  | u, .access lineAddr =>
    if hash 0 lineAddr % 2 ^ u.samplingFactorBits ≠ 0 then u
    else u.record (hash 1 lineAddr % 2 ^ u.setsBits) lineAddr
  | u, .startNextInterval => u.startNextInterval

/-- The nodes of each set spell its list, and the counters are the same. -/
structure Refines (u : UMonNodes) (v : UMon) : Prop where
  buckets : v.buckets = u.buckets
  samplingFactorBits : v.samplingFactorBits = u.samplingFactorBits
  setsBits : v.setsBits = u.setsBits
  curWayHits : v.curWayHits = u.curWayHits
  curMisses : v.curMisses = u.curMisses
  sets : ∀ set < u.sets, Spells (u.heads set) u.buckets (v.heads.cell set)

section Refinement

variable {hash : ℕ → Address → ℕ} {u : UMonNodes} {v : UMon} {op : UMonOp}

theorem refines_new {bankLines umonLines buckets : ℕ} (hb : 0 < buckets) :
    Refines (.new bankLines umonLines buckets) (.new bankLines umonLines buckets) :=
  ⟨rfl, rfl, rfl, rfl, rfl, fun _ _ => spells_new hb⟩

/-- An access to the lists, by the list of the set after it. -/
theorem record_eq (v : UMon) (set : ℕ) (a : Address) :
    v.record set a =
      { v with
        heads := v.heads.set set (moved (v.heads.cell set) a)
        curWayHits := match (v.heads.cell set).findIdx? (fun addr => addr == a) with
          | some b => Function.update v.curWayHits b (inc64 (v.curWayHits b))
          | none => v.curWayHits
        curMisses := match (v.heads.cell set).findIdx? (fun addr => addr == a) with
          | some _ => v.curMisses
          | none => inc64 v.curMisses } := by
  unfold UMon.record moved
  cases hfind : (v.heads.cell set).findIdx? (fun addr => addr == a) <;> simp only [hfind]

/-- No operation follows a null pointer or fails the assertion, and the lists
follow the nodes. -/
theorem Refines.step (h : Refines u v) (hb : 0 < u.buckets) (hsets : 2 ^ u.setsBits ≤ u.sets) :
    ∃ u', nodesStep hash u op = some u' ∧ Refines u' (listsStep hash v op) ∧
      u'.buckets = u.buckets ∧ u'.samplingFactorBits = u.samplingFactorBits ∧
        u'.setsBits = u.setsBits ∧ u'.sets = u.sets := by
  cases op with
  | startNextInterval =>
    exact ⟨_, rfl, ⟨h.buckets, h.samplingFactorBits, h.setsBits, rfl, rfl, h.sets⟩, rfl, rfl, rfl, rfl⟩
  | access a =>
    simp only [nodesStep, UMonNodes.access, listsStep, h.samplingFactorBits, h.setsBits]
    split
    · exact ⟨u, rfl, h, rfl, rfl, rfl, rfl⟩
    · have hset : hash 1 a % 2 ^ u.setsBits < u.sets :=
        (Nat.mod_lt _ (Nat.two_pow_pos _)).trans_le hsets
      generalize hash 1 a % 2 ^ u.setsBits = set at hset
      obtain ⟨s', hs', hspells⟩ := @access_spec _ a _ _ hb (h.sets set hset)
      have hothers : ∀ i < u.sets, Spells (Function.update u.heads set s' i) u.buckets
          ((v.heads.set set (moved (v.heads.cell set) a)).cell i) := by
        intro i hi
        by_cases his : i = set
        · subst his
          rwa [Function.update_self, set_cell_self]
        · rw [Function.update_of_ne his, set_cell_of_ne _ _ _ his]
          exact h.sets i hi
      rw [if_pos hset, hs', record_eq]
      cases (v.heads.cell set).findIdx? (fun addr => addr == a) with
      | some b =>
        refine ⟨_, rfl, ⟨h.buckets, h.samplingFactorBits, h.setsBits, ?_, h.curMisses, hothers⟩, rfl, rfl,
          rfl, rfl⟩
        simp only [h.curWayHits]
      | none =>
        refine ⟨_, rfl, ⟨h.buckets, h.samplingFactorBits, h.setsBits, h.curWayHits, ?_, hothers⟩, rfl, rfl,
          rfl, rfl⟩
        simp only [h.curMisses]

theorem Refines.curve (h : Refines u v) {n : ℕ} (hn : n ≤ u.buckets) :
    (u.curve n).2 = v.total n ∧
      ∀ j, u.buckets - n < j → j ≤ u.buckets → (u.curve n).1 j = v.reports j := by
  induction n with
  | zero => exact ⟨h.curMisses.symm, fun j hj hle => by omega⟩
  | succ n ih =>
    obtain ⟨htotal, hcurve⟩ := ih (by omega)
    simp only [UMonNodes.curve]
    refine ⟨?_, fun j hj hle => ?_⟩
    · rw [htotal, UMon.total, h.buckets, h.curWayHits]
    · by_cases hjn : j = u.buckets - n
      · have hback : u.buckets - (u.buckets - n) = n := by omega
        rw [hjn, Function.update_self, htotal, UMon.reports, h.buckets, hback]
      · rw [Function.update_of_ne hjn]
        exact hcurve j (by omega) hle

/-- The curve is what the lists report. -/
theorem Refines.getMisses (h : Refines u v) {k : ℕ} (hk : k ≤ u.buckets) :
    u.getMisses k = v.reports k := by
  obtain ⟨htotal, hcurve⟩ := h.curve le_rfl
  unfold UMonNodes.getMisses
  by_cases hk0 : k = 0
  · rw [hk0, Function.update_self, htotal, UMon.reports, h.buckets, Nat.sub_zero]
  · rw [Function.update_of_ne hk0]
    exact hcurve k (by omega) hk

end Refinement

/-- The LRU caches of the sets, and their misses in the interval. -/
structure SetCaches where
  content : ℕ → List Address
  misses : ℕ

/-- One operation on caches with `k` ways. -/
def cachesStep (hash : ℕ → Address → ℕ) (samplingFactorBits setsBits k : ℕ) :
    SetCaches → UMonOp → SetCaches
  | c, .access lineAddr =>
    if hash 0 lineAddr % 2 ^ samplingFactorBits ≠ 0 then c
    else
      let set := hash 1 lineAddr % 2 ^ setsBits
      { content := Function.update c.content set (LRUStacks.access k (c.content set) lineAddr)
        misses := if lineAddr ∈ c.content set then c.misses else c.misses + 1 }
  | c, .startNextInterval => { c with misses := 0 }

/-- The number of sampled accesses in the interval. -/
def sampledStep (hash : ℕ → Address → ℕ) (samplingFactorBits : ℕ) : ℕ → UMonOp → ℕ
  | n, .access lineAddr => if hash 0 lineAddr % 2 ^ samplingFactorBits ≠ 0 then n else n + 1
  | _, .startNextInterval => 0

section Counts

variable {v v' : UMon} {b i : ℕ}

/-- A hit at position `b` is a miss with at most `b` ways. -/
theorem total_hit (hbuckets : v'.buckets = v.buckets) (hmisses : v'.curMisses = v.curMisses)
    (hhits : v'.curWayHits = Function.update v.curWayHits b (inc64 (v.curWayHits b)))
    (hb : b < v.buckets) (hi : i ≤ v.buckets) :
    v'.total i = if v.buckets - i ≤ b then inc64 (v.total i) else v.total i := by
  induction i with
  | zero =>
    rw [if_neg (by omega)]
    exact hmisses
  | succ i ih =>
    rw [UMon.total, UMon.total, ih (by omega), hbuckets, hhits]
    by_cases hlast : v.buckets - i - 1 = b
    · rw [if_neg (by omega), if_pos (by omega), hlast, Function.update_self, inc64, inc64]
      omega
    · rw [Function.update_of_ne hlast]
      by_cases hbelow : v.buckets - i ≤ b
      · rw [if_pos hbelow, if_pos (by omega), inc64, inc64]
        omega
      · rw [if_neg hbelow, if_neg (by omega)]

/-- A miss of the monitor is a miss with any number of ways. -/
theorem total_miss (hbuckets : v'.buckets = v.buckets) (hmisses : v'.curMisses = inc64 v.curMisses)
    (hhits : v'.curWayHits = v.curWayHits) : v'.total i = inc64 (v.total i) := by
  induction i with
  | zero => exact hmisses
  | succ i ih =>
    rw [UMon.total, UMon.total, ih, hbuckets, hhits, inc64, inc64]
    omega

end Counts

section Stacks

variable {addrs stack : List Address} {a : Address} {n k : ℕ}

/-- The list of a set is a full LRU cache. -/
theorem moved_eq (hlen : addrs.length = n) (hn : 0 < n) : moved addrs a = LRUStacks.access n addrs a := by
  unfold moved LRUStacks.access
  cases hfind : addrs.findIdx? (fun addr => addr == a) with
  | some b =>
    obtain ⟨hb, hba, -⟩ := List.findIdx?_eq_some_iff_getElem.mp hfind
    have hmem : a ∈ addrs := (beq_iff_eq.mp hba) ▸ List.getElem_mem hb
    have hidx : addrs.idxOf a = b := by
      have hfind' : addrs.findIdx? (· == a) = some b := hfind
      rw [List.idxOf, List.findIdx_eq_getD_findIdx?, hfind']
      rfl
    rw [if_pos hmem, List.erase_eq_eraseIdx_of_idxOf hidx]
  | none =>
    have hnot : a ∉ addrs := by
      intro hmem
      have hno := List.findIdx?_eq_none_iff.mp hfind a hmem
      simp at hno
    obtain ⟨m, rfl⟩ := Nat.exists_eq_succ_of_ne_zero hn.ne'
    rw [if_neg hnot, List.take_succ_cons, List.dropLast_eq_take, hlen]
    rfl

/-- The list of a set: the stack of what was accessed, above unused nodes. -/
def filled (n : ℕ) (stack : List Address) : List Address := (stack ++ List.replicate n 0).take n

theorem filled_length : (filled n stack).length = n := by
  rw [filled, List.length_take, List.length_append, List.length_replicate]
  omega

theorem moved_filled (ha : a ≠ 0) (hn : 0 < n) :
    moved (filled n stack) a = filled n (touch stack a) := by
  have hnot : a ∉ List.replicate n (0 : Address) := fun hmem => ha (List.eq_of_mem_replicate hmem)
  rw [moved_eq filled_length hn, filled, filled, touch_append hnot, take_touch]

/-- A cache of `k` ways hits where the list has the address in its first `k` places. -/
theorem mem_take_filled (ha : a ≠ 0) (hk : k ≤ n) :
    a ∈ stack.take k ↔ a ∈ (filled n stack).take k := by
  rw [filled, List.take_take, Nat.min_eq_left hk, List.take_append, List.mem_append]
  constructor
  · exact Or.inl
  · intro h
    cases h with
    | inl h => exact h
    | inr h => exact absurd (List.eq_of_mem_replicate (List.mem_of_mem_take h)) ha

end Stacks

/-- The lists of the sets and the caches of all sizes hold the same stacks, and
the curve counts the misses of each size. -/
structure Simulates (sets : ℕ) (v : UMon) (recent : ℕ → List Address) (caches : ℕ → SetCaches)
    (sampled : ℕ) : Prop where
  lists : ∀ set < sets, v.heads.cell set = filled v.buckets (recent set)
  contents : ∀ k set, (caches k).content set = (recent set).take k
  reports : ∀ k ≤ v.buckets, v.reports k = (caches k).misses % 2 ^ 64
  sampled : (caches 0).misses = sampled

section Simulation

variable {hash : ℕ → Address → ℕ} {sets : ℕ} {v : UMon} {recent : ℕ → List Address}
  {caches : ℕ → SetCaches} {sampled : ℕ} {op : UMonOp}

theorem Simulates.step (h : Simulates sets v recent caches sampled) (hb : 0 < v.buckets)
    (hsets : 2 ^ v.setsBits ≤ sets) (hop : op ≠ .access 0) :
    ∃ recent', Simulates sets (listsStep hash v op) recent'
      (fun k => cachesStep hash v.samplingFactorBits v.setsBits k (caches k) op)
      (sampledStep hash v.samplingFactorBits sampled op) := by
  cases op with
  | startNextInterval =>
    refine ⟨recent, h.lists, h.contents, fun k _ => ?_, rfl⟩
    have hzero : ∀ i, v.startNextInterval.total i = 0 := by
      intro i
      induction i with
      | zero => rfl
      | succ i ih => rw [UMon.total, ih]; rfl
    exact hzero _
  | access a =>
    have ha : a ≠ 0 := fun h0 => hop (h0 ▸ rfl)
    simp only [listsStep, cachesStep, sampledStep]
    by_cases hsampled : hash 0 a % 2 ^ v.samplingFactorBits ≠ 0
    · simp only [if_pos hsampled]
      exact ⟨recent, h⟩
    · simp only [if_neg hsampled]
      have hset : hash 1 a % 2 ^ v.setsBits < sets := (Nat.mod_lt _ (Nat.two_pow_pos _)).trans_le hsets
      generalize hash 1 a % 2 ^ v.setsBits = set at hset ⊢
      have hlist := h.lists set hset
      have hmoved := @moved_filled (recent set) a v.buckets ha hb
      have hmem : ∀ k ≤ v.buckets, a ∈ (caches k).content set ↔
          a ∈ (v.heads.cell set).take k := by
        intro k hk
        rw [h.contents, hlist]
        exact mem_take_filled ha hk
      refine ⟨Function.update recent set (touch (recent set) a), ⟨fun i hi => ?_, fun k i => ?_,
        fun k hk => ?_, ?_⟩⟩
      · rw [record_eq]
        dsimp only
        by_cases his : i = set
        · subst his
          rw [set_cell_self, Function.update_self, hlist, hmoved]
        · rw [set_cell_of_ne _ _ _ his, Function.update_of_ne his]
          exact h.lists i hi
      · dsimp only
        by_cases his : i = set
        · subst his
          rw [Function.update_self, Function.update_self, h.contents, take_touch]
        · rw [Function.update_of_ne his, Function.update_of_ne his]
          exact h.contents k i
      · have hbuckets : (v.record set a).buckets = v.buckets := by rw [record_eq]
        rw [hbuckets] at hk
        have hreports := h.reports k hk
        have hback : v.buckets - (v.buckets - k) = k := by omega
        unfold UMon.reports at hreports ⊢
        rw [hbuckets]
        have hcell := hmem k hk
        cases hfind : (v.heads.cell set).findIdx? (fun addr => addr == a) with
        | some b =>
          have hlt : b < v.buckets := by
            obtain ⟨hlt, -, -⟩ := List.findIdx?_eq_some_iff_getElem.mp hfind
            rwa [hlist, filled_length] at hlt
          have hmisses : (v.record set a).curMisses = v.curMisses := by
            rw [record_eq]
            simp only [hfind]
          have hhits : (v.record set a).curWayHits =
              Function.update v.curWayHits b (inc64 (v.curWayHits b)) := by
            rw [record_eq]
            simp only [hfind]
          rw [total_hit hbuckets hmisses hhits hlt (Nat.sub_le _ _), hback]
          rw [mem_take_iff hfind] at hcell
          dsimp only
          by_cases hkb : k ≤ b
          · have hout : a ∉ (caches k).content set := fun hin => by
              have hlt' := hcell.mp hin
              omega
            rw [if_pos hkb, if_neg hout, hreports, inc64]
            omega
          · rw [if_neg hkb, if_pos (hcell.mpr (by omega))]
            exact hreports
        | none =>
          have hmisses : (v.record set a).curMisses = inc64 v.curMisses := by
            rw [record_eq]
            simp only [hfind]
          have hhits : (v.record set a).curWayHits = v.curWayHits := by
            rw [record_eq]
            simp only [hfind]
          have hnot : a ∉ (caches k).content set := by
            rw [hcell]
            intro hin
            have hno := List.findIdx?_eq_none_iff.mp hfind a (List.mem_of_mem_take hin)
            simp at hno
          dsimp only
          rw [total_miss hbuckets hmisses hhits, if_neg hnot, hreports, inc64]
          omega
      · have hnot : a ∉ (caches 0).content set := by
          rw [h.contents, List.take_zero]
          exact List.not_mem_nil
        dsimp only
        rw [if_neg hnot, h.sampled]

/-- What the caches of `k` ways have done after the operations. -/
def lruCaches (hash : ℕ → Address → ℕ) (samplingFactorBits setsBits k : ℕ) (ops : List UMonOp) :
    SetCaches :=
  ops.foldl (cachesStep hash samplingFactorBits setsBits k) ⟨fun _ => [], 0⟩

/-- The nodes and the caches run in step. -/
theorem run_simulates {u : UMonNodes} {ops : List UMonOp} (href : Refines u v)
    (h : Simulates u.sets v recent caches sampled) (hb : 0 < u.buckets)
    (hsets : 2 ^ u.setsBits ≤ u.sets) (hops : ∀ op ∈ ops, op ≠ .access 0) :
    ∃ u' v' recent', run (nodesStep hash) u ops = some u' ∧ Refines u' v' ∧ u'.buckets = u.buckets ∧
      u'.sets = u.sets ∧ Simulates u.sets v' recent'
        (fun k => ops.foldl (cachesStep hash u.samplingFactorBits u.setsBits k) (caches k))
        (ops.foldl (sampledStep hash u.samplingFactorBits) sampled) := by
  induction ops generalizing u v recent caches sampled with
  | nil => exact ⟨u, v, recent, rfl, href, rfl, rfl, h⟩
  | cons op ops ih =>
    have hsetsBits := href.setsBits
    have hfactor := href.samplingFactorBits
    obtain ⟨u₁, hu₁, href₁, hbuckets₁, hfactor₁, hbits₁, hsets₁⟩ := @Refines.step hash u v op href hb hsets
    obtain ⟨recent₁, h₁⟩ := @Simulates.step hash _ _ _ _ _ op h (href.buckets ▸ hb)
      (by rw [hsetsBits]; exact hsets) (hops op List.mem_cons_self)
    rw [hsetsBits, hfactor] at h₁
    rw [← hsets₁] at h₁
    obtain ⟨u', v', recent', hrun, href', hbuckets', hsets', h'⟩ := ih href₁ h₁ (by omega)
      (by rw [hbits₁, hsets₁]; exact hsets) (fun op' hop' => hops op' (List.mem_cons_of_mem _ hop'))
    rw [hfactor₁, hbits₁, hsets₁] at h'
    exact ⟨u', v', recent', run_cons.mpr ⟨u₁, hu₁, hrun⟩, href', hbuckets'.trans hbuckets₁,
      hsets'.trans hsets₁, h'⟩

theorem simulates_new {bankLines umonLines buckets : ℕ} :
    Simulates (umonLines / buckets) (.new bankLines umonLines buckets) (fun _ => [])
      (fun _ => ⟨fun _ => [], 0⟩) 0 := by
  refine ⟨fun set _ => ?_, fun k _ => List.take_nil.symm, fun k _ => ?_, rfl⟩
  · change List.replicate buckets 0 = (List.replicate buckets 0).take buckets
    rw [List.take_of_length_le (by rw [List.length_replicate])]
  · have hzero : ∀ i, (UMon.new bankLines umonLines buckets).total i = 0 := by
      intro i
      induction i with
      | zero => rfl
      | succ i ih => rw [UMon.total, ih]; rfl
    exact hzero _

/-- In every run on addresses other than 0 no null pointer is followed and no
assertion fails, and the chain of each set goes through all its nodes once and
ends. The curve has the misses that LRU caches of every size would have had on
the same accesses, in 64 bits, and before them the number of the accesses. -/
theorem umon_counts_lru (hash : ℕ → Address → ℕ) (bankLines umonLines buckets : ℕ)
    (hb : 0 < buckets) (hsets : 0 < umonLines / buckets) (ops : List UMonOp)
    (hops : ∀ op ∈ ops, op ≠ .access 0) :
    ∃ u, run (nodesStep hash) (.new bankLines umonLines buckets) ops = some u ∧
      (∀ k, 1 ≤ k → k ≤ buckets → u.getMisses k =
        (lruCaches hash (bankLines / umonLines).log2 (umonLines / buckets).log2 k ops).misses % 2 ^ 64) ∧
      u.getMisses 0 = ops.foldl (sampledStep hash (bankLines / umonLines).log2) 0 % 2 ^ 64 ∧
      ∀ set < umonLines / buckets, ∃ nodes, nodes.Perm (List.range buckets) ∧
        Chain (u.heads set).next (some (u.heads set).head) nodes := by
  have hpow : 2 ^ (umonLines / buckets).log2 ≤ umonLines / buckets := Nat.log2_self_le hsets.ne'
  obtain ⟨u, v, recent, hrun, href, hbuckets, hsets', h⟩ :=
    @run_simulates hash _ _ _ 0 (.new bankLines umonLines buckets) ops (refines_new hb)
      simulates_new hb hpow hops
  change u.buckets = buckets at hbuckets
  change u.sets = umonLines / buckets at hsets'
  have hreports : ∀ k ≤ buckets, u.getMisses k =
      (lruCaches hash (bankLines / umonLines).log2 (umonLines / buckets).log2 k ops).misses % 2 ^ 64 := by
    intro k hk
    rw [href.getMisses (by omega)]
    exact h.reports k (by rw [href.buckets]; omega)
  refine ⟨u, hrun, fun k _ hk => hreports k hk, ?_, fun set hset => ?_⟩
  · rw [hreports 0 (Nat.zero_le _)]
    exact congrArg (· % 2 ^ 64) h.sampled
  · obtain ⟨nodes, hchain, hperm, -⟩ := href.sets set (by omega)
    exact ⟨nodes, hbuckets ▸ hperm, hchain⟩

/-- A monitor of one set with two ways: of three accesses two miss with two ways,
and all three with one. -/
theorem umon_two_ways : ∃ u,
    run (nodesStep fun _ _ => 0) (.new 2 2 2) [.access 1, .access 2, .access 1] = some u ∧
      u.getMisses 2 = 2 ∧ u.getMisses 1 = 3 ∧ u.getMisses 0 = 3 := by
  obtain ⟨u, hrun, hmisses, haccesses, -⟩ := umon_counts_lru (fun _ _ => 0) 2 2 2 (by decide) (by decide)
    [.access 1, .access 2, .access 1] (by simp)
  exact ⟨u, hrun, hmisses 2 (by decide) le_rfl, hmisses 1 le_rfl (by decide), haccesses⟩

end Simulation
end Zsim.UMonChains
