import Zsim.CandidateLookups

/-!
# The paths of a miss

Where no assertion fails, the events of a miss are those of its paths between the start, the response and the
writeback. No edge leads back, all events come after the start, and all but the writeback have one parent.
-/

namespace Zsim.CacheEventGraphs

open TimedGraphs Relation

/-- `req.cycle + accLat`. -/
def Outcome.lookupCycle (c : TimingCache) (o : Outcome) : ℕ := o.reqCycle + c.accLat.toNat

/-- An outcome whose parents take time, and whose records lie inside the paths that they are connected to. -/
structure Outcome.Valid (c : TimingCache) (o : Outcome) : Prop where
  get : o.lookupCycle c ≤ o.getDoneCycle
  resp : o.getDoneCycle ≤ o.respCycle
  eviction : o.evDoneCycle ≠ 0 → o.lookupCycle c ≤ o.evDoneCycle
  access : ∀ r, o.accessRecord = some r → o.lookupCycle c ≤ r.reqCycle ∧ r.respCycle ≤ o.getDoneCycle
  writeback : o.evDoneCycle ≠ 0 → ∀ r, o.writebackRecord = some r →
    o.lookupCycle c ≤ r.reqCycle ∧ r.respCycle ≤ o.evDoneCycle

section Paths

variable {ρ : Type} (o : Outcome) (up : Parents ρ)

/-- The delay events of a path. -/
def Outcome.delays (path : Path) (lo hi : ℕ) : List TimingEvent :=
  match o.record path with
  | some r => delay path .up (r.reqCycle - lo) lo ++ delay path .down (hi - r.respCycle) r.respCycle
  | none => delay path .whole (hi - lo) lo

/-- The events of a path up to the start of its record, or all of them where it has none. -/
def Outcome.rise (path : Path) (lo hi : ℕ) : List (Node ρ) :=
  match o.record path with
  | some r => (delay path .up (r.reqCycle - lo) lo).map .own ++ [.above (up.startEvent path)]
  | none => (delay path .whole (hi - lo) lo).map .own

/-- The event from which a path comes down. -/
def Outcome.top (path : Path) (lo hi : ℕ) (startEv : TimingEvent) : Node ρ :=
  match o.record path with
  | some _ => .above (up.endEvent path)
  | none => final (.own startEv) (o.rise up path lo hi)

/-- The events after the end of its record. -/
def Outcome.fall (path : Path) (hi : ℕ) : List (Node ρ) :=
  match o.record path with
  | some r => (delay path .down (hi - r.respCycle) r.respCycle).map .own
  | none => []

def Outcome.pathEdges (path : Path) (lo hi : ℕ) (startEv endEv : TimingEvent) : List (Node ρ × Node ρ) :=
  chain (.own startEv) (o.rise up path lo hi) ++
    chain (o.top up path lo hi startEv) (o.fall path hi ++ [.own endEv])

/-- A record inside its path is connected. -/
theorem connect_eq (path : Path) {lo hi : ℕ} (hle : lo ≤ hi)
    (hr : ∀ r, o.record path = some r → lo ≤ r.reqCycle ∧ r.respCycle ≤ hi) (startEv endEv : TimingEvent) :
    connect path ((o.record path).map (up.record path)) startEv endEv lo hi =
      some ⟨o.delays path lo hi, o.pathEdges up path lo hi startEv endEv⟩ := by
  simp only [connect, if_neg (not_lt.mpr hle), Outcome.delays, Outcome.pathEdges, Outcome.rise, Outcome.top,
    Outcome.fall]
  cases hrecord : o.record path with
  | some r =>
    obtain ⟨hreq, hresp⟩ := hr r hrecord
    simp only [Option.map_some, Parents.record]
    rw [if_neg (by omega)]
  | none =>
    simp only [Option.map_none, List.nil_append, ← chain_append]

end Paths

section Miss

variable {ρ : Type} (c : TimingCache) (o : Outcome) (up : Parents ρ) (turns : ℕ)

def Outcome.mse : TimingEvent := missStartEvent c.accLat o.reqCycle

def Outcome.mre : TimingEvent := missResponseEvent o.getDoneCycle

def Outcome.mwe : TimingEvent := missWritebackEvent c.accLat (max o.evDoneCycle o.getDoneCycle)

/-- The events of the replacement path, where there is one. -/
def Outcome.walk : List TimingEvent :=
  if o.evDoneCycle ≠ 0 ∧ c.ways < c.cands then
    (List.range turns).map (c.lookupEvent o.reqCycle) ++ c.swaps o.reqCycle
  else []

def Outcome.getEdges : List (Node ρ × Node ρ) :=
  o.pathEdges up .get (o.lookupCycle c) o.getDoneCycle (o.mse c) o.mre

def Outcome.evictionEdges : List (Node ρ × Node ρ) :=
  if o.evDoneCycle ≠ 0 then
    o.pathEdges up .eviction (o.lookupCycle c) o.evDoneCycle (o.mse c) (o.mwe c)
  else []

def Outcome.walkEdges : List (Node ρ × Node ρ) :=
  if o.evDoneCycle ≠ 0 ∧ c.ways < c.cands then
    chain (.own (o.mse c)) ((o.walk c turns).map .own ++ [.own (o.mwe c)])
  else []

/-- The events that a miss leaves. -/
def Outcome.miss : Recorded ρ where
  events := [o.mse c, o.mre, o.mwe c] ++ o.delays .get (o.lookupCycle c) o.getDoneCycle ++
    (if o.evDoneCycle ≠ 0 then o.delays .eviction (o.lookupCycle c) o.evDoneCycle else []) ++ o.walk c turns
  edges := o.getEdges c up ++ [(.own o.mre, .own (o.mwe c))] ++ o.evictionEdges c up ++ o.walkEdges c turns
  startEvent := o.mse c
  endEvent := o.mre

variable {c o up turns}

/-- The replacement path, where it is built. -/
theorem replacement_eq (hways : 2 ≤ c.ways.toNat) (hcands : c.ways < c.cands) (hturns : c.Turns turns)
    (mse mwe : TimingEvent) (minStartCycle : ℕ) :
    c.replacement mse mwe minStartCycle = some (
      { events := (List.range turns).map (c.lookupEvent minStartCycle) ++ c.swaps minStartCycle
        edges := chain (.own mse) (((List.range turns).map (c.lookupEvent minStartCycle) ++
          c.swaps minStartCycle).map .own ++ [.own mwe]) } : Built ρ) := by
  rw [TimingCache.replacement, if_neg (replLookups_ne_zero hways hcands), hturns.candidateLookups_eq]
  rfl

theorem connect_eviction (ho : o.Valid c) :
    builtIf (o.evDoneCycle ≠ 0) (connect .eviction (o.writebackRecord.map (up.record .eviction)) (o.mse c)
      (o.mwe c) (o.lookupCycle c) o.evDoneCycle) =
      some ⟨if o.evDoneCycle ≠ 0 then o.delays .eviction (o.lookupCycle c) o.evDoneCycle else [],
        o.evictionEdges c up⟩ := by
  rw [builtIf, Outcome.evictionEdges]
  split
  · next hev => exact connect_eq o up .eviction (ho.eviction hev) (ho.writeback hev) _ _
  · rfl

theorem replacement_walk (hways : 2 ≤ c.ways.toNat)
    (hturns : o.evDoneCycle ≠ 0 → c.ways < c.cands → c.Turns turns) :
    builtIf (o.evDoneCycle ≠ 0 ∧ c.ways < c.cands) (c.replacement (o.mse c) (o.mwe c) o.reqCycle) =
      some (⟨o.walk c turns, o.walkEdges c turns⟩ : Built ρ) := by
  simp only [builtIf, Outcome.walkEdges, Outcome.walk]
  split
  · next hwalk => exact replacement_eq hways hwalk.2 (hturns hwalk.1 hwalk.2) _ _ _
  · rfl

/-- A miss whose response has waited for nothing but its parent leaves these events. -/
theorem access_miss (hways : 2 ≤ c.ways.toNat) (ho : o.Valid c) (hmiss : o.getDoneCycle ≠ o.lookupCycle c)
    (hresp : o.getDoneCycle = o.respCycle)
    (hturns : o.evDoneCycle ≠ 0 → c.ways < c.cands → c.Turns turns) :
    c.access o up = some (o.miss c up turns) := by
  have hge := ho.get
  rw [Outcome.lookupCycle] at hmiss hge
  have hget : connect .get (o.accessRecord.map (up.record .get)) (o.mse c) o.mre (o.lookupCycle c)
      o.getDoneCycle = some ⟨o.delays .get (o.lookupCycle c) o.getDoneCycle, o.getEdges c up⟩ :=
    connect_eq o up .get ho.get ho.access _ _
  rw [TimingCache.access, if_neg (by omega), if_pos hresp]
  apply Option.bind_eq_some_iff.mpr ⟨_, hget, _⟩
  apply Option.bind_eq_some_iff.mpr ⟨_, connect_eviction ho, _⟩
  exact Option.bind_eq_some_iff.mpr ⟨_, replacement_walk hways hturns, rfl⟩

end Miss

section Levels

/-- The depth of an event among those of a miss with this many turns. -/
def Kind.level (turns : ℕ) : Kind → ℕ
  | .hit | .missStart => 0
  | .delay _ .up | .delay _ .whole => 1
  | .delay _ .down => 3
  | .missResponse => 4
  | .replAccess turn => turn + 1
  | .swapRead => turns + 1
  | .swapWrite => turns + 2
  | .missWriteback => turns + 5

variable {ρ : Type}

def Node.level (turns : ℕ) : Node ρ → ℕ
  | .above _ => 2
  | .own ev => ev.kind.level turns

section

variable (turns : ℕ) (path : Path)

@[simp] theorem level_missStart : Kind.level turns .missStart = 0 := rfl

@[simp] theorem level_up : Kind.level turns (.delay path .up) = 1 := rfl

@[simp] theorem level_whole : Kind.level turns (.delay path .whole) = 1 := rfl

@[simp] theorem level_down : Kind.level turns (.delay path .down) = 3 := rfl

@[simp] theorem level_own (ev : TimingEvent) : (Node.own ev : Node ρ).level turns = ev.kind.level turns := rfl

@[simp] theorem level_above (ev : ρ) : (Node.above ev).level turns = 2 := rfl

end

variable {c : TimingCache} {o : Outcome} {up : Parents ρ} {turns : ℕ} {path : Path} {lo hi : ℕ}
  {startEv endEv : TimingEvent}

/-- The events of a path lie one below the other. -/
theorem path_levels (hstart : startEv.kind = .missStart) (hend : 3 < endEv.kind.level turns) :
    (.own startEv :: (o.rise up path lo hi ++ (o.fall path hi ++ [.own endEv]))).Pairwise
      fun e f => e.level turns < f.level turns := by
  simp only [Outcome.rise, Outcome.fall]
  cases o.record path with
  | some r =>
    simp only [delay]
    split <;> split <;> simp [hstart] <;> omega
  | none =>
    simp only [delay]
    split <;> simp [hstart] <;> omega

theorem top_levels (hstart : startEv.kind = .missStart) (hend : 3 < endEv.kind.level turns) :
    (o.top up path lo hi startEv :: (o.fall path hi ++ [.own endEv])).Pairwise
      fun e f => e.level turns < f.level turns := by
  simp only [Outcome.top, Outcome.rise, Outcome.fall]
  cases o.record path with
  | some r =>
    simp only [delay]
    split <;> simp <;> omega
  | none =>
    simp only [delay]
    split <;> simp [final, hstart] <;> omega

/-- The edges of a path lead down. -/
theorem pathEdges_level (hstart : startEv.kind = .missStart) (hend : 3 < endEv.kind.level turns)
    {x : Node ρ × Node ρ} (hx : x ∈ o.pathEdges up path lo hi startEv endEv) :
    x.1.level turns < x.2.level turns := by
  rcases List.mem_append.mp hx with hx | hx
  · have hrise := (List.sublist_append_left (o.rise up path lo hi) (o.fall path hi ++ [.own endEv]))
    exact chain_increases ((path_levels hstart hend).sublist (hrise.cons_cons _)) hx
  · exact chain_increases (top_levels hstart hend) hx

/-- So do those of the replacement path. -/
theorem walk_levels : (.own (o.mse c) :: ((o.walk c turns).map .own ++ [.own (o.mwe c)])).Pairwise
    fun e f : Node ρ => e.level turns < f.level turns := by
  have hmse : (o.mse c).kind.level turns = 0 := rfl
  have hmwe : (o.mwe c).kind.level turns = turns + 5 := rfl
  have hlookup : ∀ turn, (c.lookupEvent o.reqCycle turn).kind.level turns = turn + 1 := fun _ => rfl
  have hswaps : (c.swaps o.reqCycle).map (fun e => e.kind.level turns) = [turns + 1, turns + 2] := rfl
  have hincreasing : ((List.range turns).map fun turn => turn + 1).Pairwise (· < ·) :=
    List.pairwise_map.mpr (List.pairwise_lt_range.imp Nat.succ_lt_succ)
  rw [← List.pairwise_map (f := Node.level turns), Outcome.walk]
  split
  · simp only [List.map_cons, List.map_append, List.map_map, Function.comp_def, level_own, hmse, hmwe, hlookup,
      hswaps, List.map_nil]
    simp only [List.pairwise_cons, List.pairwise_append, List.mem_append, List.mem_map, List.mem_range,
      List.mem_cons, List.not_mem_nil, hincreasing]
    grind
  · simp [hmse, hmwe]

end Levels

section Branches

/-- Where the edges to an event are built. -/
inductive Branch where
  | root
  | path (path : Path)
  | walk
  | join
  | above
  deriving DecidableEq

def Kind.branch : Kind → Branch
  | .hit | .missStart => .root
  | .delay path _ => .path path
  | .missResponse => .path .get
  | .replAccess _ | .swapRead | .swapWrite => .walk
  | .missWriteback => .join

variable {ρ : Type}

/-- The edges that a branch builds, to events of its own and to the writeback. -/
def Outcome.branchEdges (c : TimingCache) (o : Outcome) (up : Parents ρ) (turns : ℕ) :
    Branch → List (Node ρ × Node ρ)
  | .path .get => o.getEdges c up
  | .path .eviction => o.evictionEdges c up
  | .walk => o.walkEdges c turns
  | .join => [(.own o.mre, .own (o.mwe c))]
  | .root | .above => []

variable {c : TimingCache} {o : Outcome} {up : Parents ρ} {turns : ℕ} {path : Path} {lo hi : ℕ}
  {startEv endEv : TimingEvent}

/-- Each branch leads to an event once. -/
theorem nodup_branchEdges (b : Branch) : ((o.branchEdges c up turns b).map Prod.snd).Nodup := by
  have hpath : ∀ {path lo hi startEv endEv}, startEv.kind = .missStart → 3 < endEv.kind.level turns →
      ((o.pathEdges up path lo hi startEv endEv).map Prod.snd).Nodup := by
    intro path lo hi startEv endEv hstart hend
    rw [Outcome.pathEdges, List.map_append, chain_map_snd, chain_map_snd]
    exact (path_levels hstart hend).of_cons.imp fun hlt => ne_of_apply_ne (Node.level turns) hlt.ne
  have hmwe : 3 < (o.mwe c).kind.level turns := Nat.lt_of_lt_of_le (by decide : 3 < 5) (Nat.le_add_left ..)
  cases b with
  | path path =>
    cases path with
    | get => exact hpath rfl (by decide : 3 < 4)
    | eviction =>
      simp only [Outcome.branchEdges, Outcome.evictionEdges]
      split
      · exact hpath rfl hmwe
      · exact List.nodup_nil
  | walk =>
    simp only [Outcome.branchEdges, Outcome.walkEdges]
    split
    · rw [chain_map_snd]
      exact walk_levels.of_cons.imp fun hlt => ne_of_apply_ne (Node.level turns) hlt.ne
    · exact List.nodup_nil
  | join => exact List.nodup_singleton _
  | root => exact List.nodup_nil
  | above => exact List.nodup_nil

/-- The edges of the graph are those of the branches and those above. -/
theorem miss_edge {p t : Node ρ} (h : ((o.miss c up turns).graph up).Edge p t) :
    (∃ b, (p, t) ∈ o.branchEdges c up turns b) ∨
    ∃ x y, up.graph.Edge x y ∧ p = .above x ∧ t = .above y := by
  rcases List.mem_append.mp h with hown | habove
  · left
    simp only [Outcome.miss, List.mem_append] at hown
    rcases hown with ((hget | hjoin) | heviction) | hwalk
    · exact ⟨.path .get, hget⟩
    · exact ⟨.join, hjoin⟩
    · exact ⟨.path .eviction, heviction⟩
    · exact ⟨.walk, hwalk⟩
  · obtain ⟨x, hx, heq⟩ := List.mem_map.mp habove
    cases heq
    exact .inr ⟨x.1, x.2, hx, rfl, rfl⟩

theorem edge_of_branchEdges {b : Branch} {x : Node ρ × Node ρ} (hx : x ∈ o.branchEdges c up turns b) :
    x ∈ ((o.miss c up turns).graph up).edges := by
  apply List.mem_append_left
  simp only [Outcome.miss, List.mem_append]
  cases b with
  | path path =>
    cases path with
    | get => exact .inl (.inl (.inl hx))
    | eviction => exact .inl (.inr hx)
  | walk => exact .inr hx
  | join => exact .inl (.inl (.inr hx))
  | root => cases hx
  | above => cases hx

theorem getEdges_sub : ∀ x ∈ o.pathEdges up .get (o.lookupCycle c) o.getDoneCycle (o.mse c) o.mre,
    x ∈ ((o.miss c up turns).graph up).edges :=
  fun _ hx => edge_of_branchEdges (b := .path .get) hx

theorem evictionEdges_sub (hev : o.evDoneCycle ≠ 0) :
    ∀ x ∈ o.pathEdges up .eviction (o.lookupCycle c) o.evDoneCycle (o.mse c) (o.mwe c),
      x ∈ ((o.miss c up turns).graph up).edges := by
  intro x hx
  apply edge_of_branchEdges (b := .path .eviction)
  simp only [Outcome.branchEdges, Outcome.evictionEdges, if_pos hev]
  exact hx

theorem join_edge : ((o.miss c up turns).graph up).Edge (.own o.mre) (.own (o.mwe c)) :=
  edge_of_branchEdges (b := .join) List.mem_cons_self

theorem edge_above {x y : ρ} (hxy : up.graph.Edge x y) :
    ((o.miss c up turns).graph up).Edge (.above x) (.above y) :=
  List.mem_append_right _ (List.mem_map_of_mem hxy)

/-- All edges of the access lead down. -/
theorem branchEdges_level {b : Branch} {x : Node ρ × Node ρ} (hx : x ∈ o.branchEdges c up turns b) :
    x.1.level turns < x.2.level turns := by
  have hmre : o.mre.kind.level turns = 4 := rfl
  have hmwe : (o.mwe c).kind.level turns = turns + 5 := rfl
  cases b with
  | path path =>
    cases path with
    | get => exact pathEdges_level rfl (by omega) hx
    | eviction =>
      simp only [Outcome.branchEdges, Outcome.evictionEdges] at hx
      split at hx
      · exact pathEdges_level rfl (by omega) hx
      · cases hx
  | walk =>
    simp only [Outcome.branchEdges, Outcome.walkEdges] at hx
    split at hx
    · exact chain_increases walk_levels hx
    · cases hx
  | join =>
    rw [List.mem_singleton.mp hx, level_own, level_own, hmwe]
    exact Nat.lt_of_lt_of_le (by decide : 4 < 5) (Nat.le_add_left ..)
  | root => cases hx
  | above => cases hx

/-- A path of edges above is one of the parents' graph. -/
theorem transGen_above {R : Node ρ → Node ρ → Prop}
    (hR : ∀ p t, R p t → ∃ x y, up.graph.Edge x y ∧ p = .above x ∧ t = .above y) {p t : Node ρ}
    (hpath : TransGen R p t) : ∃ x y, TransGen up.graph.Edge x y ∧ p = .above x ∧ t = .above y := by
  induction hpath with
  | single hedge =>
    obtain ⟨x, y, hxy, hx, hy⟩ := hR _ _ hedge
    exact ⟨x, y, .single hxy, hx, hy⟩
  | tail _ hedge ih =>
    obtain ⟨x, y, hxy, hx, hy⟩ := ih
    obtain ⟨y', z, hyz, hy', hz⟩ := hR _ _ hedge
    cases hy.symm.trans hy'
    exact ⟨x, z, hxy.tail hyz, hx, hz⟩

/-- The events of a miss and those above form no cycle. -/
theorem miss_acyclic : ((o.miss c up turns).graph up).Acyclic := by
  apply acyclic_of_levels (Node.level turns)
  · intro p t hpt
    rcases miss_edge hpt with ⟨b, hb⟩ | ⟨x, y, -, rfl, rfl⟩
    · exact (branchEdges_level hb).le
    · exact le_rfl
  · -- a cycle inside a level is one above
    have hsame : ∀ p t : Node ρ, ((o.miss c up turns).graph up).Edge p t ∧ p.level turns = t.level turns →
        ∃ x y, up.graph.Edge x y ∧ p = .above x ∧ t = .above y := by
      intro p t hpt
      rcases miss_edge hpt.1 with ⟨b, hb⟩ | hedge
      · exact absurd hpt.2 (branchEdges_level hb).ne
      · exact hedge
    intro e he
    obtain ⟨x, y, hxy, hx, hy⟩ := transGen_above hsame he
    cases hx.symm.trans hy
    exact up.acyclic x hxy

end Branches

section Owners

variable {ρ : Type} [DecidableEq ρ]

/-- The branch that leads to an event. -/
def Node.branch (up : Parents ρ) : Node ρ → Branch
  | .own ev => ev.kind.branch
  | .above x =>
    if x = up.startEvent .get then .path .get
    else if x = up.startEvent .eviction then .path .eviction
    else .above

variable {c : TimingCache} {o : Outcome} {up : Parents ρ} {turns : ℕ} {path : Path} {lo hi : ℕ}
  {startEv endEv : TimingEvent}

theorem branch_start (path : Path) : (Node.above (up.startEvent path)).branch up = .path path := by
  cases path with
  | get => exact if_pos rfl
  | eviction => exact (if_neg up.start_ne.symm).trans (if_pos rfl)

theorem branch_rise {t : Node ρ} (ht : t ∈ o.rise up path lo hi) : t.branch up = .path path := by
  simp only [Outcome.rise, delay] at ht
  split at ht
  · rcases List.mem_append.mp ht with ht | ht
    · split at ht
      · cases ht
      · rw [List.mem_singleton.mp ht]
        rfl
    · rw [List.mem_singleton.mp ht]
      exact branch_start path
  · split at ht
    · cases ht
    · rw [List.mem_singleton.mp ht]
      rfl

theorem branch_fall {t : Node ρ} (ht : t ∈ o.fall path hi) : t.branch up = .path path := by
  simp only [Outcome.fall, delay] at ht
  split at ht
  · split at ht
    · cases ht
    · rw [List.mem_singleton.mp ht]
      rfl
  · cases ht

theorem branch_pathEdges {x : Node ρ × Node ρ} (hx : x ∈ o.pathEdges up path lo hi startEv endEv) :
    x.2.branch up = .path path ∨ x.2 = .own endEv := by
  rcases List.mem_append.mp hx with hx | hx
  · exact .inl (branch_rise (mem_of_mem_chain hx))
  · rcases List.mem_append.mp (mem_of_mem_chain hx) with hfall | hend
    · exact .inl (branch_fall hfall)
    · exact .inr (List.mem_singleton.mp hend)

theorem branch_walk {ev : TimingEvent} (hev : ev ∈ o.walk c turns) : ev.kind.branch = .walk := by
  rw [Outcome.walk] at hev
  split at hev
  · rcases List.mem_append.mp hev with hlookup | hswap
    · obtain ⟨turn, -, rfl⟩ := List.mem_map.mp hlookup
      rfl
    · have hboth : ∀ ev ∈ c.swaps o.reqCycle, ev.kind.branch = .walk := by
        simp [TimingCache.swaps, Kind.branch]
      exact hboth ev hswap
  · cases hev

/-- The edges of a branch lead to events of its own and to the writeback. -/
theorem branch_branchEdges {b : Branch} {x : Node ρ × Node ρ} (hx : x ∈ o.branchEdges c up turns b) :
    x.2.branch up = b ∨ x.2 = .own (o.mwe c) := by
  cases b with
  | path path =>
    cases path with
    | get =>
      rcases branch_pathEdges hx with hpath | hend
      · exact .inl hpath
      · rw [hend]
        exact .inl rfl
    | eviction =>
      simp only [Outcome.branchEdges, Outcome.evictionEdges] at hx
      split at hx
      · exact branch_pathEdges hx
      · cases hx
  | walk =>
    simp only [Outcome.branchEdges, Outcome.walkEdges] at hx
    split at hx
    · rcases List.mem_append.mp (mem_of_mem_chain hx) with hwalk | hend
      · obtain ⟨ev, hev, heq⟩ := List.mem_map.mp hwalk
        rw [← heq]
        exact .inl (branch_walk hev)
      · exact .inr (List.mem_singleton.mp hend)
    · cases hx
  | join => exact .inl (by rw [List.mem_singleton.mp hx]; rfl)
  | root => cases hx
  | above => cases hx

/-- No edge above leads to the start of a record. -/
theorem branch_above {x y : ρ} (hxy : up.graph.Edge x y) : (Node.above y).branch up = .above := by
  have hne : ∀ path, y ≠ up.startEvent path := fun path heq => up.first path x (heq ▸ hxy)
  rw [Node.branch, if_neg (hne .get), if_neg (hne .eviction)]

/-- An event of a branch, other than the writeback, has one parent. -/
theorem only_parent {b : Branch} {x : Node ρ × Node ρ} (hx : x ∈ o.branchEdges c up turns b)
    (hne : x.2 ≠ .own (o.mwe c)) {p : Node ρ} (hp : ((o.miss c up turns).graph up).Edge p x.2) : p = x.1 := by
  have hbranch := (branch_branchEdges hx).resolve_right hne
  rcases miss_edge hp with ⟨b', hb'⟩ | ⟨y, z, hyz, -, heq⟩
  · have hbranch' := (branch_branchEdges hb').resolve_right hne
    rw [← hbranch.symm.trans hbranch'] at hb'
    exact congrArg Prod.fst (List.inj_on_of_nodup_map (nodup_branchEdges b) hb' hx rfl)
  · rw [heq, branch_above hyz] at hbranch
    rw [← hbranch] at hx
    cases hx

end Owners

section Reachable

variable {ρ : Type} {c : TimingCache} {o : Outcome} {up : Parents ρ} {turns : ℕ} {path : Path}
  {lo hi : ℕ} {startEv endEv : TimingEvent}

theorem above_reaches {x y : ρ} (hxy : ReflTransGen up.graph.Edge x y) :
    ReflTransGen ((o.miss c up turns).graph up).Edge (.above x) (.above y) :=
  hxy.lift Node.above fun _ _ => edge_above

theorem delays_mem {ev : TimingEvent} (hev : ev ∈ o.delays path lo hi) :
    Node.own ev ∈ o.rise up path lo hi ++ o.fall path hi := by
  simp only [Outcome.delays, Outcome.rise, Outcome.fall] at hev ⊢
  split at hev
  · rcases List.mem_append.mp hev with hup | hdown
    · simp [hup]
    · simp [hdown]
  · simp [hev]

/-- All events of a path come after its start. -/
theorem path_reaches
    (hsub : ∀ x ∈ o.pathEdges up path lo hi startEv endEv, x ∈ ((o.miss c up turns).graph up).edges) {t : Node ρ}
    (ht : t ∈ o.rise up path lo hi ++ (o.fall path hi ++ [.own endEv])) :
    ReflTransGen ((o.miss c up turns).graph up).Edge (.own startEv) t := by
  have hrise : ∀ t ∈ o.rise up path lo hi,
      ReflTransGen ((o.miss c up turns).graph up).Edge (.own startEv) t :=
    fun t ht => chain_before (fun x hx => hsub x (List.mem_append_left _ hx)) ht
  rcases List.mem_append.mp ht with ht | ht
  · exact hrise t ht
  · have htop : ReflTransGen ((o.miss c up turns).graph up).Edge (.own startEv) (o.top up path lo hi startEv) := by
      cases hrecord : o.record path with
      | some r =>
        simp only [Outcome.top, hrecord]
        have hstart : .above (up.startEvent path) ∈ o.rise up path lo hi := by
          simp [Outcome.rise, hrecord]
        exact (hrise _ hstart).trans (above_reaches (up.reaches path))
      | none =>
        simp only [Outcome.top, hrecord]
        rcases final_mem (.own startEv) (o.rise up path lo hi) with heq | hmem
        · rw [heq]
        · exact hrise _ hmem
    exact htop.trans (chain_before (fun x hx => hsub x (List.mem_append_right _ hx)) ht)

/-- All events of a miss come after its start. -/
theorem miss_reaches {ev : TimingEvent} (hev : ev ∈ (o.miss c up turns).events) :
    ReflTransGen ((o.miss c up turns).graph up).Edge (.own (o.mse c)) (.own ev) := by
  have hget : ∀ t ∈ o.rise up .get (o.lookupCycle c) o.getDoneCycle ++ (o.fall .get o.getDoneCycle ++ [.own o.mre]),
      ReflTransGen ((o.miss c up turns).graph up).Edge (.own (o.mse c)) t := fun t ht => path_reaches getEdges_sub ht
  have hmre := hget (.own o.mre) (by simp)
  simp only [Outcome.miss, List.mem_append, List.mem_cons, List.not_mem_nil, or_false] at hev
  rcases hev with (((hmse | hresponse | hwriteback) | hdelay) | hdelay) | hwalk
  · rw [hmse]
  · rw [hresponse]
    exact hmre
  · rw [hwriteback]
    exact hmre.tail join_edge
  · exact hget _ (List.append_assoc .. ▸ List.mem_append_left _ (delays_mem hdelay))
  · split at hdelay
    · next hev =>
      exact path_reaches (evictionEdges_sub hev) (List.append_assoc .. ▸ List.mem_append_left _ (delays_mem hdelay))
    · cases hdelay
  · have hedges : ∀ x : Node ρ × Node ρ, x ∈ o.walkEdges c turns → x ∈ ((o.miss c up turns).graph up).edges :=
      fun x hx => edge_of_branchEdges (b := .walk) hx
    by_cases hbuilt : o.evDoneCycle ≠ 0 ∧ c.ways < c.cands
    · rw [Outcome.walkEdges, if_pos hbuilt] at hedges
      exact chain_before hedges (List.mem_append_left _ (List.mem_map_of_mem hwalk))
    · rw [Outcome.walk, if_neg hbuilt] at hwalk
      cases hwalk

end Reachable

end Zsim.CacheEventGraphs
