import Zsim.CacheEventPaths
import Zsim.TimingEventGraphs

/-!
# The latencies that an access repeats

In the weave phase the end of an access completes no earlier after its start than the bound phase has promised,
whatever holds its events up, and exactly then where nothing does. The records of the parents may be relied on for
the same, and so the promise of the whole hierarchy is made of those of its levels.
-/

namespace Zsim.CacheEventGraphs

open GuardedRuns TimedGraphs Relation

section Records

variable {ρ : Type}

/-- A record lasts at least as long as it says, from what its start event was told to the completion of its end. -/
def Lasts (g : Graph (Node ρ)) (s : Execution (Node ρ)) (startEv endEv : Node ρ) (latency : ℕ) : Prop :=
  s.status endEv = .done → s.cycle startEv + latency ≤ g.completion s endEv

def LastsExactly (g : Graph (Node ρ)) (s : Execution (Node ρ)) (startEv endEv : Node ρ) (latency : ℕ) : Prop :=
  s.status endEv = .done → g.completion s endEv = s.cycle startEv + latency

/-- What the records of the parents promise. -/
def Parents.Keep (up : Parents ρ) (o : Outcome) (g : Graph (Node ρ)) (s : Execution (Node ρ)) : Prop :=
  ∀ path r, o.record path = some r →
    Lasts g s (.above (up.startEvent path)) (.above (up.endEvent path)) r.latency

def Parents.KeepExactly (up : Parents ρ) (o : Outcome) (g : Graph (Node ρ)) (s : Execution (Node ρ)) : Prop :=
  ∀ path r, o.record path = some r →
    LastsExactly g s (.above (up.startEvent path)) (.above (up.endEvent path)) r.latency

/-- The latencies of a valid outcome fit the 32 bits of a delay. -/
structure Outcome.Fits (c : TimingCache) (o : Outcome) : Prop where
  get : o.getDoneCycle - o.lookupCycle c < 2 ^ 32
  eviction : o.evDoneCycle - o.lookupCycle c < 2 ^ 32
  resp : o.respCycle - o.reqCycle < 2 ^ 32

end Records

section Paths

variable {ρ : Type} {c : TimingCache} {o : Outcome} {up : Parents ρ} {turns c₀ : ℕ}
  {s : Execution (Node ρ)} {path : Path} {lo hi : ℕ} {startEv endEv : TimingEvent} {root : Node ρ}

/-- The delay events of a leg last as long as the leg. -/
theorem sum_delay (b : Recorded ρ) (leg : Leg) {lat : ℕ} (hlat : lat < 2 ^ 32) (minStartCycle : ℕ) :
    (((delay path leg lat minStartCycle).map Node.own).map (b.graph up).latency).sum = lat := by
  rw [delay]
  split
  · next hzero => exact hzero.symm
  · have hnat : (UInt32.ofNat lat).toNat = lat := UInt32.toNat_ofNat_of_lt hlat
    simp [Graph.latency, Recorded.graph, hnat]

/-- An event is told the completion of a chain that leads to it. -/
theorem told_chain {ν : Type} [DecidableEq ν] {g : Graph ν} {root a b : ν} {s : Execution ν} {es : List ν}
    (h : Inv g root c₀ s) (hsub : ∀ x ∈ chain a (es ++ [b]), x ∈ g.edges) (hb : s.status b ≠ .waiting) :
    s.status a = .done ∧ g.completion s a + (es.map g.latency).sum ≤ s.cycle b := by
  rw [chain_append] at hsub
  have hedge : g.Edge (final a es) b := hsub _ (List.mem_append_right _ List.mem_cons_self)
  have hdone := h.done_of_edge hedge hb
  obtain ⟨ha, hle⟩ := h.chain_le (fun x hx => hsub x (List.mem_append_left _ hx)) hdone
  exact ⟨ha, hle.trans (h.completion_le _ _ hedge hdone)⟩

/-- It is told just that where nothing else leads to the events of the chain, and nothing holds them up. -/
theorem told_chain_eq {ν : Type} [DecidableEq ν] {g : Graph ν} {root a b : ν} {s : Execution ν} {es : List ν}
    (h : Inv g root c₀ s) (hsub : ∀ x ∈ chain a (es ++ [b]), x ∈ g.edges)
    (honly : ∀ x ∈ chain a (es ++ [b]), ∀ p, g.Edge p x.2 → p = x.1) (hprompt : AllPrompt g s)
    (hb : s.status b ≠ .waiting) : s.cycle b = g.completion s a + (es.map g.latency).sum := by
  rw [chain_append] at hsub honly
  have hedge : g.Edge (final a es) b := hsub _ (List.mem_append_right _ List.mem_cons_self)
  rw [h.cycle_eq hedge hb (honly _ (List.mem_append_right _ List.mem_cons_self))]
  exact h.chain_eq (fun x hx => hsub x (List.mem_append_left _ hx))
    (fun x hx => honly x (List.mem_append_left _ hx)) (fun e _ => hprompt.done e) (h.done_of_edge hedge hb)

/-- The edges of a path with a record. -/
theorem pathEdges_some {r : Span} (hr : o.record path = some r) : o.pathEdges up path lo hi startEv endEv =
    chain (.own startEv) ((delay path .up (r.reqCycle - lo) lo).map .own ++ [.above (up.startEvent path)]) ++
      chain (.above (up.endEvent path)) ((delay path .down (hi - r.respCycle) r.respCycle).map .own ++
        [.own endEv]) := by
  simp only [Outcome.pathEdges, Outcome.rise, Outcome.top, Outcome.fall, hr]

theorem pathEdges_none (hr : o.record path = none) : o.pathEdges up path lo hi startEv endEv =
    chain (.own startEv) ((delay path .whole (hi - lo) lo).map .own ++ [.own endEv]) := by
  simp only [Outcome.pathEdges, Outcome.rise, Outcome.top, Outcome.fall, hr, List.nil_append, chain_append]

/-- What a path needs of its record and of its cycles. -/
structure PathFits (o : Outcome) (path : Path) (lo hi : ℕ) : Prop where
  le : lo ≤ hi
  inside : ∀ r, o.record path = some r → lo ≤ r.reqCycle ∧ r.respCycle ≤ hi
  fits : hi - lo < 2 ^ 32

variable [DecidableEq ρ]

/-- The end of a path is told no earlier than its cycles after the completion of its start, and where it has a record
the start of that is told no earlier than its own cycle. -/
theorem path_le (b : Recorded ρ) (h : Inv (b.graph up) root c₀ s) (hpath : PathFits o path lo hi)
    (hkeep : up.Keep o (b.graph up) s)
    (hreaches : ∀ {x y}, ReflTransGen up.graph.Edge x y → ReflTransGen (b.graph up).Edge (.above x) (.above y))
    (hsub : ∀ x ∈ o.pathEdges up path lo hi startEv endEv, x ∈ (b.graph up).edges)
    (hend : s.status (.own endEv) ≠ .waiting) :
    s.status (.own startEv) = .done ∧ (b.graph up).completion s (.own startEv) + (hi - lo) ≤ s.cycle (.own endEv) := by
  have hfits := hpath.fits
  cases hr : o.record path with
  | none =>
    rw [pathEdges_none hr] at hsub
    have hwhole := told_chain h hsub hend
    rwa [sum_delay b .whole hfits] at hwhole
  | some r =>
    obtain ⟨hreq, hresp⟩ := hpath.inside r hr
    have hspan := r.req_le_resp
    rw [pathEdges_some hr] at hsub
    obtain ⟨htop, hdown⟩ := told_chain h (fun x hx => hsub x (List.mem_append_right _ hx)) hend
    have hlasts := hkeep path r hr htop
    have hstart := h.done_of_before (hreaches (up.reaches path)) htop
    obtain ⟨hdone, hup⟩ := told_chain h (fun x hx => hsub x (List.mem_append_left _ hx)) (by simp [hstart])
    rw [sum_delay b .down (by omega)] at hdown
    rw [sum_delay b .up (by omega)] at hup
    rw [Span.latency] at hlasts
    exact ⟨hdone, by omega⟩

theorem path_eq (b : Recorded ρ) (h : Inv (b.graph up) root c₀ s) (hpath : PathFits o path lo hi)
    (hkeep : up.KeepExactly o (b.graph up) s) (hprompt : AllPrompt (b.graph up) s)
    (hreaches : ∀ {x y}, ReflTransGen up.graph.Edge x y → ReflTransGen (b.graph up).Edge (.above x) (.above y))
    (hsub : ∀ x ∈ o.pathEdges up path lo hi startEv endEv, x ∈ (b.graph up).edges)
    (honly : ∀ x ∈ o.pathEdges up path lo hi startEv endEv, ∀ p, (b.graph up).Edge p x.2 → p = x.1)
    (hend : s.status (.own endEv) ≠ .waiting) :
    s.status (.own startEv) = .done ∧ s.cycle (.own endEv) = (b.graph up).completion s (.own startEv) + (hi - lo) := by
  have hfits := hpath.fits
  cases hr : o.record path with
  | none =>
    rw [pathEdges_none hr] at hsub honly
    have hdone := (told_chain h hsub hend).1
    have hwhole := told_chain_eq h hsub honly hprompt hend
    rw [sum_delay b .whole hfits] at hwhole
    exact ⟨hdone, hwhole⟩
  | some r =>
    obtain ⟨hreq, hresp⟩ := hpath.inside r hr
    have hspan := r.req_le_resp
    rw [pathEdges_some hr] at hsub honly
    obtain ⟨htop, -⟩ := told_chain h (fun x hx => hsub x (List.mem_append_right _ hx)) hend
    have hdown := told_chain_eq h (fun x hx => hsub x (List.mem_append_right _ hx))
      (fun x hx => honly x (List.mem_append_right _ hx)) hprompt hend
    have hlasts := hkeep path r hr htop
    have hstart := h.done_of_before (hreaches (up.reaches path)) htop
    have hdone := (told_chain h (fun x hx => hsub x (List.mem_append_left _ hx)) (by simp [hstart])).1
    have hup := told_chain_eq h (fun x hx => hsub x (List.mem_append_left _ hx))
      (fun x hx => honly x (List.mem_append_left _ hx)) hprompt (by simp [hstart])
    rw [sum_delay b .down (by omega)] at hdown
    rw [sum_delay b .up (by omega)] at hup
    rw [Span.latency] at hlasts
    exact ⟨hdone, by omega⟩

/-- The event after the first of a chain is told its completion. -/
theorem told_head {ν : Type} [DecidableEq ν] {g : Graph ν} {root a b : ν} {s : Execution ν} {es : List ν}
    (h : Inv g root c₀ s) (hsub : ∀ x ∈ chain a (b :: es), x ∈ g.edges) (hb : s.status b ≠ .waiting) :
    s.status a = .done ∧ g.completion s a ≤ s.cycle b := by
  have hedge : g.Edge a b := hsub _ List.mem_cons_self
  have hdone := h.done_of_edge hedge hb
  exact ⟨hdone, h.completion_le _ _ hedge hdone⟩

/-- A delay of a leg is the first event of a chain that begins with the leg. -/
theorem mem_delay {leg : Leg} {lat minStartCycle : ℕ} {ev : TimingEvent} (hev : ev ∈ delay path leg lat minStartCycle) :
    delay path leg lat minStartCycle = [ev] ∧ ev.minStartCycle = minStartCycle := by
  rw [delay] at hev ⊢
  split at hev
  · cases hev
  · next hne =>
    rw [if_neg hne, List.mem_singleton.mp hev]
    exact ⟨rfl, rfl⟩

/-- The record of a path starts in time, if the start of the path has been in time. -/
theorem record_start (b : Recorded ρ) (h : Inv (b.graph up) root c₀ s) (hpath : PathFits o path lo hi)
    (hsub : ∀ x ∈ o.pathEdges up path lo hi startEv endEv, x ∈ (b.graph up).edges)
    (hlo : s.status (.own startEv) = .done → lo ≤ (b.graph up).completion s (.own startEv)) {r : Span}
    (hr : o.record path = some r) (hstatus : s.status (.above (up.startEvent path)) ≠ .waiting) :
    r.reqCycle ≤ s.cycle (.above (up.startEvent path)) := by
  have hfits := hpath.fits
  obtain ⟨hreq, hresp⟩ := hpath.inside r hr
  have hspan := r.req_le_resp
  rw [pathEdges_some hr] at hsub
  obtain ⟨hdone, hup⟩ := told_chain h (fun x hx => hsub x (List.mem_append_left _ hx)) hstatus
  have hstart := hlo hdone
  rw [sum_delay b .up (by omega)] at hup
  omega

/-- No delay of a path is told a cycle before its own earliest one, if the start of the path has been in time. -/
theorem delays_minStart (b : Recorded ρ) (h : Inv (b.graph up) root c₀ s) (hpath : PathFits o path lo hi)
    (hkeep : up.Keep o (b.graph up) s)
    (hreaches : ∀ {x y}, ReflTransGen up.graph.Edge x y → ReflTransGen (b.graph up).Edge (.above x) (.above y))
    (hsub : ∀ x ∈ o.pathEdges up path lo hi startEv endEv, x ∈ (b.graph up).edges)
    (hlo : s.status (.own startEv) = .done → lo ≤ (b.graph up).completion s (.own startEv)) {ev : TimingEvent}
    (hev : ev ∈ o.delays path lo hi) (hstatus : s.status (.own ev) ≠ .waiting) :
    ev.minStartCycle ≤ s.cycle (.own ev) := by
  cases hr : o.record path with
  | none =>
    rw [pathEdges_none hr] at hsub
    simp only [Outcome.delays, hr] at hev
    obtain ⟨hone, hmin⟩ := mem_delay hev
    rw [hone] at hsub
    obtain ⟨hdone, htold⟩ := told_head h hsub hstatus
    exact hmin.trans_le ((hlo hdone).trans htold)
  | some r =>
    have hrecord := record_start b h hpath hsub hlo hr
    have hspan := r.req_le_resp
    rw [pathEdges_some hr] at hsub
    simp only [Outcome.delays, hr] at hev
    rcases List.mem_append.mp hev with hev | hev
    · obtain ⟨hone, hmin⟩ := mem_delay hev
      rw [hone] at hsub
      obtain ⟨hdone, htold⟩ := told_head h (fun x hx => hsub x (List.mem_append_left _ hx)) hstatus
      exact hmin.trans_le ((hlo hdone).trans htold)
    · obtain ⟨hone, hmin⟩ := mem_delay hev
      rw [hone] at hsub
      obtain ⟨htop, htold⟩ := told_head h (fun x hx => hsub x (List.mem_append_right _ hx)) hstatus
      have hlasts := hkeep path r hr htop
      have hstart := hrecord (by simp [h.done_of_before (hreaches (up.reaches path)) htop])
      rw [Span.latency] at hlasts
      omega

end Paths

section Miss

variable {ρ : Type} {c : TimingCache} {o : Outcome} {up : Parents ρ} {turns c₀ : ℕ} {s : Execution (Node ρ)}
  {path : Path}

theorem pathFits_get (ho : o.Valid c) (hfits : o.Fits c) : PathFits o .get (o.lookupCycle c) o.getDoneCycle :=
  ⟨ho.get, ho.access, hfits.get⟩

theorem pathFits_eviction (ho : o.Valid c) (hfits : o.Fits c) (hev : o.evDoneCycle ≠ 0) :
    PathFits o .eviction (o.lookupCycle c) o.evDoneCycle :=
  ⟨ho.eviction hev, ho.writeback hev, hfits.eviction⟩

/-- Nothing comes before the start of a miss. -/
theorem miss_root (p : Node ρ) : ¬ ((o.miss c up turns).graph up).Edge p (.own (o.mse c)) := by
  intro hedge
  rcases miss_edge hedge with ⟨b, hb⟩ | ⟨x, y, -, -, heq⟩
  · exact absurd (branchEdges_level hb) (Nat.not_lt_zero _)
  · cases heq

theorem latency_mse : ((o.miss c up turns).graph up).latency (.own (o.mse c)) = c.accLat.toNat := by
  simp [Graph.latency, Recorded.graph, Outcome.mse, missStartEvent]

/-- The events of the replacement path are lax. -/
theorem walk_minStart {ev : TimingEvent} (hev : ev ∈ o.walk c turns) : ev.minStartCycle = o.reqCycle := by
  rw [Outcome.walk] at hev
  split at hev
  · rcases List.mem_append.mp hev with hlookup | hswap
    · obtain ⟨turn, -, rfl⟩ := List.mem_map.mp hlookup
      rfl
    · have hboth : ∀ ev ∈ c.swaps o.reqCycle, ev.minStartCycle = o.reqCycle := by
        simp [TimingCache.swaps]
      exact hboth ev hswap
  · cases hev

variable [DecidableEq ρ]

/-- The lookup is over no earlier than after its latency. -/
theorem lookup_le (h : Inv ((o.miss c up turns).graph up) (.own (o.mse c)) c₀ s)
    (hdone : s.status (.own (o.mse c)) = .done) :
    c₀ + c.accLat.toNat ≤ ((o.miss c up turns).graph up).completion s (.own (o.mse c)) := by
  have hle := h.latency_le hdone
  rwa [h.root_cycle, latency_mse] at hle

/-- It is over in time, if the miss has started in time. -/
theorem lookupCycle_le (h : Inv ((o.miss c up turns).graph up) (.own (o.mse c)) c₀ s) (hstart : o.reqCycle ≤ c₀)
    (hdone : s.status (.own (o.mse c)) = .done) :
    o.lookupCycle c ≤ ((o.miss c up turns).graph up).completion s (.own (o.mse c)) :=
  (Nat.add_le_add_right hstart _).trans (lookup_le h hdone)

/-- The response is told no earlier than the bound phase has promised. -/
theorem response_told (ho : o.Valid c) (hfits : o.Fits c)
    (h : Inv ((o.miss c up turns).graph up) (.own (o.mse c)) c₀ s)
    (hkeep : up.Keep o ((o.miss c up turns).graph up) s) (hmre : s.status (.own o.mre) ≠ .waiting) :
    c₀ + (o.getDoneCycle - o.reqCycle) ≤ s.cycle (.own o.mre) := by
  obtain ⟨hdone, hle⟩ := path_le _ h (pathFits_get ho hfits) hkeep above_reaches getEdges_sub hmre
  have hlookup := lookup_le h hdone
  have hget := ho.get
  rw [Outcome.lookupCycle] at hle hget
  omega

/-- It is told just that where nothing is held up. -/
theorem response_told_eq (ho : o.Valid c) (hfits : o.Fits c)
    (h : Inv ((o.miss c up turns).graph up) (.own (o.mse c)) c₀ s)
    (hkeep : up.KeepExactly o ((o.miss c up turns).graph up) s)
    (hprompt : AllPrompt ((o.miss c up turns).graph up) s) (hmre : s.status (.own o.mre) ≠ .waiting) :
    s.cycle (.own o.mre) = c₀ + (o.getDoneCycle - o.reqCycle) := by
  have honly : ∀ x ∈ o.pathEdges up .get (o.lookupCycle c) o.getDoneCycle (o.mse c) o.mre, ∀ p,
      ((o.miss c up turns).graph up).Edge p x.2 → p = x.1 := by
    intro x hx p hp
    refine only_parent (b := .path .get) hx (fun hmwe => ?_) hp
    -- the edges of the get path do not lead to the writeback
    rcases branch_pathEdges hx with hbranch | hend
    · rw [hmwe] at hbranch
      cases hbranch
    · rw [hmwe] at hend
      cases hend
  obtain ⟨hdone, heq⟩ :=
    path_eq _ h (pathFits_get ho hfits) hkeep hprompt above_reaches getEdges_sub honly hmre
  have hlookup := (hprompt.done _ hdone).completion_eq
  have hget := ho.get
  rw [h.root_cycle, latency_mse] at hlookup
  rw [Outcome.lookupCycle] at heq hget
  omega

/-- So is the writeback, for both of its paths. -/
theorem writeback_told (ho : o.Valid c) (hfits : o.Fits c)
    (h : Inv ((o.miss c up turns).graph up) (.own (o.mse c)) c₀ s)
    (hkeep : up.Keep o ((o.miss c up turns).graph up) s) (hmwe : s.status (.own (o.mwe c)) ≠ .waiting) :
    c₀ + (max o.evDoneCycle o.getDoneCycle - o.reqCycle) ≤ s.cycle (.own (o.mwe c)) := by
  have hmre := h.done_of_edge join_edge hmwe
  have htold := response_told ho hfits h hkeep (by simp [hmre])
  have hjoined := h.completion_le _ _ join_edge hmre
  have hmreDone := h.latency_le hmre
  by_cases hev : o.evDoneCycle = 0
  · rw [hev, Nat.zero_max]
    omega
  · obtain ⟨hdone, hle⟩ :=
      path_le _ h (pathFits_eviction ho hfits hev) hkeep above_reaches (evictionEdges_sub hev) hmwe
    have hlookup := lookup_le h hdone
    have hge := ho.eviction hev
    rw [Outcome.lookupCycle] at hle hge
    omega

/-- No event of a miss is told a cycle before its own earliest one, if the start has been in time. -/
theorem miss_minStart (ho : o.Valid c) (hfits : o.Fits c)
    (h : Inv ((o.miss c up turns).graph up) (.own (o.mse c)) c₀ s)
    (hkeep : up.Keep o ((o.miss c up turns).graph up) s) (hstart : o.reqCycle ≤ c₀) {ev : TimingEvent}
    (hev : ev ∈ (o.miss c up turns).events) (hstatus : s.status (.own ev) ≠ .waiting) :
    ev.minStartCycle ≤ s.cycle (.own ev) := by
  have hroot := h.root_le miss_acyclic hstatus
  have hlookup := lookupCycle_le h hstart
  simp only [Outcome.miss, List.mem_append, List.mem_cons, List.not_mem_nil, or_false] at hev
  have hget := ho.get
  rw [Outcome.lookupCycle] at hget
  rcases hev with (((hmse | hmre | hmwe) | hdelay) | hdelay) | hwalk
  · rw [hmse]
    exact hstart.trans (hmse ▸ hroot)
  · rw [hmre] at hstatus ⊢
    have htold := response_told ho hfits h hkeep hstatus
    change o.getDoneCycle ≤ s.cycle (.own o.mre)
    omega
  · rw [hmwe] at hstatus ⊢
    have htold := writeback_told ho hfits h hkeep hstatus
    change max o.evDoneCycle o.getDoneCycle ≤ s.cycle (.own (o.mwe c))
    omega
  · exact delays_minStart _ h (pathFits_get ho hfits) hkeep above_reaches getEdges_sub hlookup hdelay hstatus
  · split at hdelay
    · next hne =>
      exact delays_minStart _ h (pathFits_eviction ho hfits hne) hkeep above_reaches (evictionEdges_sub hne) hlookup
        hdelay hstatus
    · cases hdelay
  · rw [walk_minStart hwalk]
    exact hstart.trans hroot

/-- The records of the parents start in time too. -/
theorem miss_records (ho : o.Valid c) (hfits : o.Fits c)
    (h : Inv ((o.miss c up turns).graph up) (.own (o.mse c)) c₀ s) (hstart : o.reqCycle ≤ c₀) {r : Span}
    (hr : o.record path = some r) (hstatus : s.status (.above (up.startEvent path)) ≠ .waiting) :
    r.reqCycle ≤ s.cycle (.above (up.startEvent path)) := by
  have hlookup := lookupCycle_le h hstart
  cases path with
  | get => exact record_start _ h (pathFits_get ho hfits) getEdges_sub hlookup hr hstatus
  | eviction =>
    by_cases hev : o.evDoneCycle = 0
    · -- without an eviction nothing leads to its record
      rcases h.source _ hstatus with heq | ⟨p, hedge⟩
      · cases heq
      · rcases miss_edge hedge with ⟨b, hb⟩ | ⟨x, y, hxy, -, heq⟩
        · have hbranch := (branch_branchEdges hb).resolve_right fun hmwe => by cases hmwe
          rw [branch_start] at hbranch
          simp only [← hbranch, Outcome.branchEdges, Outcome.evictionEdges, hev, ne_eq, not_true, if_false] at hb
          cases hb
        · cases heq
          exact absurd hxy (up.first .eviction x)
    · exact record_start _ h (pathFits_eviction ho hfits hev) (evictionEdges_sub hev) hlookup hr hstatus

section Ends

/-- Where nothing can move, a record that has started has ended. -/
theorem record_done (h : Inv ((o.miss c up turns).graph up) (.own (o.mse c)) c₀ s) (hquiet : Quiet s)
    (hstart : s.status (.above (up.startEvent path)) = .done) : s.status (.above (up.endEvent path)) = .done := by
  have hbefore : ∀ x, ReflTransGen up.graph.Edge x (up.endEvent path) → s.status (.above x) = .done := by
    intro x
    induction x using up.acyclic.wellFounded.induction with
    | _ x ih =>
      intro hx
      by_cases hparent : ∃ y, up.graph.Edge y x
      · obtain ⟨y, hy⟩ := hparent
        refine h.done_of_parents hquiet (edge_above hy) fun p hp => ?_
        rcases miss_edge hp with ⟨b, hb⟩ | ⟨z, x', hzx, rfl, heq⟩
        · have hbranch := (branch_branchEdges hb).resolve_right fun hmwe => by cases hmwe
          rw [branch_above hy] at hbranch
          rw [← hbranch] at hb
          cases hb
        · cases heq
          exact ih z hzx (.head hzx hx)
      · rw [up.only path x hx fun y hy => hparent ⟨y, hy⟩]
        exact hstart
  exact hbefore _ .refl

/-- A path whose events have one parent each is done where nothing can move. -/
theorem path_done {lo hi : ℕ} {endEv : TimingEvent}
    (h : Inv ((o.miss c up turns).graph up) (.own (o.mse c)) c₀ s) (hquiet : Quiet s)
    (hsub : ∀ x ∈ o.pathEdges up path lo hi (o.mse c) endEv, x ∈ ((o.miss c up turns).graph up).edges)
    (honly : ∀ x ∈ o.pathEdges up path lo hi (o.mse c) endEv, x.2 ≠ .own endEv → ∀ p,
      ((o.miss c up turns).graph up).Edge p x.2 → p = x.1)
    (hne : ∀ t ∈ o.rise up path lo hi ++ o.fall path hi, t ≠ .own endEv)
    (hmse : s.status (.own (o.mse c)) = .done) :
    s.status (o.top up path lo hi (o.mse c)) = .done ∧
      ∀ t ∈ o.rise up path lo hi ++ o.fall path hi, s.status t = .done := by
  have hrise : ∀ t ∈ o.rise up path lo hi, s.status t = .done := by
    intro t ht
    refine h.chain_done hquiet (fun x hx => hsub x (List.mem_append_left _ hx)) (fun x hx => ?_) hmse ht
    exact honly x (List.mem_append_left _ hx) (hne x.2 (List.mem_append_left _ (mem_of_mem_chain hx)))
  have htop : s.status (o.top up path lo hi (o.mse c)) = .done := by
    cases hr : o.record path with
    | some r =>
      simp only [Outcome.top, hr]
      exact record_done h hquiet (hrise _ (by simp [Outcome.rise, hr]))
    | none =>
      simp only [Outcome.top, hr]
      rcases final_mem (.own (o.mse c)) (o.rise up path lo hi) with heq | hmem
      · rwa [heq]
      · exact hrise _ hmem
  refine ⟨htop, fun t ht => ?_⟩
  rcases List.mem_append.mp ht with ht | ht
  · exact hrise t ht
  · have hedges : ∀ x ∈ chain (o.top up path lo hi (o.mse c)) (o.fall path hi),
        x ∈ o.pathEdges up path lo hi (o.mse c) endEv := by
      intro x hx
      rw [Outcome.pathEdges, chain_append]
      exact List.mem_append_right _ (List.mem_append_left _ hx)
    refine h.chain_done hquiet (fun x hx => hsub x (hedges x hx)) (fun x hx => ?_) htop ht
    exact honly x (hedges x hx) (hne x.2 (List.mem_append_right _ (mem_of_mem_chain hx)))

omit [DecidableEq ρ] in
/-- The end of a path comes after its other events only. -/
theorem ne_endEv {lo hi : ℕ} {endEv : TimingEvent} (hend : 3 < endEv.kind.level turns) {t : Node ρ}
    (ht : t ∈ o.rise up path lo hi ++ o.fall path hi) : t ≠ .own endEv := by
  have hlevels := (@path_levels ρ o up turns path lo hi (missStartEvent 0 0) endEv rfl hend).of_cons
  rw [← List.append_assoc] at hlevels
  have hlt := (List.pairwise_append.mp hlevels).2.2 t ht (.own endEv) List.mem_cons_self
  exact ne_of_apply_ne (Node.level turns) hlt.ne

omit [DecidableEq ρ] in
/-- What leads to the end of a path is done where nothing can move. -/
theorem path_last {lo hi : ℕ} {endEv : TimingEvent} (hend : 3 < endEv.kind.level turns)
    (htop : s.status (o.top up path lo hi (o.mse c)) = .done)
    (hdone : ∀ t ∈ o.rise up path lo hi ++ o.fall path hi, s.status t = .done) {p : Node ρ}
    (hp : (p, .own endEv) ∈ o.pathEdges up path lo hi (o.mse c) endEv) : s.status p = .done := by
  rw [Outcome.pathEdges, chain_append] at hp
  rcases List.mem_append.mp hp with hrise | hfall
  · exact absurd rfl (ne_endEv hend (List.mem_append_left _ (mem_of_mem_chain hrise)))
  · rcases List.mem_append.mp hfall with hfall | hlast
    · exact absurd rfl (@ne_endEv _ o up turns path lo hi _ hend _ (List.mem_append_right _ (mem_of_mem_chain hfall)))
    · have hfinal : p = final (o.top up path lo hi (o.mse c)) (o.fall path hi) :=
        congrArg Prod.fst (List.mem_singleton.mp hlast)
      rw [hfinal]
      rcases final_mem (o.top up path lo hi (o.mse c)) (o.fall path hi) with heq | hmem
      · rwa [heq]
      · exact hdone _ (List.mem_append_right _ hmem)

/-- All events of a miss are done where nothing can move. -/
theorem miss_done (h : Inv ((o.miss c up turns).graph up) (.own (o.mse c)) c₀ s) (hquiet : Quiet s)
    {ev : TimingEvent} (hev : ev ∈ (o.miss c up turns).events) : s.status (.own ev) = .done := by
  have hmse := hquiet.done h.root_status
  have hmwe : 3 < (o.mwe c).kind.level turns := Nat.lt_of_lt_of_le (by decide : 3 < 5) (Nat.le_add_left ..)
  have hresp : 3 < o.mre.kind.level turns := (by decide : 3 < 4)
  obtain ⟨hgetTop, hget⟩ := path_done h hquiet getEdges_sub
    (fun x hx hne p hp => only_parent (b := .path .get) hx (fun heq => by
      rcases branch_pathEdges hx with hbranch | hend
      · rw [heq] at hbranch
        cases hbranch
      · exact hne hend) hp)
    (fun t ht => ne_endEv hresp ht) hmse
  have heviction : o.evDoneCycle ≠ 0 →
      s.status (o.top up .eviction (o.lookupCycle c) o.evDoneCycle (o.mse c)) = .done ∧
        ∀ t ∈ o.rise up .eviction (o.lookupCycle c) o.evDoneCycle ++ o.fall .eviction o.evDoneCycle,
          s.status t = .done := by
    intro hne
    refine path_done h hquiet (evictionEdges_sub hne) (fun x hx hend p hp => ?_)
      (fun t ht => ne_endEv hmwe ht) hmse
    have hbranch : x ∈ o.branchEdges c up turns (.path .eviction) := by
      simp only [Outcome.branchEdges, Outcome.evictionEdges, if_pos hne]
      exact hx
    exact only_parent hbranch hend hp
  have hwalk : ∀ ev ∈ o.walk c turns, s.status (.own ev) = .done := by
    intro ev hev
    have hbuilt : o.evDoneCycle ≠ 0 ∧ c.ways < c.cands := by
      by_contra hnot
      rw [Outcome.walk, if_neg hnot] at hev
      cases hev
    have hedges : ∀ x ∈ chain (.own (o.mse c)) ((o.walk c turns).map (.own : TimingEvent → Node ρ)),
        x ∈ o.branchEdges c up turns .walk := by
      intro x hx
      simp only [Outcome.branchEdges, Outcome.walkEdges, if_pos hbuilt, chain_append]
      exact List.mem_append_left _ hx
    refine h.chain_done hquiet (fun x hx => edge_of_branchEdges (hedges x hx))
      (fun x hx p hp => only_parent (hedges x hx) (fun heq => ?_) hp) hmse (List.mem_map_of_mem hev)
    obtain ⟨ev', hev', heq'⟩ := List.mem_map.mp (mem_of_mem_chain hx)
    have hbranch := branch_walk hev'
    rw [← heq'] at heq
    cases heq
    cases hbranch
  have hmre : s.status (.own o.mre) = .done := by
    have hlast : (final (o.top up .get (o.lookupCycle c) o.getDoneCycle (o.mse c)) (o.fall .get o.getDoneCycle),
        .own o.mre) ∈ o.pathEdges up .get (o.lookupCycle c) o.getDoneCycle (o.mse c) o.mre := by
      rw [Outcome.pathEdges, chain_append]
      exact List.mem_append_right _ (List.mem_append_right _ List.mem_cons_self)
    refine h.done_of_parents hquiet (getEdges_sub _ hlast) fun p hp => ?_
    rw [only_parent (b := .path .get) hlast (fun heq => by cases heq) hp]
    exact path_last hresp hgetTop hget hlast
  simp only [Outcome.miss, List.mem_append, List.mem_cons, List.not_mem_nil, or_false] at hev
  rcases hev with (((rfl | rfl | rfl) | hdelay) | hdelay) | hev
  · exact hmse
  · exact hmre
  · -- the writeback waits for the response, the eviction and the replacement
    refine h.done_of_parents hquiet join_edge fun p hp => ?_
    rcases miss_edge hp with ⟨b, hb⟩ | ⟨x, y, -, -, heq⟩
    · cases b with
      | path path =>
        cases path with
        | get =>
          rcases branch_pathEdges hb with hbranch | hend
          · cases hbranch
          · cases hend
        | eviction =>
          simp only [Outcome.branchEdges, Outcome.evictionEdges] at hb
          split at hb
          · next hne => exact path_last hmwe (heviction hne).1 (heviction hne).2 hb
          · cases hb
      | walk =>
        simp only [Outcome.branchEdges, Outcome.walkEdges] at hb
        split at hb
        · rw [chain_append] at hb
          rcases List.mem_append.mp hb with hin | hlast
          · obtain ⟨ev', hev', heq⟩ := List.mem_map.mp (mem_of_mem_chain hin)
            have hbranch := branch_walk hev'
            cases heq
            cases hbranch
          · have hfinal : p = final (.own (o.mse c)) ((o.walk c turns).map .own) :=
              congrArg Prod.fst (List.mem_singleton.mp hlast)
            rw [hfinal]
            rcases final_mem (.own (o.mse c) : Node ρ) ((o.walk c turns).map .own) with heq | hmem
            · rwa [heq]
            · obtain ⟨ev', hev', heq⟩ := List.mem_map.mp hmem
              rw [← heq]
              exact hwalk ev' hev'
        · cases hb
      | join =>
        have hfirst : p = .own o.mre := congrArg Prod.fst (List.mem_singleton.mp hb)
        rw [hfirst]
        exact hmre
      | root => cases hb
      | above => cases hb
    · cases heq
  · exact hget _ (delays_mem hdelay)
  · split at hdelay
    · next hne => exact (heviction hne).2 _ (delays_mem hdelay)
    · cases hdelay
  · exact hwalk ev hev

end Ends

end Miss

section Hit

variable {ρ : Type} {o : Outcome} {up : Parents ρ} {c₀ : ℕ} {s : Execution (Node ρ)}

/-- The event of a hit. -/
def Outcome.hitOf (o : Outcome) : TimingEvent := hitEvent (o.respCycle - o.reqCycle) o.reqCycle

/-- What a hit leaves. -/
def Outcome.hit (o : Outcome) : Recorded ρ where
  events := [o.hitOf]
  edges := []
  startEvent := o.hitOf
  endEvent := o.hitOf

theorem hit_edge {p t : Node ρ} (h : ((o.hit : Recorded ρ).graph up).Edge p t) :
    ∃ x y, up.graph.Edge x y ∧ p = .above x ∧ t = .above y := by
  obtain ⟨x, hx, heq⟩ := List.mem_map.mp h
  exact ⟨x.1, x.2, hx, (congrArg Prod.fst heq).symm, (congrArg Prod.snd heq).symm⟩

theorem hit_acyclic : ((o.hit : Recorded ρ).graph up).Acyclic := by
  intro e he
  obtain ⟨x, y, hxy, hx, hy⟩ := transGen_above (fun _ _ => hit_edge) he
  cases hx.symm.trans hy
  exact up.acyclic x hxy

theorem hit_root (p : Node ρ) : ¬ ((o.hit : Recorded ρ).graph up).Edge p (.own o.hitOf) := by
  intro hedge
  obtain ⟨x, y, -, -, heq⟩ := hit_edge hedge
  cases heq

theorem latency_hit (hresp : o.respCycle - o.reqCycle < 2 ^ 32) :
    ((o.hit : Recorded ρ).graph up).latency (.own o.hitOf) = o.respCycle - o.reqCycle := by
  have hnat : (UInt32.ofNat (o.respCycle - o.reqCycle)).toNat = o.respCycle - o.reqCycle :=
    UInt32.toNat_ofNat_of_lt hresp
  simp [Graph.latency, Recorded.graph, Outcome.hitOf, hitEvent, hnat]

end Hit

section Promise

variable {ρ : Type} [DecidableEq ρ]

/-- What an execution of the events of an access keeps of the bound phase. -/
structure Recorded.Repeats (b : Recorded ρ) (o : Outcome) (up : Parents ρ) (c₀ : ℕ) (s : Execution (Node ρ)) :
    Prop where
  /-- The record of the access lasts at least as long as it says, if those of the parents do. -/
  lasts : up.Keep o (b.graph up) s →
    Lasts (b.graph up) s (.own b.startEvent) (.own b.endEvent) (o.respCycle - o.reqCycle)
  exactly : up.KeepExactly o (b.graph up) s → AllPrompt (b.graph up) s →
    LastsExactly (b.graph up) s (.own b.startEvent) (.own b.endEvent) (o.respCycle - o.reqCycle)
  /-- No event starts before its earliest cycle. -/
  minStart : up.Keep o (b.graph up) s → o.reqCycle ≤ c₀ →
    ∀ ev ∈ b.events, s.status (.own ev) ≠ .waiting → ev.minStartCycle ≤ (b.graph up).start s (.own ev)
  /-- No record of the parents starts before its request. -/
  records : o.reqCycle ≤ c₀ → ∀ path r, o.record path = some r →
    s.status (.above (up.startEvent path)) ≠ .waiting → r.reqCycle ≤ s.cycle (.above (up.startEvent path))
  /-- All events have run when nothing can move. -/
  done : Quiet s → ∀ ev ∈ b.events, s.status (.own ev) = .done

variable {c : TimingCache} {o : Outcome} {up : Parents ρ} {turns c₀ : ℕ} {s : Execution (Node ρ)}

theorem miss_repeats (ho : o.Valid c) (hfits : o.Fits c) (hresp : o.getDoneCycle = o.respCycle)
    (h : Inv ((o.miss c up turns).graph up) (.own (o.mse c)) c₀ s) : (o.miss c up turns).Repeats o up c₀ s := by
  constructor
  · intro hkeep hdone
    have htold := response_told ho hfits h hkeep fun heq => by cases heq.symm.trans hdone
    have hlatency := h.latency_le hdone
    change s.cycle (.own (o.mse c)) + (o.respCycle - o.reqCycle) ≤ _
    rw [h.root_cycle, ← hresp]
    exact htold.trans ((Nat.le_add_right ..).trans hlatency)
  · intro hkeep hprompt hdone
    have htold := response_told_eq ho hfits h hkeep hprompt fun heq => by cases heq.symm.trans hdone
    have hcompletion := (hprompt.done _ hdone).completion_eq
    rw [hcompletion]
    change s.cycle (.own o.mre) + 0 = s.cycle (.own (o.mse c)) + (o.respCycle - o.reqCycle)
    rw [Nat.add_zero, htold, h.root_cycle, ← hresp]
  · intro hkeep hstart ev hev hstatus
    exact (miss_minStart ho hfits h hkeep hstart hev hstatus).trans (Nat.le_add_right ..)
  · exact fun hstart path r hr hstatus => miss_records ho hfits h hstart hr hstatus
  · exact fun hquiet ev hev => miss_done h hquiet hev

theorem hit_repeats (hresp : o.respCycle - o.reqCycle < 2 ^ 32) (hget : o.accessRecord = none)
    (heviction : o.writebackRecord = none) (h : Inv ((o.hit : Recorded ρ).graph up) (.own o.hitOf) c₀ s) :
    (o.hit : Recorded ρ).Repeats o up c₀ s := by
  have hlatency : ((o.hit : Recorded ρ).graph up).latency (.own o.hitOf) = o.respCycle - o.reqCycle := latency_hit hresp
  have hone : ∀ ev ∈ (o.hit : Recorded ρ).events, ev = o.hitOf := fun ev hev => List.mem_singleton.mp hev
  constructor
  · intro _ hdone
    exact hlatency ▸ h.latency_le hdone
  · intro _ hprompt hdone
    exact hlatency ▸ (hprompt.done _ hdone).completion_eq
  · intro _ hstart ev hev _
    rw [hone ev hev, Graph.start, h.root_cycle]
    exact hstart.trans (Nat.le_add_right ..)
  · intro _ path r hr
    cases path with
    | get => cases hget.symm.trans hr
    | eviction => cases heviction.symm.trans hr
  · intro hquiet ev hev
    rw [hone ev hev]
    exact hquiet.done h.root_status

/-- What the assertions of an access say of its outcome. -/
structure Outcome.Asserted (c : TimingCache) (o : Outcome) : Prop where
  hit : o.getDoneCycle = o.lookupCycle c → o.accessRecord = none ∧ o.writebackRecord = none
  miss : o.getDoneCycle ≠ o.lookupCycle c → o.getDoneCycle = o.respCycle

/-- The events of an access form an acyclic graph below its start. In every execution of them the end completes no
earlier than the bound phase has promised, and exactly then if nothing is held up, the parents' records doing the same,
and no event starts too early. There is an execution in which nothing is held up, and it ends. -/
theorem access_repeats (c : TimingCache) (o : Outcome) (up : Parents ρ) (hways : 2 ≤ c.ways.toNat)
    (hcands : c.cands.toNat + c.ways.toNat ≤ 2 ^ 32) (ho : o.Valid c) (hasserted : o.Asserted c) (hfits : o.Fits c) :
    ∃ b : Recorded ρ, c.access o up = some b ∧ (b.graph up).Acyclic ∧
      (∀ ev ∈ b.events, ReflTransGen (b.graph up).Edge (.own b.startEvent) (.own ev)) ∧
      (∀ c₀ ms s, run (b.graph up).step ((b.graph up).init (.own b.startEvent) c₀) ms = some s →
        b.Repeats o up c₀ s) ∧
      ∀ c₀, ∃ ms s, run (b.graph up).step ((b.graph up).init (.own b.startEvent) c₀) ms = some s ∧ Quiet s ∧
        AllPrompt (b.graph up) s := by
  by_cases hhit : o.getDoneCycle = o.lookupCycle c
  · obtain ⟨hget, heviction⟩ := hasserted.hit hhit
    refine ⟨o.hit, ?_, hit_acyclic, fun ev hev => ?_, fun c₀ ms s hrun => ?_, fun c₀ => ?_⟩
    · have hcycles : o.getDoneCycle - o.reqCycle = c.accLat.toNat := by
        rw [hhit, Outcome.lookupCycle]
        omega
      rw [TimingCache.access, if_pos hcycles, hget, heviction]
      rfl
    · rw [List.mem_singleton.mp hev]
      exact .refl
    · exact hit_repeats hfits.resp hget heviction (inv_run hit_root hrun)
    · exact (inv_init hit_root).exists_prompt_run allPrompt_init
  · have hresp := hasserted.miss hhit
    have hturns : ∃ turns, o.evDoneCycle ≠ 0 → c.ways < c.cands → c.Turns turns := by
      by_cases hmore : c.ways < c.cands
      · obtain ⟨turns, hturns⟩ := exists_turns_of_le hways hmore hcands
        exact ⟨turns, fun _ _ => hturns⟩
      · exact ⟨0, fun _ hlt => absurd hlt hmore⟩
    obtain ⟨turns, hturns⟩ := hturns
    refine ⟨o.miss c up turns, access_miss hways ho hhit hresp hturns, miss_acyclic, fun ev hev => miss_reaches hev,
      fun c₀ ms s hrun => ?_, fun c₀ => ?_⟩
    · exact miss_repeats ho hfits hresp (inv_run miss_root hrun)
    · exact (inv_init miss_root).exists_prompt_run allPrompt_init

/-- Parents that leave one event for each record. -/
def Parents.single (latency : Path → ℕ) : Parents Path where
  graph := ⟨[], fun _ => 0, fun _ => 0, latency, fun _ => false⟩
  startEvent := id
  endEvent := id
  acyclic e he := by
    rcases he with hedge | ⟨-, hedge⟩
    · cases hedge
    · cases hedge
  start_ne := by decide
  first path x hx := by cases hx
  reaches path := .refl
  only path x hx _ := by
    rcases ReflTransGen.cases_head hx with heq | ⟨b, hb, -⟩
    · exact heq
    · cases hb

/-- A miss of a cache with four ways and a replacement walk, whose parent has answered within 15 cycles. -/
theorem access_repeats_walk : ∃ b : Recorded Path,
    TimingCache.access ⟨4, 2, 4, 16⟩ ⟨10, 30, 40, 40, none, some ⟨20, 35, by decide⟩⟩ (Parents.single fun _ => 15) = some b ∧
      ∀ c₀ ms s, run (b.graph (Parents.single fun _ => 15)).step
        ((b.graph (Parents.single fun _ => 15)).init (.own b.startEvent) c₀) ms = some s →
        b.Repeats ⟨10, 30, 40, 40, none, some ⟨20, 35, by decide⟩⟩ (Parents.single fun _ => 15) c₀ s := by
  obtain ⟨b, haccess, -, -, hruns, -⟩ := access_repeats ⟨4, 2, 4, 16⟩
    ⟨10, 30, 40, 40, none, some ⟨20, 35, by decide⟩⟩ (Parents.single fun _ => 15) (by decide) (by decide)
    { get := by decide
      resp := by decide
      eviction := fun _ => by decide
      access := fun r hr => by rw [← Option.some.inj hr]; decide
      writeback := fun _ r hr => by cases hr }
    { hit := fun heq => absurd heq (by decide)
      miss := fun _ => rfl }
    { get := by decide
      eviction := by decide
      resp := by decide }
  exact ⟨b, haccess, hruns⟩

end Promise

end Zsim.CacheEventGraphs
