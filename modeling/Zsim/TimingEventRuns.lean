import Mathlib.Data.List.Count
import Mathlib.Logic.Relation
import Zsim.TimedGraphs
import Zsim.TimingEvents

/-!
# Runs of timing events

However the events of a domain are built and run, no assertion of theirs fails, each runs and is freed once at most, and
none is told anything after it was freed. An event with parents starts its delay after the last of them has completed.
-/

namespace Zsim.TimingEvents

open GuardedRuns

variable {ν : Type} [DecidableEq ν]

/-- The cycle that a call tells an event. -/
def Call.told (b : ν) : Call ν → Option ℕ
  | .parentDone ev startCycle => if ev = b then some startCycle else none
  | .freeEvent _ => none

/-- What the open calls still tell an event. -/
def pending (calls : List (Call ν)) (b : ν) : List ℕ := calls.filterMap (Call.told b)

/-- The children of an event, as they were added. -/
def childrenOf (edges : List (ν × ν)) (p : ν) : List ν := (edges.filter (·.1 = p)).map Prod.snd

/-- The parents of an event that are not done. -/
def openParents (edges : List (ν × ν)) (finish : ν → Option ℕ) (b : ν) : ℕ :=
  edges.countP fun x => x.2 = b ∧ finish x.1 = none

def HasParent (edges : List (ν × ν)) (b : ν) : Prop := ∃ p, (p, b) ∈ edges

/-- A parent of the event has completed in this cycle. -/
def Completes (s : Sim ν) (b : ν) (cycle : ℕ) : Prop :=
  ∃ p f, (p, b) ∈ s.edges ∧ s.finish p = some f ∧ cycle = f + (s.event p).postDelay

/-- What the state of an event says of it. -/
structure Life (e : TimingEvent ν) (queued start finish : Option ℕ) (hasParent : Prop) : Prop where
  new : e.state = .none → queued = none ∧ start = none ∧ finish = none
  started : e.state ≠ .none → e.numParents = 0 ∧ ∃ c, start = some c ∧ (hasParent → c = e.cycle + e.preDelay)
  queued : e.state = .queued ↔ queued ≠ none
  finished : e.state = .done ↔ finish ≠ none
  delays : e.delays = true → (e.state = .none ∨ e.state = .done) ∧ finish = start

/-- What the open calls and the events say of each other. -/
structure Inv (s : Sim ν) : Prop where
  children : ∀ p, s.finish p = none → (s.event p).childList.Holds (childrenOf s.edges p)
  counted : ∀ b, (s.event b).numParents = openParents s.edges s.finish b + (pending s.calls b).length
  told : ∀ b c, .parentDone b c ∈ s.calls → Completes s b c
  covered : ∀ b c, Completes s b c → c ≤ (s.event b).cycle ∨ .parentDone b c ∈ s.calls
  reached : ∀ b, (s.event b).cycle = 0 ∨ Completes s b (s.event b).cycle
  life : ∀ b, Life (s.event b) (s.queued b) (s.start b) (s.finish b) (HasParent s.edges b)
  freed : ∀ b, s.frees b + s.calls.count (.freeEvent b) = if s.finish b = none then 0 else 1

/-- An event whose parents are done has started. -/
def Settled (s : Sim ν) : Prop := ∀ b, HasParent s.edges b → (s.event b).state = .none → (s.event b).numParents ≠ 0

section Updates

variable {s : Sim ν} {ev b : ν} {e : TimingEvent ν} {c : ℕ}

@[simp] theorem set_event_self : (s.set ev e).event ev = e := Function.update_self ..

theorem set_event_of_ne (hb : b ≠ ev) : (s.set ev e).event b = s.event b := Function.update_of_ne hb ..

/-- What does not depend on the state of an event stays where only that changes. -/
theorem setState_event {α : Type} (f : TimingEvent ν → α) (hf : ∀ e state, f { e with state := state } = f e)
    (state : EventState) (b : ν) : f ((s.setState ev state).event b) = f (s.event b) := by
  by_cases hb : b = ev
  · rw [hb, Sim.setState, set_event_self, hf]
  · rw [Sim.setState, set_event_of_ne hb]

theorem pending_cons (call : Call ν) (calls : List (Call ν)) (b : ν) :
    pending (call :: calls) b = (call.told b).toList ++ pending calls b := by
  rw [pending, List.filterMap_cons]
  cases call.told b <;> rfl

theorem pending_append (cs ds : List (Call ν)) (b : ν) : pending (cs ++ ds) b = pending cs b ++ pending ds b :=
  List.filterMap_append ..

theorem mem_pending {calls : List (Call ν)} : c ∈ pending calls b ↔ .parentDone b c ∈ calls := by
  rw [pending, List.mem_filterMap]
  constructor
  · rintro ⟨call, hcall, htold⟩
    cases call with
    | parentDone ev startCycle =>
      rw [Call.told, Option.ite_none_right_eq_some] at htold
      rwa [← htold.1, ← Option.some.inj htold.2]
    | freeEvent ev => cases htold
  · exact fun hcall => ⟨_, hcall, if_pos rfl⟩

/-- Tells for an event, one for each time that it is a child. -/
theorem pending_tells (evs : List ν) (b : ν) :
    (pending (evs.map fun ev => .parentDone ev c) b).length = evs.count b := by
  induction evs with
  | nil => rfl
  | cons ev evs ih =>
    rw [List.map_cons, pending_cons, List.length_append, ih, List.count_cons, Call.told]
    by_cases hev : ev = b
    · simp [hev]
      omega
    · simp [hev]

theorem count_childrenOf (edges : List (ν × ν)) (p b : ν) : (childrenOf edges p).count b = edges.count (p, b) := by
  induction edges with
  | nil => rfl
  | cons x edges ih =>
    obtain ⟨q, d⟩ := x
    rw [childrenOf, List.filter_cons, List.count_cons, ← ih]
    by_cases hq : q = p
    · simp [hq, childrenOf, List.count_cons]
    · simp [hq, childrenOf]

/-- An event that is done is missing no more as a parent. -/
theorem openParents_finish (edges : List (ν × ν)) {finish : ν → Option ℕ} (hev : finish ev = none) (b : ν) :
    openParents edges finish b = openParents edges (Function.update finish ev (some c)) b + edges.count (ev, b) := by
  simp only [openParents]
  induction edges with
  | nil => rfl
  | cons x edges ih =>
    obtain ⟨p, d⟩ := x
    rw [List.countP_cons, List.countP_cons, List.count_cons, ih]
    by_cases hp : p = ev
    · by_cases hd : d = b
      · simp [hp, hd, hev]
        omega
      · simp [hd]
    · simp [hp]
      omega

end Updates

section Steps

variable {s s' : Sim ν} {ev b : ν} {c : ℕ}

omit [DecidableEq ν] in
/-- Completions depend on the edges, on the events that are done, and on the delays. -/
theorem completes_congr {t : Sim ν} (hedges : t.edges = s.edges) (hfinish : t.finish = s.finish)
    (hpost : ∀ p, (t.event p).postDelay = (s.event p).postDelay) (b : ν) (c : ℕ) :
    Completes t b c ↔ Completes s b c := by
  simp only [Completes, hedges, hfinish, hpost]

theorem inv_init (timing : ν → Timing) : Inv (Sim.init timing) where
  children _ _ := ChildList.holds_empty
  counted _ := rfl
  told _ _ hcall := by cases hcall
  covered _ _ hcomp := by
    obtain ⟨p, f, hedge, -⟩ := hcomp
    cases hedge
  reached _ := .inl rfl
  life _ := {
    new := fun _ => ⟨rfl, rfl, rfl⟩
    started := fun hne => absurd rfl hne
    queued := iff_of_false (fun heq => by cases heq) fun hne => hne rfl
    finished := iff_of_false (fun heq => by cases heq) fun hne => hne rfl
    delays := fun _ => ⟨.inl rfl, rfl⟩ }
  freed _ := rfl

omit [DecidableEq ν] in
theorem settled_init (timing : ν → Timing) : Settled (Sim.init timing) := by
  intro b hparent
  obtain ⟨p, hedge⟩ := hparent
  cases hedge

/-- One event changes its state, its cycle in the queue, and its start. -/
theorem Inv.mark (h : Inv s) {state : EventState} {queued : ν → Option ℕ} (start : ν → Option ℕ)
    (hqueued : ∀ b, b ≠ ev → queued b = s.queued b) (hstart : ∀ b, b ≠ ev → start b = s.start b)
    (hlife : Life { s.event ev with state := state } (queued ev) (start ev) (s.finish ev) (HasParent s.edges ev)) :
    Inv { s.setState ev state with queued := queued, start := start } := by
  have hcomp := completes_congr (s := s) (t := { s.setState ev state with queued := queued, start := start }) rfl rfl
    (setState_event (·.postDelay) (fun _ _ => rfl) state)
  constructor
  · intro p hp
    exact (setState_event (·.childList) (fun _ _ => rfl) state p).symm ▸ h.children p hp
  · intro b
    exact (setState_event (·.numParents) (fun _ _ => rfl) state b).trans (h.counted b)
  · exact fun b c hcall => (hcomp b c).mpr (h.told b c hcall)
  · intro b c hc
    exact (setState_event (·.cycle) (fun _ _ => rfl) state b).symm ▸ h.covered b c ((hcomp b c).mp hc)
  · intro b
    have hcycle : ((s.setState ev state).event b).cycle = (s.event b).cycle :=
      setState_event (·.cycle) (fun _ _ => rfl) state b
    exact (h.reached b).imp hcycle.trans fun hc => (hcomp b _).mpr (hcycle.symm ▸ hc)
  · intro b
    change Life ((s.set ev _).event b) (queued b) (start b) (s.finish b) (HasParent s.edges b)
    by_cases hb : b = ev
    · rw [hb, set_event_self]
      exact hlife
    · rw [set_event_of_ne hb, hqueued b hb, hstart b hb]
      exact h.life b
  · exact h.freed

/-- The first half of `parentDone`: the event counts the parent and takes its cycle. -/
theorem Inv.tell (h : Inv s) {calls : List (Call ν)} (hcalls : s.calls = .parentDone ev c :: calls) :
    (s.event ev).state = .none ∧ HasParent s.edges ev ∧ (s.event ev).numParents ≠ 0 ∧ s.frees ev = 0 ∧
      Inv ({ s with calls := calls }.set ev ((s.event ev).told c)) := by
  have hpending : ∀ b, (pending s.calls b).length = (if b = ev then 1 else 0) + (pending calls b).length := by
    intro b
    rw [hcalls, pending_cons, List.length_append, Call.told]
    by_cases hb : b = ev
    · simp [hb]
    · simp [hb, Ne.symm hb]
  have hcounted := h.counted ev
  rw [hpending, if_pos rfl] at hcounted
  have hstate : (s.event ev).state = .none := by
    by_contra hne
    have hzero := ((h.life ev).started hne).1
    omega
  have hnew := (h.life ev).new hstate
  have htold : Completes s ev c := h.told ev c (hcalls ▸ List.mem_cons_self)
  have hfrees : s.frees ev = 0 := by
    have hfreed := h.freed ev
    rw [if_pos hnew.2.2] at hfreed
    omega
  refine ⟨hstate, htold.imp fun p hp => hp.choose_spec.1, by omega, hfrees, ?_⟩
  have hpost : ∀ p, (({ s with calls := calls }.set ev ((s.event ev).told c)).event p).postDelay =
      (s.event p).postDelay := by
    intro p
    by_cases hp : p = ev
    · rw [hp, set_event_self]
      rfl
    · rw [set_event_of_ne hp]
  have hcomp := completes_congr (s := s) (t := { s with calls := calls }.set ev ((s.event ev).told c)) rfl rfl hpost
  constructor
  · intro p hp
    by_cases hpe : p = ev
    · rw [hpe, set_event_self]
      exact hpe ▸ h.children p hp
    · rw [set_event_of_ne hpe]
      exact h.children p hp
  · intro b
    have hb := h.counted b
    rw [hpending] at hb
    by_cases hbe : b = ev
    · rw [hbe, set_event_self]
      change (s.event ev).numParents - 1 = openParents s.edges s.finish ev + (pending calls ev).length
      omega
    · rw [if_neg hbe, Nat.zero_add] at hb
      rw [set_event_of_ne hbe]
      exact hb
  · exact fun b d hcall => (hcomp b d).mpr (h.told b d (hcalls ▸ List.mem_cons_of_mem _ hcall))
  · intro b d hd
    have hcov := h.covered b d ((hcomp b d).mp hd)
    rw [hcalls] at hcov
    by_cases hbe : b = ev
    · rw [hbe, set_event_self]
      rw [hbe] at hcov
      rcases hcov with hle | hcall
      · exact .inl (hle.trans (le_max_left ..))
      · rcases List.mem_cons.mp hcall with heq | hcall
        · cases heq
          exact .inl (le_max_right ..)
        · exact .inr hcall
    · rw [set_event_of_ne hbe]
      refine hcov.imp_right fun hcall => (List.mem_cons.mp hcall).resolve_left fun heq => ?_
      cases heq
      exact hbe rfl
  · intro b
    by_cases hbe : b = ev
    · rw [hbe, set_event_self]
      rcases le_total (s.event ev).cycle c with hle | hle
      · have hmax : ((s.event ev).told c).cycle = c := max_eq_right hle
        exact .inr ((hcomp ev _).mpr (hmax.symm ▸ htold))
      · have hmax : ((s.event ev).told c).cycle = (s.event ev).cycle := max_eq_left hle
        exact (h.reached ev).imp hmax.trans fun hc => (hcomp ev _).mpr (hmax.symm ▸ hc)
    · rw [set_event_of_ne hbe]
      exact (h.reached b).imp_right (hcomp b _).mpr
  · intro b
    change Life ((({ s with calls := calls } : Sim ν).set ev ((s.event ev).told c)).event b) (s.queued b) (s.start b) (s.finish b)
      (HasParent s.edges b)
    by_cases hbe : b = ev
    · rw [hbe, set_event_self]
      have hlife := h.life ev
      exact {
        new := fun _ => hnew
        started := fun hne => absurd hstate hne
        queued := hlife.queued
        finished := hlife.finished
        delays := hlife.delays }
    · rw [set_event_of_ne hbe]
      exact h.life b
  · intro b
    have hfreed := h.freed b
    rwa [hcalls, List.count_cons_of_ne (by simp)] at hfreed

/-- An event that is done, with the calls that tell its children and free it. -/
theorem Inv.finish (h : Inv s) {children : List ν} {d : ℕ} (start : ν → Option ℕ) (hfinish : s.finish ev = none)
    (hparents : (s.event ev).numParents = 0) (hqueued : s.queued ev = none)
    (hvisit : (s.event ev).childList.visit = some children) (hstart : ∀ b, b ≠ ev → start b = s.start b)
    (hself : ∃ c, start ev = some c ∧ (HasParent s.edges ev → c = (s.event ev).cycle + (s.event ev).preDelay))
    (hdelays : (s.event ev).delays = true → start ev = some d) :
    Inv { s.setState ev .done with
      calls := children.map (.parentDone · (d + (s.event ev).postDelay)) ++ .freeEvent ev :: s.calls
      start := start
      finish := Function.update s.finish ev (some d) } := by
  obtain ⟨visited, hvisited, hperm⟩ := (h.children ev hfinish).visit
  rw [hvisit] at hvisited
  rw [← Option.some.inj hvisited] at hperm
  have hedge : ∀ b, b ∈ children ↔ (ev, b) ∈ s.edges := by
    intro b
    rw [hperm.mem_iff, ← List.count_pos_iff, count_childrenOf, List.count_pos_iff]
  have hother : ∀ {p f}, s.finish p = some f → p ≠ ev := by
    intro p f hp heq
    rw [heq, hfinish] at hp
    cases hp
  generalize hs' : ({ s.setState ev .done with
    calls := children.map (.parentDone · (d + (s.event ev).postDelay)) ++ .freeEvent ev :: s.calls
    start := start
    finish := Function.update s.finish ev (some d) } : Sim ν) = s'
  have hevent : s'.event = (s.setState ev .done).event := by rw [← hs']
  have hcalls : s'.calls = children.map (.parentDone · (d + (s.event ev).postDelay)) ++ .freeEvent ev :: s.calls := by
    rw [← hs']
  have hedges : s'.edges = s.edges := by
    rw [← hs']
    rfl
  have hfinish' : s'.finish = Function.update s.finish ev (some d) := by rw [← hs']
  have hcomp : ∀ b c, Completes s' b c ↔ Completes s b c ∨ (ev, b) ∈ s.edges ∧ c = d + (s.event ev).postDelay := by
    intro b c
    have hpost : ∀ p, (s'.event p).postDelay = (s.event p).postDelay := by
      rw [hevent]
      exact setState_event (·.postDelay) (fun _ _ => rfl) .done
    simp only [Completes, hedges, hfinish', hpost]
    constructor
    · rintro ⟨p, f, hp, hf, hc⟩
      by_cases hpe : p = ev
      · rw [hpe, Function.update_self] at hf
        rw [hpe] at hp hc
        exact .inr ⟨hp, Option.some.inj hf ▸ hc⟩
      · rw [Function.update_of_ne hpe] at hf
        exact .inl ⟨p, f, hp, hf, hc⟩
    · rintro (⟨p, f, hp, hf, hc⟩ | ⟨hp, hc⟩)
      · exact ⟨p, f, hp, (Function.update_of_ne (hother hf) ..).trans hf, hc⟩
      · exact ⟨ev, d, hp, Function.update_self .., hc⟩
  have hmem : ∀ b c, Call.parentDone b c ∈ s'.calls ↔
      ((ev, b) ∈ s.edges ∧ c = d + (s.event ev).postDelay) ∨ .parentDone b c ∈ s.calls := by
    intro b c
    rw [hcalls, List.mem_append, List.mem_map, List.mem_cons]
    constructor
    · rintro (⟨b', hb', heq⟩ | heq | hcall)
      · cases heq
        exact .inl ⟨(hedge b).mp hb', rfl⟩
      · cases heq
      · exact .inr hcall
    · rintro (⟨hb, hc⟩ | hcall)
      · exact .inl ⟨b, (hedge b).mpr hb, by rw [hc]⟩
      · exact .inr (.inr hcall)
  constructor
  · intro p hp
    rw [hfinish'] at hp
    have hpe : p ≠ ev := by
      rintro rfl
      rw [Function.update_self] at hp
      cases hp
    rw [Function.update_of_ne hpe] at hp
    rw [hevent, hedges, Sim.setState, set_event_of_ne hpe]
    exact h.children p hp
  · intro b
    have hcount := hperm.count_eq b
    rw [count_childrenOf] at hcount
    rw [hevent, hedges, hfinish', hcalls, pending_append, List.length_append, pending_tells, pending_cons,
      List.length_append, hcount]
    have hb := h.counted b
    have hopen := openParents_finish s.edges (c := d) hfinish b
    have hnum : ((s.setState ev .done).event b).numParents = (s.event b).numParents :=
      setState_event (·.numParents) (fun _ _ => rfl) .done b
    have hfree : ((Call.freeEvent ev : Call ν).told b).toList.length = 0 := rfl
    omega
  · intro b c hcall
    exact (hcomp b c).mpr (((hmem b c).mp hcall).symm.imp_left (h.told b c))
  · intro b c hc
    have hcycle : (s'.event b).cycle = (s.event b).cycle := by
      rw [hevent]
      exact setState_event (·.cycle) (fun _ _ => rfl) .done b
    rw [hcycle]
    rcases (hcomp b c).mp hc with hc | hc
    · exact (h.covered b c hc).imp_right fun hcall => (hmem b c).mpr (.inr hcall)
    · exact .inr ((hmem b c).mpr (.inl hc))
  · intro b
    have hcycle : (s'.event b).cycle = (s.event b).cycle := by
      rw [hevent]
      exact setState_event (·.cycle) (fun _ _ => rfl) .done b
    rw [hcycle]
    exact (h.reached b).imp_right fun hc => (hcomp b _).mpr (.inl hc)
  · intro b
    have hqueued' : s'.queued = s.queued := by
      rw [← hs']
      rfl
    have hstart' : s'.start = start := by rw [← hs']
    rw [hevent, hqueued', hstart', hfinish', hedges]
    by_cases hb : b = ev
    · rw [hb, Sim.setState, set_event_self, Function.update_self, hqueued]
      exact {
        new := by simp
        started := fun _ => ⟨hparents, hself⟩
        queued := iff_of_false (by simp) fun hne => hne rfl
        finished := iff_of_true rfl (by simp)
        delays := fun hd => ⟨.inr rfl, (hdelays hd).symm⟩ }
    · rw [Sim.setState, set_event_of_ne hb, hstart b hb, Function.update_of_ne hb]
      exact h.life b
  · intro b
    have hfrees : s'.frees = s.frees := by
      rw [← hs']
      rfl
    have htells : (children.map fun x => Call.parentDone x (d + (s.event ev).postDelay)).count (.freeEvent b) = 0 := by
      refine List.count_eq_zero_of_not_mem fun hmem => ?_
      obtain ⟨x, -, heq⟩ := List.mem_map.mp hmem
      cases heq
    have hb := h.freed b
    rw [hfrees, hcalls, hfinish', List.count_append, htells, List.count_cons]
    by_cases hbe : b = ev
    · rw [hbe, hfinish, if_pos rfl] at hb
      rw [hbe, Function.update_self]
      simp
      omega
    · rw [Function.update_of_ne hbe, ← hb]
      simp [Ne.symm hbe]

theorem Inv.not_queued (h : Inv s) (hev : (s.event ev).state ≠ .queued) : s.queued ev = none := by
  by_contra hne
  exact hev ((h.life ev).queued.mpr hne)

theorem Inv.not_done (h : Inv s) (hev : (s.event ev).state ≠ .done) : s.finish ev = none := by
  by_contra hne
  exact hev ((h.life ev).finished.mpr hne)

/-- `addChild` changes the children of the one event and the parents of the other. -/
theorem addChild_event {p : ν} (h : s.addChild ev p = some s') :
    (((s.event p).state = .none ∨ (s.event p).state = .queued) ∧ (s.event ev).state = .none) ∧
      ∃ childList, (s.event p).childList.add ev = some childList ∧
        (∀ b, s'.event b =
          { s.event b with
            childList := if b = p then childList else (s.event b).childList
            numParents := (s.event b).numParents + if b = ev then 1 else 0 }) ∧
        s'.edges = s.edges ++ [(p, ev)] ∧ s'.queued = s.queued ∧ s'.calls = s.calls ∧ s'.start = s.start ∧
        s'.finish = s.finish ∧ s'.frees = s.frees := by
  obtain ⟨hstates, hmap⟩ := Option.ite_none_right_eq_some.mp h
  obtain ⟨childList, hadd, heq⟩ := Option.map_eq_some_iff.mp hmap
  refine ⟨hstates, childList, hadd, fun b => ?_, ?_⟩
  · rw [← heq]
    dsimp only [Sim.set]
    by_cases hb : b = ev
    · rw [hb, Function.update_self]
      by_cases hp : ev = p
      · simp [hp]
      · simp [hp]
    · rw [Function.update_of_ne hb]
      by_cases hp : b = p
      · simp [hp, hp ▸ hb]
      · simp [hp, hb]
  · rw [← heq]
    exact ⟨rfl, rfl, rfl, rfl, rfl, rfl⟩

theorem Inv.addChild {p : ν} (h : Inv s) (hs : s.addChild ev p = some s') : Inv s' := by
  obtain ⟨⟨hp, hev⟩, childList, hadd, hevent, hedges, hqueued, hcalls, hstart, hfinish, hfrees⟩ := addChild_event hs
  have hpnone : s.finish p = none := h.not_done (by rcases hp with hp | hp <;> simp [hp])
  have hcomp : ∀ b c, Completes s' b c ↔ Completes s b c := by
    intro b c
    have hpost : ∀ q, (s'.event q).postDelay = (s.event q).postDelay := fun q => by rw [hevent]
    simp only [Completes, hedges, hfinish, hpost]
    constructor
    · rintro ⟨q, f, hq, hf, hc⟩
      rcases List.mem_append.mp hq with hq | hq
      · exact ⟨q, f, hq, hf, hc⟩
      · cases List.mem_singleton.mp hq
        rw [hpnone] at hf
        cases hf
    · rintro ⟨q, f, hq, hf, hc⟩
      exact ⟨q, f, List.mem_append_left _ hq, hf, hc⟩
  have hcycle : ∀ b, (s'.event b).cycle = (s.event b).cycle := fun b => by rw [hevent]
  constructor
  · intro q hq
    rw [hfinish] at hq
    rw [hevent, hedges, childrenOf, List.filter_append, List.map_append]
    by_cases hqp : q = p
    · obtain ⟨l, hl, hholds⟩ := (h.children p hpnone).add ev
      rw [hadd] at hl
      rw [hqp, if_pos rfl, Option.some.inj hl]
      simpa [childrenOf] using hholds
    · rw [if_neg hqp]
      simpa [Ne.symm hqp, childrenOf] using h.children q hq
  · intro b
    have hb := h.counted b
    rw [hevent, hedges, hfinish, hcalls]
    simp only [openParents, List.countP_append] at hb ⊢
    by_cases hbe : b = ev
    · simp [hbe, hpnone]
      rw [hbe] at hb
      simp at hb
      omega
    · simp [hbe, Ne.symm hbe]
      simpa using hb
  · exact fun b c hcall => (hcomp b c).mpr (h.told b c (hcalls ▸ hcall))
  · exact fun b c hc => by rw [hcycle, hcalls]; exact h.covered b c ((hcomp b c).mp hc)
  · exact fun b => by rw [hcycle]; exact (h.reached b).imp_right (hcomp b _).mpr
  · intro b
    rw [hevent, hqueued, hstart, hfinish]
    have hlife := h.life b
    exact {
      new := hlife.new
      started := fun hne => by
        have hbe : b ≠ ev := fun heq => hne (heq ▸ hev)
        obtain ⟨hzero, c, hc, hpar⟩ := hlife.started hne
        refine ⟨by simpa [hbe] using hzero, c, hc, fun hparent => hpar ?_⟩
        obtain ⟨q, hq⟩ := hparent
        rw [hedges] at hq
        rcases List.mem_append.mp hq with hq | hq
        · exact ⟨q, hq⟩
        · cases List.mem_singleton.mp hq
          exact absurd rfl hbe
      queued := hlife.queued
      finished := hlife.finished
      delays := hlife.delays }
  · intro b
    rw [hfrees, hcalls, hfinish]
    exact h.freed b

theorem Settled.addChild {p : ν} (h : Settled s) (hs : s.addChild ev p = some s') : Settled s' := by
  obtain ⟨-, childList, -, hevent, hedges, -⟩ := addChild_event hs
  intro b hparent hnew
  rw [hevent] at hnew ⊢
  by_cases hb : b = ev
  · simp [hb]
  · obtain ⟨q, hq⟩ := hparent
    rw [hedges] at hq
    rcases List.mem_append.mp hq with hq | hq
    · simpa [hb] using h b ⟨q, hq⟩ hnew
    · cases List.mem_singleton.mp hq
      exact absurd rfl hb

/-- An event is freed when its call says so. -/
theorem Inv.free (h : Inv s) {calls : List (Call ν)} (hcalls : s.calls = .freeEvent ev :: calls) :
    Inv { s with calls := calls, frees := Function.update s.frees ev (s.frees ev + 1) } := by
  have hmem : ∀ b c, .parentDone b c ∈ s.calls ↔ .parentDone b c ∈ calls := by
    intro b c
    rw [hcalls, List.mem_cons]
    exact or_iff_right (by simp)
  constructor
  · exact h.children
  · intro b
    have hb := h.counted b
    rwa [hcalls, pending_cons] at hb
  · exact fun b c hcall => h.told b c ((hmem b c).mpr hcall)
  · exact fun b c hc => (h.covered b c hc).imp_right (hmem b c).mp
  · exact h.reached
  · exact h.life
  · intro b
    have hb := h.freed b
    rw [hcalls, List.count_cons] at hb
    change Function.update s.frees ev (s.frees ev + 1) b + calls.count (.freeEvent b) =
      if s.finish b = none then 0 else 1
    by_cases hbe : b = ev
    · rw [hbe] at hb
      rw [hbe, Function.update_self, ← hb]
      simp
      omega
    · rw [Function.update_of_ne hbe, ← hb]
      simp [Ne.symm hbe]

omit [DecidableEq ν] in
/-- An event that keeps its state and its parents, or starts, stays settled. -/
theorem Settled.keep (h : Settled s) (hedges : s'.edges = s.edges) (hevents : ∀ b, (s'.event b).state = .none →
    (s.event b).state = .none ∧ (s'.event b).numParents = (s.event b).numParents) : Settled s' := by
  intro b hparent hnew
  obtain ⟨hold, hnum⟩ := hevents b hnew
  rw [hnum]
  exact h b (hedges ▸ hparent) hold

theorem setState_keep {state : EventState} (hstate : state ≠ .none) (b : ν)
    (hnew : ((s.setState ev state).event b).state = .none) :
    (s.event b).state = .none ∧ ((s.setState ev state).event b).numParents = (s.event b).numParents := by
  by_cases hb : b = ev
  · rw [hb, Sim.setState, set_event_self] at hnew
    exact absurd hnew hstate
  · rw [Sim.setState, set_event_of_ne hb] at hnew ⊢
    exact ⟨hnew, rfl⟩

/-- A running event can be done. -/
theorem Inv.done (h : Inv s) (hset : Settled s) (hev : (s.event ev).state = .running) (d : ℕ) :
    ∃ s', s.done ev d = some s' ∧ Inv s' ∧ Settled s' := by
  have hlife := h.life ev
  have hfinish := @Inv.not_done _ _ s ev h (by simp [hev])
  have hqueued := @Inv.not_queued _ _ s ev h (by simp [hev])
  obtain ⟨hparents, hself⟩ := hlife.started (by simp [hev])
  obtain ⟨children, hvisit, -⟩ := (h.children ev hfinish).visit
  have hdone := h.finish (d := d) s.start hfinish hparents hqueued hvisit (fun _ _ => rfl) hself
    fun hd => by
      rcases (hlife.delays hd).1 with heq | heq
      all_goals cases hev.symm.trans heq
  refine ⟨_, ?_, hdone, ?_⟩
  · rw [Sim.done, if_pos hev, hvisit]
    rfl
  · exact hset.keep rfl (setState_keep (by simp))

/-- The last parent of an event starts it. -/
theorem Inv.lastParentDone (h : Inv s) (hev : (s.event ev).state = .none) (hparents : (s.event ev).numParents = 0)
    (hset : ∀ b, b ≠ ev → HasParent s.edges b → (s.event b).state = .none → (s.event b).numParents ≠ 0) :
    ∃ s', s.lastParentDone ev = some s' ∧ Inv s' ∧ Settled s' := by
  obtain ⟨hqueued, -, hfinish⟩ := (h.life ev).new hev
  have hlife := h.life ev
  have hothers : ∀ {state : EventState}, state ≠ .none → ∀ b, HasParent s.edges b →
      ((s.setState ev state).event b).state = .none → ((s.setState ev state).event b).numParents ≠ 0 := by
    intro state hstate b hparent hnew
    have hb : b ≠ ev := by
      rintro rfl
      rw [Sim.setState, set_event_self] at hnew
      exact hstate hnew
    obtain ⟨hold, hnum⟩ := setState_keep hstate b hnew
    rw [hnum]
    exact hset b hb hparent hold
  have hself : ∃ c, Function.update s.start ev (some ((s.event ev).cycle + (s.event ev).preDelay)) ev = some c ∧
      (HasParent s.edges ev → c = (s.event ev).cycle + (s.event ev).preDelay) :=
    ⟨_, Function.update_self .., fun _ => rfl⟩
  rw [Sim.lastParentDone]
  by_cases hdelays : (s.event ev).delays = true
  · obtain ⟨children, hvisit, -⟩ := (h.children ev hfinish).visit
    have hdone := h.finish (d := (s.event ev).cycle + (s.event ev).preDelay) _ hfinish hparents hqueued hvisit
      (fun b hb => Function.update_of_ne hb ..) hself fun _ => Function.update_self ..
    refine ⟨_, ?_, hdone, hothers (by simp)⟩
    rw [if_pos hdelays]
    simp [Sim.done, Sim.setState, Sim.set, hvisit]
  · rw [if_neg hdelays, if_pos hev]
    refine ⟨_, rfl, h.mark _ (fun b hb => Function.update_of_ne hb ..) (fun b hb => Function.update_of_ne hb ..) ?_,
      hothers (by simp)⟩
    exact {
      new := by simp
      started := fun _ => ⟨hparents, hself⟩
      queued := iff_of_true rfl (by simp)
      finished := iff_of_false (by simp) fun hne => hne hfinish
      delays := fun hd => absurd hd hdelays }

/-- The topmost call can always go on. -/
theorem Inv.go (h : Inv s) (hset : Settled s) (hcalls : s.calls ≠ []) :
    ∃ s', s.go = some s' ∧ Inv s' ∧ Settled s' := by
  cases hc : s.calls with
  | nil => exact absurd hc hcalls
  | cons call calls =>
    cases call with
    | freeEvent ev =>
      simp only [Sim.go, hc]
      exact ⟨_, rfl, h.free hc, hset⟩
    | parentDone ev c =>
      obtain ⟨hstate, -, hnum, hfrees, htell⟩ := h.tell hc
      simp only [Sim.go, hc, Sim.parentDone]
      rw [if_neg fun hor => hor.elim hnum fun hne => hne hfrees]
      by_cases hone : (s.event ev).numParents = 1
      · rw [if_pos hone]
        refine htell.lastParentDone ?_ ?_ fun b hb hparent hnew => ?_
        · rw [set_event_self]
          exact hstate
        · rw [set_event_self]
          exact congrArg (· - 1) hone
        · rw [set_event_of_ne hb] at hnew ⊢
          exact hset b hparent hnew
      · rw [if_neg hone]
        refine ⟨_, rfl, htell, fun b hparent hnew => ?_⟩
        by_cases hb : b = ev
        · rw [hb, set_event_self]
          change (s.event ev).numParents - 1 ≠ 0
          omega
        · rw [set_event_of_ne hb] at hnew ⊢
          exact hset b hparent hnew

theorem enqueue_queued {cycle : ℕ} : (s.enqueue ev cycle).queued ev = some cycle := Function.update_self ..

/-- The other actions on a single event. -/
theorem Inv.enqueue (h : Inv s) (hset : Settled s) {start : ν → Option ℕ} {cycle : ℕ}
    (hparents : (s.event ev).numParents = 0) (hfinish : s.finish ev = none) (hdelays : (s.event ev).delays = false)
    (hstart : ∀ b, b ≠ ev → start b = s.start b)
    (hself : ∃ c, start ev = some c ∧ (HasParent s.edges ev → c = (s.event ev).cycle + (s.event ev).preDelay)) :
    Inv { s.enqueue ev cycle with start := start } ∧ Settled { s.enqueue ev cycle with start := start } := by
  refine ⟨h.mark start (fun b hb => Function.update_of_ne hb ..) hstart ?_, ?_⟩
  · exact {
      new := by simp
      started := fun _ => ⟨hparents, hself⟩
      queued := iff_of_true rfl fun heq => by cases enqueue_queued.symm.trans heq
      finished := iff_of_false (by simp) fun hne => hne hfinish
      delays := fun hd => by cases hdelays.symm.trans hd }
  · exact hset.keep rfl (setState_keep (by simp))

/-- An event that runs or is held is no `DelayEvent`, and has neither parents that are missing nor an end. -/
theorem Inv.active (h : Inv s) (hev : (s.event ev).state ≠ .none ∧ (s.event ev).state ≠ .done) :
    (s.event ev).numParents = 0 ∧ s.finish ev = none ∧ (s.event ev).delays = false ∧
      ∃ c, s.start ev = some c ∧ (HasParent s.edges ev → c = (s.event ev).cycle + (s.event ev).preDelay) := by
  have hlife := h.life ev
  obtain ⟨hparents, hself⟩ := hlife.started hev.1
  refine ⟨hparents, h.not_done hev.2, ?_, hself⟩
  by_contra hne
  exact (hlife.delays (by simpa using hne)).1.elim hev.1 hev.2

theorem Inv.hold (h : Inv s) (hset : Settled s) {state : EventState} (hstate : state = .running ∨ state = .held)
    (hev : (s.event ev).state ≠ .none ∧ (s.event ev).state ≠ .done) {queued : ν → Option ℕ}
    (hothers : ∀ b, b ≠ ev → queued b = s.queued b) (hself : queued ev = none) :
    Inv { s.setState ev state with queued := queued } ∧ Settled { s.setState ev state with queued := queued } := by
  obtain ⟨-, hfinish, hdelays, -⟩ := h.active hev
  have hne : state ≠ .none ∧ state ≠ .queued ∧ state ≠ .done := by rcases hstate with rfl | rfl <;> simp
  refine ⟨h.mark s.start hothers (fun _ _ => rfl) ?_, ?_⟩
  · exact {
      new := fun heq => absurd heq hne.1
      started := fun _ => (h.life ev).started hev.1
      queued := iff_of_false hne.2.1 fun hq => hq hself
      finished := iff_of_false hne.2.2 fun hf => hf hfinish
      delays := fun hd => by cases hdelays.symm.trans hd }
  · exact hset.keep rfl (setState_keep hne.1)

/-- What whoever acts on an event must keep to. -/
def Sim.Ready (s : Sim ν) : Action ν → Prop
  | .go => s.calls ≠ []
  | .addChild p ev =>
    s.calls = [] ∧ ((s.event p).state = .none ∨ (s.event p).state = .queued) ∧ (s.event ev).state = .none
  | .queue ev _ =>
    s.calls = [] ∧ (s.event ev).state = .none ∧ ¬ HasParent s.edges ev ∧ (s.event ev).delays = false
  | .run ev => s.calls = [] ∧ ∃ c, s.queued ev = some c ∧ (s.event ev).minStartCycle ≤ c
  | .done ev _ => s.calls = [] ∧ (s.event ev).state = .running
  | .requeue ev _ => s.calls = [] ∧ ((s.event ev).state = .running ∨ (s.event ev).state = .held)
  | .hold ev => s.calls = [] ∧ (s.event ev).state = .running
  | .release ev => s.calls = [] ∧ (s.event ev).state = .held

theorem Inv.step {x : Action ν} (h : Inv s) (hset : Settled s) (hs : s.step x = some s') : Inv s' ∧ Settled s' := by
  cases x with
  | go =>
    have hcalls : s.calls ≠ [] := by
      intro hnil
      simp only [Sim.step, Sim.go, hnil] at hs
      cases hs
    obtain ⟨t, ht, hinv⟩ := h.go hset hcalls
    exact Option.some.inj (ht.symm.trans hs) ▸ hinv
  | addChild p ev =>
    have hadd := (Option.ite_none_right_eq_some.mp hs).2
    exact ⟨h.addChild hadd, hset.addChild hadd⟩
  | queue ev cycle =>
    obtain ⟨⟨-, hev, hparents, hdelays⟩, heq⟩ := Option.ite_none_right_eq_some.mp hs
    rw [← Option.some.inj heq]
    refine h.enqueue hset hparents ((h.life ev).new hev).2.2 hdelays (fun b hb => Function.update_of_ne hb ..)
      ⟨cycle, Function.update_self .., fun hparent => ?_⟩
    exact absurd hparents (hset ev hparent hev)
  | run ev =>
    simp only [Sim.step] at hs
    split at hs
    · next cycle hq =>
      obtain ⟨⟨-, hstate, -⟩, heq⟩ := Option.ite_none_right_eq_some.mp hs
      have hev : (s.event ev).state = .queued := (h.life ev).queued.mpr (by simp [hq])
      rw [← Option.some.inj heq]
      exact h.hold hset (.inl rfl) (by simp [hev]) (fun b hb => Function.update_of_ne hb ..) (Function.update_self ..)
    · cases hs
  | done ev doneCycle =>
    have hdone := (Option.ite_none_right_eq_some.mp hs).2
    have hev := (Option.ite_none_right_eq_some.mp hdone).1
    obtain ⟨t, ht, hinv⟩ := h.done hset hev doneCycle
    exact Option.some.inj (ht.symm.trans hdone) ▸ hinv
  | requeue ev cycle =>
    obtain ⟨⟨-, hparents, hstate⟩, heq⟩ := Option.ite_none_right_eq_some.mp hs
    have hev : (s.event ev).state ≠ .none ∧ (s.event ev).state ≠ .done := by rcases hstate with hev | hev <;> simp [hev]
    obtain ⟨-, hfinish, hdelays, hself⟩ := h.active hev
    rw [← Option.some.inj heq]
    exact h.enqueue hset hparents hfinish hdelays (fun _ _ => rfl) hself
  | hold ev =>
    obtain ⟨⟨-, hev⟩, heq⟩ := Option.ite_none_right_eq_some.mp hs
    rw [← Option.some.inj heq]
    exact h.hold hset (.inr rfl) (by simp [hev]) (fun _ _ => rfl) (h.not_queued (by simp [hev]))
  | release ev =>
    obtain ⟨⟨-, hev⟩, heq⟩ := Option.ite_none_right_eq_some.mp hs
    rw [← Option.some.inj heq]
    exact h.hold hset (.inl rfl) (by simp [hev]) (fun _ _ => rfl) (h.not_queued (by simp [hev]))

/-- Every run keeps the invariant. -/
theorem inv_run {timing : ν → Timing} {xs : List (Action ν)} (hrun : run Sim.step (.init timing) xs = some s) :
    Inv s ∧ Settled s :=
  @run_invariant _ _ _ (fun s => Inv s ∧ Settled s) (fun _ _ _ h hs => h.1.step h.2 hs) _ _ _
    ⟨inv_init timing, settled_init timing⟩ hrun

/-- Nothing that may be done fails, and so no assertion does. -/
theorem Inv.exists_step {x : Action ν} (h : Inv s) (hset : Settled s) (hx : s.Ready x) : ∃ s', s.step x = some s' := by
  cases x with
  | go =>
    obtain ⟨s', hs, -⟩ := h.go hset hx
    exact ⟨s', hs⟩
  | addChild p ev =>
    obtain ⟨hcalls, hp, hev⟩ := hx
    obtain ⟨l, hl, -⟩ := (h.children p (h.not_done (by rcases hp with hp | hp <;> simp [hp]))).add ev
    simp only [Sim.step, Sim.addChild, if_pos hcalls, if_pos (And.intro hp hev), hl]
    exact ⟨_, rfl⟩
  | queue ev cycle =>
    obtain ⟨hcalls, hev, hparent, hdelays⟩ := hx
    have hnum : (s.event ev).numParents = 0 := by
      have hopen : openParents s.edges s.finish ev = 0 := by
        refine List.countP_eq_zero.mpr fun x hx hcount => ?_
        simp only [decide_eq_true_eq] at hcount
        exact hparent ⟨x.1, hcount.1 ▸ hx⟩
      have hpending : pending s.calls ev = [] := by rw [hcalls]; rfl
      rw [h.counted ev, hopen, hpending]
      rfl
    simp only [Sim.step, if_pos (And.intro hcalls (And.intro hev (And.intro hnum hdelays)))]
    exact ⟨_, rfl⟩
  | run ev =>
    obtain ⟨hcalls, c, hq, hmin⟩ := hx
    have hev : (s.event ev).state = .queued := (h.life ev).queued.mpr (by simp [hq])
    simp only [Sim.step, hq]
    rw [if_pos ⟨hcalls, .inr hev, hmin⟩]
    exact ⟨_, rfl⟩
  | done ev doneCycle =>
    obtain ⟨hcalls, hev⟩ := hx
    obtain ⟨s', hs, -⟩ := h.done hset hev doneCycle
    exact ⟨s', (if_pos hcalls).trans hs⟩
  | requeue ev cycle =>
    obtain ⟨hcalls, hstate⟩ := hx
    exact ⟨_, if_pos ⟨hcalls, (h.active (by rcases hstate with hev | hev <;> simp [hev])).1, hstate⟩⟩
  | hold ev => exact ⟨_, if_pos hx⟩
  | release ev => exact ⟨_, if_pos hx⟩

end Steps

section Times

variable {s s' : Sim ν} {ev b : ν}

/-- Nothing is left to tell an event that has started. -/
theorem Inv.parents_done (h : Inv s) (hev : (s.event ev).numParents = 0) {p : ν} (hp : (p, ev) ∈ s.edges) :
    ∃ f, s.finish p = some f := by
  have hcounted := h.counted ev
  rw [hev] at hcounted
  have hopen : openParents s.edges s.finish ev = 0 := by omega
  have hall := List.countP_eq_zero.mp hopen (p, ev) hp
  simp only [decide_eq_true_eq, true_and] at hall
  exact Option.ne_none_iff_exists'.mp hall

theorem Inv.pending_nil (h : Inv s) (hev : (s.event ev).numParents = 0) : pending s.calls ev = [] := by
  have hcounted := h.counted ev
  rw [hev] at hcounted
  exact List.eq_nil_of_length_eq_zero (by omega)

/-- The cycle of an event that has started is that of the last completion of a parent. -/
theorem Inv.cycle_greatest (h : Inv s) (hparent : HasParent s.edges ev) (hev : (s.event ev).numParents = 0) :
    IsGreatest {c | Completes s ev c} (s.event ev).cycle := by
  have hle : ∀ c, Completes s ev c → c ≤ (s.event ev).cycle := by
    intro c hc
    refine (h.covered ev c hc).resolve_right fun hcall => ?_
    have hmem := mem_pending.mpr hcall
    rw [h.pending_nil hev] at hmem
    cases hmem
  refine ⟨?_, hle⟩
  rcases h.reached ev with hzero | hc
  · obtain ⟨p, hp⟩ := hparent
    obtain ⟨f, hf⟩ := h.parents_done hev hp
    have hfirst : Completes s ev (f + (s.event p).postDelay) := ⟨p, f, hp, hf, rfl⟩
    have heq : f + (s.event p).postDelay = (s.event ev).cycle := by
      have hbound := hle _ hfirst
      omega
    exact heq ▸ hfirst
  · exact hc

/-- What holds of the events at any time. -/
structure OnTime (s : Sim ν) : Prop where
  /-- No assertion fails, no counter wraps, and nothing is told to an event that is freed. -/
  safe : ∀ x, s.Ready x → ∃ s', s.step x = some s'
  /-- An event with parents is queued when they are all done, its delay after the last of them has completed. -/
  start : ∀ b, HasParent s.edges b → (s.event b).state ≠ .none → (∀ p, (p, b) ∈ s.edges → s.finish p ≠ none) ∧
    ∃ c, IsGreatest {c | Completes s b c} c ∧ s.start b = some (c + (s.event b).preDelay)
  /-- A `DelayEvent` is done at its start. -/
  delay : ∀ b, (s.event b).delays = true → s.finish b = s.start b
  /-- An event that is done is freed once, when its call returns. -/
  once : ∀ b, s.frees b + s.calls.count (.freeEvent b) = if s.finish b = none then 0 else 1

theorem Inv.onTime (h : Inv s) (hset : Settled s) : OnTime s where
  safe _ hx := h.exists_step hset hx
  start b hparent hev := by
    obtain ⟨hparents, c, hc, hcycle⟩ := (h.life b).started hev
    refine ⟨fun p hp hnone => ?_, _, h.cycle_greatest hparent hparents, ?_⟩
    · obtain ⟨f, hf⟩ := h.parents_done hparents hp
      cases hnone.symm.trans hf
    · rw [hc, hcycle hparent]
  delay b hd := ((h.life b).delays hd).2
  once := h.freed

/-- In every order of the actions the events are on time. -/
theorem run_onTime {timing : ν → Timing} {xs : List (Action ν)} (hrun : run Sim.step (.init timing) xs = some s) :
    OnTime s := by
  obtain ⟨h, hset⟩ := inv_run hrun
  exact h.onTime hset

/-- An event with five children, one of which is a delay before another one. -/
theorem run_onTime_delay : ∃ s, run Sim.step
    (.init fun b : ℕ => if b = 5 then ⟨0, 7, 0, true⟩ else ⟨0, 0, 2, false⟩)
    [.addChild 0 1, .addChild 0 2, .addChild 0 3, .addChild 0 4, .addChild 0 5, .addChild 5 4, .queue 0 10, .run 0,
      .done 0 11, .go, .go, .go, .go, .go, .go] = some s ∧ s.start 4 = some 20 ∧ OnTime s := by
  have hstart : (run Sim.step (.init fun b : ℕ => if b = 5 then ⟨0, 7, 0, true⟩ else ⟨0, 0, 2, false⟩)
    [.addChild 0 1, .addChild 0 2, .addChild 0 3, .addChild 0 4, .addChild 0 5, .addChild 5 4, .queue 0 10, .run 0,
      .done 0 11, .go, .go, .go, .go, .go, .go]).map (fun s => s.start 4) = some (some 20) := by decide
  obtain ⟨s, hrun, hstart⟩ := Option.map_eq_some_iff.mp hstart
  exact ⟨s, hrun, hstart, run_onTime hrun⟩

end Times

section Ends

variable {s s' : Sim ν} {ev b : ν}

/-- The work that is left in open calls, and in the calls that a `done` may still open. -/
def Call.work : Call ν → ℕ
  | .parentDone _ _ => 2
  | .freeEvent _ => 1

def Sim.work (s : Sim ν) : ℕ :=
  2 * (s.edges.countP fun x => s.finish x.1 = none) + (s.calls.map Call.work).sum

omit [DecidableEq ν] in
theorem sum_tells (children : List ν) (c : ℕ) :
    ((children.map fun b => Call.parentDone b c).map Call.work).sum = 2 * children.length := by
  induction children with
  | nil => rfl
  | cons b children ih =>
    rw [List.map_cons, List.map_cons, List.sum_cons, ih, List.length_cons, Call.work]
    omega

/-- An event that is done leaves its edges behind. -/
theorem countP_finish (edges : List (ν × ν)) {finish : ν → Option ℕ} (hev : finish ev = none) (d : ℕ) :
    (edges.countP fun x => finish x.1 = none) =
      (edges.countP fun x => Function.update finish ev (some d) x.1 = none) + (childrenOf edges ev).length := by
  induction edges with
  | nil => rfl
  | cons x edges ih =>
    obtain ⟨p, b⟩ := x
    rw [List.countP_cons, List.countP_cons, ih, childrenOf, childrenOf, List.filter_cons]
    by_cases hp : p = ev
    · simp [hp, hev]
      omega
    · simp [hp]
      omega

theorem done_work {d : ℕ} (hchildren : (s.event ev).childList.Holds (childrenOf s.edges ev)) (hev : s.finish ev = none)
    (hs : s.done ev d = some s') : s'.work = s.work + 1 := by
  obtain ⟨-, hmap⟩ := Option.ite_none_right_eq_some.mp hs
  obtain ⟨children, hvisit, heq⟩ := Option.map_eq_some_iff.mp hmap
  obtain ⟨visited, hvisited, hperm⟩ := hchildren.visit
  rw [hvisit] at hvisited
  rw [← Option.some.inj hvisited] at hperm
  have hcount := countP_finish s.edges hev d
  rw [← heq]
  simp only [Sim.work, Sim.setState, Sim.set, List.map_append, List.map_cons, List.sum_append, List.sum_cons, sum_tells,
    Call.work, hperm.length_eq]
  omega

theorem lastParentDone_work (hchildren : (s.event ev).childList.Holds (childrenOf s.edges ev))
    (hev : s.finish ev = none) (hs : s.lastParentDone ev = some s') : s'.work ≤ s.work + 1 := by
  rw [Sim.lastParentDone] at hs
  split at hs
  · have hlist : ((s.setState ev .running).event ev).childList = (s.event ev).childList :=
      setState_event (·.childList) (fun _ _ => rfl) .running ev
    have hdone := fun hholds hnone => done_work hholds hnone hs
    exact (hdone (hlist.symm ▸ hchildren) hev).le
  · rw [← Option.some.inj (Option.ite_none_right_eq_some.mp hs).2]
    exact Nat.le_succ s.work

theorem Inv.go_work (h : Inv s) (hs : s.go = some s') : s'.work < s.work := by
  cases hc : s.calls with
  | nil =>
    simp only [Sim.go, hc] at hs
    cases hs
  | cons call calls =>
    cases call with
    | freeEvent ev =>
      simp only [Sim.go, hc] at hs
      rw [← Option.some.inj hs]
      simp only [Sim.work, hc, List.map_cons, List.sum_cons, Call.work]
      omega
    | parentDone ev c =>
      obtain ⟨hstate, -, hnum, hfrees, htell⟩ := h.tell hc
      have hfinish := ((h.life ev).new hstate).2.2
      have hless : ({ s with calls := calls }.set ev ((s.event ev).told c)).work + 2 = s.work := by
        rw [Sim.work, Sim.work, hc, List.map_cons, List.sum_cons, Call.work]
        change 2 * (s.edges.countP fun x => s.finish x.1 = none) + (calls.map Call.work).sum + 2 = _
        omega
      simp only [Sim.go, hc, Sim.parentDone] at hs
      rw [if_neg fun hor => hor.elim hnum fun hne => hne hfrees] at hs
      split at hs
      · have hlast := lastParentDone_work (htell.children ev hfinish) hfinish hs
        omega
      · rw [← Option.some.inj hs]
        omega

/-- A call of `done` returns: the calls that are open come to an end by themselves. -/
theorem Inv.exists_returns (h : Inv s) (hset : Settled s) :
    ∃ n t, run Sim.step s (List.replicate n .go) = some t ∧ t.calls = [] := by
  induction hwork : s.work using Nat.strong_induction_on generalizing s with
  | _ w ih =>
    by_cases hcalls : s.calls = []
    · exact ⟨0, s, rfl, hcalls⟩
    · obtain ⟨s', hs, hinv, hset'⟩ := h.go hset hcalls
      obtain ⟨n, t, hrun, hnil⟩ := ih s'.work (hwork ▸ h.go_work hs) hinv hset' rfl
      exact ⟨n + 1, t, run_cons.mpr ⟨s', hs, hrun⟩, hnil⟩

/-- No event may act. -/
def Sim.Quiet (s : Sim ν) : Prop := s.calls = [] ∧ ∀ b, (s.event b).state = .none ∨ (s.event b).state = .done

/-- Where no event may act any more, and the first events were queued, all events of an acyclic graph have run and are
freed. -/
theorem Inv.all_done (h : Inv s) (hset : Settled s) (hquiet : s.Quiet)
    (hacyclic : ∀ b, ¬ Relation.TransGen (fun p b => (p, b) ∈ s.edges) b b)
    (hroots : ∀ p b, (p, b) ∈ s.edges → ¬ HasParent s.edges p → s.start p ≠ none) (hparent : HasParent s.edges b) :
    (s.event b).state = .done ∧ s.frees b = 1 := by
  have hwf : WellFounded fun p b => (p, b) ∈ s.edges :=
    (show (TimedGraphs.Graph.Acyclic ⟨s.edges, fun _ => 0, fun _ => 0, fun _ => 0, fun _ => false⟩) from
      hacyclic).wellFounded
  have hdone : (s.event b).state = .done := by
    induction b using hwf.induction with
    | _ b ih =>
      refine (hquiet.2 b).resolve_left fun hnew => ?_
      refine hset b hparent hnew ?_
      have hopen : openParents s.edges s.finish b = 0 := by
        refine List.countP_eq_zero.mpr fun x hx hcount => ?_
        simp only [decide_eq_true_eq] at hcount
        have hx' : (x.1, b) ∈ s.edges := hcount.1 ▸ hx
        have hstate : (s.event x.1).state = .done := by
          by_cases hroot : HasParent s.edges x.1
          · exact ih x.1 hx' hroot
          · refine (hquiet.2 x.1).resolve_left fun hnone => ?_
            exact hroots x.1 b hx' hroot ((h.life x.1).new hnone).2.1
        exact (h.life x.1).finished.mp hstate hcount.2
      rw [h.counted b, hopen, hquiet.1]
      rfl
  have hfreed := h.freed b
  rw [hquiet.1, if_neg ((h.life b).finished.mp hdone)] at hfreed
  exact ⟨hdone, hfreed⟩

/-- Nothing is stranded: from every state that a run reaches, the open calls return, and once no event may act all those
that come after a queued one have run and are freed. -/
theorem run_ends {timing : ν → Timing} {xs : List (Action ν)} (hrun : run Sim.step (.init timing) xs = some s) :
    (∃ n t, run Sim.step s (List.replicate n .go) = some t ∧ t.calls = []) ∧
      (s.Quiet → (∀ b, ¬ Relation.TransGen (fun p b => (p, b) ∈ s.edges) b b) →
        (∀ p b, (p, b) ∈ s.edges → ¬ HasParent s.edges p → s.start p ≠ none) →
        ∀ b, HasParent s.edges b → (s.event b).state = .done ∧ s.frees b = 1) := by
  obtain ⟨h, hset⟩ := inv_run hrun
  exact ⟨h.exists_returns hset, fun hquiet hacyclic hroots b hb => h.all_done hset hquiet hacyclic hroots hb⟩

/-- Four events, the last of which waits for an event and for a delay. -/
theorem run_ends_diamond : ∃ s, run Sim.step (.init fun b : Fin 4 => ⟨0, 1, 0, b = 2⟩)
    [.addChild 0 1, .addChild 0 2, .addChild 1 3, .addChild 2 3, .queue 0 5, .run 0, .done 0 6, .go, .go, .go, .go, .go,
      .run 1, .done 1 9, .go, .go, .run 3, .done 3 20, .go] = some s ∧ (s.event 3).state = .done ∧ s.frees 3 = 1 := by
  have hend : (run Sim.step (.init fun b : Fin 4 => ⟨0, 1, 0, b = 2⟩)
    [.addChild 0 1, .addChild 0 2, .addChild 1 3, .addChild 2 3, .queue 0 5, .run 0, .done 0 6, .go, .go, .go, .go, .go,
      .run 1, .done 1 9, .go, .go, .run 3, .done 3 20, .go]).map
      (fun s => (s.edges, s.calls, decide (∀ b, (s.event b).state = .done), s.start 0)) =
      some ([(0, 1), (0, 2), (1, 3), (2, 3)], [], true, some 5) := by decide
  obtain ⟨s, hrun, hend⟩ := Option.map_eq_some_iff.mp hend
  obtain ⟨hedges, hrest⟩ := Prod.mk.inj hend
  obtain ⟨hcalls, hrest⟩ := Prod.mk.inj hrest
  obtain ⟨hstates, hstart⟩ := Prod.mk.inj hrest
  have hquiet : s.Quiet := ⟨hcalls, fun b => .inr (of_decide_eq_true hstates b)⟩
  have hup : ∀ p b, (p, b) ∈ s.edges → p < b := by
    rw [hedges]
    decide
  have hacyclic : ∀ b, ¬ Relation.TransGen (fun p b => (p, b) ∈ s.edges) b b := by
    intro b hb
    have hlt : b < b := by
      refine Relation.TransGen.trans_induction_on (motive := fun {a b} _ => a < b) hb ?_ ?_
      · exact fun hedge => hup _ _ hedge
      · exact fun _ _ => lt_trans
    exact lt_irrefl b hlt
  have hroot : ∀ p b, (p, b) ∈ s.edges → (¬ ∃ q, (q, p) ∈ s.edges) → p = 0 := by
    rw [hedges]
    decide
  have hroots : ∀ p b, (p, b) ∈ s.edges → ¬ HasParent s.edges p → s.start p ≠ none := by
    intro p b hpb hnone
    rw [hroot p b hpb hnone, hstart]
    simp
  have hparent : HasParent s.edges 3 := ⟨1, by rw [hedges]; decide⟩
  exact ⟨s, hrun, (run_ends hrun).2 hquiet hacyclic hroots 3 hparent⟩

end Ends

end Zsim.TimingEvents
