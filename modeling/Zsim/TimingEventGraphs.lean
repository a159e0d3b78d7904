import Zsim.TimingEventRuns

/-!
# Timing events as a timed graph

Once its events are connected and its first one is queued, a run of timing events is an execution of their graph: each
`done` finishes an event of the graph, the calls inside it finish its delays, and all other steps are not seen.
-/

namespace Zsim.TimingEvents

open GuardedRuns TimedGraphs

variable {ν : Type} [DecidableEq ν]

/-- The graph of the events, of which each works for some cycles at least before it is done. -/
def Sim.graph (s : Sim ν) (work : ν → ℕ) : Graph ν where
  edges := s.edges
  pre b := (s.event b).preDelay
  work := work
  post b := (s.event b).postDelay
  instant b := (s.event b).delays

/-- The last cycle that an event has been told, or will be by the calls that are open. -/
def Sim.toldCycle (s : Sim ν) (b : ν) : ℕ := (pending s.calls b).foldr max (s.event b).cycle

/-- What an execution of the graph keeps of the events below a root that was told this cycle. -/
def Sim.execution (s : Sim ν) (root : ν) (c₀ : ℕ) : Execution ν :=
  let cycle b := if b = root then c₀ else s.toldCycle b
  { missing := openParents s.edges s.finish
    cycle := cycle
    status := fun b =>
      if s.finish b ≠ none then .done
      else if openParents s.edges s.finish b = 0 ∧ (b = root ∨ b ∈ s.edges.map Prod.snd) then
        .queued (cycle b + (s.event b).preDelay)
      else .waiting
    finish := fun b => (s.finish b).getD 0 }

/-- The condition on an action: the graph stays as it is, and no event is done before its work. -/
def Sim.Timely (s : Sim ν) (work : ν → ℕ) : Action ν → Prop
  | .addChild _ _ => False
  | .queue _ _ => False
  | .done ev doneCycle => ∀ c, s.start ev = some c → c + work ev ≤ doneCycle
  | _ => True

section Views

variable {s t : Sim ν} {root ev b : ν} {c₀ d : ℕ} {work : ν → ℕ}

theorem foldr_max_max (l : List ℕ) (a c : ℕ) : l.foldr max (max a c) = max c (l.foldr max a) := by
  induction l with
  | nil => exact max_comm a c
  | cons x l ih => rw [List.foldr_cons, List.foldr_cons, ih, max_left_comm]

theorem pending_map (children : List ν) (c : ℕ) (b : ν) :
    pending (children.map (Call.parentDone · c)) b = List.replicate (children.count b) c := by
  induction children with
  | nil => rfl
  | cons x children ih =>
    rw [List.map_cons, pending_cons, ih, List.count_cons, Call.told]
    by_cases hx : x = b
    · simp [hx, List.replicate_succ]
    · simp [hx]

theorem foldr_replicate_max (n a c : ℕ) : (List.replicate n c).foldr max a = if n = 0 then a else max a c := by
  induction n with
  | zero => rfl
  | succ n ih =>
    rw [List.replicate_succ, List.foldr_cons, ih, if_neg (Nat.succ_ne_zero n)]
    split
    · exact max_comm c a
    · rw [max_left_comm, max_self]

/-- What is not seen of a step. -/
theorem execution_congr (hedges : t.edges = s.edges) (hfinish : t.finish = s.finish)
    (hpre : ∀ b, (t.event b).preDelay = (s.event b).preDelay) (htold : ∀ b, t.toldCycle b = s.toldCycle b) :
    t.execution root c₀ = s.execution root c₀ := by
  simp only [Sim.execution, hedges, hfinish, hpre, htold]

omit [DecidableEq ν] in
theorem mem_map_snd : b ∈ s.edges.map Prod.snd ↔ HasParent s.edges b := by
  rw [List.mem_map]
  constructor
  · rintro ⟨x, hx, rfl⟩
    exact ⟨x.1, hx⟩
  · rintro ⟨p, hp⟩
    exact ⟨(p, b), hp, rfl⟩

/-- A call that only tells is not seen. -/
theorem execution_told (root : ν) (c₀ : ℕ) {c : ℕ} {calls : List (Call ν)} (hcalls : s.calls = .parentDone ev c :: calls) :
    ({ s with calls := calls }.set ev ((s.event ev).told c)).execution root c₀ = s.execution root c₀ := by
  refine execution_congr rfl rfl (fun b => ?_) fun b => ?_
  · by_cases hb : b = ev
    · rw [hb, set_event_self]
      rfl
    · rw [set_event_of_ne hb]
  · simp only [Sim.toldCycle, hcalls, pending_cons, Call.told]
    by_cases hb : b = ev
    · rw [hb, set_event_self, if_pos rfl]
      exact foldr_max_max (pending calls ev) (s.event ev).cycle c
    · rw [set_event_of_ne hb, if_neg (Ne.symm hb)]
      rfl

/-- Nor is an event that is freed. -/
theorem execution_free {calls : List (Call ν)} (hcalls : s.calls = .freeEvent ev :: calls) (frees : ν → ℕ) :
    ({ s with calls := calls, frees := frees } : Sim ν).execution root c₀ = s.execution root c₀ := by
  refine execution_congr rfl rfl (fun _ => rfl) fun b => ?_
  rw [Sim.toldCycle, Sim.toldCycle, hcalls, pending_cons]
  rfl

/-- An event that is done completes in the graph. -/
theorem execution_done (c₀ : ℕ) (work : ν → ℕ) (hfinish : s.finish ev = none) (hholds : (s.event ev).childList.Holds (childrenOf s.edges ev))
    (hroot : ¬ HasParent s.edges root) (hopen : ∀ b, (ev, b) ∈ s.edges → s.finish b = none) (hs : s.done ev d = some t) :
    t.execution root c₀ = (s.graph work).complete (s.execution root c₀) ev d := by
  obtain ⟨children, hvisit, heq⟩ := Option.map_eq_some_iff.mp (Option.ite_none_right_eq_some.mp hs).2
  obtain ⟨visited, hvisited, hperm⟩ := hholds.visit
  rw [hvisit] at hvisited
  rw [← Option.some.inj hvisited] at hperm
  have hcount : ∀ b, children.count b = s.edges.count (ev, b) := by
    intro b
    rw [hperm.count_eq, count_childrenOf]
  have hedges : t.edges = s.edges := by rw [← heq]; rfl
  have hfinish' : t.finish = Function.update s.finish ev (some d) := by rw [← heq]
  have hpre : ∀ b, (t.event b).preDelay = (s.event b).preDelay := by
    rw [← heq]
    exact setState_event (·.preDelay) (fun _ _ => rfl) .done
  have hmissing : ∀ b, openParents t.edges t.finish b = openParents s.edges s.finish b - s.edges.count (ev, b) := by
    intro b
    rw [hedges, hfinish', openParents_finish s.edges (c := d) hfinish b, Nat.add_sub_cancel]
  have htold : ∀ b, t.toldCycle b =
      if (ev, b) ∈ s.edges then max (s.toldCycle b) (d + (s.event ev).postDelay) else s.toldCycle b := by
    intro b
    have hcycle : (t.event b).cycle = (s.event b).cycle := by
      rw [← heq]
      exact setState_event (·.cycle) (fun _ _ => rfl) .done b
    have hpending : pending t.calls b =
        List.replicate (s.edges.count (ev, b)) (d + (s.event ev).postDelay) ++ pending s.calls b := by
      rw [← heq, ← hcount]
      dsimp only
      rw [pending_append, pending_map, pending_cons]
      rfl
    rw [Sim.toldCycle, hpending, hcycle, List.foldr_append, foldr_replicate_max]
    by_cases hmem : (ev, b) ∈ s.edges
    · rw [if_pos hmem, if_neg (List.count_pos_iff.mpr hmem).ne']
      rfl
    · rw [if_neg hmem, if_pos (List.count_eq_zero_of_not_mem hmem)]
      rfl
  have hcycle : ∀ b, (if b = root then c₀ else t.toldCycle b) =
      if (ev, b) ∈ s.edges then
        max (if b = root then c₀ else s.toldCycle b) (d + (s.event ev).postDelay)
      else if b = root then c₀ else s.toldCycle b := by
    intro b
    rw [htold]
    by_cases hb : b = root
    · have hnot : (ev, b) ∉ s.edges := fun hedge => hroot (hb ▸ ⟨ev, hedge⟩)
      rw [if_pos hb, if_neg hnot, if_pos hb]
    · rw [if_neg hb, if_neg hb]
  simp only [Sim.execution, Graph.complete, Sim.graph, hpre]
  congr 1
  · exact funext hmissing
  · exact funext hcycle
  · funext b
    rw [hcycle, hmissing, hfinish', hedges]
    by_cases hb : b = ev
    · rw [hb, Function.update_self, if_pos rfl]
      exact if_pos (by simp)
    · rw [Function.update_of_ne hb, if_neg hb]
      by_cases hedge : (ev, b) ∈ s.edges
      · have hmem : b ∈ s.edges.map Prod.snd := List.mem_map_of_mem hedge
        have hpos : openParents s.edges s.finish b ≠ 0 := by
          have hsum := openParents_finish s.edges (c := d) hfinish b
          have hedge' := List.count_pos_iff.mpr hedge
          omega
        rw [hopen b hedge]
        simp [hedge, hmem, hpos]
      · have hzero : s.edges.count (ev, b) = 0 := List.count_eq_zero_of_not_mem hedge
        rw [hzero, Nat.sub_zero, if_neg hedge]
        exact (if_neg fun hand => hedge hand.1).symm
  · funext b
    rw [hfinish']
    by_cases hb : b = ev
    · rw [hb, Function.update_self, Function.update_self]
      rfl
    · rw [Function.update_of_ne hb, Function.update_of_ne hb]

end Views

section Refinement

variable {s t : Sim ν} {root ev b : ν} {c₀ : ℕ} {work : ν → ℕ}

/-- The events have started below the root. -/
structure Rooted (s : Sim ν) (work : ν → ℕ) (root : ν) (c₀ : ℕ) : Prop where
  inv : Inv s
  settled : Settled s
  source : ¬ HasParent s.edges root
  start : s.start root = some (c₀ + (s.event root).preDelay)
  below : ∀ b, (s.event b).state ≠ .none → b = root ∨ HasParent s.edges b
  delays : ∀ b, (s.event b).delays = true → work b = 0

/-- An event that has started and is not done is queued in the graph, for its start. -/
theorem Rooted.status (h : Rooted s work root c₀) (hev : (s.event ev).state ≠ .none) (hfinish : s.finish ev = none) :
    ∃ c, s.start ev = some c ∧ (s.execution root c₀).status ev = .queued c ∧
      (s.graph work).start (s.execution root c₀) ev = c := by
  obtain ⟨hparents, c, hc, hcycle⟩ := (h.inv.life ev).started hev
  have hopen : openParents s.edges s.finish ev = 0 := by
    have hcounted := h.inv.counted ev
    omega
  have hmem : ev = root ∨ ev ∈ s.edges.map Prod.snd := (h.below ev hev).imp_right mem_map_snd.mpr
  have heq : (if ev = root then c₀ else s.toldCycle ev) + (s.event ev).preDelay = c := by
    by_cases hroot : ev = root
    · rw [if_pos hroot, hroot]
      rw [hroot, h.start] at hc
      exact Option.some.inj hc
    · rw [if_neg hroot, Sim.toldCycle, h.inv.pending_nil hparents]
      exact (hcycle ((h.below ev hev).resolve_left hroot)).symm
  refine ⟨c, hc, ?_, heq⟩
  simp only [Sim.execution, hfinish, hopen, hmem, heq]
  rfl

/-- No child of an event that is not done is done. -/
theorem Inv.child_open (h : Inv s) (hfinish : s.finish ev = none) (hedge : (ev, b) ∈ s.edges) : s.finish b = none := by
  by_contra hne
  have hdone := (h.life b).finished.mpr hne
  have hzero := ((h.life b).started (by simp [hdone])).1
  obtain ⟨f, hf⟩ := h.parents_done hzero hedge
  cases hfinish.symm.trans hf

/-- What a step keeps of the events: their graph, and the starts of those that have started. -/
structure Frame (root : ν) (s t : Sim ν) : Prop where
  edges : t.edges = s.edges
  pre : ∀ b, (t.event b).preDelay = (s.event b).preDelay
  post : ∀ b, (t.event b).postDelay = (s.event b).postDelay
  delays : ∀ b, (t.event b).delays = (s.event b).delays
  started : ∀ b, (s.event b).state ≠ .none → (t.event b).state ≠ .none ∧ t.start b = s.start b
  below : ∀ b, (t.event b).state ≠ .none → (s.event b).state ≠ .none ∨ b = root ∨ HasParent s.edges b

omit [DecidableEq ν] in
/-- A step that leaves the events alone. -/
theorem frame_of_eq (hevent : t.event = s.event) (hedges : t.edges = s.edges) (hstart : t.start = s.start) :
    Frame root s t where
  edges := hedges
  pre b := by rw [hevent]
  post b := by rw [hevent]
  delays b := by rw [hevent]
  started b hb := ⟨by rwa [hevent], congrFun hstart b⟩
  below b hb := .inl (by rwa [hevent] at hb)

omit [DecidableEq ν] in
theorem Frame.trans {u : Sim ν} (h : Frame root s t) (h' : Frame root t u) : Frame root s u where
  edges := h'.edges.trans h.edges
  pre b := (h'.pre b).trans (h.pre b)
  post b := (h'.post b).trans (h.post b)
  delays b := (h'.delays b).trans (h.delays b)
  started b hb := by
    obtain ⟨ht, hstart⟩ := h.started b hb
    obtain ⟨hu, hstart'⟩ := h'.started b ht
    exact ⟨hu, hstart'.trans hstart⟩
  below b hb := (h'.below b hb).elim (h.below b) fun hparent => .inr (h.edges ▸ hparent)

omit [DecidableEq ν] in
theorem Frame.graph (h : Frame root s t) (work : ν → ℕ) : t.graph work = s.graph work := by
  simp only [Sim.graph, h.edges, h.pre, h.post, h.delays]

/-- One event changes its state, and starts if it has not started. -/
theorem frame_mark (ev : ν) {state : EventState} (hstate : state ≠ .none)
    (hev : (s.event ev).state ≠ .none ∨ ev = root ∨ HasParent s.edges ev)
    (hevent : t.event = (s.setState ev state).event) (hedges : t.edges = s.edges)
    (hstart : ∀ b, (s.event b).state ≠ .none → t.start b = s.start b) : Frame root s t where
  edges := hedges
  pre := by
    rw [hevent]
    exact setState_event (·.preDelay) (fun _ _ => rfl) state
  post := by
    rw [hevent]
    exact setState_event (·.postDelay) (fun _ _ => rfl) state
  delays := by
    rw [hevent]
    exact setState_event (·.delays) (fun _ _ => rfl) state
  started b hb := by
    refine ⟨fun hnew => hb ?_, hstart b hb⟩
    rw [hevent] at hnew
    exact (setState_keep hstate b hnew).1
  below b hb := by
    by_cases hbe : b = ev
    · rw [hbe]
      exact hev
    · rw [hevent, Sim.setState, set_event_of_ne hbe] at hb
      exact .inl hb

/-- The graph does not see it if no event is done and nothing is told. -/
theorem unseen_mark (ev : ν) {state : EventState} (hstate : state ≠ .none)
    (hev : (s.event ev).state ≠ .none ∨ ev = root ∨ HasParent s.edges ev)
    (hevent : t.event = (s.setState ev state).event) (hedges : t.edges = s.edges) (hfinish : t.finish = s.finish)
    (hcalls : t.calls = s.calls) (hstart : ∀ b, (s.event b).state ≠ .none → t.start b = s.start b) :
    Frame root s t ∧ t.execution root c₀ = s.execution root c₀ := by
  have hframe := frame_mark ev hstate hev hevent hedges hstart
  refine ⟨hframe, execution_congr hedges hfinish hframe.pre fun b => ?_⟩
  have hcycle : ((s.setState ev state).event b).cycle = (s.event b).cycle :=
    setState_event (·.cycle) (fun _ _ => rfl) state b
  rw [Sim.toldCycle, Sim.toldCycle, hevent, hcalls, hcycle]

theorem frame_told (ev : ν) (c : ℕ) (calls : List (Call ν)) :
    Frame root s ({ s with calls := calls }.set ev ((s.event ev).told c)) := by
  have hsame : ∀ {α : Type} (f : TimingEvent ν → α), (∀ e : TimingEvent ν, f (e.told c) = f e) → ∀ b,
      f (({ s with calls := calls }.set ev ((s.event ev).told c)).event b) = f (s.event b) := by
    intro α f hf b
    by_cases hb : b = ev
    · rw [hb, set_event_self, hf]
    · rw [set_event_of_ne hb]
  exact {
    edges := rfl
    pre := hsame _ fun _ => rfl
    post := hsame _ fun _ => rfl
    delays := hsame _ fun _ => rfl
    started := fun b hb => ⟨fun hnew => hb ((hsame (·.state) (fun _ => rfl) b).symm.trans hnew), rfl⟩
    below := fun b hb => .inl fun hnew => hb ((hsame (·.state) (fun _ => rfl) b).trans hnew) }

/-- `done` starts no event. -/
theorem frame_done {d : ℕ} (hev : (s.event ev).state ≠ .none) (hs : s.done ev d = some t) : Frame root s t := by
  obtain ⟨children, -, heq⟩ := Option.map_eq_some_iff.mp (Option.ite_none_right_eq_some.mp hs).2
  rw [← heq]
  exact frame_mark ev (by simp) (.inl hev) rfl rfl fun _ _ => rfl

theorem Rooted.frame (h : Rooted s work root c₀) (hf : Frame root s t) (hinv : Inv t) (hset : Settled t) :
    Rooted t work root c₀ := by
  have hroot : (s.event root).state ≠ .none := by
    intro hnew
    cases ((h.inv.life root).new hnew).2.1.symm.trans h.start
  exact {
    inv := hinv
    settled := hset
    source := hf.edges ▸ h.source
    start := by rw [(hf.started root hroot).2, h.start, hf.pre]
    below := fun b hb => by
      rw [hf.edges]
      exact (hf.below b hb).elim (h.below b) id
    delays := fun b hb => h.delays b (hf.delays b ▸ hb) }

/-- A `done` in time finishes its event in the graph. -/
theorem Rooted.done {d : ℕ} (h : Rooted s work root c₀) (hd : ∀ c, s.start ev = some c → c + work ev ≤ d)
    (hs : s.done ev d = some t) :
    Frame root s t ∧ (s.graph work).step (s.execution root c₀) (.finish ev d) = some (t.execution root c₀) := by
  have hrunning := (Option.ite_none_right_eq_some.mp hs).1
  have hev : (s.event ev).state ≠ .none ∧ (s.event ev).state ≠ .done := by simp [hrunning]
  obtain ⟨-, hfinish, hdelays, -⟩ := h.inv.active hev
  obtain ⟨c, hc, hstatus, hstart⟩ := h.status hev.1 hfinish
  have hle := hd c hc
  refine ⟨frame_done hev.1 hs, ?_⟩
  have hdone := execution_done c₀ work hfinish (h.inv.children ev hfinish) h.source
    (fun b hedge => h.inv.child_open hfinish hedge) hs
  have hinstant : (s.graph work).instant ev = false := hdelays
  simp only [Graph.step, hstatus, hstart, hinstant]
  rw [if_pos ⟨by omega, hle, by simp⟩, hdone]

/-- The last parent of a delay lets it run for an instant. -/
theorem lastParentDone_delay (hdelays : (s.event ev).delays = true) (hs : s.lastParentDone ev = some t) :
    ∃ s₁ : Sim ν, s₁.done ev ((s.event ev).cycle + (s.event ev).preDelay) = some t ∧
      s₁.event = (s.setState ev .running).event ∧ s₁.edges = s.edges ∧ s₁.finish = s.finish ∧ s₁.calls = s.calls ∧
        ∀ b, b ≠ ev → s₁.start b = s.start b := by
  rw [Sim.lastParentDone, if_pos hdelays] at hs
  exact ⟨_, hs, rfl, rfl, rfl, rfl, fun b hb => Function.update_of_ne hb ..⟩

/-- The call of the last parent is not seen, or finishes a delay. -/
theorem Rooted.lastParentDone {c : ℕ} {calls : List (Call ν)} (h : Rooted s work root c₀)
    (hcalls : s.calls = .parentDone ev c :: calls) (hone : (s.event ev).numParents = 1)
    (hs : ({ s with calls := calls }.set ev ((s.event ev).told c)).lastParentDone ev = some t) :
    Frame root s t ∧ ∃ ms, run (s.graph work).step (s.execution root c₀) ms = some (t.execution root c₀) := by
  obtain ⟨hstate, hparent, -, -, htell⟩ := h.inv.tell hcalls
  have htold := execution_told root c₀ hcalls
  have hframe := @frame_told ν _ s root ev c calls
  generalize hs₀ : ({ s with calls := calls }.set ev ((s.event ev).told c)) = s₀ at hs htell htold hframe
  have hstate₀ : (s₀.event ev).state = .none := by
    rw [← hs₀, set_event_self]
    exact hstate
  have hparents₀ : (s₀.event ev).numParents = 0 := by
    rw [← hs₀, set_event_self]
    exact congrArg (· - 1) hone
  have hparent₀ : HasParent s₀.edges ev := hframe.edges ▸ hparent
  have hother : ∀ b, (s₀.event b).state ≠ .none → b ≠ ev := fun b hb hbe => hb (by rw [hbe, hstate₀])
  have hfinish := ((htell.life ev).new hstate₀).2.2
  rw [← htold, ← hframe.graph work]
  by_cases hdelays : (s₀.event ev).delays = true
  · obtain ⟨s₁, hs₁, hevent₁, hedges₁, hfinish₁, hcalls₁, hstart₁⟩ := lastParentDone_delay hdelays hs
    obtain ⟨hmark, hsame⟩ := @unseen_mark ν _ s₀ s₁ root c₀ ev _ (by simp) (.inr (.inr hparent₀)) hevent₁
      hedges₁ hfinish₁ hcalls₁ fun b hb => hstart₁ b (hother b hb)
    have hrunning : (s₁.event ev).state ≠ .none := by
      rw [hevent₁, Sim.setState, set_event_self]
      simp
    refine ⟨hframe.trans (hmark.trans (frame_done hrunning hs₁)),
      [.finish ev ((s₀.event ev).cycle + (s₀.event ev).preDelay)], ?_⟩
    have hsource : ¬ HasParent s₀.edges root := hframe.edges ▸ h.source
    have hne : ev ≠ root := fun heq => hsource (heq ▸ hparent₀)
    have hopen : openParents s₀.edges s₀.finish ev = 0 := by
      have hcounted := htell.counted ev
      omega
    have hcycle : (if ev = root then c₀ else s₀.toldCycle ev) = (s₀.event ev).cycle := by
      rw [if_neg hne, Sim.toldCycle, htell.pending_nil hparents₀]
      rfl
    have hstatus : (s₀.execution root c₀).status ev = .queued ((s₀.event ev).cycle + (s₀.event ev).preDelay) := by
      simp only [Sim.execution, hfinish, hopen, hcycle, mem_map_snd.mpr hparent₀]
      simp
    have hstart : (s₀.graph work).start (s₀.execution root c₀) ev = (s₀.event ev).cycle + (s₀.event ev).preDelay :=
      congrArg (· + (s₀.event ev).preDelay) hcycle
    have hwork : (s₀.graph work).work ev = 0 := h.delays ev (hframe.delays ev ▸ hdelays)
    have hlist : (s₁.event ev).childList.Holds (childrenOf s₁.edges ev) := by
      rw [hevent₁, hedges₁, setState_event (·.childList) (fun _ _ => rfl) .running ev]
      exact htell.children ev hfinish
    have hdone := execution_done c₀ work (by rw [hfinish₁]; exact hfinish) hlist (hedges₁ ▸ hsource)
      (fun b hedge => by
        rw [hedges₁] at hedge
        rw [hfinish₁]
        exact htell.child_open hfinish hedge) hs₁
    rw [hsame, hmark.graph] at hdone
    refine run_cons.mpr ⟨_, ?_, congrArg some hdone.symm⟩
    simp only [Graph.step, hstatus, hstart, hwork, Nat.add_zero, le_refl, true_and, implies_true, if_true]
  · rw [Sim.lastParentDone, if_neg hdelays, if_pos hstate₀] at hs
    rw [← Option.some.inj hs]
    obtain ⟨hmark, hsame⟩ := @unseen_mark ν _ s₀ { s₀.enqueue ev _ with start := Function.update s₀.start ev (some _) }
      root c₀ ev .queued (by simp) (.inr (.inr hparent₀)) rfl rfl rfl rfl
      fun b hb => Function.update_of_ne (hother b hb) ..
    exact ⟨hframe.trans hmark, [], congrArg some hsame.symm⟩

/-- A step of the events is a step of the graph, or is not seen. -/
theorem Rooted.step {x : Action ν} (h : Rooted s work root c₀) (hx : s.Timely work x) (hs : s.step x = some t) :
    Frame root s t ∧ ∃ ms, run (s.graph work).step (s.execution root c₀) ms = some (t.execution root c₀) := by
  have hunseen : Frame root s t ∧ t.execution root c₀ = s.execution root c₀ →
      Frame root s t ∧ ∃ ms, run (s.graph work).step (s.execution root c₀) ms = some (t.execution root c₀) :=
    fun hand => ⟨hand.1, [], congrArg some hand.2.symm⟩
  cases x with
  | addChild p ev => exact hx.elim
  | queue ev cycle => exact hx.elim
  | done ev d =>
    obtain ⟨hframe, hstep⟩ := h.done hx (Option.ite_none_right_eq_some.mp hs).2
    exact ⟨hframe, [.finish ev d], run_cons.mpr ⟨_, hstep, rfl⟩⟩
  | go =>
    cases hc : s.calls with
    | nil =>
      simp only [Sim.step, Sim.go, hc] at hs
      cases hs
    | cons call calls =>
      cases call with
      | freeEvent ev =>
        simp only [Sim.step, Sim.go, hc] at hs
        rw [← Option.some.inj hs] at hunseen ⊢
        exact hunseen ⟨frame_of_eq rfl rfl rfl, execution_free hc _⟩
      | parentDone ev c =>
        obtain ⟨-, -, hnum, hfrees, -⟩ := h.inv.tell hc
        simp only [Sim.step, Sim.go, hc, Sim.parentDone] at hs
        rw [if_neg fun hor => hor.elim hnum fun hne => hne hfrees] at hs
        split at hs
        · next hone => exact h.lastParentDone hc hone hs
        · rw [← Option.some.inj hs] at hunseen ⊢
          exact hunseen ⟨frame_told ev c calls, execution_told root c₀ hc⟩
  | run ev =>
    simp only [Sim.step] at hs
    split at hs
    · next cycle hq =>
      have hev : (s.event ev).state = .queued := (h.inv.life ev).queued.mpr fun heq => by cases hq.symm.trans heq
      rw [← Option.some.inj (Option.ite_none_right_eq_some.mp hs).2] at hunseen ⊢
      exact hunseen (unseen_mark ev (by simp) (.inl (by simp [hev])) rfl rfl rfl rfl fun _ _ => rfl)
    · cases hs
  | requeue ev cycle =>
    obtain ⟨⟨-, -, hstate⟩, heq⟩ := Option.ite_none_right_eq_some.mp hs
    rw [← Option.some.inj heq] at hunseen ⊢
    exact hunseen (unseen_mark ev (by simp) (.inl (by rcases hstate with hev | hev <;> simp [hev])) rfl
      rfl rfl rfl fun _ _ => rfl)
  | hold ev =>
    obtain ⟨⟨-, hstate⟩, heq⟩ := Option.ite_none_right_eq_some.mp hs
    rw [← Option.some.inj heq] at hunseen ⊢
    exact hunseen (unseen_mark ev (by simp) (.inl (by simp [hstate])) rfl rfl rfl rfl fun _ _ => rfl)
  | release ev =>
    obtain ⟨⟨-, hstate⟩, heq⟩ := Option.ite_none_right_eq_some.mp hs
    rw [← Option.some.inj heq] at hunseen ⊢
    exact hunseen (unseen_mark ev (by simp) (.inl (by simp [hstate])) rfl rfl rfl rfl fun _ _ => rfl)

/-- A run whose events are done in time is an execution of their graph. -/
theorem Rooted.run {ys : List (Action ν)} (h : Rooted s work root c₀)
    (htimely : EveryStep Sim.step (fun s x _ => s.Timely work x) s ys) (hrun : GuardedRuns.run Sim.step s ys = some t) :
    Frame root s t ∧ ∃ ms, GuardedRuns.run (s.graph work).step (s.execution root c₀) ms = some (t.execution root c₀) := by
  induction ys generalizing s with
  | nil =>
    rw [← Option.some.inj hrun]
    exact ⟨frame_of_eq rfl rfl rfl, [], rfl⟩
  | cons x ys ih =>
    obtain ⟨u, hs, hrest⟩ := run_cons.mp hrun
    obtain ⟨hx, htimely⟩ := htimely u hs
    obtain ⟨hframe, ms, hms⟩ := h.step hx hs
    obtain ⟨hinv, hset⟩ := h.inv.step h.settled hs
    obtain ⟨hframe', ms', hms'⟩ := ih (h.frame hframe hinv hset) htimely hrest
    rw [hframe.graph] at hms'
    exact ⟨hframe.trans hframe', ms ++ ms', run_append.mpr ⟨_, hms, hms'⟩⟩

/-- Before its root is queued, the graph is at its start. -/
theorem Inv.execution_init (h : Inv s) (hset : Settled s) (hcalls : s.calls = [])
    (hnew : ∀ b, (s.event b).state = .none) (hroot : ¬ HasParent s.edges root) :
    s.execution root c₀ = (s.graph work).init root c₀ := by
  have hfinish : ∀ b, s.finish b = none := fun b => ((h.life b).new (hnew b)).2.2
  have hopen : ∀ b, openParents s.edges s.finish b = s.edges.countP fun x => x.2 = b := by
    intro b
    simp only [openParents, hfinish, and_true]
  have hcycle : ∀ b, s.toldCycle b = 0 := by
    intro b
    rw [Sim.toldCycle, hcalls]
    refine (h.reached b).resolve_right fun hc => ?_
    obtain ⟨p, f, -, hf, -⟩ := hc
    cases (hfinish p).symm.trans hf
  have hcycles : ∀ b, (if b = root then c₀ else s.toldCycle b) = Function.update (fun _ => 0) root c₀ b := by
    intro b
    rw [hcycle, Function.update_apply]
  simp only [Sim.execution, Graph.init, Sim.graph]
  congr 1
  · exact funext hopen
  · exact funext hcycles
  · funext b
    rw [hfinish, if_neg fun hne => hne rfl, hcycles]
    by_cases hb : b = root
    · have hzero : openParents s.edges s.finish b = 0 := by
        rw [hopen]
        refine List.countP_eq_zero.mpr fun x hx hcount => hroot ⟨x.1, ?_⟩
        rw [← hb, ← of_decide_eq_true hcount]
        exact hx
      rw [if_pos ⟨hzero, .inl hb⟩, hb, Function.update_self, Function.update_self]
    · rw [Function.update_of_ne hb, Function.update_of_ne hb]
      refine if_neg fun hand => ?_
      have hparent := mem_map_snd.mp (hand.2.resolve_left hb)
      refine hset b hparent (hnew b) ?_
      rw [h.counted b, hand.1, hcalls]
      rfl
  · funext b
    rw [hfinish]
    rfl

/-- The machine of the events refines their graph: connect events, queue one of them, and let each of the others be done
no earlier than its work allows. -/
theorem refines_graph {timing : ν → Timing} {xs ys : List (Action ν)} {s₁ : Sim ν}
    (hbuilt : GuardedRuns.run Sim.step (.init timing) xs = some s) (hnew : ∀ b, (s.event b).state = .none)
    (hdelays : ∀ b, (s.event b).delays = true → work b = 0)
    (hqueue : s.step (.queue root (c₀ + (s.event root).preDelay)) = some s₁)
    (htimely : EveryStep Sim.step (fun s x _ => s.Timely work x) s₁ ys)
    (hrun : GuardedRuns.run Sim.step s₁ ys = some t) :
    ∃ ms, GuardedRuns.run (s.graph work).step ((s.graph work).init root c₀) ms = some (t.execution root c₀) := by
  obtain ⟨h, hset⟩ := inv_run hbuilt
  obtain ⟨⟨hcalls, hroot, hnum, -⟩, heq⟩ := Option.ite_none_right_eq_some.mp hqueue
  have hsource : ¬ HasParent s.edges root := fun hparent => hset root hparent hroot hnum
  obtain ⟨hinv₁, hset₁⟩ := h.step hset hqueue
  have heq := Option.some.inj heq
  obtain ⟨hframe, hsame⟩ : Frame root s s₁ ∧ s₁.execution root c₀ = s.execution root c₀ := by
    rw [← heq]
    exact unseen_mark root (by simp) (.inr (.inl rfl)) rfl rfl rfl rfl fun b hb => absurd (hnew b) hb
  have hrooted : Rooted s₁ work root c₀ := {
    inv := hinv₁
    settled := hset₁
    source := hframe.edges ▸ hsource
    start := by
      rw [hframe.pre, ← heq]
      exact Function.update_self ..
    below := fun b hb => by
      rw [hframe.edges]
      exact (hframe.below b hb).resolve_left fun hne => hne (hnew b)
    delays := fun b hb => hdelays b (hframe.delays b ▸ hb) }
  obtain ⟨-, ms, hms⟩ := hrooted.run htimely hrun
  rw [hframe.graph, hsame, h.execution_init hset hcalls hnew hsource] at hms
  exact ⟨ms, hms⟩

/-- An event and its child, which is a delay. -/
theorem refines_graph_pair : ∃ s s₁ t : Sim (Fin 2), s.step (.queue 0 5) = some s₁ ∧
    GuardedRuns.run Sim.step s₁ [.run 0, .done 0 6, .go, .go, .go] = some t ∧ t.finish 1 = some 9 ∧
    ∃ ms, GuardedRuns.run (s.graph fun _ => 0).step ((s.graph fun _ => 0).init 0 5) ms = some (t.execution 0 5) := by
  obtain ⟨s, hbuilt⟩ := Option.isSome_iff_exists.mp (by decide : (GuardedRuns.run Sim.step
    (.init fun b : Fin 2 => ⟨0, if b = 1 then 3 else 0, 0, b = 1⟩) [.addChild 0 1]).isSome = true)
  have hs := Option.some.inj hbuilt
  have hnew : ∀ b, (s.event b).state = .none := by
    rw [← hs]
    decide
  have hpre : (s.event 0).preDelay = 0 := by
    rw [← hs]
    decide
  obtain ⟨s₁, hqueue⟩ := Option.isSome_iff_exists.mp (by rw [← hs]; decide : (s.step (.queue 0 5)).isSome = true)
  obtain ⟨t, hrun⟩ := Option.isSome_iff_exists.mp (by
    rw [← hs] at hqueue
    rw [← Option.some.inj hqueue]
    decide : (GuardedRuns.run Sim.step s₁ [.run 0, .done 0 6, .go, .go, .go]).isSome = true)
  have htimely : EveryStep Sim.step (fun s x _ => s.Timely (fun _ => 0) x) s₁ [.run 0, .done 0 6, .go, .go, .go] := by
    rw [← hs] at hqueue
    rw [← Option.some.inj hqueue]
    refine .cons rfl trivial (.cons rfl (fun c hc => ?_) (.cons rfl trivial (.cons rfl trivial (.cons rfl trivial trivial))))
    have hc : some 5 = some c := hc
    rw [← Option.some.inj hc]
    decide
  have hfinish : t.finish 1 = some 9 := by
    rw [← hs] at hqueue
    rw [← Option.some.inj hqueue] at hrun
    rw [← Option.some.inj hrun]
    decide
  exact ⟨s, s₁, t, hqueue, hrun, hfinish,
    refines_graph hbuilt hnew (fun _ _ => rfl) (by rw [hpre]; exact hqueue) htimely hrun⟩

end Refinement

end Zsim.TimingEvents
