import Zsim.WeaveThreads
import Mathlib.Data.List.MinMax

/-!
# The number of domains per thread

Phase after phase, a domain does the same alone on its thread as it does among
the domains of a larger thread, as long as none of its events is due exactly at
the limit of a phase.
-/

namespace Zsim.WeavePhases

open WeakestPre Outcomes Loops WeaveLoops WeaveQueueRuns WeaveLoopsRuns WeaveThreads

variable {α W : Type} [DecidableEq α] {E : Events α W} {phaseLength : ℕ} {top : Thread α W → ℕ}
  {firstDomain supDomain i : ℕ} {p : Phase α} {s s' : ContentionSim α W}

/-- A phase of a thread's domains leaves `s'`. -/
def PhaseEnds (E : Events α W) (phaseLength : ℕ) (top : Thread α W → ℕ) (firstDomain supDomain : ℕ)
    (p : Phase α) (s s' : ContentionSim α W) : Prop :=
  ∃ rounds, simulatePhase E phaseLength top firstDomain supDomain rounds p s = .ok ((), s')

/-- The clock of a phase. -/
def phaseClock (phaseLength : ℕ) (p : Phase α) (s : ContentionSim α W) : Clock :=
  ⟨s.lastLimit, p.limit, phaseLength⟩

/-- The events queued in a domain before the phase. -/
def arrive (phaseLength : ℕ) (p : Phase α) (s : ContentionSim α W) (i : ℕ) : Act α W Unit :=
  (p.arrivals i).forM fun e => queue (phaseClock phaseLength p s) e.1 e.2

/-- Each of the domains from `firstDomain` to before `supDomain` has a thread of its own. -/
def AloneEnd (E : Events α W) (phaseLength : ℕ) (top : Thread α W → ℕ) (firstDomain supDomain : ℕ)
    (p : Phase α) (alone alone' : ℕ → ContentionSim α W) : Prop :=
  ∀ i, firstDomain ≤ i → i < supDomain →
    PhaseEnds E phaseLength top i (i + 1) p (alone i) (alone' i)

/-- The domains of one thread end every phase exactly when each of them does on a
thread of its own. They run the same events at the same cycles then, and have run
those before the limit and none of those at or after it. -/
def Agree (E : Events α W) (phaseLength : ℕ) (top : Thread α W → ℕ) (firstDomain supDomain : ℕ) :
    List (Phase α) → ContentionSim α W → (ℕ → ContentionSim α W) → Prop
  | [], _, _ => True
  | p :: ps, s, alone =>
    (∀ s', PhaseEnds E phaseLength top firstDomain supDomain p s s' →
      ∃ alone', AloneEnd E phaseLength top firstDomain supDomain p alone alone') ∧
    ∀ alone', AloneEnd E phaseLength top firstDomain supDomain p alone alone' →
      ∃ s', PhaseEnds E phaseLength top firstDomain supDomain p s s' ∧
        (∀ i, firstDomain ≤ i → i < supDomain → s'.domains i = (alone' i).domains i ∧
          ∃ pending, Settled p.limit (s'.domains i) pending) ∧
        Agree E phaseLength top firstDomain supDomain ps s' alone'

/-- In no phase that ends is an event due exactly at the limit when the events
before it have run. -/
def OffLimits (E : Events α W) (phaseLength : ℕ) (top : Thread α W → ℕ)
    (firstDomain supDomain : ℕ) : List (Phase α) → (ℕ → ContentionSim α W) → Prop
  | [], _ => True
  | p :: ps, alone => ∀ alone', AloneEnd E phaseLength top firstDomain supDomain p alone alone' →
    (∀ i, firstDomain ≤ i → i < supDomain → ∀ d,
      arrive phaseLength p (alone i) i ((alone i).domains i) = .ok ((), d) →
        OffLimit E (phaseClock phaseLength p (alone i)) d) ∧
    OffLimits E phaseLength top firstDomain supDomain ps alone'

section Phase

theorem simulatePhase_ok {rounds : ℕ} :
    simulatePhase E phaseLength top firstDomain supDomain rounds p s = .ok ((), s') ↔
      s.lastLimit ≤ p.limit ∧ ∃ s₁ s₂,
        ((List.range' firstDomain (supDomain - firstDomain)).forM fun i =>
          onDomain i (arrive phaseLength p s i)) s = .ok ((), s₁) ∧
        simulatePhaseThread E (phaseClock phaseLength p s) top firstDomain supDomain rounds s₁ =
          .ok ((), s₂) ∧ s' = { s₂ with lastLimit := p.limit } := by
  have hwp : ∀ m : SimAct α W Unit, m s = .ok ((), s') ↔ wp m (fun _ x => x = s') s := by
    intro m
    constructor
    · exact fun hm => ⟨(), s', hm, rfl⟩
    · rintro ⟨_, x, hm, hx⟩
      rw [hm, hx]
  rw [hwp]
  unfold simulatePhase
  simp only [wp_bind, wp_observe, wp_ensure, wp_change]
  constructor
  · rintro ⟨_, s₁, harrive, hlimit, _, s₂, hthread, hs'⟩
    exact ⟨hlimit, s₁, s₂, harrive, hthread, hs'.symm⟩
  · rintro ⟨hlimit, s₁, s₂, harrive, hthread, hs'⟩
    exact ⟨(), s₁, harrive, hlimit, (), s₂, hthread, hs'.symm⟩

/-- A phase of a domain with a thread of its own. -/
theorem phaseEnds_one : PhaseEnds E phaseLength top i (i + 1) p s s' ↔
    s.lastLimit ≤ p.limit ∧ ∃ d e, arrive phaseLength p s i (s.domains i) = .ok ((), d) ∧
      Ends (aloneTurn E (phaseClock phaseLength p s)) d e ∧
      s' = { s with domains := Function.update s.domains i e, lastLimit := p.limit } := by
  have hrange : List.range' i (i + 1 - i) = [i] := by
    rw [Nat.add_sub_cancel_left]
    rfl
  constructor
  · rintro ⟨rounds, hrun⟩
    obtain ⟨hlimit, s₁, s₂, harrive, hthread, hs'⟩ := simulatePhase_ok.mp hrun
    rw [hrange, forM_onDomain (List.nodup_singleton i)] at harrive
    obtain ⟨hall, hothers, hs₁⟩ := harrive
    obtain ⟨e, hloop, hs₂⟩ := simulatePhaseThread_one.mp hthread
    refine ⟨hlimit, s₁.domains i, e, hall i List.mem_cons_self, ends_of_loop hloop, ?_⟩
    have hdomains : Function.update s₁.domains i e = Function.update s.domains i e := by
      funext j
      by_cases hj : j = i
      · rw [hj, Function.update_self, Function.update_self]
      · rw [Function.update_of_ne hj, Function.update_of_ne hj]
        exact hothers j fun hin => hj (List.mem_singleton.mp hin)
    rw [hs', hs₂, hdomains, hs₁]
  · rintro ⟨hlimit, d, e, harrive, hends, hs'⟩
    obtain ⟨rounds, hloop⟩ := (ends_iff_loop (e := WeaveFailure.endless)).mp hends
    let s₁ : ContentionSim α W := { s with domains := Function.update s.domains i d }
    have hself : s₁.domains i = d := Function.update_self _ _ _
    refine ⟨rounds, simulatePhase_ok.mpr ⟨hlimit, s₁, { s₁ with
      domains := Function.update s₁.domains i e }, ?_, ?_, ?_⟩⟩
    · rw [hrange, forM_onDomain (List.nodup_singleton i)]
      refine ⟨fun j hj => ?_, fun j hj => ?_, rfl⟩
      · obtain rfl := List.mem_singleton.mp hj
        rw [harrive, hself]
      · exact Function.update_of_ne (fun heq => hj (List.mem_singleton.mpr heq)) _ _
    · exact simulatePhaseThread_one.mpr ⟨e, hself ▸ hloop, rfl⟩
    · rw [hs']
      simp only [s₁, Function.update_idem]

/-- A settled domain starts the next phase soundly. -/
theorem arrive_spec {d d' : Domain α W} {pending : Pending α} (h : Settled s.lastLimit d pending)
    (hlimit : s.lastLimit ≤ p.limit) (hbounded : s.lastLimit < 2 ^ 62)
    (hrun : arrive phaseLength p s i d = .ok ((), d')) :
    (∃ p', Sound (phaseClock phaseLength p s) [] d' p') ∧ d'.logVec = d.logVec := by
  have hstart : Sound (phaseClock phaseLength p s) [] d pending := by
    constructor
    · exact h.stores
    · rw [h.current]
      exact h.block
    · exact h.block.trans (Nat.div_le_div_right hlimit)
    · rw [h.current]
      exact h.pending
    · exact h.queued
    · exact h.log
    · exact h.current.ge
    · exact h.prio
    · exact hbounded
  have hspec : ends Any (arrive phaseLength p s i) (fun _ d' =>
      (∃ p', Sound (phaseClock phaseLength p s) [] d' p') ∧ d'.curCycle = s.lastLimit ∧
        d'.logVec = d.logVec) d := by
    refine ends_forM (fun d' => (∃ p', Sound (phaseClock phaseLength p s) [] d' p') ∧
      d'.curCycle = s.lastLimit ∧ d'.logVec = d.logVec) ?_ ⟨⟨_, hstart⟩, h.current, rfl⟩
    intro e _ d₁ hinv
    obtain ⟨⟨p₁, hsound⟩, hcur, hlog⟩ := hinv
    refine ends_mono (queue_spec hsound hcur e.1 e.2) ?_
    intro _ d₂ hkept
    obtain ⟨hsound₂, hcur₂, hlog₂⟩ := hkept
    exact ⟨hsound₂, hcur₂.trans hcur, hlog₂.trans hlog⟩
  unfold ends at hspec
  rw [hrun] at hspec
  exact ⟨hspec.1, hspec.2.2⟩

/-- What the domains of a thread have in common with those on threads of their own. -/
structure Aligned (firstDomain supDomain limit : ℕ) (s : ContentionSim α W)
    (alone : ℕ → ContentionSim α W) : Prop where
  last : s.lastLimit = limit
  aloneLast : ∀ i, firstDomain ≤ i → i < supDomain → (alone i).lastLimit = limit
  same : ∀ i, firstDomain ≤ i → i < supDomain → s.domains i = (alone i).domains i
  settled : ∀ i, firstDomain ≤ i → i < supDomain → ∃ pending, Settled limit (s.domains i) pending

/-- A phase of a thread with several domains. -/
theorem phaseEnds_many (hE : NoCrossings E) (htop : HeapTop top) (hmany : firstDomain + 2 ≤ supDomain)
    (hsettled : ∀ i, firstDomain ≤ i → i < supDomain →
      ∃ pending, Settled s.lastLimit (s.domains i) pending) (hbounded : s.lastLimit < 2 ^ 62)
    {es : ℕ → Domain α W} :
    (∃ s', PhaseEnds E phaseLength top firstDomain supDomain p s s' ∧ s'.domains = es) ↔
      s.lastLimit ≤ p.limit ∧ (∀ i, firstDomain ≤ i → i < supDomain → ∃ d,
        arrive phaseLength p s i (s.domains i) = .ok ((), d) ∧
        Ends (visitTurn (phaseClock phaseLength p s) (run E (phaseClock phaseLength p s))) d (es i)) ∧
      ∀ i, ¬(firstDomain ≤ i ∧ i < supDomain) → es i = s.domains i := by
  have hmem : ∀ i, i ∈ List.range' firstDomain (supDomain - firstDomain) ↔
      firstDomain ≤ i ∧ i < supDomain := by
    intro i
    rw [List.mem_range'_1]
    omega
  constructor
  · rintro ⟨s', ⟨rounds, hrun⟩, hes⟩
    obtain ⟨hlimit, s₁, s₂, harrive, hthread, hs'⟩ := simulatePhase_ok.mp hrun
    rw [forM_onDomain List.nodup_range'] at harrive
    obtain ⟨hall, hothers, hs₁⟩ := harrive
    have hsound : ∀ i, firstDomain ≤ i → i < supDomain →
        ∃ p', Sound (phaseClock phaseLength p s) [] (s₁.domains i) p' := by
      intro i hlo hhi
      obtain ⟨pending, h⟩ := hsettled i hlo hhi
      exact (arrive_spec h hlimit hbounded (hall i ((hmem i).mpr ⟨hlo, hhi⟩))).1
    obtain ⟨⟨hends, hrest⟩, -⟩ := allEnd_of_thread hE htop hmany hsound hthread
    have hdomains : s₂.domains = es := by rw [← hes, hs']
    rw [hdomains] at hends hrest
    refine ⟨hlimit, fun i hlo hhi => ?_, fun i hi => ?_⟩
    · have hi := (hmem i).mpr ⟨hlo, hhi⟩
      exact ⟨s₁.domains i, hall i hi, hends i hi⟩
    · have hout : i ∉ List.range' firstDomain (supDomain - firstDomain) :=
        fun hin => hi ((hmem i).mp hin)
      rw [hrest i hout, hothers i hout]
  · rintro ⟨hlimit, hdomains, hothers⟩
    have hds : ∀ i, ∃ d, (firstDomain ≤ i ∧ i < supDomain →
        arrive phaseLength p s i (s.domains i) = .ok ((), d) ∧
        Ends (visitTurn (phaseClock phaseLength p s) (run E (phaseClock phaseLength p s))) d (es i)) ∧
        (¬(firstDomain ≤ i ∧ i < supDomain) → d = s.domains i) := by
      intro i
      by_cases hi : firstDomain ≤ i ∧ i < supDomain
      · obtain ⟨d, hd⟩ := hdomains i hi.1 hi.2
        exact ⟨d, fun _ => hd, fun hnot => absurd hi hnot⟩
      · exact ⟨s.domains i, fun hin => absurd hin hi, fun _ => rfl⟩
    choose ds hin hout using hds
    let s₁ : ContentionSim α W := { s with domains := ds }
    have harrive : ((List.range' firstDomain (supDomain - firstDomain)).forM fun i =>
        onDomain i (arrive phaseLength p s i)) s = .ok ((), s₁) := by
      rw [forM_onDomain List.nodup_range']
      refine ⟨fun i hi => (hin i ((hmem i).mp hi)).1, fun i hi => ?_, rfl⟩
      exact hout i fun h => hi ((hmem i).mpr h)
    have hsound : ∀ i, firstDomain ≤ i → i < supDomain →
        ∃ p', Sound (phaseClock phaseLength p s) [] (s₁.domains i) p' := by
      intro i hlo hhi
      obtain ⟨pending, h⟩ := hsettled i hlo hhi
      exact (arrive_spec h hlimit hbounded (hin i ⟨hlo, hhi⟩).1).1
    have hall : AllEnd (visitTurn (phaseClock phaseLength p s) (run E (phaseClock phaseLength p s)))
        (List.range' firstDomain (supDomain - firstDomain)) s₁.domains es := by
      constructor
      · exact fun i hi => (hin i ((hmem i).mp hi)).2
      · intro i hi
        have hi' : ¬(firstDomain ≤ i ∧ i < supDomain) := fun h => hi ((hmem i).mpr h)
        rw [hothers i hi']
        exact (hout i hi').symm
    obtain ⟨rounds, s₂, hthread, hes⟩ := thread_of_allEnd hE htop hmany hsound hall
    exact ⟨{ s₂ with lastLimit := p.limit },
      ⟨rounds, simulatePhase_ok.mpr ⟨hlimit, s₁, s₂, harrive, hthread, rfl⟩⟩, hes⟩

/-- A phase of the domains on threads of their own settles them at its limit. -/
theorem aloneEnd_settled (hE : NoCrossings E) {limit : ℕ} {alone alone' : ℕ → ContentionSim α W}
    (h : Aligned firstDomain supDomain limit s alone) (hbounded : limit < 2 ^ 62)
    (hends : AloneEnd E phaseLength top firstDomain supDomain p alone alone')
    (hlo : firstDomain ≤ i) (hhi : i < supDomain) :
    limit ≤ p.limit ∧ (alone' i).lastLimit = p.limit ∧ ∃ d pending,
      arrive phaseLength p s i (s.domains i) = .ok ((), d) ∧
      (∃ p', Sound (phaseClock phaseLength p s) [] d p') ∧
      Ends (aloneTurn E (phaseClock phaseLength p s)) d ((alone' i).domains i) ∧
      Settled p.limit ((alone' i).domains i) pending := by
  obtain ⟨hlimit, d, e, harrive, hloop, halone'⟩ := phaseEnds_one.mp (hends i hlo hhi)
  have hlast := h.aloneLast i hlo hhi
  have hclock : phaseClock phaseLength p (alone i) = phaseClock phaseLength p s := by
    rw [phaseClock, phaseClock, hlast, h.last]
  have harrive' : arrive phaseLength p s i (s.domains i) = .ok ((), d) := by
    rw [arrive, ← hclock, h.same i hlo hhi]
    exact harrive
  rw [hclock] at hloop
  rw [hlast] at hlimit
  have hend : (alone' i).domains i = e := by
    rw [halone']
    exact Function.update_self _ _ _
  obtain ⟨pending, hpending⟩ := h.settled i hlo hhi
  rw [← h.last] at hpending hlimit hbounded
  obtain ⟨⟨p', hsound⟩, hlog⟩ := arrive_spec hpending hlimit hbounded harrive'
  have hran : ∀ x ∈ d.logVec, x.1 < p.limit := by
    rw [hlog]
    exact fun x hx => (hpending.ran x hx).trans_le hlimit
  obtain ⟨pending', hsettled⟩ := ends_alone hE hsound hran hloop
  rw [hend, ← h.last]
  exact ⟨hlimit, by rw [halone'], d, pending', harrive', ⟨p', hsound⟩, hloop, hsettled⟩

/-- The next phase starts with the domains aligned. -/
theorem Aligned.next {limit : ℕ} {alone alone' : ℕ → ContentionSim α W}
    (hphase : PhaseEnds E phaseLength top firstDomain supDomain p s s')
    (halone : ∀ i, firstDomain ≤ i → i < supDomain → (alone' i).lastLimit = p.limit)
    (hsame : ∀ i, firstDomain ≤ i → i < supDomain → s'.domains i = (alone' i).domains i)
    (hsettled : ∀ i, firstDomain ≤ i → i < supDomain →
      ∃ pending, Settled p.limit (s'.domains i) pending)
    (_ : Aligned firstDomain supDomain limit s alone) :
    Aligned firstDomain supDomain p.limit s' alone' := by
  obtain ⟨rounds, hrun⟩ := hphase
  obtain ⟨-, s₁, s₂, -, -, hs'⟩ := simulatePhase_ok.mp hrun
  exact ⟨by rw [hs'], halone, hsame, hsettled⟩

end Phase

section Agreement

variable {limit : ℕ} {alone alone' : ℕ → ContentionSim α W}

omit [DecidableEq α] in
theorem Aligned.clock (h : Aligned firstDomain supDomain limit s alone) (hlo : firstDomain ≤ i)
    (hhi : i < supDomain) : phaseClock phaseLength p (alone i) = phaseClock phaseLength p s := by
  rw [phaseClock, phaseClock, h.aloneLast i hlo hhi, h.last]

theorem Aligned.arrive (h : Aligned firstDomain supDomain limit s alone) (hlo : firstDomain ≤ i)
    (hhi : i < supDomain) : WeavePhases.arrive phaseLength p (alone i) i ((alone i).domains i) =
      WeavePhases.arrive phaseLength p s i (s.domains i) := by
  rw [WeavePhases.arrive, WeavePhases.arrive, h.clock hlo hhi, h.same i hlo hhi]

/-- Where the domains of one thread end a phase, each ends it on a thread of its own. -/
theorem aloneEnd_of_phaseEnds (hE : NoCrossings E) (htop : HeapTop top)
    (hmany : firstDomain + 2 ≤ supDomain) (h : Aligned firstDomain supDomain limit s alone)
    (hlimit : limit < 2 ^ 62)
    (hphase : PhaseEnds E phaseLength top firstDomain supDomain p s s') :
    ∃ alone', AloneEnd E phaseLength top firstDomain supDomain p alone alone' := by
  have hsettled : ∀ i, firstDomain ≤ i → i < supDomain →
      ∃ pending, Settled s.lastLimit (s.domains i) pending := h.last.symm ▸ h.settled
  have hbounded : s.lastLimit < 2 ^ 62 := h.last.symm ▸ hlimit
  obtain ⟨hle, hdomains, -⟩ := (phaseEnds_many hE htop hmany hsettled hbounded).mp ⟨s', hphase, rfl⟩
  have hone : ∀ i, ∃ t, firstDomain ≤ i → i < supDomain →
      PhaseEnds E phaseLength top i (i + 1) p (alone i) t := by
    intro i
    by_cases hi : firstDomain ≤ i ∧ i < supDomain
    · obtain ⟨hlo, hhi⟩ := hi
      obtain ⟨d, harrive, hends⟩ := hdomains i hlo hhi
      obtain ⟨pending, hpending⟩ := hsettled i hlo hhi
      obtain ⟨⟨p', hsound⟩, -⟩ := arrive_spec hpending hle hbounded harrive
      obtain ⟨e, he⟩ := ends_alone_of_visit hE hsound hends
      refine ⟨_, fun _ _ => phaseEnds_one.mpr ⟨?_, d, e, ?_, ?_, rfl⟩⟩
      · rw [h.aloneLast i hlo hhi, ← h.last]
        exact hle
      · rw [h.arrive hlo hhi]
        exact harrive
      · rw [h.clock hlo hhi]
        exact he
    · exact ⟨s, fun hlo hhi => absurd ⟨hlo, hhi⟩ hi⟩
  choose alone' halone' using hone
  exact ⟨alone', halone'⟩

/-- Where no event is due at the limit, the domains of one thread end a phase as each of
them does on a thread of its own. -/
theorem phaseEnds_of_offLimit (hE : NoCrossings E) (htop : HeapTop top)
    (hmany : firstDomain + 2 ≤ supDomain) (h : Aligned firstDomain supDomain limit s alone)
    (hlimit : limit < 2 ^ 62)
    (hends : AloneEnd E phaseLength top firstDomain supDomain p alone alone')
    (hoff : ∀ i, firstDomain ≤ i → i < supDomain → ∀ d,
      WeavePhases.arrive phaseLength p (alone i) i ((alone i).domains i) = .ok ((), d) →
        OffLimit E (phaseClock phaseLength p (alone i)) d) :
    ∃ s', PhaseEnds E phaseLength top firstDomain supDomain p s s' ∧
      ∀ i, firstDomain ≤ i → i < supDomain → s'.domains i = (alone' i).domains i := by
  have hsettled : ∀ i, firstDomain ≤ i → i < supDomain →
      ∃ pending, Settled s.lastLimit (s.domains i) pending := h.last.symm ▸ h.settled
  have hbounded : s.lastLimit < 2 ^ 62 := h.last.symm ▸ hlimit
  let es : ℕ → Domain α W := fun i =>
    if firstDomain ≤ i ∧ i < supDomain then (alone' i).domains i else s.domains i
  have hes : ∀ i, firstDomain ≤ i → i < supDomain → es i = (alone' i).domains i :=
    fun i hlo hhi => if_pos ⟨hlo, hhi⟩
  have hdomains : s.lastLimit ≤ p.limit ∧ (∀ i, firstDomain ≤ i → i < supDomain → ∃ d,
      WeavePhases.arrive phaseLength p s i (s.domains i) = .ok ((), d) ∧
      Ends (visitTurn (phaseClock phaseLength p s) (run E (phaseClock phaseLength p s))) d (es i)) ∧
      ∀ i, ¬(firstDomain ≤ i ∧ i < supDomain) → es i = s.domains i := by
    refine ⟨?_, fun i hlo hhi => ?_, fun i hi => if_neg hi⟩
    · rw [h.last]
      exact (aloneEnd_settled hE h hlimit hends le_rfl (by omega : firstDomain < supDomain)).1
    · obtain ⟨-, -, d, -, harrive, ⟨p', hsound⟩, hloop, -⟩ :=
        aloneEnd_settled hE h hlimit hends hlo hhi
      refine ⟨d, harrive, ?_⟩
      have hoff' := hoff i hlo hhi d ((h.arrive hlo hhi).trans harrive)
      rw [h.clock hlo hhi] at hoff'
      rw [hes i hlo hhi]
      exact (ends_visit_iff hE hsound hoff').mp hloop
  obtain ⟨s', hphase, hs'⟩ := (phaseEnds_many hE htop hmany hsettled hbounded).mpr hdomains
  exact ⟨s', hphase, fun i hlo hhi => by rw [hs', hes i hlo hhi]⟩

/-- Where the domains of one thread have run no event at the limit, none was due there. -/
theorem offLimit_of_phaseEnds (hE : NoCrossings E) (htop : HeapTop top)
    (hmany : firstDomain + 2 ≤ supDomain) (h : Aligned firstDomain supDomain limit s alone)
    (hlimit : limit < 2 ^ 62)
    (hphase : PhaseEnds E phaseLength top firstDomain supDomain p s s') (hlo : firstDomain ≤ i)
    (hhi : i < supDomain) {pending : Pending α} (hsettled' : Settled p.limit (s'.domains i) pending)
    {d : Domain α W}
    (harrive : WeavePhases.arrive phaseLength p (alone i) i ((alone i).domains i) = .ok ((), d)) :
    OffLimit E (phaseClock phaseLength p (alone i)) d := by
  have hsettled : ∀ i, firstDomain ≤ i → i < supDomain →
      ∃ pending, Settled s.lastLimit (s.domains i) pending := h.last.symm ▸ h.settled
  have hbounded : s.lastLimit < 2 ^ 62 := h.last.symm ▸ hlimit
  obtain ⟨hle, hdomains, -⟩ := (phaseEnds_many hE htop hmany hsettled hbounded).mp ⟨s', hphase, rfl⟩
  obtain ⟨d', harrive', hends⟩ := hdomains i hlo hhi
  rw [h.arrive hlo hhi, harrive'] at harrive
  cases harrive
  obtain ⟨before, hbefore⟩ := hsettled i hlo hhi
  obtain ⟨⟨p', hsound⟩, -⟩ := arrive_spec hbefore hle hbounded harrive'
  rw [h.clock hlo hhi]
  exact offLimit_of_visit hE hsound hends hsettled'.ran

/-- The domains of one thread agree with the same domains on threads of their own
exactly when no event is due at the limit of a phase. -/
theorem agree_iff_of_aligned (hE : NoCrossings E) (htop : HeapTop top)
    (hmany : firstDomain + 2 ≤ supDomain) (phases : List (Phase α))
    (h : Aligned firstDomain supDomain limit s alone) (hlimit : limit < 2 ^ 62)
    (hlimits : ∀ p ∈ phases, p.limit < 2 ^ 62) :
    Agree E phaseLength top firstDomain supDomain phases s alone ↔
      OffLimits E phaseLength top firstDomain supDomain phases alone := by
  induction phases generalizing s alone limit with
  | nil => exact Iff.rfl
  | cons p ps ih =>
    have hrest := fun {s' alone'} (h' : Aligned firstDomain supDomain p.limit s' alone') =>
      ih h' (hlimits p List.mem_cons_self) fun p' hp' => hlimits p' (List.mem_cons_of_mem p hp')
    constructor
    · rintro ⟨_, hagree⟩ alone' hends
      obtain ⟨s', hphase, hsame, hagree'⟩ := hagree alone' hends
      have hnext : Aligned firstDomain supDomain p.limit s' alone' := by
        refine h.next hphase (fun i hlo hhi => ?_) (fun i hlo hhi => (hsame i hlo hhi).1)
          fun i hlo hhi => (hsame i hlo hhi).2
        exact (aloneEnd_settled hE h hlimit hends hlo hhi).2.1
      refine ⟨fun i hlo hhi d harrive => ?_, (hrest hnext).mp hagree'⟩
      obtain ⟨pending, hsettled⟩ := (hsame i hlo hhi).2
      exact offLimit_of_phaseEnds hE htop hmany h hlimit hphase hlo hhi hsettled harrive
    · intro hoffs
      refine ⟨fun s' hphase => aloneEnd_of_phaseEnds hE htop hmany h hlimit hphase, ?_⟩
      intro alone' hends
      obtain ⟨hoff, hoffs'⟩ := hoffs alone' hends
      obtain ⟨s', hphase, hsame⟩ := phaseEnds_of_offLimit hE htop hmany h hlimit hends hoff
      have hsettled : ∀ i, firstDomain ≤ i → i < supDomain →
          ∃ pending, Settled p.limit (s'.domains i) pending := by
        intro i hlo hhi
        obtain ⟨-, -, -, pending, -, -, -, hpending⟩ := aloneEnd_settled hE h hlimit hends hlo hhi
        exact ⟨pending, (hsame i hlo hhi).symm ▸ hpending⟩
      have hnext : Aligned firstDomain supDomain p.limit s' alone' := by
        refine h.next hphase (fun i hlo hhi => ?_) hsame hsettled
        exact (aloneEnd_settled hE h hlimit hends hlo hhi).2.1
      exact ⟨s', hphase, fun i hlo hhi => ⟨hsame i hlo hhi, hsettled i hlo hhi⟩, (hrest hnext).mpr hoffs'⟩

omit [DecidableEq α] in
/-- A new simulation is settled. -/
theorem aligned_new (world : ℕ → W) : Aligned firstDomain supDomain 0
    (ContentionSim.new world : ContentionSim α W) fun _ => ContentionSim.new world := by
  have hnew : ∀ i, Settled 0 ((ContentionSim.new world : ContentionSim α W).domains i) ⟨∅, 0⟩ := by
    intro i
    refine ⟨stores_new, le_rfl, ?_, ?_, ?_, ?_, rfl, rfl⟩
    · exact fun e he => absurd he (Finset.notMem_empty e)
    · exact fun e he => absurd he (Finset.notMem_empty e)
    · simp [ContentionSim.new, Domain.new]
    · exact fun e he => absurd he List.not_mem_nil
  exact ⟨rfl, fun _ _ _ => rfl, fun _ _ _ => rfl, fun i _ _ => ⟨_, hnew i⟩⟩

end Agreement

/-- The number of domains per thread changes nothing in a run exactly when no event
is due at the limit of a phase. -/
theorem loops_agree_iff (E : Events α W) (hE : NoCrossings E) (phaseLength : ℕ)
    (top : Thread α W → ℕ) (htop : HeapTop top) (firstDomain supDomain : ℕ)
    (hmany : firstDomain + 2 ≤ supDomain) (world : ℕ → W) (phases : List (Phase α))
    (hlimits : ∀ p ∈ phases, p.limit < 2 ^ 62) :
    Agree E phaseLength top firstDomain supDomain phases (ContentionSim.new world)
        (fun _ => ContentionSim.new world) ↔
      OffLimits E phaseLength top firstDomain supDomain phases fun _ => ContentionSim.new world :=
  agree_iff_of_aligned hE htop hmany phases (aligned_new world) (Nat.two_pow_pos 62) hlimits

/-- Events that are done at once. -/
def brief : Events ℕ Unit := ⟨fun ev _ world => ([.done ev], world), fun _ => 0⟩

/-- The domain that comes first among those with the lowest `queuePrio`. -/
def firstTop (t : Thread ℕ Unit) : ℕ := (t.domPq.argmin t.queuePrio).getD 0

theorem brief_noCrossings : NoCrossings brief := by
  intro ev cycle world prio hmem
  cases List.mem_singleton.mp hmem

theorem firstTop_heapTop : HeapTop firstTop := by
  intro t hne
  cases hmin : t.domPq.argmin t.queuePrio with
  | none => exact absurd (List.argmin_eq_none.mp hmin) hne
  | some i =>
    have htop : firstTop t = i := by rw [firstTop, hmin, Option.getD_some]
    rw [htop]
    exact ⟨List.argmin_mem hmin, fun j hj => List.le_of_mem_argmin hj hmin⟩

/-- An event of the first domain, and the limit of the phase. -/
def onePhase (cycle limit : ℕ) : Phase ℕ := ⟨fun i => if i = 0 then [(7, cycle)] else [], limit⟩

/-- Two domains, with one event before the limit. -/
theorem brief_agree : Agree brief 1000 firstTop 0 2 [onePhase 9 10]
      (ContentionSim.new fun _ => ()) (fun _ => ContentionSim.new fun _ => ()) ↔
    OffLimits brief 1000 firstTop 0 2 [onePhase 9 10] fun _ => ContentionSim.new fun _ => () :=
  loops_agree_iff brief brief_noCrossings 1000 firstTop firstTop_heapTop 0 2 (by decide)
    (fun _ => ()) [onePhase 9 10] fun p hp => by
      rw [List.mem_singleton.mp hp]
      change 10 < 2 ^ 62
      omega

/-- A domain whose first turn is its last ends the phase. -/
theorem ends_at_once {p : Phase ℕ} {s : ContentionSim ℕ Unit} {i : ℕ}
    (hrun : (arrive 1000 p s i (s.domains i)).bind (fun r =>
      (aloneTurn brief (phaseClock 1000 p s) r.2).map Prod.fst) = .ok false) :
    ∃ d e, arrive 1000 p s i (s.domains i) = .ok ((), d) ∧
      Ends (aloneTurn brief (phaseClock 1000 p s)) d e := by
  cases harrive : arrive 1000 p s i (s.domains i) with
  | error x =>
    rw [harrive] at hrun
    cases hrun
  | ok r =>
    rw [harrive] at hrun
    change (aloneTurn brief (phaseClock 1000 p s) r.2).map Prod.fst = .ok false at hrun
    cases hturn : aloneTurn brief (phaseClock 1000 p s) r.2 with
    | error x =>
      rw [hturn] at hrun
      cases hrun
    | ok x =>
      obtain ⟨again, e⟩ := x
      rw [hturn] at hrun
      cases hrun
      exact ⟨r.2, e, rfl, 1, .last hturn⟩

/-- Two domains, with one event at the limit: it runs a phase earlier among two domains. -/
theorem limit_event_disagrees : ¬Agree brief 1000 firstTop 0 2 [onePhase 10 10]
    (ContentionSim.new fun _ => ()) (fun _ => ContentionSim.new fun _ => ()) := by
  have hlimit : (10 : ℕ) < 2 ^ 62 := by omega
  have hnew : Aligned 0 2 0 (ContentionSim.new fun _ => () : ContentionSim ℕ Unit)
      fun _ => ContentionSim.new fun _ => () := aligned_new _
  rw [agree_iff_of_aligned brief_noCrossings firstTop_heapTop (by decide) _ hnew
    (Nat.two_pow_pos 62) fun p hp => by rw [List.mem_singleton.mp hp]; exact hlimit]
  intro hoffs
  let s : ContentionSim ℕ Unit := ContentionSim.new fun _ => ()
  obtain ⟨d, e, harrive, hends⟩ : ∃ d e, arrive 1000 (onePhase 10 10) s 0 (s.domains 0) = .ok ((), d) ∧
      Ends (aloneTurn brief (phaseClock 1000 (onePhase 10 10) s)) d e :=
    ends_at_once (by decide +kernel)
  obtain ⟨d₁, e₁, harrive₁, hends₁⟩ : ∃ d e,
      arrive 1000 (onePhase 10 10) s 1 (s.domains 1) = .ok ((), d) ∧
      Ends (aloneTurn brief (phaseClock 1000 (onePhase 10 10) s)) d e :=
    ends_at_once (by decide +kernel)
  have halone : ∀ i, ∃ t, 0 ≤ i → i < 2 →
      PhaseEnds brief 1000 firstTop i (i + 1) (onePhase 10 10) s t := by
    intro i
    obtain _ | _ | i := i
    · exact ⟨_, fun _ _ => phaseEnds_one.mpr ⟨Nat.zero_le _, d, e, harrive, hends, rfl⟩⟩
    · exact ⟨_, fun _ _ => phaseEnds_one.mpr ⟨Nat.zero_le _, d₁, e₁, harrive₁, hends₁, rfl⟩⟩
    · exact ⟨s, fun _ hi => absurd hi (by omega)⟩
  choose alone' halone' using halone
  -- the event is pending, and due at the limit
  have hfirst : (arrive 1000 (onePhase 10 10) s 0 (s.domains 0)).toOption.bind (fun r =>
      (WeaveQueue.firstCycle pqBlocks r.2.pq).toOption.map Prod.fst) = some 10 := by decide +kernel
  obtain ⟨pending, hpending⟩ := hnew.settled 0 le_rfl (by decide)
  obtain ⟨⟨p', hsound⟩, -⟩ := arrive_spec hpending (Nat.zero_le _) (Nat.two_pow_pos 62) harrive
  rw [harrive] at hfirst
  change (WeaveQueue.firstCycle pqBlocks d.pq).toOption.map Prod.fst = some 10 at hfirst
  cases hcycle : WeaveQueue.firstCycle pqBlocks d.pq with
  | error x =>
    rw [hcycle] at hfirst
    cases hfirst
  | ok r =>
    obtain ⟨cycle, pq⟩ := r
    rw [hcycle] at hfirst
    cases hfirst
    have hearliest := hsound.stores.earliest (by decide) (by decide) hcycle
    exact (hoffs alone' halone').1 0 le_rfl (by decide) d harrive d .refl (hsound.firstCycle hearliest)

end Zsim.WeavePhases
