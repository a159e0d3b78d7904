import Zsim.WeaveLoopsRuns

/-!
# Threads with one domain and with several

A thread with several domains visits them in some order until none has an event
up to the limit. The order does not matter, since the domains share no state, so
each domain ends as its visits alone end.
-/

namespace Zsim.WeaveThreads

open WeakestPre Outcomes Loops WeaveLoops WeaveQueueRuns WeaveLoopsRuns

variable {α W : Type} [DecidableEq α] {E : Events α W} {c : Clock} {top : Thread α W → ℕ}
  {t t' : Thread α W} {s s' : ContentionSim α W}

/-- `domPq.top()` is a domain of the heap with the lowest `queuePrio`. -/
def HeapTop (top : Thread α W → ℕ) : Prop :=
  ∀ t, t.domPq ≠ [] → top t ∈ t.domPq ∧ ∀ i ∈ t.domPq, t.queuePrio (top t) ≤ t.queuePrio i

/-- A thread whose domains have no crossing events. -/
structure Steady (c : Clock) (thDomains : ℕ) (t : Thread α W) : Prop where
  nodup : t.domPq.Nodup
  stalled : t.stalledQueue = []
  nextStalled : t.nextStalledQueue = []
  count : t.numFinished + t.domPq.length = thDomains
  sound : ∀ i ∈ t.domPq, ∃ p, Sound c [] (t.domains i) p

section Turns

variable {n i : ℕ} {d : Domain α W}

omit [DecidableEq α] in
theorem onDomain_ok {β : Type} {m : Act α W β} {b : β} (h : m (s.domains i) = .ok (b, d)) :
    onDomain i m s = .ok (b, { s with domains := Function.update s.domains i d }) := by
  rw [onDomain, h]

omit [DecidableEq α] in
theorem onDomain_error {β : Type} {m : Act α W β} {e : WeaveFailure}
    (h : m (s.domains i) = .error e) : onDomain i m s = .error e := by
  rw [onDomain, h]

/-- The thread after a visit of `i` that is not the last. -/
def visited (t : Thread α W) (i : ℕ) (d : Domain α W) : Thread α W :=
  { t with
    domains := Function.update t.domains i d
    queuePrio := Function.update t.queuePrio i d.curCycle
    domPq := i :: t.domPq.erase i }

/-- The thread after the last visit of `i`. -/
def retired (t : Thread α W) (i : ℕ) (d : Domain α W) : Thread α W :=
  { t with
    domains := Function.update t.domains i d
    domPq := t.domPq.erase i
    numFinished := t.numFinished + 1 }

theorem domPqTurn_nil (h : t.domPq = []) : domPqTurn E c top t = .ok (false, t) := by
  have hobserve : (observe fun t => t : ThreadAct α W (Thread α W)) t = .ok (t, t) := rfl
  rw [domPqTurn, ok_bind hobserve, if_pos h]
  rfl

omit [DecidableEq α] in
theorem onSim_ok {β : Type} {m : SimAct α W β} {b : β} (h : m t.toContentionSim = .ok (b, s)) :
    onSim m t = .ok (b, { t with toContentionSim := s }) := by
  rw [onSim, h]

omit [DecidableEq α] in
theorem onSim_error {β : Type} {m : SimAct α W β} {e : WeaveFailure}
    (h : m t.toContentionSim = .error e) : onSim m t = .error e := by
  rw [onSim, h]

/-- A visit whose domain does not become stalled. -/
theorem visit_ok {stall : Thread α W → Thread α W} {start : α → ℕ → Act α W Unit} {again : Bool}
    (h : visitTurn c start (t.domains i) = .ok (again, d)) (hprio : d.prio = 0) :
    visit c i start stall t = .ok ((),
      { t with
        domains := Function.update t.domains i d
        queuePrio := if again then Function.update t.queuePrio i d.curCycle else t.queuePrio
        domPq := if again then i :: t.domPq else t.domPq
        numFinished := if again then t.numFinished else t.numFinished + 1 }) := by
  rw [visit, ok_bind (onSim_ok (onDomain_ok h))]
  cases again with
  | false => rfl
  | true =>
    rw [if_pos rfl]
    let t₁ : Thread α W :=
      { t with
        domains := Function.update t.domains i d
        queuePrio := Function.update t.queuePrio i d.curCycle }
    have hprio₁ : (t₁.domains i).prio = 0 := by
      change (Function.update t.domains i d i).prio = 0
      rw [Function.update_self, hprio]
    have hobserve : (observe fun t => (t.domains i).prio : ThreadAct α W ℕ) t₁ = .ok (0, t₁) := by
      rw [← hprio₁]
      rfl
    have hself : Function.update t.domains i d i = d := Function.update_self _ _ _
    have hset : (change fun t => { t with
        queuePrio := Function.update t.queuePrio i (t.domains i).curCycle } : ThreadAct α W Unit)
        { t with domains := Function.update t.domains i d } = .ok ((), t₁) := by
      change Except.ok ((), _) = Except.ok ((), t₁)
      simp only [hself, t₁]
    rw [ok_bind hset, ok_bind hobserve, if_pos rfl]
    rfl

/-- A turn visits the top of the heap. -/
theorem domPqTurn_ok {again : Bool} (hne : t.domPq ≠ [])
    (h : visitTurn c (run E c) (t.domains (top t)) = .ok (again, d)) (hprio : d.prio = 0) :
    domPqTurn E c top t =
      .ok (true, if again then visited t (top t) d else retired t (top t) d) := by
  have hobserve : (observe fun t => t : ThreadAct α W (Thread α W)) t = .ok (t, t) := rfl
  let t₁ : Thread α W := { t with domPq := t.domPq.erase (top t) }
  have herase : (change fun s => { s with domPq := s.domPq.erase (top t) } : ThreadAct α W Unit) t =
      .ok ((), t₁) := rfl
  have h₁ : visitTurn c (run E c) (t₁.domains (top t)) = .ok (again, d) := h
  rw [domPqTurn, ok_bind hobserve, if_neg hne]
  rw [ok_bind herase, ok_bind (visit_ok h₁ hprio)]
  cases again with
  | false => rfl
  | true => rfl

/-- A turn fails where its visit fails. -/
theorem domPqTurn_error {e : WeaveFailure} (hne : t.domPq ≠ [])
    (h : visitTurn c (run E c) (t.domains (top t)) = .error e) :
    domPqTurn E c top t = .error e := by
  have hobserve : (observe fun t => t : ThreadAct α W (Thread α W)) t = .ok (t, t) := rfl
  let t₁ : Thread α W := { t with domPq := t.domPq.erase (top t) }
  have herase : (change fun s => { s with domPq := s.domPq.erase (top t) } : ThreadAct α W Unit) t =
      .ok ((), t₁) := rfl
  have h₁ : visitTurn c (run E c) (t₁.domains (top t)) = .error e := h
  rw [domPqTurn, ok_bind hobserve, if_neg hne]
  rw [ok_bind herase]
  exact error_bind (error_bind (onSim_error (onDomain_error h₁)) _) _

end Turns

section Steady

variable {n i : ℕ} {d : Domain α W}

/-- A turn of a visited domain keeps the domain sound. -/
theorem sound_turn (hE : NoCrossings E) {again : Bool} {p : Pending α}
    (h : Sound c [] d p) {d' : Domain α W} (hturn : visitTurn c (run E c) d = .ok (again, d')) :
    d'.prio = 0 ∧ (again = true → ∃ p', Sound c [] d' p') := by
  have hspec := visitTurn_spec hE h
  unfold ends at hspec
  rw [hturn] at hspec
  rcases hspec with ⟨-, ⟨p', hsound⟩, -⟩ | ⟨rfl, -, rfl⟩
  · exact ⟨hsound.prio, fun _ => ⟨p', hsound⟩⟩
  · exact ⟨h.prio, fun hfalse => absurd hfalse Bool.false_ne_true⟩

/-- What a turn does to a thread without crossing events. -/
theorem steady_turn (hE : NoCrossings E) (htop : HeapTop top) (h : Steady c n t) (hne : t.domPq ≠ [])
    {again : Bool} (hturn : visitTurn c (run E c) (t.domains (top t)) = .ok (again, d)) :
    ∃ t₁, domPqTurn E c top t = .ok (true, t₁) ∧ Steady c n t₁ ∧
      t₁.domains = Function.update t.domains (top t) d ∧ t₁.lastLimit = t.lastLimit ∧
      t₁.domPq.Perm (if again then t.domPq else t.domPq.erase (top t)) := by
  have hin := (htop t hne).1
  obtain ⟨p, hsound⟩ := h.sound _ hin
  obtain ⟨hprio, hkeep⟩ := sound_turn hE hsound hturn
  have hlength := List.length_erase_of_mem hin
  have hpos := List.length_pos_of_mem hin
  have hcount := h.count
  have hothers : ∀ j ∈ t.domPq.erase (top t), ∃ p, Sound c [] (Function.update t.domains (top t) d j) p := by
    intro j hj
    obtain ⟨hne, hj⟩ := h.nodup.mem_erase_iff.mp hj
    rw [Function.update_of_ne hne]
    exact h.sound j hj
  refine ⟨_, domPqTurn_ok hne hturn hprio, ?_⟩
  cases again with
  | true =>
    refine ⟨⟨?_, h.stalled, h.nextStalled, ?_, fun j hj => ?_⟩, rfl, rfl, ?_⟩
    · exact (List.perm_cons_erase hin).nodup_iff.mp h.nodup
    · change t.numFinished + (top t :: t.domPq.erase (top t)).length = n
      rw [List.length_cons]
      omega
    · change ∃ p, Sound c [] (Function.update t.domains (top t) d j) p
      rcases List.mem_cons.mp hj with rfl | hj
      · rw [Function.update_self]
        exact hkeep rfl
      · exact hothers j hj
    · exact (List.perm_cons_erase hin).symm
  | false =>
    refine ⟨⟨h.nodup.erase _, h.stalled, h.nextStalled, ?_, hothers⟩, rfl, rfl, List.Perm.refl _⟩
    change t.numFinished + 1 + (t.domPq.erase (top t)).length = n
    omega

/-- The loop over the heap ends each of its domains. -/
theorem allEnd_of_loop (hE : NoCrossings E) (htop : HeapTop top) {rounds : ℕ} (h : Steady c n t)
    (hloop : loop .endless (domPqTurn E c top) rounds t = .ok ((), t')) :
    AllEnd (visitTurn c (run E c)) t.domPq t.domains t'.domains ∧ Steady c n t' ∧ t'.domPq = [] ∧
      t'.lastLimit = t.lastLimit := by
  obtain ⟨m, hm⟩ := ends_of_loop hloop
  clear hloop
  induction hm with
  | @last t t' hturn =>
    by_cases hne : t.domPq = []
    · rw [domPqTurn_nil hne] at hturn
      cases hturn
      rw [hne]
      exact ⟨⟨fun i hi => absurd hi List.not_mem_nil, fun _ _ => rfl⟩, h, rfl, rfl⟩
    · cases hvisit : visitTurn c (run E c) (t.domains (top t)) with
      | error e =>
        rw [domPqTurn_error hne hvisit] at hturn
        cases hturn
      | ok r =>
        obtain ⟨t₁, hrun, -⟩ := steady_turn hE htop h hne hvisit
        rw [hrun] at hturn
        cases hturn
  | @again m t t₁ t' hturn _ ih =>
    by_cases hne : t.domPq = []
    · rw [domPqTurn_nil hne] at hturn
      cases hturn
    · have hin := (htop t hne).1
      cases hvisit : visitTurn c (run E c) (t.domains (top t)) with
      | error e =>
        rw [domPqTurn_error hne hvisit] at hturn
        cases hturn
      | ok r =>
        obtain ⟨again, d⟩ := r
        obtain ⟨t₂, hrun, hsteady, hdomains, hlast, hperm⟩ := steady_turn hE htop h hne hvisit
        rw [hrun] at hturn
        cases hturn
        obtain ⟨hall, hsteady', hnil, hlast'⟩ := ih hsteady
        refine ⟨?_, hsteady', hnil, hlast'.trans hlast⟩
        rw [allEnd_perm hperm, hdomains] at hall
        cases again with
        | true => exact (allEnd_again hin hvisit).mpr hall
        | false => exact (allEnd_last h.nodup hin hvisit).mpr hall

/-- Where each of its domains ends, the loop over the heap ends. -/
theorem loop_of_allEndIn (hE : NoCrossings E) (htop : HeapTop top) {es : ℕ → Domain α W} {work : ℕ}
    (rounds : ℕ) (h : Steady c n t)
    (hall : AllEndIn (visitTurn c (run E c)) work t.domPq t.domains es) (hrounds : work < rounds) :
    ∃ t', loop .endless (domPqTurn E c top) rounds t = .ok ((), t') ∧ t'.domains = es := by
  induction rounds generalizing t work with
  | zero => omega
  | succ rounds ih =>
    by_cases hne : t.domPq = []
    · refine ⟨t, loop_last (domPqTurn_nil hne) rounds, funext fun i => ?_⟩
      exact (hall.2 i (hne ▸ List.not_mem_nil)).symm
    · have hin := (htop t hne).1
      obtain ⟨⟨turns, hturns, -⟩, -⟩ := id hall
      obtain ⟨again, d, hvisit⟩ := (hturns _ hin).first
      obtain ⟨t₁, hrun, hsteady, hdomains, -, hperm⟩ := steady_turn hE htop h hne hvisit
      rw [loop_again hrun]
      have hless : ∃ w, work = w + 1 ∧
          AllEndIn (visitTurn c (run E c)) w t₁.domPq t₁.domains es := by
        rw [hdomains]
        cases again with
        | true =>
          obtain ⟨w, hw, hrest⟩ := hall.again h.nodup hin hvisit
          exact ⟨w, hw, hrest.perm hperm.symm⟩
        | false =>
          obtain ⟨w, hw, hrest⟩ := hall.last h.nodup hin hvisit
          exact ⟨w, hw, hrest.perm hperm.symm⟩
      obtain ⟨w, hw, hrest⟩ := hless
      exact ih hsteady hrest (by omega)

theorem stalledTurn_nil (h : t.stalledQueue = []) : stalledTurn E c t = .ok (false, t) := by
  have hobserve : (observe fun t => t : ThreadAct α W (Thread α W)) t = .ok (t, t) := rfl
  rw [stalledTurn, ok_bind hobserve, h]
  rfl

/-- The turn that ends the domains of the heap leaves none stalled. -/
theorem finishTurn_ok {rounds : ℕ} (hless : t.numFinished < n) (hrounds : 0 < rounds)
    (hloop : loop .endless (domPqTurn E c top) rounds t = .ok ((), t')) (h : Steady c n t') :
    finishTurn E c top n rounds t = .ok (true, t') := by
  have hobserve : (observe fun t => t.numFinished : ThreadAct α W ℕ) t = .ok (t.numFinished, t) := rfl
  obtain ⟨r, rfl⟩ := Nat.exists_eq_succ_of_ne_zero hrounds.ne'
  have hstalled : loop .endless (stalledTurn E c) (r + 1) t' = .ok ((), t') :=
    loop_last (stalledTurn_nil h.stalled) r
  rw [finishTurn, ok_bind hobserve, if_pos hless, ok_bind hloop, ok_bind hstalled]
  obtain ⟨s, domPq, stalledQueue, nextStalledQueue, numFinished⟩ := t'
  obtain rfl : stalledQueue = [] := h.stalled
  obtain rfl : nextStalledQueue = [] := h.nextStalled
  rfl

theorem finishTurn_last {rounds : ℕ} (h : ¬t.numFinished < n) :
    finishTurn E c top n rounds t = .ok (false, t) := by
  have hobserve : (observe fun t => t.numFinished : ThreadAct α W ℕ) t = .ok (t.numFinished, t) := rfl
  rw [finishTurn, ok_bind hobserve, if_neg h]
  rfl

theorem finishTurn_error {rounds : ℕ} {e : WeaveFailure} (hless : t.numFinished < n)
    (hloop : loop .endless (domPqTurn E c top) rounds t = .error e) :
    finishTurn E c top n rounds t = .error e := by
  have hobserve : (observe fun t => t.numFinished : ThreadAct α W ℕ) t = .ok (t.numFinished, t) := rfl
  rw [finishTurn, ok_bind hobserve, if_pos hless]
  exact error_bind hloop _

end Steady

section Phase

variable {firstDomain supDomain : ℕ}

omit [DecidableEq α] in
/-- The thread at the start of a phase. -/
theorem steady_start (hsound : ∀ i, firstDomain ≤ i → i < supDomain → ∃ p, Sound c [] (s.domains i) p) :
    Steady c (supDomain - firstDomain)
      ⟨s, List.range' firstDomain (supDomain - firstDomain), [], [], 0⟩ := by
  refine ⟨List.nodup_range', rfl, rfl, ?_, fun i hi => ?_⟩
  · rw [List.length_range', Nat.zero_add]
  · obtain ⟨hlo, hhi⟩ := List.mem_range'_1.mp hi
    exact hsound i hlo (by omega)

/-- The loop of a thread with several domains. -/
theorem simulatePhaseThread_many {rounds : ℕ} (hmany : firstDomain + 2 ≤ supDomain) :
    simulatePhaseThread E c top firstDomain supDomain rounds s =
      match loop .endless (finishTurn E c top (supDomain - firstDomain) rounds) rounds
        ⟨s, List.range' firstDomain (supDomain - firstDomain), [], [], 0⟩ with
      | .ok (_, t) => .ok ((), t.toContentionSim)
      | .error e => .error e := by
  have hne : ¬supDomain - firstDomain = 1 := by omega
  exact (congrFun (if_neg hne) s).trans rfl

/-- A thread with several domains that ends has ended each of them. -/
theorem allEnd_of_thread (hE : NoCrossings E) (htop : HeapTop top)
    (hmany : firstDomain + 2 ≤ supDomain)
    (hsound : ∀ i, firstDomain ≤ i → i < supDomain → ∃ p, Sound c [] (s.domains i) p) {rounds : ℕ}
    (hrun : simulatePhaseThread E c top firstDomain supDomain rounds s = .ok ((), s')) :
    AllEnd (visitTurn c (run E c)) (List.range' firstDomain (supDomain - firstDomain)) s.domains
      s'.domains ∧ s'.lastLimit = s.lastLimit := by
  have hstart := steady_start hsound
  have hless : (⟨s, List.range' firstDomain (supDomain - firstDomain), [], [], 0⟩ :
      Thread α W).numFinished < supDomain - firstDomain := by
    dsimp only
    omega
  rw [simulatePhaseThread_many hmany] at hrun
  obtain _ | rounds := rounds
  · cases hrun
  · cases hloop : loop .endless (domPqTurn E c top) (rounds + 1)
      ⟨s, List.range' firstDomain (supDomain - firstDomain), [], [], 0⟩ with
    | error e =>
      rw [loop_error (finishTurn_error hless hloop)] at hrun
      cases hrun
    | ok r =>
      obtain ⟨u, t⟩ := r
      obtain ⟨hall, hsteady, hnil, hlast⟩ := allEnd_of_loop hE htop hstart hloop
      have hcount := hsteady.count
      rw [hnil] at hcount
      have hdone : ¬t.numFinished < supDomain - firstDomain := by
        rw [← hcount]
        exact lt_irrefl _
      rw [loop_again (finishTurn_ok hless rounds.succ_pos hloop hsteady)] at hrun
      obtain _ | rounds := rounds
      · cases hrun
      · rw [loop_last (finishTurn_last hdone)] at hrun
        cases hrun
        exact ⟨hall, hlast⟩

/-- Where each of its domains ends, a thread with several domains ends. -/
theorem thread_of_allEnd (hE : NoCrossings E) (htop : HeapTop top)
    (hmany : firstDomain + 2 ≤ supDomain)
    (hsound : ∀ i, firstDomain ≤ i → i < supDomain → ∃ p, Sound c [] (s.domains i) p)
    {es : ℕ → Domain α W}
    (hall : AllEnd (visitTurn c (run E c)) (List.range' firstDomain (supDomain - firstDomain))
      s.domains es) :
    ∃ rounds s', simulatePhaseThread E c top firstDomain supDomain rounds s = .ok ((), s') ∧
      s'.domains = es := by
  have hstart := steady_start hsound
  have hless : (⟨s, List.range' firstDomain (supDomain - firstDomain), [], [], 0⟩ :
      Thread α W).numFinished < supDomain - firstDomain := by
    dsimp only
    omega
  obtain ⟨work, hwork⟩ := hall.allEndIn
  obtain ⟨t, hloop, hdomains⟩ := loop_of_allEndIn hE htop (work + 2) hstart hwork (by omega)
  obtain ⟨-, hsteady, hnil, -⟩ := allEnd_of_loop hE htop hstart hloop
  have hcount := hsteady.count
  rw [hnil] at hcount
  have hdone : ¬t.numFinished < supDomain - firstDomain := by
    rw [← hcount]
    exact lt_irrefl _
  refine ⟨work + 2, t.toContentionSim, ?_, hdomains⟩
  rw [simulatePhaseThread_many hmany, loop_again (finishTurn_ok hless (by omega) hloop hsteady),
    loop_last (finishTurn_last hdone)]

/-- A thread with one domain. -/
theorem simulatePhaseThread_one {rounds i : ℕ} :
    simulatePhaseThread E c top i (i + 1) rounds s = .ok ((), s') ↔
      ∃ d, loop .endless (aloneTurn E c) rounds (s.domains i) = .ok ((), d) ∧
        s' = { s with domains := Function.update s.domains i d } := by
  have hone : i + 1 - i = 1 := by omega
  rw [simulatePhaseThread, if_pos hone, onDomain]
  constructor
  · intro hrun
    cases hloop : loop .endless (aloneTurn E c) rounds (s.domains i) with
    | error e =>
      rw [hloop] at hrun
      cases hrun
    | ok r =>
      rw [hloop] at hrun
      cases hrun
      exact ⟨r.2, rfl, rfl⟩
  · intro ⟨d, hloop, hs'⟩
    rw [hloop, hs']

omit [DecidableEq α] in
/-- Programs of different domains return exactly when each of them does. -/
theorem forM_onDomain {m : ℕ → Act α W Unit} {l : List ℕ} (hl : l.Nodup) :
    (l.forM fun i => onDomain i (m i)) s = .ok ((), s') ↔
      (∀ i ∈ l, m i (s.domains i) = .ok ((), s'.domains i)) ∧
        (∀ i, i ∉ l → s'.domains i = s.domains i) ∧ s' = { s with domains := s'.domains } := by
  induction l generalizing s with
  | nil =>
    constructor
    · intro hrun
      cases hrun
      exact ⟨fun i hi => absurd hi List.not_mem_nil, fun _ _ => rfl, rfl⟩
    · intro ⟨_, hothers, hsame⟩
      have hdomains : s'.domains = s.domains := funext fun i => hothers i List.not_mem_nil
      rw [hsame, hdomains]
      rfl
  | cons j l ih =>
    obtain ⟨hj, hl⟩ := List.nodup_cons.mp hl
    change (onDomain j (m j) >>= fun _ => l.forM fun i => onDomain i (m i)) s = _ ↔ _
    cases hm : m j (s.domains j) with
    | error e =>
      rw [error_bind (onDomain_error hm)]
      refine iff_of_false nofun fun h => ?_
      have hreturn := h.1 j List.mem_cons_self
      rw [hm] at hreturn
      cases hreturn
    | ok r =>
      obtain ⟨u, d⟩ := r
      rw [ok_bind (onDomain_ok hm), ih hl]
      dsimp only
      constructor
      · intro ⟨hall, hothers, hsame⟩
        refine ⟨fun i hi => ?_, fun i hi => ?_, hsame⟩
        · rcases List.mem_cons.mp hi with rfl | hi
          · have hself := hothers i hj
            rw [Function.update_self] at hself
            rw [hm, hself]
          · have hne : i ≠ j := ne_of_mem_of_not_mem hi hj
            have hrest := hall i hi
            rwa [Function.update_of_ne hne] at hrest
        · have hne : i ≠ j := fun heq => hi (heq ▸ List.mem_cons_self)
          have hrest := hothers i fun hin => hi (List.mem_cons_of_mem j hin)
          rwa [Function.update_of_ne hne] at hrest
      · intro ⟨hall, hothers, hsame⟩
        refine ⟨fun i hi => ?_, fun i hi => ?_, hsame⟩
        · have hne : i ≠ j := ne_of_mem_of_not_mem hi hj
          rw [Function.update_of_ne hne]
          exact hall i (List.mem_cons_of_mem j hi)
        · by_cases hij : i = j
          · subst hij
            have hself := hall i List.mem_cons_self
            rw [hm] at hself
            rw [Function.update_self]
            cases hself
            rfl
          · rw [Function.update_of_ne hij]
            exact hothers i fun hin => (List.mem_cons.mp hin).elim hij hi

end Phase

end Zsim.WeaveThreads
