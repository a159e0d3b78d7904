import Zsim.WeaveLoops
import Zsim.WeaveQueueRuns
import Zsim.Outcomes
import Mathlib.Logic.Relation

/-!
# The two weave-phase loops

Without crossing events a domain's turns depend on the domain only, so a thread
with several domains runs each of them as a thread with one domain does, except
for the test of the limit: the loop over several domains also runs the events at
the limit itself. The loops agree exactly when no event is due there.
-/

namespace Zsim.WeaveLoopsRuns

open WeakestPre Outcomes Loops WeaveLoops WeaveQueueRuns

variable {α W : Type} [DecidableEq α] {E : Events α W} {c : Clock} {d d' : Domain α W}
  {p : Pending α} {taken : List (ℕ × α)}

/-- Any failure may happen. -/
def Any : WeaveFailure → Prop := fun _ => True

/-- No event sets the priority of a domain. -/
def NoCrossings (E : Events α W) : Prop :=
  ∀ ev cycle world prio, Action.setPrio prio ∉ (E.simulate ev cycle world).1

/-- A domain during a phase. The events `taken` are dequeued and not yet run. -/
structure Sound (c : Clock) (taken : List (ℕ × α)) (d : Domain α W) (p : Pending α) : Prop where
  stores : Stores pqBlocks d.pq p
  block : p.curBlock ≤ d.curCycle / 64
  reached : p.curBlock ≤ c.limit / 64
  pending : ∀ e ∈ p.events, d.curCycle ≤ e.1
  queued : ∀ e ∈ p.events, d.state e.2 = .queued
  log : d.enqueued.Perm (p.events.toList ++ (taken ++ d.logVec))
  last : c.lastLimit ≤ d.curCycle
  prio : d.prio = 0
  bounded : c.lastLimit < 2 ^ 62

/-- The domain stays sound and runs nothing. -/
def Kept (c : Clock) (taken : List (ℕ × α)) (d d' : Domain α W) : Prop :=
  (∃ p', Sound c taken d' p') ∧ d'.curCycle = d.curCycle ∧ d'.logVec = d.logVec

/-- The domain is between two phases: it has run the events before the limit, and
those at or after the limit are pending. -/
structure Settled (limit : ℕ) (d : Domain α W) (p : Pending α) : Prop where
  stores : Stores pqBlocks d.pq p
  block : p.curBlock ≤ limit / 64
  pending : ∀ e ∈ p.events, limit ≤ e.1
  queued : ∀ e ∈ p.events, d.state e.2 = .queued
  log : d.enqueued.Perm (p.events.toList ++ d.logVec)
  ran : ∀ e ∈ d.logVec, e.1 < limit
  current : d.curCycle = limit
  prio : d.prio = 0

omit [DecidableEq α] in
theorem wp_onQueue {β : Type} (m : WeaveQueue.Act α β) (Q : β → Domain α W → Prop) (d : Domain α W) :
    wp (onQueue m) Q d ↔ wp m (fun b pq => Q b { d with pq := pq }) d.pq := by
  unfold wp onQueue
  cases hm : m d.pq with
  | error e => simp
  | ok r =>
    obtain ⟨b, pq⟩ := r
    simp

omit [DecidableEq α] in
theorem set_ok (cycle : ℕ) (d : Domain α W) :
    setCurCycle cycle d = .ok ((), { d with curCycle := cycle }) := rfl

section Sound

/-- A change of the state of an event that is not queued. -/
theorem transition_spec (h : Sound c taken d p) {ev : α} {sources : List EventState}
    {target : EventState} (hfree : ∀ e ∈ p.events, d.state ev ∈ sources → e.2 ≠ ev) :
    ends Any (transition ev sources target) (fun _ d' => Sound c taken d' p ∧
      d' = { d with state := d'.state } ∧ d'.state ev = target ∧ ∀ e ∈ p.events, e.2 ≠ ev) d := by
  simp only [transition, ends_bind, ends_observe, ends_ensure, ends_change]
  refine ⟨fun hst => ⟨?_, trivial, Function.update_self _ _ _, fun e he => hfree e he hst⟩, fun _ => trivial⟩
  refine ⟨h.stores, h.block, h.reached, h.pending, fun e he => ?_, h.log, h.last, h.prio, h.bounded⟩
  dsimp only
  rw [Function.update_of_ne (hfree e he hst)]
  exact h.queued e he

omit [DecidableEq α] in
/-- A queued event is in no state that such a transition starts from. -/
theorem Sound.free (h : Sound c taken d p) {ev : α} {sources : List EventState}
    (hsources : EventState.queued ∉ sources) : ∀ e ∈ p.events, d.state ev ∈ sources → e.2 ≠ ev := by
  intro e he hst heq
  have hqueued := h.queued e he
  rw [heq] at hqueued
  exact hsources (hqueued ▸ hst)

theorem insertEvent_spec (h : Sound c taken d p) {ev : α} {cycle : ℕ} (hlater : d.curCycle ≤ cycle)
    (hbound : cycle < 2 ^ 63) (hstate : d.state ev = .queued) (hfree : ∀ e ∈ p.events, e.2 ≠ ev) :
    ends Any (insertEvent ev cycle) (fun _ d' => Kept c taken d d') d := by
  have hnew : ∀ c, (c, ev) ∉ p.events := fun c hin => hfree (c, ev) hin rfl
  refine ends_of_wp ?_
  rw [insertEvent, wp_bind, wp_onQueue]
  have hblock := h.block
  refine wp_mono (h.stores.enqueue (by omega) hbound hnew) ?_
  intro _ pq hstores
  rw [wp_change]
  refine ⟨⟨_, ⟨hstores, h.block, h.reached, fun e he => ?_, fun e he => ?_, ?_, h.last, h.prio,
    h.bounded⟩⟩, rfl, rfl⟩
  · rcases Finset.mem_insert.mp he with rfl | he
    · exact hlater
    · exact h.pending e he
  · rcases Finset.mem_insert.mp he with rfl | he
    · exact hstate
    · exact h.queued e he
  · have hinsert := Finset.toList_insert (hnew cycle)
    exact (h.log.cons _).trans (hinsert.symm.append_right _)

omit [DecidableEq α] in
/-- Cycles before the horizon fit the queue. -/
theorem Sound.horizon (h : Sound c taken d p) {slack : ℕ} (hslack : slack ≤ 1000000) :
    c.horizon slack ≤ 2 ^ 63 := by
  have hbounded := h.bounded
  have hmod : 10 * c.phaseLength % 2 ^ 32 < 2 ^ 32 := Nat.mod_lt _ (Nat.two_pow_pos 32)
  refine (Nat.mod_le _ _).trans ?_
  omega

theorem enqueue_spec (h : Sound c taken d p) {ev : α} {cycle : ℕ} (hstate : d.state ev = .queued)
    (hfree : ∀ e ∈ p.events, e.2 ≠ ev) :
    ends Any (enqueue c ev cycle) (fun _ d' => Kept c taken d d') d := by
  unfold enqueue
  rw [ends_bind, ends_observe, ends_bind, ends_ensure]
  refine ⟨fun _ => ?_, fun _ => trivial⟩
  rw [ends_bind, ends_ensure]
  refine ⟨fun hfar => ?_, fun _ => trivial⟩
  rw [ends_bind, ends_ensure]
  refine ⟨fun hlater => ?_, fun _ => trivial⟩
  exact insertEvent_spec h hlater (hfar.trans_le (h.horizon (by decide))) hstate hfree

/-- Every action but `setPrio` keeps the domain sound. -/
theorem act_spec (h : Sound c taken d p) {a : Action α} (ha : ∀ prio, a ≠ .setPrio prio) :
    ends Any (act c a) (fun _ d' => Kept c taken d d') d := by
  have hmove : ∀ ev sources target, EventState.queued ∉ sources →
      ends Any (transition ev sources target) (fun _ d' => Kept c taken d d') d := by
    intro ev sources target hsources
    refine ends_mono (transition_spec h (h.free hsources)) ?_
    intro _ d' hpost
    obtain ⟨hsound, hsame, -, -⟩ := hpost
    exact ⟨⟨p, hsound⟩, by rw [hsame], by rw [hsame]⟩
  have hwake : ∀ ev sources cycle, EventState.queued ∉ sources →
      ends Any (do transition ev sources .queued; enqueue c ev cycle) (fun _ d' => Kept c taken d d') d := by
    intro ev sources cycle hsources
    rw [ends_bind]
    refine ends_mono (transition_spec h (h.free hsources)) ?_
    intro _ d₁ hpost
    obtain ⟨hsound, hsame, hstate, hfree⟩ := hpost
    refine ends_mono (enqueue_spec hsound hstate hfree) ?_
    intro _ d' hkept
    rw [hsame] at hkept
    exact hkept
  cases a with
  | parentDone ev cycle => exact hwake ev _ cycle (by decide)
  | requeue ev cycle => exact hwake ev _ cycle (by decide)
  | hold ev => exact hmove ev _ _ (by decide)
  | release ev => exact hmove ev _ _ (by decide)
  | done ev => exact hmove ev _ _ (by decide)
  | setPrio prio => exact absurd rfl (ha prio)

/-- Queueing an event in the bound phase. -/
theorem queue_spec (h : Sound c taken d p) (hcur : d.curCycle = c.lastLimit) (ev : α) (cycle : ℕ) :
    ends Any (queue c ev cycle) (fun _ d' => Kept c taken d d') d := by
  rw [queue, ends_bind]
  refine ends_mono (transition_spec h (h.free (by decide))) ?_
  intro _ d₁ hpost
  obtain ⟨hsound, hsame, hstate, hfree⟩ := hpost
  have hcur₁ : d₁.curCycle = d.curCycle := by rw [hsame]
  have hlog₁ : d₁.logVec = d.logVec := by rw [hsame]
  rw [enqueueSynced, ends_bind, ends_ensure]
  refine ⟨fun hlast => ?_, fun _ => trivial⟩
  rw [ends_bind, ends_ensure]
  refine ⟨fun hfar => ?_, fun _ => trivial⟩
  have hlater : d₁.curCycle ≤ cycle := by omega
  refine ends_mono (insertEvent_spec hsound hlater (hfar.trans_le (h.horizon (by decide))) hstate
    hfree) ?_
  intro _ d' hkept
  obtain ⟨hsound', hcur', hlog'⟩ := hkept
  exact ⟨hsound', hcur'.trans hcur₁, hlog'.trans hlog₁⟩

/-- What an event does when it is simulated. -/
theorem simulate_spec (hE : NoCrossings E) {ev : α} {cycle : ℕ} (h : Sound c [(cycle, ev)] d p) :
    ends Any (simulate E c ev cycle) (fun _ d' => (∃ p', Sound c [] d' p') ∧
      d'.curCycle = d.curCycle ∧ d'.logVec = (cycle, ev) :: d.logVec) d := by
  rw [simulate, ends_bind, ends_observe]
  dsimp only
  rw [ends_bind, ends_change]
  let d₁ : Domain α W :=
    { d with world := (E.simulate ev cycle d.world).2, logVec := (cycle, ev) :: d.logVec }
  have hlogged : Sound c [] d₁ p :=
    ⟨h.stores, h.block, h.reached, h.pending, h.queued, h.log, h.last, h.prio, h.bounded⟩
  refine ends_forM (fun d' => (∃ p', Sound c [] d' p') ∧ d'.curCycle = d.curCycle ∧
    d'.logVec = (cycle, ev) :: d.logVec) ?_ ⟨⟨p, hlogged⟩, rfl, rfl⟩
  intro a ha d₂ h₂
  obtain ⟨⟨p₂, hsound⟩, hcur, hlog⟩ := h₂
  refine ends_mono (act_spec hsound fun prio heq => hE ev cycle d.world prio (heq ▸ ha)) ?_
  intro _ d₃ hkept
  obtain ⟨hsound₃, hcur₃, hlog₃⟩ := hkept
  exact ⟨hsound₃, hcur₃.trans hcur, hlog₃.trans hlog⟩

/-- Running a dequeued event. -/
theorem run_spec (hE : NoCrossings E) {ev : α} {cycle : ℕ} (h : Sound c [(cycle, ev)] d p)
    (hfree : ∀ e ∈ p.events, e.2 ≠ ev) :
    ends Any (run E c ev cycle) (fun _ d' => (∃ p', Sound c [] d' p') ∧
      d'.curCycle = d.curCycle ∧ d'.logVec = (cycle, ev) :: d.logVec) d := by
  rw [run, ends_bind]
  refine ends_mono (transition_spec h fun e he _ => hfree e he) ?_
  intro _ d₁ hpost
  obtain ⟨hsound, hsame, -, -⟩ := hpost
  rw [ends_bind, ends_ensure]
  refine ⟨fun _ => ?_, fun _ => trivial⟩
  refine ends_mono (simulate_spec hE hsound) ?_
  intro _ d' hpost'
  rw [hsame] at hpost'
  exact hpost'

omit [DecidableEq α] in
/-- The test of the first cycle. -/
theorem firstMeets_spec (h : Sound c taken d p) (test : ℕ → Bool) :
    wp (firstMeets test) (fun due d' => d' = d ∧
      (due = true ↔ ∃ first, Earliest p.events first ∧ test first = true)) d := by
  rw [firstMeets, wp_bind, wp_onQueue, WeaveQueue.size, wp_observe, wp_ite]
  split
  · next hzero =>
    rw [wp_pure]
    refine ⟨rfl, iff_of_false Bool.false_ne_true ?_⟩
    intro ⟨first, ⟨⟨o, hin⟩, _⟩, _⟩
    rw [h.stores.elems_eq_zero.mp hzero] at hin
    exact Finset.notMem_empty _ hin
  · next hsize =>
    have hne : p.events.Nonempty :=
      Finset.nonempty_iff_ne_empty.mpr fun hempty => hsize (h.stores.elems_eq_zero.mpr hempty)
    rw [wp_bind, wp_onQueue]
    refine wp_mono (h.stores.firstCycle (by decide) (by decide) hne) ?_
    intro first pq hpost
    obtain ⟨rfl, hfirst⟩ := hpost
    rw [wp_pure]
    refine ⟨rfl, fun htest => ⟨first, hfirst, htest⟩, ?_⟩
    intro ⟨first', hfirst', htest⟩
    rwa [← hfirst'.unique hfirst]

omit [DecidableEq α] in
/-- The cycle a domain reaches after an event. -/
theorem nextCycle_spec (h : Sound c [] d p) (hcur : d.curCycle ≤ c.limit) :
    ∃ n, nextCycle c d = .ok (n, d) ∧ d.curCycle ≤ n ∧ ∃ p', Sound c [] { d with curCycle := n } p' := by
  have hmove : ∀ n, d.curCycle ≤ n → (∀ e ∈ p.events, n ≤ e.1) →
      ∃ p', Sound c [] { d with curCycle := n } p' := by
    intro n hn hpending
    have hblock := h.block
    have hlast := h.last
    refine ⟨p, h.stores, ?_, h.reached, hpending, h.queued, h.log, ?_, h.prio, h.bounded⟩
    · exact hblock.trans (Nat.div_le_div_right hn)
    · exact hlast.trans hn
  have hwp : wp (nextCycle c) (fun n d' => d' = d ∧ d.curCycle ≤ n ∧ ∀ e ∈ p.events, n ≤ e.1) d := by
    rw [nextCycle, wp_bind, wp_onQueue, WeaveQueue.size, wp_observe, wp_ite]
    split
    · next hzero =>
      rw [wp_pure, h.stores.elems_eq_zero.mp hzero]
      exact ⟨rfl, hcur, fun e he => absurd he (Finset.notMem_empty e)⟩
    · next hsize =>
      have hne : p.events.Nonempty :=
        Finset.nonempty_iff_ne_empty.mpr fun hempty => hsize (h.stores.elems_eq_zero.mpr hempty)
      rw [wp_onQueue]
      refine wp_mono (h.stores.firstCycle (by decide) (by decide) hne) ?_
      intro first pq hpost
      obtain ⟨rfl, ⟨o, hin⟩, hmin⟩ := hpost
      exact ⟨rfl, h.pending _ hin, hmin⟩
  obtain ⟨n, d', hrun, rfl, hle, hmin⟩ := hwp
  exact ⟨n, hrun, hle, hmove n hle hmin⟩

/-- Dequeuing the first event. -/
theorem dequeue_spec (h : Sound c [] d p) {first : ℕ} (hfirst : Earliest p.events first)
    (hlimit : first ≤ c.limit) :
    ∃ te pq p', onQueue (WeaveQueue.dequeue pqBlocks) d = .ok ((te, first), { d with pq := pq }) ∧
      Sound c [(first, te)] { d with pq := pq, curCycle := first } p' ∧
      ∀ e ∈ p'.events, e.2 ≠ te := by
  have hne : p.events.Nonempty := ⟨_, hfirst.1.choose_spec⟩
  have hwp := h.stores.dequeue (by decide) (by decide) (by decide) hne
  obtain ⟨r, pq, hrun, hin, hearliest, hstores⟩ := hwp
  obtain ⟨te, cycle⟩ := r
  have hcycle : cycle = first := hearliest.unique hfirst
  subst hcycle
  dsimp only at hrun hin hearliest hstores
  have hlater := h.pending _ hin
  refine ⟨te, pq, ⟨p.events.erase (cycle, te), cycle / 64⟩, by rw [onQueue, hrun], ?_, ?_⟩
  · constructor
    · exact hstores
    · exact le_rfl
    · exact Nat.div_le_div_right hlimit
    · exact fun e he => hearliest.2 e (Finset.mem_of_mem_erase he)
    · exact fun e he => h.queued e (Finset.mem_of_mem_erase he)
    · have htaken := Finset.toList_insert (Finset.notMem_erase (cycle, te) p.events)
      rw [Finset.insert_erase hin] at htaken
      refine h.log.trans ((htaken.append_right _).trans ?_)
      exact List.perm_middle.symm
    · exact h.last.trans hlater
    · exact h.prio
    · exact h.bounded
  · intro e he heq
    obtain ⟨hne, hmem⟩ := Finset.mem_erase.mp he
    obtain ⟨cycle', te'⟩ := e
    cases heq
    exact hne (by rw [h.stores.one hmem hin])

/-- Visiting a domain. -/
theorem visitTurn_spec (hE : NoCrossings E) (h : Sound c [] d p) :
    ends Any (visitTurn c (run E c)) (fun again d' =>
      (again = true ∧ (∃ p', Sound c [] d' p') ∧ ∃ first ev, Earliest p.events first ∧
        first ≤ c.limit ∧ d'.logVec = (first, ev) :: d.logVec) ∨
      (again = false ∧ (∀ e ∈ p.events, c.limit < e.1) ∧ d' = { d with curCycle := c.limit })) d := by
  rw [visitTurn, ends_bind]
  refine ends_mono (ends_of_wp (firstMeets_spec h _)) ?_
  intro due d₁ hpost
  obtain ⟨rfl, hdue⟩ := hpost
  rw [ends_ite]
  split
  · next hbusy =>
    obtain ⟨first, hfirst, htest⟩ := hdue.mp hbusy
    have hlimit : first ≤ c.limit := not_lt.mp (of_decide_eq_true htest)
    obtain ⟨te, pq, p', hdeq, hsound, hfree⟩ := dequeue_spec h hfirst hlimit
    rw [ends_bind]
    refine ends_of_wp ⟨(te, first), _, hdeq, ?_⟩
    dsimp only
    rw [ends_bind, setCurCycle, ends_change, ends_bind]
    refine ends_mono (run_spec hE hsound hfree) ?_
    intro _ d₂ hran
    obtain ⟨⟨p₂, hsound₂⟩, hcur, hlog⟩ := hran
    obtain ⟨n, hnext, -, hsound₃⟩ := nextCycle_spec hsound₂ (hcur.trans_le hlimit)
    rw [ends_bind]
    refine ends_of_wp ⟨n, d₂, hnext, ?_⟩
    dsimp only
    rw [ends_bind, setCurCycle, ends_change, ends_pure]
    exact .inl ⟨rfl, hsound₃, first, te, hfirst, hlimit, hlog⟩
  · next hidle =>
    rw [ends_bind, setCurCycle, ends_change, ends_pure]
    refine .inr ⟨rfl, fun e he => ?_, rfl⟩
    by_contra hnot
    obtain ⟨first, hfirst⟩ := exists_earliest ⟨e, he⟩
    refine hidle (hdue.mpr ⟨first, hfirst, decide_eq_true fun hlt => ?_⟩)
    exact hnot (hlt.trans_le (hfirst.2 e he))

/-- A visit of a domain without events up to the limit is the last one. -/
theorem visitTurn_idle (h : Sound c [] d p) (hidle : ∀ e ∈ p.events, c.limit < e.1) :
    visitTurn c (run E c) d = .ok (false, { d with curCycle := c.limit }) := by
  obtain ⟨due, d₁, htest, rfl, hdue⟩ := firstMeets_spec h fun first => ¬c.limit < first
  have hstop : ¬due = true := by
    intro hbusy
    obtain ⟨first, ⟨⟨o, hin⟩, -⟩, hle⟩ := hdue.mp hbusy
    exact of_decide_eq_true hle (hidle _ hin)
  rw [visitTurn, ok_bind htest, if_neg hstop]
  rfl

/-- The loop over one domain stops at the limit. -/
theorem aloneTurn_idle (h : Sound c [] d p) (hidle : ∀ e ∈ p.events, c.limit ≤ e.1) :
    aloneTurn E c d = .ok (false, { d with curCycle := c.limit }) := by
  obtain ⟨due, d₁, htest, rfl, hdue⟩ := firstMeets_spec h fun first => first < c.limit
  have hstop : ¬due = true := by
    intro hbusy
    obtain ⟨first, ⟨⟨o, hin⟩, -⟩, hlt⟩ := hdue.mp hbusy
    have hge := hidle _ hin
    exact absurd (of_decide_eq_true hlt) (not_lt.mpr hge)
  rw [aloneTurn, ok_bind htest, if_neg hstop]
  rfl

/-- The two loops run an event before the limit in the same way. -/
theorem aloneTurn_due (hE : NoCrossings E) (h : Sound c [] d p) {first : ℕ}
    (hfirst : Earliest p.events first) (hlt : first < c.limit) :
    aloneTurn E c d = visitTurn c (run E c) d := by
  obtain ⟨due, d₁, htest, rfl, hdue⟩ := firstMeets_spec h fun first => first < c.limit
  obtain ⟨due', d₁, htest', rfl, hdue'⟩ := firstMeets_spec h fun first => ¬c.limit < first
  have hbusy : due = true := hdue.mpr ⟨first, hfirst, decide_eq_true hlt⟩
  have hbusy' : due' = true := hdue'.mpr ⟨first, hfirst, decide_eq_true (not_lt.mpr hlt.le)⟩
  obtain ⟨te, pq, p', hdeq, hsound, hfree⟩ := dequeue_spec h hfirst hlt.le
  have hle : d₁.curCycle ≤ first := h.pending _ hfirst.1.choose_spec
  have hobserve : (observe fun d => d.curCycle : Act α W ℕ) d₁ = .ok (d₁.curCycle, d₁) := rfl
  rw [aloneTurn, visitTurn, ok_bind htest, ok_bind htest', if_pos hbusy, if_pos hbusy',
    ok_bind hobserve, ok_bind hdeq, ok_bind hdeq]
  dsimp only
  rw [ok_bind (ensure_ok hle _ _), ok_bind (set_ok _ _), ok_bind (set_ok _ _)]
  have hafter := run_spec hE hsound hfree
  unfold ends at hafter
  cases hran : run E c te first { d₁ with pq := pq, curCycle := first } with
  | error x => rw [error_bind hran, error_bind hran]
  | ok r =>
    obtain ⟨u, d₂⟩ := r
    rw [hran] at hafter
    obtain ⟨⟨p₂, hsound₂⟩, hcur, -⟩ := hafter
    obtain ⟨n, hnext, hn, -⟩ := nextCycle_spec hsound₂ (hcur.trans_le hlt.le)
    rw [ok_bind hran, ok_bind hran, ok_bind hnext, ok_bind hnext, ok_bind (ensure_ok (hcur.ge.trans hn) _ _)]

omit [DecidableEq α] in
/-- What the queue answers is the earliest cycle. -/
theorem Sound.firstCycle (h : Sound c taken d p) {first : ℕ} (hfirst : Earliest p.events first) :
    WeaveQueue.firstCycle pqBlocks d.pq = .ok (first, d.pq) := by
  have hne : p.events.Nonempty := ⟨_, hfirst.1.choose_spec⟩
  obtain ⟨cycle, pq, hrun, rfl, hearliest⟩ := h.stores.firstCycle (by decide) (by decide) hne
  rw [hrun, hearliest.unique hfirst]

end Sound

section Ends

/-- Whenever the loop over one domain tests its queue, no event is due exactly at
the limit. -/
def OffLimit (E : Events α W) (c : Clock) (d : Domain α W) : Prop :=
  ∀ d', Relation.ReflTransGen (fun d d' => aloneTurn E c d = .ok (true, d')) d d' →
    WeaveQueue.firstCycle pqBlocks d'.pq ≠ .ok (c.limit, d'.pq)

/-- Another turn of a visited domain has run one event. -/
theorem visitTurn_again (hE : NoCrossings E) (h : Sound c [] d p)
    (hturn : visitTurn c (run E c) d = .ok (true, d')) :
    (∃ p', Sound c [] d' p') ∧ ∃ first ev, Earliest p.events first ∧ first ≤ c.limit ∧
      d'.logVec = (first, ev) :: d.logVec := by
  have hspec := visitTurn_spec hE h
  unfold ends at hspec
  rw [hturn] at hspec
  rcases hspec with ⟨-, hsound, hran⟩ | ⟨hfalse, -⟩
  · exact ⟨hsound, hran⟩
  · cases hfalse

/-- Another turn of the loop over one domain is a visit. -/
theorem aloneTurn_again (hE : NoCrossings E) (h : Sound c [] d p)
    (hturn : aloneTurn E c d = .ok (true, d')) :
    visitTurn c (run E c) d = .ok (true, d') ∧ ∃ first, Earliest p.events first ∧ first < c.limit := by
  have hidle : ¬∀ e ∈ p.events, c.limit ≤ e.1 := by
    intro hidle
    rw [aloneTurn_idle h hidle] at hturn
    cases hturn
  rcases after_or_earliest p.events c.limit with hlater | ⟨first, hfirst, hle⟩
  · exact absurd (fun e he => (hlater e he).le) hidle
  · have hlt : first < c.limit := by
      by_contra hnot
      exact hidle fun e he => (not_lt.mp hnot).trans (hfirst.2 e he)
    rw [← aloneTurn_due hE h hfirst hlt]
    exact ⟨hturn, first, hfirst, hlt⟩

/-- A domain that ends alone has run the events before the limit and no others. -/
theorem ends_alone (hE : NoCrossings E) (h : Sound c [] d p) (hlog : ∀ e ∈ d.logVec, e.1 < c.limit)
    (hends : Ends (aloneTurn E c) d d') : ∃ p', Settled c.limit d' p' := by
  obtain ⟨n, hn⟩ := hends
  induction hn generalizing p with
  | @last d d' hturn =>
    have hidle : ∀ e ∈ p.events, c.limit ≤ e.1 := by
      by_contra hnot
      rcases after_or_earliest p.events c.limit with hlater | ⟨first, hfirst, -⟩
      · exact hnot fun e he => (hlater e he).le
      · have hlt : first < c.limit := by
          by_contra hge
          exact hnot fun e he => (not_lt.mp hge).trans (hfirst.2 e he)
        have hspec := visitTurn_spec hE h
        unfold ends at hspec
        rw [← aloneTurn_due hE h hfirst hlt, hturn] at hspec
        rcases hspec with ⟨htrue, -⟩ | ⟨-, hlater, -⟩
        · cases htrue
        · exact hnot fun e he => (hlater e he).le
    rw [aloneTurn_idle h hidle] at hturn
    cases hturn
    exact ⟨p, h.stores, h.reached, hidle, h.queued, h.log, hlog, rfl, h.prio⟩
  | again hturn _ ih =>
    obtain ⟨hvisit, first, hfirst, hlt⟩ := aloneTurn_again hE h hturn
    obtain ⟨⟨p₁, hsound⟩, first', ev, hfirst', -, hran⟩ := visitTurn_again hE h hvisit
    obtain rfl := hfirst'.unique hfirst
    refine ih hsound fun e he => ?_
    rw [hran] at he
    rcases List.mem_cons.mp he with rfl | he
    · exact hlt
    · exact hlog e he

/-- A domain that ends among others ends alone. -/
theorem ends_alone_of_visit (hE : NoCrossings E) (h : Sound c [] d p)
    (hends : Ends (visitTurn c (run E c)) d d') : ∃ e, Ends (aloneTurn E c) d e := by
  obtain ⟨n, hn⟩ := hends
  induction hn generalizing p with
  | @last d d' hturn =>
    rcases after_or_earliest p.events c.limit with hlater | ⟨first, hfirst, hle⟩
    · exact ⟨_, 1, .last (aloneTurn_idle h fun e he => (hlater e he).le)⟩
    · have hspec := visitTurn_spec hE h
      unfold ends at hspec
      rw [hturn] at hspec
      rcases hspec with ⟨htrue, -⟩ | ⟨-, hlater, -⟩
      · cases htrue
      · exact ⟨_, 1, .last (aloneTurn_idle h fun e he => (hlater e he).le)⟩
  | @again n d d₁ d' hturn _ ih =>
    obtain ⟨⟨p₁, hsound⟩, first, ev, hfirst, hle, -⟩ := visitTurn_again hE h hturn
    rcases Nat.eq_or_lt_of_le hle with heq | hlt
    · exact ⟨_, 1, .last (aloneTurn_idle h fun e he => heq ▸ hfirst.2 e he)⟩
    · obtain ⟨e, he⟩ := ih hsound
      have hturn' := (aloneTurn_due hE h hfirst hlt).trans hturn
      exact ⟨e, (ends_again hturn').mpr he⟩

/-- The log of a domain only grows. -/
theorem log_suffix (hE : NoCrossings E) (h : Sound c [] d p)
    (hends : Ends (visitTurn c (run E c)) d d') : d.logVec <:+ d'.logVec := by
  obtain ⟨n, hn⟩ := hends
  induction hn generalizing p with
  | @last d d' hturn =>
    have hspec := visitTurn_spec hE h
    unfold ends at hspec
    rw [hturn] at hspec
    rcases hspec with ⟨htrue, -⟩ | ⟨-, -, rfl⟩
    · cases htrue
    · exact List.suffix_refl _
  | again hturn _ ih =>
    obtain ⟨⟨p₁, hsound⟩, first, ev, -, -, hran⟩ := visitTurn_again hE h hturn
    have hrest := ih hsound
    rw [hran] at hrest
    exact (List.suffix_cons _ _).trans hrest

/-- A domain ends the same way alone and among others, if no event is due at the limit. -/
theorem ends_visit_iff (hE : NoCrossings E) (h : Sound c [] d p) (hoff : OffLimit E c d) :
    Ends (aloneTurn E c) d d' ↔ Ends (visitTurn c (run E c)) d d' := by
  refine ends_congr (fun d => (∃ p, Sound c [] d p) ∧ OffLimit E c d) ?_ ?_ ⟨⟨p, h⟩, hoff⟩
  · intro d ⟨⟨p, hsound⟩, hoff⟩
    rcases after_or_earliest p.events c.limit with hlater | ⟨first, hfirst, hle⟩
    · rw [aloneTurn_idle hsound fun e he => (hlater e he).le, visitTurn_idle hsound hlater]
    · have hne : first ≠ c.limit := by
        intro heq
        exact hoff d .refl (heq ▸ hsound.firstCycle hfirst)
      exact aloneTurn_due hE hsound hfirst (lt_of_le_of_ne hle hne)
  · intro d d₁ ⟨⟨p, hsound⟩, hoff⟩ hturn
    obtain ⟨hvisit, -⟩ := aloneTurn_again hE hsound hturn
    exact ⟨(visitTurn_again hE hsound hvisit).1, fun d₂ hreach => hoff d₂ (hreach.head hturn)⟩

/-- A domain that has run no event at the limit had none due there. -/
theorem offLimit_of_visit (hE : NoCrossings E) (h : Sound c [] d p)
    (hends : Ends (visitTurn c (run E c)) d d') (hlog : ∀ e ∈ d'.logVec, e.1 < c.limit) :
    OffLimit E c d := by
  intro d₁ hreach hdue
  have hhere : (∃ p₁, Sound c [] d₁ p₁) ∧ Ends (visitTurn c (run E c)) d₁ d' := by
    clear hdue
    induction hreach with
    | refl => exact ⟨⟨p, h⟩, hends⟩
    | tail _ hturn ih =>
      obtain ⟨⟨p₁, hsound⟩, hrest⟩ := ih
      obtain ⟨hvisit, -⟩ := aloneTurn_again hE hsound hturn
      exact ⟨(visitTurn_again hE hsound hvisit).1, (ends_again hvisit).mp hrest⟩
  obtain ⟨⟨p₁, hsound⟩, hrest⟩ := hhere
  have hfirst := hsound.stores.earliest (by decide) (by decide) hdue
  -- the visit at the limit logs the limit as the cycle of an event
  obtain ⟨n, hn⟩ := hrest
  obtain ⟨again, d₂, hturn⟩ := hn.first
  have hspec := visitTurn_spec hE hsound
  unfold ends at hspec
  rw [hturn] at hspec
  rcases hspec with ⟨rfl, ⟨p₂, hsound₂⟩, first, ev, hfirst', -, hran⟩ | ⟨-, hlater, -⟩
  · obtain rfl := hfirst'.unique hfirst
    have hsuffix := log_suffix hE hsound₂ ((ends_again hturn).mp ⟨n, hn⟩)
    have hin : (c.limit, ev) ∈ d'.logVec := hsuffix.subset (hran ▸ List.mem_cons_self)
    exact absurd (hlog _ hin) (lt_irrefl _)
  · obtain ⟨o, hin⟩ := hfirst.1
    exact absurd (hlater _ hin) (lt_irrefl _)

end Ends

end Zsim.WeaveLoopsRuns
