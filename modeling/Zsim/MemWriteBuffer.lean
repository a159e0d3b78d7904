import Mathlib.Data.List.Perm.Basic
import Zsim.GuardedRuns
import Zsim.MemRouting

/-!
# The queues of the memory scheduler

Writes wait in one queue and stay in another one after they were issued, where reads find them. The two hold an
address once, and reads leave their queue only when they are issued. An overflow is noticed when the two queues
have just reached their size, and it is answered only if a write is done, so that with none done the queues grow
on. A single queue entry leaves writes their priority although none is there.
-/

namespace Zsim.MemWriteBuffer

open GuardedRuns WeakestPre Outcomes DetailedMemParams MemChannel MemController

variable {q q' : MemSchedulerDefault} {ev : MemAccessEventBase} {hit : Bool} {picked : Option Picked}
  {queue : List MemSchedQueueElem} {addr : UInt64} {idx : ℕ}

/-- The addresses in a queue. -/
def addrs (queue : List MemSchedQueueElem) : List UInt64 := queue.map (·.addr)

@[simp] theorem addrs_append (queue₁ queue₂ : List MemSchedQueueElem) :
    addrs (queue₁ ++ queue₂) = addrs queue₁ ++ addrs queue₂ := List.map_append

/-- What `CheckSetEvent` does. -/
inductive Checked (q : MemSchedulerDefault) (ev : MemAccessEventBase) : MemSchedulerDefault → Bool → Prop
  | rewrite (idx : ℕ) (e : MemSchedQueueElem) (hwrite : ev.type = .WRITE) (hidx : q.wrQueue[idx]? = some e)
      (haddr : e.addr = ev.addr) :
      Checked q ev { q with wrQueue := q.wrQueue.eraseIdx idx ++ [⟨none, ev.addr⟩] } true
  | forward (hread : ev.type = .READ) (hmem : ev.addr ∈ addrs q.wrQueue) : Checked q ev q true
  | reread (idx : ℕ) (e : MemSchedQueueElem) (hread : ev.type = .READ) (hidx : q.wrDoneQueue[idx]? = some e)
      (haddr : e.addr = ev.addr) :
      Checked q ev { q with wrDoneQueue := q.wrDoneQueue.eraseIdx idx ++ [⟨none, ev.addr⟩] } true
  | revive (idx : ℕ) (e : MemSchedQueueElem) (hwrite : ev.type = .WRITE) (hidx : q.wrDoneQueue[idx]? = some e)
      (haddr : e.addr = ev.addr) :
      Checked q ev { q with
        wrDoneQueue := q.wrDoneQueue.eraseIdx idx
        wrQueue := q.wrQueue ++ [⟨none, ev.addr⟩] } true
  | missRead (hread : ev.type = .READ) (hmiss : ev.addr ∉ addrs q.wrQueue ++ addrs q.wrDoneQueue) :
      Checked q ev { q with rdQueue := q.rdQueue ++ [⟨some ev, ev.addr⟩] } false
  | missWrite (hwrite : ev.type = .WRITE) (hmiss : ev.addr ∉ addrs q.wrQueue ++ addrs q.wrDoneQueue) :
      Checked q ev { q with
        wrQueue := q.wrQueue ++ [⟨none, ev.addr⟩]
        wrDoneQueue := if q.wrQueue.length + 1 + q.wrDoneQueue.length = q.wrQueueSize then q.wrDoneQueue.tail
          else q.wrDoneQueue } false

theorem findAddr_some (h : findAddr addr queue = some idx) : ∃ e, queue[idx]? = some e ∧ e.addr = addr := by
  obtain ⟨hlt, haddr, _⟩ := List.findIdx?_eq_some_iff_getElem.mp h
  exact ⟨queue[idx], List.getElem?_eq_getElem hlt, beq_iff_eq.mp haddr⟩

theorem findAddr_none (h : findAddr addr queue = none) : addr ∉ addrs queue := by
  intro hmem
  obtain ⟨e, he, haddr⟩ := List.mem_map.mp hmem
  have hne := List.findIdx?_eq_none_iff.mp h e he
  rw [haddr, beq_self_eq_true] at hne
  cases hne

theorem mem_addrs_of_getElem? {e : MemSchedQueueElem} (h : queue[idx]? = some e) : e.addr ∈ addrs queue :=
  List.mem_map_of_mem (List.mem_of_getElem? h)

theorem write_of_ne_read (h : ¬ ev.type = .READ) : ev.type = .WRITE := by
  cases htype : ev.type with
  | READ => exact absurd htype h
  | WRITE => rfl

theorem read_of_ne_write (h : ¬ ev.type = .WRITE) : ev.type = .READ := by
  cases htype : ev.type with
  | READ => rfl
  | WRITE => exact absurd htype h

/-- Every case of `CheckSetEvent`. -/
theorem checked (q : MemSchedulerDefault) (ev : MemAccessEventBase) :
    Checked q ev (q.CheckSetEvent ev).1 (q.CheckSetEvent ev).2 := by
  unfold MemSchedulerDefault.CheckSetEvent
  cases hwr : findAddr ev.addr q.wrQueue with
  | some i =>
    have ⟨e, hidx, haddr⟩ := findAddr_some hwr
    dsimp only
    split_ifs with hwrite
    · exact .rewrite i e hwrite hidx haddr
    · exact .forward (read_of_ne_write hwrite) (haddr ▸ mem_addrs_of_getElem? hidx)
  | none =>
    dsimp only
    cases hdone : findAddr ev.addr q.wrDoneQueue with
    | some i =>
      have ⟨e, hidx, haddr⟩ := findAddr_some hdone
      dsimp only
      split_ifs with hread
      · exact .reread i e hread hidx haddr
      · exact .revive i e (write_of_ne_read hread) hidx haddr
    | none =>
      have hmiss : ev.addr ∉ addrs q.wrQueue ++ addrs q.wrDoneQueue := by
        rw [List.mem_append, not_or]
        exact ⟨findAddr_none hwr, findAddr_none hdone⟩
      dsimp only
      by_cases hread : ev.type = .READ
      · rw [if_pos hread]
        exact .missRead hread hmiss
      · rw [if_neg hread, List.length_append]
        exact .missWrite (write_of_ne_read hread) hmiss

/-- What `GetEvent` does. -/
inductive Got (q : MemSchedulerDefault) : Option Picked → MemSchedulerDefault → Prop
  | read (idx : ℕ) (ev : MemAccessEventBase) (addr : UInt64) (hprio : q.priority = .READ)
      (hidx : q.rdQueue[idx]? = some ⟨some ev, addr⟩) :
      Got q (some (some ev, ev.addr, ev.type))
        { q with prioritizedAccessType := q.priority, rdQueue := q.rdQueue.eraseIdx idx }
  | write (idx : ℕ) (e : MemSchedQueueElem) (hidx : q.wrQueue[idx]? = some e) :
      Got q (some (none, e.addr, .WRITE))
        { q with
          prioritizedAccessType := q.priority
          wrQueue := q.wrQueue.eraseIdx idx
          wrDoneQueue := q.wrDoneQueue ++ [⟨none, e.addr⟩] }
  | nothing (hread : q.priority = .READ → q.rdQueue = []) (hwrite : q.wrQueue = []) :
      Got q none { q with prioritizedAccessType := q.priority }

variable {p : MemParam} {channel : ℕ}

/-- Nothing is claimed of a run that fails. -/
theorem ends_any {σ ε α : Type} (m : Prog σ ε α) (s : σ) : ends (fun _ => True) m (fun _ _ => True) s := by
  unfold ends
  split <;> trivial

/-- The request that is chosen is in the queue, unless the queue is empty. -/
theorem findBestRequest_lt (queue : List MemSchedQueueElem) (tmpIdx : ℕ) (s : MemChannelBase) :
    ends (fun _ => True) (FindBestRequest p queue tmpIdx) (fun idx _ => idx = 0 ∨ idx < tmpIdx + queue.length) s := by
  induction queue generalizing tmpIdx s with
  | nil => exact .inl rfl
  | cons e queue ih =>
    rw [FindBestRequest, ends_bind]
    refine ends_mono (ends_any _ _) fun loc s₁ _ => ?_
    rw [ends_bind, ends_observe, ends_ite]
    split
    · exact .inr (by rw [List.length_cons]; omega)
    · refine ends_mono (ih (tmpIdx + 1) s₁) fun idx _ hidx => ?_
      rw [List.length_cons]
      omega

/-- A queue that gives no request is empty, and the schedulers are left alone while it is searched. -/
theorem onChannel_findBestRequest (queue : List MemSchedQueueElem) (s : MemControllerBase) :
    ends (fun _ => True) (onChannel channel (FindBestRequest p queue 0))
      (fun idx s' => s'.sches = s.sches ∧ (queue[idx]? = none → queue = [])) s := by
  rw [ends_onChannel]
  refine ends_mono (findBestRequest_lt queue 0 _) fun idx _ hidx => ⟨rfl, fun hnone => ?_⟩
  rw [List.getElem?_eq_none_iff] at hnone
  refine List.eq_nil_of_length_eq_zero ?_
  omega

theorem pickWrite_got (s : MemControllerBase) {q : MemSchedulerDefault} (hq : s.sches channel =
      { q with prioritizedAccessType := q.priority }) (hread : q.priority = .READ → q.rdQueue = []) :
    ends (fun _ => True) (pickWrite p channel) (fun picked s' => Got q picked (s'.sches channel)) s := by
  rw [pickWrite, ends_bind, ends_observe, ends_bind]
  refine ends_mono (onChannel_findBestRequest _ s) fun idx s₁ h₁ => ?_
  rw [hq] at h₁ ⊢
  split
  case h_1 e hidx =>
    rw [ends_bind, modifySched, ends_change, ends_pure]
    dsimp only
    rw [Function.update_self, h₁.1, hq]
    exact .write idx e hidx
  case h_2 hnone =>
    rw [ends_pure, h₁.1, hq]
    exact .nothing hread (h₁.2 hnone)

/-- Every case of `GetEvent`. -/
theorem getEvent_got (s : MemControllerBase) :
    ends (fun _ => True) (GetEvent p channel) (fun picked s' => Got (s.sches channel) picked (s'.sches channel)) s := by
  rw [GetEvent, ends_bind, modifySched, ends_change]
  generalize hs : MemControllerBase.mk _ _ _ _ = s₁
  have hq : s₁.sches channel = { s.sches channel with prioritizedAccessType := (s.sches channel).priority } := by
    rw [← hs]
    exact Function.update_self ..
  rw [ends_bind, ends_observe, ends_bind, ends_ite, hq]
  split
  case isTrue hread =>
    rw [pickRead, ends_bind, ends_observe, ends_bind]
    refine ends_mono (onChannel_findBestRequest _ s₁) fun idx s₂ h₂ => ?_
    rw [hq] at h₂ ⊢
    split
    case h_1 ev addr hidx =>
      rw [ends_bind, modifySched, ends_change, ends_pure, ends_pure]
      dsimp only
      rw [Function.update_self, h₂.1, hq]
      exact .read idx ev addr hread hidx
    case h_2 => exact trivial
    case h_3 hnone =>
      rw [ends_pure]
      exact pickWrite_got s₂ (h₂.1 ▸ hq) fun _ => h₂.2 hnone
  case isFalse hwrite =>
    rw [ends_pure]
    exact pickWrite_got s₁ hq fun hread => absurd hread hwrite

/-- A scheduler with the reads that missed and the requests that were returned so far, the last ones first, as
history that no function reads. -/
structure SchedRun where
  q : MemSchedulerDefault
  missed : List MemAccessEventBase
  returned : List Picked

/-- A request that arrives, or a look for the next one while the channel is in some state. -/
inductive SchedAct where
  | check (ev : MemAccessEventBase)
  | get (chnl : MemChannelBase)

namespace SchedRun

def new (p : MemParam) : SchedRun := ⟨.new p, [], []⟩

/-- A call of the scheduler; none where an assertion on the addresses fails. -/
def step (p : MemParam) (r : SchedRun) : SchedAct → Option SchedRun
  | .check ev =>
    let answer := r.q.CheckSetEvent ev
    some { r with
      q := answer.1
      missed := if ev.type = .READ ∧ answer.2 = false then ev :: r.missed else r.missed }
  | .get chnl =>
    match GetEvent p 0 ⟨fun _ => chnl, fun _ => r.q, 0, []⟩ with
    | .ok (picked, s) => some { r with q := s.sches 0, returned := picked.toList ++ r.returned }
    | .error _ => none

end SchedRun

variable {r r' : SchedRun} {act : SchedAct}

theorem step_get {chnl : MemChannelBase} (h : r.step p (.get chnl) = some r') :
    ∃ picked, Got r.q picked r'.q ∧ r'.missed = r.missed ∧ r'.returned = picked.toList ++ r.returned := by
  have hgot := @getEvent_got p 0 ⟨fun _ => chnl, fun _ => r.q, 0, []⟩
  simp only [SchedRun.step] at h
  unfold ends at hgot
  cases hrun : GetEvent p 0 ⟨fun _ => chnl, fun _ => r.q, 0, []⟩ with
  | error e =>
    rw [hrun] at h
    cases h
  | ok x =>
    rw [hrun] at h hgot
    cases h
    exact ⟨x.1, hgot, rfl, rfl⟩

/-- An entry of the read queue. -/
def IsRead (e : MemSchedQueueElem) : Prop := ∃ ev, e = ⟨some ev, ev.addr⟩ ∧ ev.type = .READ

/-- What holds of the queues in every state: an address is in the write queues once, and the reads that missed are
those that wait and those that were returned. -/
structure Sound (r : SchedRun) : Prop where
  distinct : (addrs r.q.wrQueue ++ addrs r.q.wrDoneQueue).Nodup
  reads : ∀ e ∈ r.q.rdQueue, IsRead e
  accounted : r.missed.Perm (r.q.rdQueue.filterMap (·.ev) ++ r.returned.filterMap (·.1))
  returned : ∀ x ∈ r.returned, ∀ ev, x.1 = some ev → x = (some ev, ev.addr, .READ)

/-- The queues of writes have their size at most. -/
def Bounded (q : MemSchedulerDefault) : Prop := q.wrQueue.length + q.wrDoneQueue.length ≤ q.wrQueueSize

theorem addrs_eraseIdx_perm {e : MemSchedQueueElem} (hidx : queue[idx]? = some e) :
    (e.addr :: addrs (queue.eraseIdx idx)).Perm (addrs queue) := by
  obtain ⟨hlt, rfl⟩ := List.getElem?_eq_some_iff.mp hidx
  exact (List.getElem_cons_eraseIdx_perm hlt).map (·.addr)

/-- A write moves when it is written again or read, and a write that misses has an address of its own. -/
theorem Checked.distinct (h : Checked q ev q' hit) (hd : (addrs q.wrQueue ++ addrs q.wrDoneQueue).Nodup) :
    (addrs q'.wrQueue ++ addrs q'.wrDoneQueue).Nodup := by
  cases h with
  | rewrite idx e hwrite hidx haddr =>
    have hperm := addrs_eraseIdx_perm hidx
    rw [haddr] at hperm
    rw [addrs_append]
    exact (((List.perm_append_singleton _ _).trans hperm).append_right _).nodup_iff.mpr hd
  | forward => exact hd
  | reread idx e hread hidx haddr =>
    have hperm := addrs_eraseIdx_perm hidx
    rw [haddr] at hperm
    rw [addrs_append]
    exact (((List.perm_append_singleton _ _).trans hperm).append_left _).nodup_iff.mpr hd
  | revive idx e hwrite hidx haddr =>
    have hperm := addrs_eraseIdx_perm hidx
    rw [haddr] at hperm
    rw [addrs_append, List.append_assoc]
    exact (hperm.append_left _).nodup_iff.mpr hd
  | missRead => exact hd
  | missWrite hwrite hmiss =>
    have hall : (addrs (q.wrQueue ++ [⟨none, ev.addr⟩]) ++ addrs q.wrDoneQueue).Nodup := by
      rw [addrs_append, List.append_assoc]
      exact List.perm_middle.nodup_iff.mpr (List.nodup_cons.mpr ⟨hmiss, hd⟩)
    refine hall.sublist ((List.Sublist.refl _).append ?_)
    dsimp only
    split
    · exact (List.tail_sublist _).map _
    · exact .refl _

theorem Got.distinct (h : Got q picked q') (hd : (addrs q.wrQueue ++ addrs q.wrDoneQueue).Nodup) :
    (addrs q'.wrQueue ++ addrs q'.wrDoneQueue).Nodup := by
  cases h with
  | read => exact hd
  | nothing => exact hd
  | write idx e hidx =>
    rw [addrs_append]
    have hperm : (addrs (q.wrQueue.eraseIdx idx) ++ (addrs q.wrDoneQueue ++ [e.addr])).Perm
        (addrs q.wrQueue ++ addrs q.wrDoneQueue) := by
      rw [← List.append_assoc]
      exact (List.perm_append_singleton _ _).trans ((addrs_eraseIdx_perm hidx).append_right _)
    exact hperm.nodup_iff.mpr hd

/-- A read that misses waits in the queue, and no other call changes the reads. -/
theorem Checked.reads (h : Checked q ev q' hit) :
    (ev.type = .READ ∧ hit = false ∧ q'.rdQueue = q.rdQueue ++ [⟨some ev, ev.addr⟩]) ∨
      (¬ (ev.type = .READ ∧ hit = false) ∧ q'.rdQueue = q.rdQueue) := by
  cases h with
  | missRead hread => exact .inl ⟨hread, rfl, rfl⟩
  | missWrite hwrite => exact .inr ⟨fun h => absurd (hwrite.symm.trans h.1) (by decide), rfl⟩
  | rewrite => exact .inr ⟨fun h => absurd h.2 (by decide), rfl⟩
  | forward => exact .inr ⟨fun h => absurd h.2 (by decide), rfl⟩
  | reread => exact .inr ⟨fun h => absurd h.2 (by decide), rfl⟩
  | revive => exact .inr ⟨fun h => absurd h.2 (by decide), rfl⟩

theorem Sound.check (h : Sound r) (ev : MemAccessEventBase) (hstep : r.step p (.check ev) = some r') : Sound r' := by
  cases hstep
  have hchecked := checked r.q ev
  refine ⟨hchecked.distinct h.distinct, ?_, ?_, h.returned⟩
  · cases hchecked.reads with
    | inl hmiss =>
      dsimp only
      rw [hmiss.2.2]
      intro e he
      cases List.mem_append.mp he with
      | inl he => exact h.reads e he
      | inr he => exact ⟨ev, List.mem_singleton.mp he, hmiss.1⟩
    | inr hsame =>
      dsimp only
      rw [hsame.2]
      exact h.reads
  · cases hchecked.reads with
    | inl hmiss =>
      dsimp only
      rw [hmiss.2.2, if_pos ⟨hmiss.1, hmiss.2.1⟩, List.filterMap_append]
      refine (h.accounted.cons ev).trans ?_
      rw [List.append_assoc]
      exact List.perm_middle.symm
    | inr hsame =>
      dsimp only
      rw [hsame.2, if_neg hsame.1]
      exact h.accounted

theorem filterMap_eraseIdx_perm {e : MemSchedQueueElem} (hidx : queue[idx]? = some e) (hev : e.ev = some ev) :
    (ev :: (queue.eraseIdx idx).filterMap (·.ev)).Perm (queue.filterMap (·.ev)) := by
  obtain ⟨hlt, rfl⟩ := List.getElem?_eq_some_iff.mp hidx
  have hperm := (List.getElem_cons_eraseIdx_perm hlt).filterMap (·.ev)
  rwa [List.filterMap_cons_some hev] at hperm

theorem Sound.get (h : Sound r) {chnl : MemChannelBase} (hstep : r.step p (.get chnl) = some r') : Sound r' := by
  obtain ⟨picked, hgot, hmissed, hreturned⟩ := step_get hstep
  have hdistinct := hgot.distinct h.distinct
  obtain ⟨q', missed', returned'⟩ := r'
  cases hmissed
  cases hreturned
  cases hgot with
  | read idx ev addr hprio hidx =>
    have hread := h.reads _ (List.mem_of_getElem? hidx)
    obtain ⟨ev', heq, htype⟩ := hread
    cases heq
    refine ⟨hdistinct, fun e he => h.reads e (List.mem_of_mem_eraseIdx he), ?_, ?_⟩
    · refine h.accounted.trans ?_
      exact ((filterMap_eraseIdx_perm hidx rfl).append_right _).symm.trans List.perm_middle.symm
    · intro x hx ev₁ hev
      cases List.mem_cons.mp hx with
      | inl hpicked =>
        cases hpicked
        cases hev
        rw [htype]
      | inr hold => exact h.returned x hold ev₁ hev
  | write idx e hidx =>
    refine ⟨hdistinct, h.reads, h.accounted, fun x hx ev₁ hev => ?_⟩
    cases List.mem_cons.mp hx with
    | inl hpicked =>
      cases hpicked
      cases hev
    | inr hold => exact h.returned x hold ev₁ hev
  | nothing hread hwrite => exact ⟨hdistinct, h.reads, h.accounted, h.returned⟩

theorem Sound.new (p : MemParam) : Sound (.new p) where
  distinct := List.nodup_nil
  reads _ he := absurd he List.not_mem_nil
  accounted := .refl _
  returned _ hx := absurd hx List.not_mem_nil

/-- A call keeps the queues sound. -/
theorem Sound.step (h : Sound r) (hstep : r.step p act = some r') : Sound r' := by
  cases act with
  | check ev => exact h.check ev hstep
  | get chnl => exact h.get hstep

/-- The condition on a call: a write that misses comes while the queues of writes are below their size, and no
request is looked for while only reads wait and a watermark of zero gives writes their priority. -/
def Safe (r : SchedRun) : SchedAct → Prop
  | .check ev => ev.type = .WRITE → ev.addr ∉ addrs r.q.wrQueue ++ addrs r.q.wrDoneQueue →
      r.q.wrQueue.length + r.q.wrDoneQueue.length < r.q.wrQueueSize
  | .get _ => r.q.wrQueueHighWatermark = 0 → r.q.wrQueue = [] → r.q.rdQueue = []

theorem length_eraseIdx_append {e e' : MemSchedQueueElem} (hidx : queue[idx]? = some e) :
    (queue.eraseIdx idx ++ [e']).length = queue.length := by
  obtain ⟨hlt, _⟩ := List.getElem?_eq_some_iff.mp hidx
  rw [List.length_append, List.length_singleton, List.length_eraseIdx_add_one hlt]

/-- Only a write that misses makes the queues longer. -/
theorem Checked.bounded (h : Checked q ev q' hit) (hb : Bounded q)
    (hsafe : ev.type = .WRITE → ev.addr ∉ addrs q.wrQueue ++ addrs q.wrDoneQueue →
      q.wrQueue.length + q.wrDoneQueue.length < q.wrQueueSize) : Bounded q' := by
  cases h with
  | rewrite idx e hwrite hidx =>
    unfold Bounded
    rw [length_eraseIdx_append hidx]
    exact hb
  | forward => exact hb
  | reread idx e hread hidx =>
    unfold Bounded
    rw [length_eraseIdx_append hidx]
    exact hb
  | revive idx e hwrite hidx =>
    obtain ⟨hlt, _⟩ := List.getElem?_eq_some_iff.mp hidx
    have hlen := List.length_eraseIdx_add_one hlt
    unfold Bounded at hb ⊢
    rw [List.length_append, List.length_singleton]
    dsimp only
    omega
  | missRead => exact hb
  | missWrite hwrite hmiss =>
    have hroom := hsafe hwrite hmiss
    unfold Bounded
    dsimp only
    rw [List.length_append, List.length_singleton]
    split
    · rw [List.length_tail]
      omega
    · omega

theorem Got.bounded (h : Got q picked q') (hb : Bounded q) : Bounded q' := by
  cases h with
  | read => exact hb
  | nothing => exact hb
  | write idx e hidx =>
    obtain ⟨hlt, _⟩ := List.getElem?_eq_some_iff.mp hidx
    have hlen := List.length_eraseIdx_add_one hlt
    unfold Bounded at hb ⊢
    rw [List.length_append, List.length_singleton]
    dsimp only
    omega

theorem Bounded.step (h : Bounded r.q) (hsafe : Safe r act) (hstep : r.step p act = some r') :
    Bounded r'.q := by
  cases act with
  | check ev =>
    cases hstep
    exact (checked r.q ev).bounded h hsafe
  | get chnl =>
    obtain ⟨picked, hgot, _⟩ := step_get hstep
    exact hgot.bounded h

/-- What a call does: a read hits just when a write of its address is there, a write is accepted, a request is
returned when one waits, and a write waits until it is returned. -/
def Serves (r : SchedRun) : SchedAct → SchedRun → Prop
  | .check ev, r' =>
    (ev.type = .READ → ((r.q.CheckSetEvent ev).2 = true ↔ ev.addr ∈ addrs r.q.wrQueue ++ addrs r.q.wrDoneQueue)) ∧
      (ev.type = .WRITE → ev.addr ∈ addrs r'.q.wrQueue) ∧
      ∀ addr ∈ addrs r.q.wrQueue, addr ∈ addrs r'.q.wrQueue
  | .get _, r' =>
    (r.q.rdQueue ≠ [] ∨ r.q.wrQueue ≠ [] → ∃ x, r'.returned = x :: r.returned) ∧
      ∀ addr ∈ addrs r.q.wrQueue, addr ∈ addrs r'.q.wrQueue ∨ r'.returned = (none, addr, .WRITE) :: r.returned

theorem Checked.hit_iff (h : Checked q ev q' hit) (hread : ev.type = .READ) :
    hit = true ↔ ev.addr ∈ addrs q.wrQueue ++ addrs q.wrDoneQueue := by
  cases h with
  | rewrite _ _ hwrite => exact absurd (hread.symm.trans hwrite) (by decide)
  | forward _ hmem => exact iff_of_true rfl (List.mem_append_left _ hmem)
  | reread idx e _ hidx haddr =>
    exact iff_of_true rfl (List.mem_append_right _ (haddr ▸ mem_addrs_of_getElem? hidx))
  | revive _ _ hwrite => exact absurd (hread.symm.trans hwrite) (by decide)
  | missRead _ hmiss => exact iff_of_false Bool.false_ne_true hmiss
  | missWrite hwrite => exact absurd (hread.symm.trans hwrite) (by decide)

theorem Checked.accepted (h : Checked q ev q' hit) (hwrite : ev.type = .WRITE) : ev.addr ∈ addrs q'.wrQueue := by
  cases h with
  | forward hread => exact absurd (hread.symm.trans hwrite) (by decide)
  | reread _ _ hread => exact absurd (hread.symm.trans hwrite) (by decide)
  | missRead hread => exact absurd (hread.symm.trans hwrite) (by decide)
  | rewrite =>
    rw [addrs_append]
    exact List.mem_append_right _ (List.mem_singleton_self _)
  | revive =>
    rw [addrs_append]
    exact List.mem_append_right _ (List.mem_singleton_self _)
  | missWrite =>
    rw [addrs_append]
    exact List.mem_append_right _ (List.mem_singleton_self _)

/-- A write is only erased to be queued again. -/
theorem Checked.keeps (h : Checked q ev q' hit) : addrs q.wrQueue ⊆ addrs q'.wrQueue := by
  cases h with
  | forward => exact List.Subset.refl _
  | reread => exact List.Subset.refl _
  | missRead => exact List.Subset.refl _
  | rewrite idx e _ hidx haddr =>
    have hperm := addrs_eraseIdx_perm hidx
    rw [haddr] at hperm
    rw [addrs_append]
    exact ((List.perm_append_singleton _ _).trans hperm).symm.subset
  | revive =>
    rw [addrs_append]
    exact List.subset_append_left _ _
  | missWrite =>
    rw [addrs_append]
    exact List.subset_append_left _ _

/-- A write leaves its queue when it is returned. -/
theorem Got.keeps (h : Got q picked q') (hmem : addr ∈ addrs q.wrQueue) :
    addr ∈ addrs q'.wrQueue ∨ picked = some (none, addr, .WRITE) := by
  cases h with
  | read => exact .inl hmem
  | nothing => exact .inl hmem
  | write idx e hidx =>
    cases List.mem_cons.mp ((addrs_eraseIdx_perm hidx).mem_iff.mpr hmem) with
    | inl heq => exact .inr (by rw [heq])
    | inr hmem => exact .inl hmem

theorem Got.returns (h : Got q picked q') (hsafe : q.wrQueueHighWatermark = 0 → q.wrQueue = [] → q.rdQueue = [])
    (hwaits : q.rdQueue ≠ [] ∨ q.wrQueue ≠ []) : ∃ x, picked = some x := by
  cases h with
  | read => exact ⟨_, rfl⟩
  | write => exact ⟨_, rfl⟩
  | nothing hread hwrite =>
    have hwait : q.rdQueue ≠ [] := hwaits.resolve_right (not_not_intro hwrite)
    have hhigh : ¬ q.wrQueueHighWatermark ≤ q.wrQueue.length := by
      rw [hwrite]
      exact fun hle => hwait (hsafe (Nat.le_zero.mp hle) hwrite)
    have hlow : q.wrQueue.length ≤ q.wrQueueLowWatermark := by
      rw [hwrite]
      exact Nat.zero_le _
    have hprio : q.priority = .READ := by
      rw [MemSchedulerDefault.priority, if_neg hhigh, if_pos hlow]
    exact absurd (hread hprio) hwait

theorem serves_step (hsafe : Safe r act) (hstep : r.step p act = some r') : Serves r act r' := by
  cases act with
  | check ev =>
    cases hstep
    have h := checked r.q ev
    exact ⟨h.hit_iff, h.accepted, fun _ hmem => h.keeps hmem⟩
  | get chnl =>
    obtain ⟨picked, hgot, _, hreturned⟩ := step_get hstep
    constructor
    · intro hwaits
      obtain ⟨x, hx⟩ := hgot.returns hsafe hwaits
      exact ⟨x, by rw [hreturned, hx]; rfl⟩
    · intro addr hmem
      cases hgot.keeps hmem with
      | inl hkept => exact .inl hkept
      | inr hpicked => exact .inr (by rw [hreturned, hpicked]; rfl)

/-- Where a write misses, the queues stay within their size only if there was room. -/
theorem Checked.room (h : Checked q ev q' hit) (hb : Bounded q') (hwrite : ev.type = .WRITE)
    (hmiss : ev.addr ∉ addrs q.wrQueue ++ addrs q.wrDoneQueue) :
    q.wrQueue.length + q.wrDoneQueue.length < q.wrQueueSize := by
  cases h with
  | forward hread => exact absurd (hread.symm.trans hwrite) (by decide)
  | reread _ _ hread => exact absurd (hread.symm.trans hwrite) (by decide)
  | missRead hread => exact absurd (hread.symm.trans hwrite) (by decide)
  | rewrite idx e _ hidx haddr =>
    exact absurd (List.mem_append_left _ (haddr ▸ mem_addrs_of_getElem? hidx)) hmiss
  | revive idx e _ hidx haddr =>
    exact absurd (List.mem_append_right _ (haddr ▸ mem_addrs_of_getElem? hidx)) hmiss
  | missWrite =>
    unfold Bounded at hb
    dsimp only at hb
    rw [List.length_append, List.length_singleton] at hb
    split at hb <;> omega

/-- With a watermark of zero nothing is returned while there are only reads. -/
theorem Got.starves (h : Got q picked q') (hhigh : q.wrQueueHighWatermark = 0) (hwr : q.wrQueue = []) :
    picked = none := by
  have hprio : q.priority = .WRITE := by
    rw [MemSchedulerDefault.priority, hhigh, if_pos (Nat.zero_le _)]
  cases h with
  | read _ _ _ hread => exact absurd (hprio.symm.trans hread) (by decide)
  | write idx e hidx =>
    rw [hwr] at hidx
    cases hidx
  | nothing => rfl

theorem safe_step (hb : Bounded r'.q) (hserves : Serves r act r') (hstep : r.step p act = some r') :
    Safe r act := by
  cases act with
  | check ev =>
    cases hstep
    exact (checked r.q ev).room hb
  | get chnl =>
    obtain ⟨picked, hgot, _, hreturned⟩ := step_get hstep
    intro hhigh hwr
    by_contra hwaits
    obtain ⟨x, hx⟩ := hserves.1 (.inl hwaits)
    rw [hreturned, hgot.starves hhigh hwr] at hx
    exact absurd (congrArg List.length hx) (by simp)

/-- However the calls are mixed, an address is in the queues of writes once, and the reads that missed wait or were
returned. -/
theorem sound_of_run {acts : List SchedAct} (h : run (SchedRun.step p) (.new p) acts = some r) : Sound r :=
  run_invariant (fun _ _ _ hr hstep => hr.step hstep) (.new p) h

/-- A read of a write that waits does not miss. -/
theorem sound_of_run_reads : ∃ r, run (SchedRun.step MemRouting.threeChannels.toMemParam)
    (.new MemRouting.threeChannels.toMemParam) [.check ⟨.WRITE, 2, 0⟩, .check ⟨.READ, 2, 1⟩] = some r ∧
      r.missed = [] ∧ Sound r :=
  ⟨_, rfl, rfl,
    @sound_of_run MemRouting.threeChannels.toMemParam _ [.check ⟨.WRITE, 2, 0⟩, .check ⟨.READ, 2, 1⟩] rfl⟩

/-- In every run the queues of writes keep their bound and requests are served just when every call meets the
condition. -/
theorem served_iff (p : MemParam) (acts : List SchedAct) :
    EveryStep (SchedRun.step p) (fun r act r' => Sound r' ∧ Bounded r'.q ∧ Serves r act r') (.new p) acts ↔
      EveryStep (SchedRun.step p) (fun r act _ => Safe r act) (.new p) acts := by
  have hiff : ∀ r act r', Sound r ∧ Bounded r.q → r.step p act = some r' →
      (Sound r' ∧ Bounded r'.q ∧ Serves r act r' ↔ Safe r act) := by
    intro r act r' hr hstep
    constructor
    · exact fun h => safe_step h.2.1 h.2.2 hstep
    · exact fun hsafe => ⟨hr.1.step hstep, hr.2.step hsafe hstep, serves_step hsafe hstep⟩
  have hinv : ∀ r act r', Sound r ∧ Bounded r.q → Safe r act → r.step p act = some r' →
      Sound r' ∧ Bounded r'.q :=
    fun r act r' hr hsafe hstep => ⟨hr.1.step hstep, hr.2.step hsafe hstep⟩
  exact everyStep_iff hiff hinv ⟨.new p, Nat.zero_le _⟩

/-- Queues for two writes. -/
def twoWrites : MemParam := { MemRouting.threeChannels.toMemParam with schedulerQueueCount := 2 }

/-- The third write finds the queues full of writes that are not done. -/
theorem third_write_overflows :
    (run (SchedRun.step twoWrites) (.new twoWrites)
      [.check ⟨.WRITE, 1, 0⟩, .check ⟨.WRITE, 2, 0⟩, .check ⟨.WRITE, 3, 0⟩]).map
        (fun r => (r.q.wrQueueSize, r.q.wrQueue.length)) = some (2, 3) ∧
      ¬ ∀ (p : MemParam) (acts : List SchedAct), 1 ≤ p.schedulerQueueCount →
        EveryStep (SchedRun.step p) (fun r act r' => Sound r' ∧ Bounded r'.q ∧ Serves r act r') (.new p) acts := by
  refine ⟨by decide, fun h => ?_⟩
  have hsteps := h twoWrites [.check ⟨.WRITE, 1, 0⟩, .check ⟨.WRITE, 2, 0⟩, .check ⟨.WRITE, 3, 0⟩] (by decide)
  have hbounded := ((((hsteps _ rfl).2 _ rfl).2 _ rfl).1).2.1
  unfold Bounded at hbounded
  exact absurd hbounded (by decide)

end Zsim.MemWriteBuffer
