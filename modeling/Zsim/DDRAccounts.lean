import Zsim.DDRTables
import Mathlib.Tactic.Tauto

/-!
# The accounts of the DDR controller

Every accepted request is either issued or waits in one of the three queues, and
its event is either finished or held by the request that waits. Queueing a write
finishes its event, serving a read finishes its event, and serving moves the
request from those that wait to those that were issued.
-/

namespace Zsim.DDRAccounts

open WeakestPre Outcomes DDRChannel DDRController DDRFrames DDRTables

variable {c : DDRConfig} {E : DDRFailure → Prop}

/-- What the accounts keep of a request that waits: its origin and its event. -/
def entry (r : Request) : ℕ × Option DDRMemoryAccEvent := (r.origin, r.ev)

/-- Accepted requests are issued or wait, and their events are finished or held. -/
structure Accounts (accepted : List DDRMemoryAccEvent) (served : List ℕ)
    (finished : List DDRMemoryAccEvent) (waiting : List (ℕ × Option DDRMemoryAccEvent))
    (accState : ℕ → WeaveLoops.EventState) : Prop where
  ids : (accepted.map (·.id)).Nodup
  unserved : (served ++ waiting.map Prod.fst).Perm (accepted.map (·.id))
  unfinished : (finished ++ waiting.filterMap Prod.snd).Perm accepted
  origins : ∀ r ∈ waiting, ∀ ev, r.2 = some ev → ev.id = r.1
  held : ∀ ev ∈ waiting.filterMap Prod.snd, accState ev.id = .held
  done : ∀ ev ∈ finished, accState ev.id = .done
  fresh : ∀ i, i ∉ accepted.map (·.id) → accState i = .none

section Accounts

variable {accepted finished : List DDRMemoryAccEvent} {served : List ℕ}
  {waiting waiting' : List (ℕ × Option DDRMemoryAccEvent)} {accState : ℕ → WeaveLoops.EventState}
  {ev : DDRMemoryAccEvent} {i : ℕ}

/-- The events of the requests that wait. -/
theorem events_cons : ((i, some ev) :: waiting).filterMap Prod.snd = ev :: waiting.filterMap Prod.snd :=
  rfl

/-- The order in which requests wait does not matter. -/
theorem Accounts.perm (h : Accounts accepted served finished waiting accState)
    (hperm : waiting.Perm waiting') : Accounts accepted served finished waiting' accState where
  ids := h.ids
  unserved := ((hperm.symm.map Prod.fst).append_left served).trans h.unserved
  unfinished := ((hperm.symm.filterMap Prod.snd).append_left finished).trans h.unfinished
  origins := fun r hr => h.origins r (hperm.mem_iff.mpr hr)
  held := fun ev hev => h.held ev ((hperm.filterMap Prod.snd).mem_iff.mpr hev)
  done := h.done
  fresh := h.fresh

/-- Each event is finished or held. -/
theorem Accounts.mem_cases (h : Accounts accepted served finished waiting accState)
    (hev : ev ∈ accepted) : ev ∈ finished ∨ ev ∈ waiting.filterMap Prod.snd :=
  List.mem_append.mp (h.unfinished.mem_iff.mpr hev)

/-- A new event has not been accepted. -/
theorem Accounts.notMem (h : Accounts accepted served finished waiting accState)
    (hnew : accState ev.id = .none) : ev.id ∉ accepted.map (·.id) := by
  intro hmem
  obtain ⟨old, hold, hid⟩ := List.mem_map.mp hmem
  change old.id = ev.id at hid
  rw [← hid] at hnew
  cases h.mem_cases hold with
  | inl hdone => exact nomatch (h.done old hdone).symm.trans hnew
  | inr hheld => exact nomatch (h.held old hheld).symm.trans hnew

/-- A request arrives and its event is held. -/
theorem Accounts.arrive (h : Accounts accepted served finished waiting accState)
    (hnew : accState ev.id = .none) : Accounts (ev :: accepted) served finished
      ((ev.id, some ev) :: waiting) (Function.update accState ev.id .held) := by
  have hout := h.notMem hnew
  have hne : ∀ old ∈ accepted, old.id ≠ ev.id := fun old hold heq =>
    hout (heq ▸ List.mem_map_of_mem hold)
  have hold : ∀ old ∈ finished ++ waiting.filterMap Prod.snd, old.id ≠ ev.id := fun old hmem =>
    hne old (h.unfinished.mem_iff.mp hmem)
  constructor
  case ids => exact List.nodup_cons.mpr ⟨hout, h.ids⟩
  case unserved => exact List.perm_middle.trans (h.unserved.cons ev.id)
  case unfinished =>
    rw [events_cons]
    exact List.perm_middle.trans (h.unfinished.cons ev)
  case origins =>
    intro r hr ev' hev'
    cases List.mem_cons.mp hr with
    | inl heq =>
      rw [heq] at hev' ⊢
      cases hev'
      rfl
    | inr hmem => exact h.origins r hmem ev' hev'
  case held =>
    intro ev' hev'
    rw [events_cons] at hev'
    cases List.mem_cons.mp hev' with
    | inl heq => rw [heq, Function.update_self]
    | inr hmem =>
      rw [Function.update_of_ne (hold ev' (List.mem_append_right _ hmem))]
      exact h.held ev' hmem
  case done =>
    intro ev' hev'
    rw [Function.update_of_ne (hold ev' (List.mem_append_left _ hev'))]
    exact h.done ev' hev'
  case fresh =>
    intro j hj
    obtain ⟨hself, hrest⟩ := not_or.mp (fun hor => hj (List.mem_cons.mpr hor))
    rw [Function.update_of_ne hself]
    exact h.fresh j hrest

/-- The event of a request that waits is finished. -/
theorem Accounts.answer (h : Accounts accepted served finished ((i, some ev) :: waiting) accState) :
    Accounts accepted served (ev :: finished) ((i, none) :: waiting)
      (Function.update accState ev.id .done) := by
  have hperm : (ev :: (finished ++ waiting.filterMap Prod.snd)).Perm accepted := by
    have hall := h.unfinished
    rw [events_cons] at hall
    exact List.perm_middle.symm.trans hall
  have hnodup := (hperm.map (·.id)).nodup_iff.mpr h.ids
  have hout := (List.nodup_cons.mp hnodup).1
  have hne : ∀ other ∈ finished ++ waiting.filterMap Prod.snd, other.id ≠ ev.id :=
    fun other hmem heq => hout (List.mem_map.mpr ⟨other, hmem, heq⟩)
  constructor
  case ids => exact h.ids
  case unserved => exact h.unserved
  case unfinished => exact hperm
  case origins =>
    intro r hr ev' hev'
    cases List.mem_cons.mp hr with
    | inl heq =>
      rw [heq] at hev'
      cases hev'
    | inr hmem => exact h.origins r (List.mem_cons_of_mem _ hmem) ev' hev'
  case held =>
    intro ev' hev'
    rw [Function.update_of_ne (hne ev' (List.mem_append_right _ hev'))]
    exact h.held ev' (List.mem_cons_of_mem _ hev')
  case done =>
    intro ev' hev'
    cases List.mem_cons.mp hev' with
    | inl heq => rw [heq, Function.update_self]
    | inr hmem =>
      rw [Function.update_of_ne (hne ev' (List.mem_append_left _ hmem))]
      exact h.done ev' hmem
  case fresh =>
    intro j hj
    have hself : j ≠ ev.id := fun heq =>
      hj (heq ▸ List.mem_map_of_mem (hperm.mem_iff.mp List.mem_cons_self))
    rw [Function.update_of_ne hself]
    exact h.fresh j hj

/-- A request whose event is finished is issued. -/
theorem Accounts.leave (h : Accounts accepted served finished ((i, none) :: waiting) accState) :
    Accounts accepted (i :: served) finished waiting accState where
  ids := h.ids
  unserved := List.perm_middle.symm.trans h.unserved
  unfinished := h.unfinished
  origins := fun r hr => h.origins r (List.mem_cons_of_mem _ hr)
  held := h.held
  done := h.done
  fresh := h.fresh

end Accounts

section Queues

/-- The requests that wait. -/
def waitingIn (queues : (Bool → ReqTable) × List Request) : List Request :=
  requests (queues.1 false) ++ requests (queues.1 true) ++ queues.2

/-- A request waits in its own queue, and has its event if it is a read. -/
structure InQueue (c : DDRConfig) (w : Bool) (r : Request) : Prop where
  queue : useWrQueue c r = w
  write : r.write = true → r.ev = none
  read : r.write = false → ∃ ev, r.ev = some ev ∧ ev.isWrite = false

/-- What waits where. -/
structure Placed (c : DDRConfig) (queues : (Bool → ReqTable) × List Request) : Prop where
  tables : ∀ w, TableOk c.queueDepth (queues.1 w)
  queued : ∀ w, ∀ r ∈ requests (queues.1 w), InQueue c w r
  overflow : ∀ r ∈ queues.2, ∃ ev, r.ev = some ev ∧ ev.isWrite = r.write

variable {tables : Bool → ReqTable} {waiting : List Request} {t : ReqTable} {w : Bool} {r req : Request}
  {id memCycle rowHitLimit : ℕ} {bank : Bank}

/-- One of the tables is replaced. -/
theorem Placed.update (h : Placed c (tables, waiting)) (ht : TableOk c.queueDepth t)
    (hreqs : ∀ r ∈ requests t, InQueue c w r) : Placed c (Function.update tables w t, waiting) where
  tables := by
    intro w'
    dsimp only
    by_cases hw : w' = w
    · rw [hw, Function.update_self]
      exact ht
    · rw [Function.update_of_ne hw]
      exact h.tables w'
  queued := by
    intro w'
    dsimp only
    by_cases hw : w' = w
    · rw [hw, Function.update_self]
      exact hreqs
    · rw [Function.update_of_ne hw]
      exact h.queued w'
  overflow := h.overflow

/-- A request that a table gets waits. -/
theorem waitingIn_update (hperm : (requests t).Perm (r :: requests (tables w))) :
    (waitingIn (Function.update tables w t, waiting)).Perm (r :: waitingIn (tables, waiting)) := by
  unfold waitingIn
  dsimp only
  cases w with
  | false =>
    have hother : Function.update tables false t true = tables true := Function.update_of_ne (by decide) ..
    rw [Function.update_self, hother]
    exact (hperm.append_right _).append_right waiting
  | true =>
    have hother : Function.update tables true t false = tables false := Function.update_of_ne (by decide) ..
    rw [Function.update_self, hother]
    exact ((hperm.append_left _).trans List.perm_middle).append_right waiting

/-- The request as it is queued. -/
theorem inQueue_linked (hw : useWrQueue c req = w)
    (hev : ∃ ev, req.ev = some ev ∧ ev.isWrite = req.write) :
    InQueue c w (linked t id rowHitLimit bank req memCycle) := by
  obtain ⟨ev, hsome, hwrite⟩ := hev
  refine ⟨hw, fun hreq => if_pos hreq, fun hreq => ⟨ev, ?_, hwrite.trans hreq⟩⟩
  have hread : ¬req.write = true := by
    rw [show req.write = false from hreq]
    exact nofun
  exact (if_neg hread).trans hsome

theorem Placed.inserted (h : Placed c (tables, waiting)) (hid : (tables w).freeList.getLast? = some id)
    (hw : useWrQueue c req = w) (hev : ∃ ev, req.ev = some ev ∧ ev.isWrite = req.write) :
    Placed c (Function.update tables w (inserted (tables w) id rowHitLimit bank req memCycle), waiting) := by
  refine h.update ((h.tables w).inserted hid) fun r hr => ?_
  rw [requests_inserted ((h.tables w).free_notMem hid)] at hr
  cases List.mem_append.mp hr with
  | inl hold => exact h.queued w r hold
  | inr hnew =>
    rw [List.mem_singleton.mp hnew]
    exact inQueue_linked hw hev

theorem waitingIn_inserted (h : Placed c (tables, waiting))
    (hid : (tables w).freeList.getLast? = some id) :
    (waitingIn (Function.update tables w (inserted (tables w) id rowHitLimit bank req memCycle),
      waiting)).Perm (linked (tables w) id rowHitLimit bank req memCycle :: waitingIn (tables, waiting)) := by
  refine waitingIn_update ?_
  rw [requests_inserted ((h.tables w).free_notMem hid)]
  exact List.perm_append_singleton ..

theorem Placed.remove (h : Placed c (tables, waiting)) (hid : id ∈ (tables w).reqList)
    (hfirst : (tables w).First id) :
    Placed c (Function.update tables w ((tables w).remove id), waiting) := by
  refine h.update ((h.tables w).remove hid hfirst) fun r hr => h.queued w r ?_
  exact (requests_remove hid).mem_iff.mp (List.mem_cons_of_mem _ hr)

theorem waitingIn_remove (hid : id ∈ (tables w).reqList) :
    (waitingIn (tables, waiting)).Perm ((tables w).elem id ::
      waitingIn (Function.update tables w ((tables w).remove id), waiting)) := by
  have hperm : (requests (tables w)).Perm ((tables w).elem id :: requests
      (Function.update tables w ((tables w).remove id) w)) := by
    rw [Function.update_self]
    exact (requests_remove hid).symm
  have hback := @waitingIn_update (Function.update tables w ((tables w).remove id)) waiting (tables w) w
    ((tables w).elem id) hperm
  rw [Function.update_idem, Function.update_eq_self] at hback
  exact hback

end Queues

/-- The accounts of the controller. -/
abbrev AccountsOk (s : DDRMemory) : Prop :=
  Accounts s.accepted s.served (s.completed.map Prod.fst) ((waitingIn (queuesOf s)).map entry) s.accState

section Steps

variable {s : DDRMemory} {w : Bool} {id memCycle sysCycle : ℕ} {ev : DDRMemoryAccEvent}
  {entries : List (ℕ × Option DDRMemoryAccEvent)}

/-- The accounts of the controller, with these entries for the requests that wait. -/
abbrev AccountsWith (s : DDRMemory) (entries : List (ℕ × Option DDRMemoryAccEvent)) : Prop :=
  Accounts s.accepted s.served (s.completed.map Prod.fst) entries s.accState

theorem ends_moveAcc {source target : WeaveLoops.EventState} (hstate : s.accState ev.id = source) :
    ends E (moveAcc ev source target) (fun _ s' =>
      s' = { s with accState := Function.update s.accState ev.id target }) s := by
  simp only [moveAcc, ends_bind, ends_observe, ends_ensure, ends_change, hstate, not_true,
    false_implies, and_true, implies_true]

/-- The event of a request that waits is released and done. -/
theorem ends_answer {i : ℕ} (h : AccountsWith s ((i, some ev) :: entries)) (doneCycle : ℤ) :
    ends E (do release ev; done ev doneCycle : Act Unit)
      (fun _ s' => AccountsWith s' ((i, none) :: entries)) s := by
  have hheld : s.accState ev.id = .held := by
    refine h.held ev ?_
    rw [events_cons]
    exact List.mem_cons_self
  unfold done release
  rw [ends_bind]
  refine ends_mono (ends_moveAcc hheld) fun _ s₁ hs₁ => ?_
  have hrunning : s₁.accState ev.id = .running := by
    rw [hs₁]
    exact Function.update_self ..
  rw [ends_bind]
  refine ends_mono (ends_moveAcc hrunning) fun _ s₂ hs₂ => ?_
  rw [ends_change, hs₂, hs₁]
  have hanswer := h.answer
  dsimp only
  rw [Function.update_idem]
  exact hanswer

/-- `queue` finishes the event of a write. -/
theorem ends_queue {req : Request} (hreq : (s.tables w).elem id = req)
    (hev : req.ev = some ev) (h : AccountsWith s (entry req :: entries)) :
    ends E (queue c w id memCycle)
      (fun _ s' => AccountsWith s' (entry (queuedAt req memCycle) :: entries)) s := by
  unfold queue entry queuedAt
  unfold entry at h
  rw [hev] at h
  rw [ends_bind, ends_observe, hreq, ends_ite]
  by_cases hw : req.write = true
  · rw [if_pos hw, if_pos hw, ends_bind]
    unfold respondWrite
    rw [hev]
    dsimp only
    refine ends_mono (ends_answer h _) fun _ s₁ hs₁ => ?_
    rw [ends_bind, ends_observe]
    exact hs₁
  · rw [if_neg hw, if_neg hw, ends_bind, ends_observe, hev]
    exact h

end Steps

end Zsim.DDRAccounts
