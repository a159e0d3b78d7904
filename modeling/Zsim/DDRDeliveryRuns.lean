import Zsim.DDRDeliveries

/-!
# The runs of the DDR controller

An input keeps the queues, the accounts and the wake-ups. The controller is
between two inputs as `Watched` says; while a `SchedEvent` runs it is neither
free nor in the queue of the domain.
-/

namespace Zsim.DDRDeliveryRuns

open WeakestPre Outcomes Frames GuardedRuns DDRChannel DDRController DDRFrames DDRTables DDRAccounts
  DDRWakeUps DDRDeliveries

variable {c : DDRConfig} {E : DDRFailure → Prop}

/-- The requests that wait, and their accounts. -/
structure Waiting (c : DDRConfig) (s : DDRMemory) : Prop where
  placed : Placed c (queuesOf s)
  accounts : AccountsOk s
  overflow : s.overflowQueue ≠ [] → s.empty = false

/-- They do not depend on the `SchedEvent`s. -/
theorem Waiting.congr {s s' : DDRMemory} (h : Waiting c s) (hs : outsideSched s' = outsideSched s) :
    Waiting c s' := by
  have hout : Waiting c (outsideSched s) := ⟨h.placed, h.accounts, h.overflow⟩
  rw [← hs] at hout
  exact ⟨hout.placed, hout.accounts, hout.overflow⟩

/-- The state of the controller between two inputs. -/
structure Watched (c : DDRConfig) (s : DDRMemory) : Prop extends Waiting c s where
  wake : WakeOk c (schedOf s)
  alarm : s.empty = false → s.nextSchedCycle ≠ ⊤

section Access

variable {s : DDRMemory} {ev : DDRMemoryAccEvent} {accState : ℕ → WeaveLoops.EventState}

/-- `enqueue` of a new event, from the state in which the event starts. -/
theorem ends_enqueue (hc : c.Accepted) (hdepth : 0 < c.queueDepth) (hE : E .mapping)
    (hplaced : Placed c (queuesOf s))
    (hacc : Accounts s.accepted s.served (s.completed.map Prod.fst) ((waitingIn (queuesOf s)).map entry)
      accState)
    (hnew : accState ev.id = .none) (hrunning : s.accState = Function.update accState ev.id .running)
    (hwake : WakeOk c (schedOf s)) (halarm : s.empty = false → s.nextSchedCycle ≠ ⊤)
    (hnow : s.now ≤ ev.startCycle) :
    ends E (enqueue c ev) (fun _ => Watched c) s := by
  have hself : s.accState ev.id = .running := by
    rw [hrunning, Function.update_self]
  have hheld : Function.update s.accState ev.id .held = Function.update accState ev.id .held := by
    rw [hrunning, Function.update_idem]
  have harrive := hacc.arrive hnew
  unfold enqueue
  simp only [ends_bind, ends_observe, ends_ensure, ends_change, ends_ite]
  refine ⟨fun _ => ?_, fun _ => hE⟩
  split
  case isTrue hfull =>
    have hempty := empty_of_full hplaced hdepth hfull
    refine ends_mono (ends_moveAcc hself) fun _ s₁ hs₁ => ?_
    rw [hs₁]
    refine ⟨⟨⟨hplaced.tables, hplaced.queued, fun r hr => ?_⟩, ?_, fun _ => hempty⟩, hwake, halarm⟩
    · cases List.mem_append.mp hr with
      | inl hold => exact hplaced.overflow r hold
      | inr hreq =>
        rw [List.mem_singleton.mp hreq]
        exact ⟨ev, rfl, rfl⟩
    · have hperm : (entry (request c ev) :: (waitingIn (queuesOf s)).map entry).Perm
          ((waitingIn (s.tables, s.overflowQueue ++ [request c ev])).map entry) := by
        refine List.Perm.map entry (?_ : (request c ev :: waitingIn (queuesOf s)).Perm _)
        unfold waitingIn
        dsimp only
        rw [← List.append_assoc]
        exact (List.perm_append_singleton ..).symm
      dsimp only
      rw [hheld]
      exact harrive.perm hperm
  case isFalse hfull =>
    obtain ⟨id, hid⟩ := getLast_of_not_full hfull (useWrQueue c (request c ev))
    unfold alloc
    simp only [ends_bind, ends_observe, hid, setTable, ends_change, ends_pure]
    refine ends_mono (ends_moveAcc hself) fun _ s₁ hs₁ => ?_
    have hsched : schedOf s₁ = schedOf s := by
      rw [hs₁]
    have hnow₁ : s₁.now = s.now := by
      rw [hs₁]
    refine ends_mono ((keeps_queue _ id _ blind_now).ends ((keeps_queue _ id _ blind_sched).ends
      (ends_queue_inserted hplaced hid rfl (rfl : (request c ev).ev = some ev) rfl ?_ ?_ ?_)))
      fun _ s₂ hs₂ => ?_
    · rw [hs₁]
      simp only [Function.update_idem, Function.update_self]
    · rw [hs₁]
    · rw [hs₁]
      dsimp only
      rw [hheld]
      exact harrive
    · obtain ⟨⟨⟨hplaced₂, hacc₂, hempty₂, hfirst, hover₂⟩, hsched₂⟩, hnow₂⟩ := hs₂
      have hsame : schedOf s₂ = schedOf s := hsched₂.trans hsched
      have hle : s₂.now ≤ ev.startCycle := by
        rw [show s₂.now = s₁.now from hnow₂, hnow₁]
        exact hnow
      have hkeep := @keeps_wakeUp c (useWrQueue c (request c ev)) id (c.sysToMemCycle ev.startCycle)
        ev.startCycle
      refine ends_mono (hkeep.ends (ends_wakeUp hc (hsame ▸ hwake) hle _ id)) fun _ s₃ hs₃ => ?_
      obtain ⟨⟨hwake₃, hnext⟩, hout⟩ := hs₃
      have hwaiting₂ : Waiting c s₂ := ⟨hplaced₂, hacc₂, fun _ => hempty₂⟩
      refine ⟨hwaiting₂.congr hout, hwake₃, fun _ => hnext ?_⟩
      cases hfirst with
      | inl hfirst => exact .inl hfirst
      | inr hex =>
        obtain ⟨w', hw'⟩ := hex
        obtain ⟨i, hi⟩ := List.exists_mem_of_ne_nil _ hw'
        have hcycle : s₂.nextSchedCycle = s.nextSchedCycle := congrArg (·.nextSchedCycle) hsame
        rw [hcycle]
        exact .inr (halarm (empty_eq_false_of_mem hi))

end Access

section Sched

variable {s : DDRMemory} {e sysCycle : ℕ} {frees : List ℕ}

/-- `tick` gives up the wake-up or answers when the next one is. -/
def NextWakeUp (c : DDRConfig) (sysCycle : ℕ) (v v' : SchedPart) (next : ℕ) : Prop :=
  (next = 0 ∧ v' = { v with
    nextSchedEvent := none
    nextSchedCycle := ⊤ }) ∨
  ∃ k : ℕ, c.sysToMemCycle sysCycle ≤ k ∧ next = max (c.matchingMemToSysCycle k) sysCycle ∧
    v' = { v with nextSchedCycle := k }

theorem ends_tick (hc : c.Accepted) (hdepth : 0 < c.queueDepth) (h : Waiting c s)
    (hbanks : BanksAhead s.chan) (hcycle : s.nextSchedCycle = c.sysToMemCycle sysCycle) :
    ends E (tick c sysCycle) (fun next s' => Waiting c s' ∧
      (s'.empty = false → s'.nextSchedCycle ≠ ⊤) ∧
        NextWakeUp c sysCycle (schedOf s) (schedOf s') next) s := by
  unfold tick
  simp only [ends_bind, ends_observe, ends_ensure, ends_change]
  refine ⟨fun _ => ?_, fun hno => (hno hcycle).elim⟩
  refine ends_mono ((keeps_trySchedule sysCycle blind_sched (fun _ _ => rfl) (fun _ _ => rfl) _).ends
    (ends_trySchedule hc h.placed h.accounts hbanks)) fun minSchedCycle s₁ hs₁ => ?_
  obtain ⟨hsched₁, hkeep₁⟩ := hs₁
  refine ⟨fun _ => ?_, fun hno => (hno hsched₁.ahead).elim⟩
  refine ends_mono ((keeps_takeOverflow _ blind_sched minSchedCycle).ends
    (ends_takeOverflow hdepth hsched₁)) fun next s₂ hs₂ => ?_
  obtain ⟨⟨hsched₂, hover⟩, hkeep₂⟩ := hs₂
  have hsame : schedOf s₂ = schedOf s := hkeep₂.trans hkeep₁
  have hwaiting : Waiting c s₂ := ⟨hsched₂.placed, hsched₂.accounts, hover⟩
  cases next with
  | top =>
    refine ⟨hwaiting.congr rfl, hsched₂.alarm, .inl ⟨rfl, ?_⟩⟩
    rw [← hsame]
  | coe k =>
    refine ⟨hwaiting.congr rfl, hsched₂.alarm, .inr ⟨k, WithTop.coe_le_coe.mp hsched₂.ahead, rfl, ?_⟩⟩
    rw [← hsame]
    rfl

/-- The next cycle is outside of what the end of a `SchedEvent` changes. -/
abbrev outsideEvents (s : DDRMemory) : DDRMemory × WithTop ℕ := (outsideSched s, s.nextSchedCycle)

theorem keeps_events_retire : Keeps outsideEvents (retire e) := by
  unfold retire recycleEvent setSchedState
  exact .bind (.change fun _ => rfl) fun _ => .bind (.observe _) fun _ => .bind (.ensure _)
    fun _ => .bind (.change fun _ => rfl) fun _ => .bind (.observe _) fun _ => .bind (.ensure _)
      fun _ => .change fun _ => rfl

theorem keeps_events_requeue (cycle : ℕ) : Keeps outsideEvents (do
    requeue e cycle
    setSchedState e .queued : Act Unit) := by
  unfold requeue setSchedState
  exact .bind (.bind (.observe _) fun _ => .bind (.ensure _) fun _ => .bind (.ensure _) fun _ =>
    .change fun _ => rfl) fun _ => .change fun _ => rfl

/-- At its end the controller is between two inputs again. -/
theorem Waiting.watched {s₁ s₂ : DDRMemory} (h : Waiting c s₁)
    (halarm : s₁.empty = false → s₁.nextSchedCycle ≠ ⊤) (hs : outsideEvents s₂ = outsideEvents s₁)
    (hwake : WakeOk c (schedOf s₂)) : Watched c s₂ := by
  obtain ⟨hout, hcycle⟩ := Prod.mk.inj hs
  refine ⟨h.congr hout, hwake, ?_⟩
  rw [hcycle]
  have hempty : (outsideSched s₂).empty = (outsideSched s₁).empty := congrArg DDRMemory.empty hout
  change s₂.empty = s₁.empty at hempty
  rw [hempty]
  exact halarm

/-- The run of the next wake-up. -/
theorem ends_simulate_next (hc : c.Accepted) (hdepth : 0 < c.queueDepth) (h : Waiting c s)
    (hbanks : BanksAhead s.chan) (hevents : Events (schedOf s) frees)
    (hspare : Spare (schedOf s) frees e) (hquiet : Quiet (schedOf s))
    (hrunning : s.schedEvState e = .running) (hstate : s.schedState e = .queued)
    (hnext : s.nextSchedEvent = some e) (hcycle : s.nextSchedCycle = c.sysToMemCycle sysCycle)
    (hnow : s.now = sysCycle) : ends E (simulate c e sysCycle) (fun _ => Watched c) s := by
  have hev := hevents.spare hspare .running .running
  have hsame : Function.update s.schedEvState e .running = s.schedEvState := by
    rw [← hrunning, Function.update_eq_self]
  dsimp only at hev
  rw [hsame] at hev
  have hquiet' : ∀ f ∈ (schedOf s).queuedEvents,
      Function.update s.schedState e .running f ≠ .queued := by
    intro f hf
    rw [Function.update_of_ne (ne_of_mem_of_not_mem hf hspare.queued)]
    exact hquiet f hf
  unfold simulate
  rw [ends_bind, ends_observe, if_pos hstate, setSchedState, ends_bind, ends_change, ends_bind]
  refine ends_mono ((keeps_now_tick sysCycle).ends (ends_tick hc hdepth (h.congr rfl) hbanks hcycle))
    fun next s₁ hs₁ => ?_
  obtain ⟨⟨hwaiting, halarm, hwakes⟩, hnow₁⟩ := hs₁
  have hle : s₁.now ≤ sysCycle := (hnow₁.trans hnow).le
  rw [ends_ite]
  cases hwakes with
  | inl hnone =>
    obtain ⟨hzero, hv⟩ := hnone
    rw [if_neg (not_not.mpr hzero)]
    refine ends_mono (keeps_events_retire.ends (@ends_retire c E s₁ frees e ?_ ?_ ?_ ?_ ?_ ?_ ?_))
      fun _ s₂ hs₂ => hwaiting.watched halarm hs₂.2 hs₂.1
    · rw [hv]
      exact hev.next none ⊤
    · rw [hv]
      exact ⟨hspare.free, hspare.queued, hspare.next, hspare.count⟩
    · exact (congrFun (congrArg (·.schedEvState) hv) e).trans hrunning
    · rw [show s₁.nextSchedEvent = none from congrArg (·.nextSchedEvent) hv]
      simp
    · intro f hf
      rw [hv] at hf
      rw [show s₁.nextSchedEvent = none from congrArg (·.nextSchedEvent) hv,
        show s₁.schedState = _ from congrArg (·.schedState) hv]
      exact ⟨fun hq => (hquiet' f hf hq).elim, by simp⟩
    · rw [show s₁.nextSchedEvent = none from congrArg (·.nextSchedEvent) hv]
      simp
    · exact fun _ => congrArg (·.nextSchedCycle) hv
  | inr hsome =>
    obtain ⟨k, hk, hval, hv⟩ := hsome
    have hpos : next ≠ 0 := by
      have hmatch := matching_pos hc ((Nat.succ_pos _).trans_le hk)
      omega
    rw [if_pos hpos, hval]
    refine ends_mono ((keeps_events_requeue _).ends
      (@ends_requeue c E s₁ frees e k sysCycle hc ?_ ?_ ?_ ?_ ?_ hk ?_ hle))
      fun _ s₂ hs₂ => hwaiting.watched halarm hs₂.2 hs₂.1
    · rw [hv]
      exact hev.next _ _
    · rw [hv]
      exact ⟨hspare.free, hspare.queued, hspare.next, hspare.count⟩
    · rw [hv]
      exact hquiet'
    · exact (congrFun (congrArg (·.schedEvState) hv) e).trans hrunning
    · exact (congrArg (·.nextSchedEvent) hv).trans hnext
    · exact congrArg (·.nextSchedCycle) hv

/-- The run of an event that was annulled. -/
theorem ends_simulate_annulled (h : Waiting c s) (hevents : Events (schedOf s) frees)
    (hspare : Spare (schedOf s) frees e) (hrunning : s.schedEvState e = .running)
    (hstate : s.schedState e = .annulled) (hnext : s.nextSchedEvent ≠ some e)
    (halive : ∀ f ∈ (schedOf s).queuedEvents, s.schedState f = .queued ↔ s.nextSchedEvent = some f)
    (hcycle : ∀ f, s.nextSchedEvent = some f →
      ∃ cycle, (f, cycle) ∈ s.pending ∧ s.nextSchedCycle = c.sysToMemCycle cycle)
    (htop : s.nextSchedEvent = none → s.nextSchedCycle = ⊤)
    (halarm : s.empty = false → s.nextSchedCycle ≠ ⊤) :
    ends E (simulate c e sysCycle) (fun _ => Watched c) s := by
  have hno : ¬s.schedState e = .queued := by
    rw [hstate]
    simp
  unfold simulate
  rw [ends_bind, ends_observe, if_neg hno, hstate, ends_bind, ends_ensure]
  refine ⟨fun _ => ?_, fun hne => (hne rfl).elim⟩
  exact ends_mono (keeps_events_retire.ends
    (ends_retire hevents hspare hrunning hnext halive hcycle htop))
    fun _ s₁ hs₁ => h.watched halarm hs₁.2 hs₁.1

end Sched

section Runs

variable {s : DDRMemory}

/-- No assertion fails but the one on the mapping, and the controller is
between two inputs again. -/
theorem ends_perform (hc : c.Accepted) (hdepth : 0 < c.queueDepth) (h : Watched c s)
    (hbanks : BanksAhead s.chan) (x : Input) :
    ends (fun e => e = .refused ∨ e = .mapping) (perform c x) (fun _ => Watched c) s := by
  unfold perform
  rw [ends_bind, ends_observe, ends_bind, ends_ensure]
  refine ⟨fun hle => ?_, fun _ => .inl rfl⟩
  rw [ends_bind, ends_change]
  cases x with
  | access ev =>
    dsimp only
    rw [ends_bind, ends_ensure]
    refine ⟨fun hnew => ?_, fun _ => .inl rfl⟩
    rw [ends_bind, ends_change]
    exact ends_enqueue hc hdepth (.inr rfl) h.placed h.accounts hnew rfl h.wake h.alarm le_rfl
  | sched e cycle =>
    dsimp only
    rw [ends_bind, ends_ensure]
    refine ⟨fun hmem => ?_, fun _ => .inl rfl⟩
    obtain ⟨frees, hevents⟩ := h.wake.events
    have hqueued : e ∈ (schedOf s).queuedEvents := List.mem_map_of_mem hmem
    obtain ⟨hstate, hev, -⟩ := hevents.queued e hqueued
    obtain ⟨hout, hspare⟩ := hevents.dequeue hmem
    have hrest : ∀ f ∈ (s.pending.erase (e, cycle)).map Prod.fst, f ∈ (schedOf s).queuedEvents := by
      intro f hf
      obtain ⟨p, hp, hpf⟩ := List.mem_map.mp hf
      exact List.mem_map.mpr ⟨p, List.mem_of_mem_erase hp, hpf⟩
    simp only [ends_bind, ends_change, ends_ensure]
    refine ⟨fun _ => ?_, fun hno => (hno (.inr hev)).elim⟩
    have hwaiting : Waiting c { s with now := cycle } := ⟨h.placed, h.accounts, h.overflow⟩
    cases hstate with
    | inl hlive =>
      have hnext := (h.wake.alive e hqueued).mp hlive
      refine ends_simulate_next hc hdepth (hwaiting.congr rfl) hbanks hout hspare ?_
        (Function.update_self ..) hlive hnext ?_ rfl
      · intro f hf hq
        have hnext' := (h.wake.alive f (hrest f hf)).mp hq
        exact ne_of_mem_of_not_mem hf hspare.queued (Option.some.inj (hnext'.symm.trans hnext))
      · obtain ⟨cycle', hmem', hcycle'⟩ := h.wake.cycle e hnext
        have hsame : (e, cycle') = (e, cycle) :=
          List.inj_on_of_nodup_map hevents.queuedNodup hmem' hmem rfl
        cases hsame
        exact hcycle'
    | inr hannulled =>
      have hnext : s.nextSchedEvent ≠ some e := by
        intro hnext
        cases ((h.wake.alive e hqueued).mpr hnext).symm.trans hannulled
      refine ends_simulate_annulled (hwaiting.congr rfl) hout hspare (Function.update_self ..) hannulled
        hnext (fun f hf => h.wake.alive f (hrest f hf)) (fun f hf => ?_) h.wake.top h.alarm
      obtain ⟨cycle', hmem', hcycle'⟩ := h.wake.cycle f hf
      refine ⟨cycle', (List.mem_erase_of_ne ?_).mpr hmem', hcycle'⟩
      intro heq
      cases heq
      exact hnext hf
  | refresh cycle =>
    have hle : c.sysToMemCycle cycle ≤ s.chan.minRefreshCycle c (c.sysToMemCycle cycle) :=
      (DDRBankTiming.le_foldl_max _ _ _).1
    simp only [DDRController.refresh, ends_bind, ends_observe, ends_ensure, ends_change]
    refine ⟨fun _ => ⟨⟨h.placed, h.accounts, h.overflow⟩, h.wake, h.alarm⟩, fun hno => ?_⟩
    exact (hno ⟨hle, hc.tRFC⟩).elim

theorem Watched.step (hc : c.Accepted) (hdepth : 0 < c.queueDepth) {s' : DDRMemory} {x : Input}
    (h : Watched c s ∧ BanksAhead s.chan) (hs : step c s x = some s') :
    Watched c s' ∧ BanksAhead s'.chan := by
  have hends : ends (fun _ => True) (perform c x) (fun _ => Watched c) s := by
    have hperform := ends_perform hc hdepth h.1 h.2 x
    unfold ends at hperform ⊢
    split at hperform
    · assumption
    · trivial
  have hchan := of_step (chan_perform s x) hs
  have hbanks := h.2.nextChannel hc.tRFC x
  rw [← hchan] at hbanks
  exact ⟨of_step hends hs, hbanks⟩

/-- What a run of the controller leaves. -/
structure Delivered (c : DDRConfig) (s : DDRMemory) : Prop where
  /-- Events are accepted once. -/
  accepted : (s.accepted.map (·.id)).Nodup
  /-- An accepted request was issued or waits in one of the queues, once. -/
  once : ∀ i, s.served.count i + ((requests (s.tables false)).map (·.origin)).count i +
    ((requests (s.tables true)).map (·.origin)).count i + (s.overflowQueue.map (·.origin)).count i =
      (s.accepted.map (·.id)).count i
  /-- A queued request is once in the list of its bank, and in no other list. -/
  listed : ∀ w, ∀ id ∈ (s.tables w).reqList, ∀ bank, ((s.tables w).bankReqs bank).count id =
    if bank = ((s.tables w).elem id).loc.bankId then 1 else 0
  /-- The nodes of a queue are used or free. -/
  nodes : ∀ w, ((s.tables w).reqList ++ (s.tables w).freeList).Perm (List.range c.queueDepth)
  /-- Finished events were released and done, once each. -/
  finished : ∀ ev, (s.completed.map Prod.fst).count ev =
    if ev ∈ s.accepted ∧ s.accState ev.id = .done then 1 else 0
  /-- The event of an issued request is finished, -/
  issued : ∀ i ∈ s.served, s.accState i = .done
  /-- that of a queued request is finished if it is a write and held if it is a read, -/
  queued : ∀ w, ∀ r ∈ requests (s.tables w),
    s.accState r.origin = if r.write then .done else .held
  /-- and that of a request in the overflow queue is held. -/
  overflowed : ∀ r ∈ s.overflowQueue, s.accState r.origin = .held
  /-- While a request waits, one wake-up is pending, at the cycle that `tick` expects. -/
  wakeUp : waitingIn (queuesOf s) ≠ [] → ∃ e cycle, s.nextSchedEvent = some e ∧
    s.nextSchedCycle = c.sysToMemCycle cycle ∧
      s.pending.filter (fun p => s.schedState p.1 = .queued) = [(e, cycle)]
  /-- No assertion fails in the next input, but the one on the mapping. -/
  asserts : ∀ x, ends (fun e => e = .refused ∨ e = .mapping) (perform c x) (fun _ _ => True) s

/-- A queued request waits. -/
theorem mem_waitingIn {w : Bool} {r : Request} (hr : r ∈ requests (s.tables w)) :
    r ∈ waitingIn (queuesOf s) := by
  unfold waitingIn
  rw [List.mem_append, List.mem_append]
  cases w with
  | false => exact .inl (.inl hr)
  | true => exact .inl (.inr hr)

section Delivered

variable (h : Watched c s)
include h

/-- An accepted event whose request has no event any more is finished. -/
theorem Watched.done_of_entry {i : ℕ} (hi : i ∈ s.served ∨ (i, none) ∈ (waitingIn (queuesOf s)).map entry) :
    s.accState i = .done := by
  have hnodup := h.accounts.unserved.nodup_iff.mpr h.accounts.ids
  have hin : i ∈ s.accepted.map (·.id) := by
    refine h.accounts.unserved.mem_iff.mp (List.mem_append.mpr ?_)
    exact hi.imp id fun hwait => List.mem_map.mpr ⟨(i, none), hwait, rfl⟩
  obtain ⟨ev, hev, hid⟩ := List.mem_map.mp hin
  change ev.id = i at hid
  rw [← hid]
  cases h.accounts.mem_cases hev with
  | inl hdone => exact h.accounts.done ev hdone
  | inr hheld =>
    obtain ⟨r, hr, hsome⟩ := List.mem_filterMap.mp hheld
    have horigin : r.1 = i := (h.accounts.origins r hr ev hsome).symm.trans hid
    have hmem : r.1 ∈ ((waitingIn (queuesOf s)).map entry).map Prod.fst := List.mem_map_of_mem hr
    obtain ⟨-, hwaiting, hdisj⟩ := List.nodup_append.mp hnodup
    cases hi with
    | inl hserved =>
      rw [horigin] at hmem
      exact (hdisj i hserved i hmem rfl).elim
    | inr hnone =>
      have hsame : r = (i, none) := List.inj_on_of_nodup_map hwaiting hr hnone horigin
      rw [hsame] at hsome
      cases hsome

/-- The event of a request that has it is held. -/
theorem Watched.held_of_some {r : Request} (hr : r ∈ waitingIn (queuesOf s)) {ev : DDRMemoryAccEvent}
    (hev : r.ev = some ev) : s.accState r.origin = .held := by
  have hentry : entry r ∈ (waitingIn (queuesOf s)).map entry := List.mem_map_of_mem hr
  have hid : ev.id = r.origin := h.accounts.origins (entry r) hentry ev hev
  rw [← hid]
  exact h.accounts.held ev (List.mem_filterMap.mpr ⟨entry r, hentry, hev⟩)

/-- The wake-up for the requests that wait. -/
theorem Watched.wakeUp (hne : waitingIn (queuesOf s) ≠ []) : ∃ e cycle, s.nextSchedEvent = some e ∧
    s.nextSchedCycle = c.sysToMemCycle cycle ∧
      s.pending.filter (fun p => s.schedState p.1 = .queued) = [(e, cycle)] := by
  have hempty : s.empty = false := by
    rw [Bool.eq_false_iff]
    intro hempty
    have hnil := empty_eq_true.mp hempty
    have hover : s.overflowQueue = [] := by
      by_contra hover
      cases (h.overflow hover).symm.trans hempty
    refine hne ?_
    unfold waitingIn requests
    dsimp only
    rw [hnil, hnil, hover]
    rfl
  cases hnext : s.nextSchedEvent with
  | none => exact (h.alarm hempty (h.wake.top hnext)).elim
  | some e =>
    obtain ⟨cycle, hmem, hcycle⟩ := h.wake.cycle e hnext
    obtain ⟨frees, hevents⟩ := h.wake.events
    refine ⟨e, cycle, rfl, hcycle, ?_⟩
    have hnodup : s.pending.Nodup := List.Nodup.of_map Prod.fst hevents.queuedNodup
    have hfilter : ∀ p ∈ s.pending, s.schedState p.1 = .queued ↔ p = (e, cycle) := by
      intro p hp
      have halive := h.wake.alive p.1 (List.mem_map_of_mem hp)
      constructor
      · intro hq
        have hpe : e = p.1 := Option.some.inj (hnext.symm.trans (halive.mp hq))
        exact List.inj_on_of_nodup_map hevents.queuedNodup hp hmem hpe.symm
      · intro heq
        rw [heq] at halive ⊢
        exact halive.mpr hnext
    have hperm : (s.pending.filter fun p => s.schedState p.1 = .queued).Perm [(e, cycle)] := by
      rw [List.perm_ext_iff_of_nodup (hnodup.filter _) (List.nodup_singleton _)]
      intro p
      rw [List.mem_filter, List.mem_singleton, decide_eq_true_eq]
      constructor
      · exact fun hp => (hfilter p hp.1).mp hp.2
      · intro hp
        have hin : p ∈ s.pending := by
          rw [hp]
          exact hmem
        exact ⟨hin, (hfilter p hin).mpr hp⟩
    exact List.perm_singleton.mp hperm

theorem Watched.delivered (hc : c.Accepted) (hdepth : 0 < c.queueDepth) (hbanks : BanksAhead s.chan) :
    Delivered c s where
  accepted := h.accounts.ids
  once := by
    intro i
    have hcount := h.accounts.unserved.count_eq i
    unfold waitingIn at hcount
    simp only [List.map_append, List.count_append, List.map_map] at hcount
    rw [← hcount]
    simp only [Nat.add_assoc]
    rfl
  listed := fun w id hid bank => (h.placed.tables w).count_bankReqs hid bank
  nodes := fun w => (h.placed.tables w).nodes
  finished := by
    intro ev
    have hnodup := h.accounts.unfinished.nodup_iff.mpr (List.Nodup.of_map _ h.accounts.ids)
    obtain ⟨hfinished, -, -⟩ := List.nodup_append.mp hnodup
    split
    case isTrue hdone =>
      refine List.count_eq_one_of_mem hfinished ?_
      cases h.accounts.mem_cases hdone.1 with
      | inl hmem => exact hmem
      | inr hheld => cases (h.accounts.held ev hheld).symm.trans hdone.2
    case isFalse hno =>
      rw [List.count_eq_zero]
      intro hmem
      exact hno ⟨h.accounts.unfinished.mem_iff.mp (List.mem_append_left _ hmem), h.accounts.done ev hmem⟩
  issued := fun i hi => h.done_of_entry (.inl hi)
  queued := by
    intro w r hr
    have hin := h.placed.queued w r hr
    have hwaiting := mem_waitingIn hr
    cases hw : r.write with
    | true =>
      have hentry : entry r = (r.origin, none) := by rw [entry, hin.write hw]
      refine h.done_of_entry (.inr ?_)
      rw [← hentry]
      exact List.mem_map_of_mem hwaiting
    | false =>
      obtain ⟨ev, hev, -⟩ := hin.read hw
      exact h.held_of_some hwaiting hev
  overflowed := by
    intro r hr
    obtain ⟨ev, hev, -⟩ := h.placed.overflow r hr
    exact h.held_of_some (List.mem_append_right _ hr) hev
  wakeUp := h.wakeUp
  asserts := fun x => ends_mono (ends_perform hc hdepth h hbanks x) fun _ _ _ => trivial

end Delivered

end Runs

end Zsim.DDRDeliveryRuns
