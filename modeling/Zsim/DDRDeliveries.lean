import Zsim.DDRAccounts
import Zsim.DDRActWindows
import Zsim.DDRBankTiming
import Zsim.DDRWakeUps
import Zsim.WeavePromise

/-!
# The DDR controller loses no request and no wake-up

The three queues, the accounts and the wake-ups are kept by every input. A
request that arrives behind another one of its bank relies on the wake-up for
that one, and a request of the overflow queue relies on a queue that is full.
No assertion but the one on the address mapping can fail.
-/

namespace Zsim.DDRDeliveries

open WeakestPre Outcomes Frames GuardedRuns DDRChannel DDRController DDRFrames DDRTables DDRAccounts
  DDRWakeUps

variable {c : DDRConfig} {E : DDRFailure → Prop}

section Channel

variable {ch : Channel} {r : Request}

/-- A bank is not precharged before its last column command. -/
def BanksAhead (ch : Channel) : Prop := ∀ id, (ch.banks id).lastCmdCycle ≤ (ch.banks id).minPreCycle

theorem BanksAhead.activate (h : BanksAhead ch) : BanksAhead (ch.activate c r) := by
  intro id
  have hpre := @DDRBankTiming.minPreCycle_le_activate c ch r id
  have hlast : ((ch.activate c r).banks id).lastCmdCycle = (ch.banks id).lastCmdCycle := by
    by_cases hid : id = r.loc.bankId
    · rw [hid, DDRBankTiming.activate_bank]
      rfl
    · rw [DDRBankTiming.activate_banks_of_ne hid]
  have hbank := h id
  omega

theorem BanksAhead.column (h : BanksAhead ch) (cmdCycle : ℕ) (closes : Bool) :
    BanksAhead (ch.column c r cmdCycle closes) := by
  intro id
  by_cases hid : id = r.loc.bankId
  · rw [hid, DDRBankTiming.column_bank]
    dsimp only
    split <;> omega
  · rw [DDRBankTiming.column_banks_of_ne hid]
    exact h id

theorem BanksAhead.refresh (h : BanksAhead ch) (hrfc : c.tRP ≤ c.tRFC) (memCycle : ℕ) :
    BanksAhead (ch.refresh c memCycle) := by
  intro id
  have hpre := @DDRBankTiming.minPreCycle_le_refresh c ch hrfc memCycle id
  have hlast : ((ch.refresh c memCycle).banks id).lastCmdCycle = (ch.banks id).lastCmdCycle := by
    by_cases hid : id ∈ c.bankIds
    · rw [DDRBankTiming.refresh_banks hid]
    · rw [DDRBankTiming.refresh_banks_of_notMem hid]
  have hbank := h id
  omega

theorem BanksAhead.nextChannel {s : DDRMemory} (h : BanksAhead s.chan) (hrfc : c.tRP ≤ c.tRFC)
    (x : Input) : BanksAhead (nextChannel c s x) := by
  cases x with
  | access ev => exact h
  | refresh cycle => exact h.refresh hrfc _
  | sched e cycle =>
    unfold DDRFrames.nextChannel scheduled Channel.issue
    dsimp only
    split
    · split
      · exact h
      · split
        · exact h.column _ _
        · exact h.activate.column _ _
    · exact h

/-- A request that is ready issues after the last column command of its bank. -/
theorem BanksAhead.lastCmd_lt (h : BanksAhead ch) (hc : c.Accepted) {curCycle : ℕ}
    (hready : ch.findMinCmdCycle c r ≤ curCycle) :
    (ch.bankOf r).lastCmdCycle < ch.cmdCycle c r curCycle := by
  have hcur := @WeavePromise.curCycle_le_cmdCycle c ch r curCycle
  by_cases hhit : ch.RowHit r
  · unfold Channel.findMinCmdCycle at hready
    rw [if_pos hhit] at hready
    omega
  · have hact := (@DDRBankTiming.cmdCycle_spec c ch r curCycle).2.2 hhit
    have hpre := @DDRBankTiming.preCycle_le_actCycle c ch r
    have hmin := @DDRBankTiming.minPreCycle_le_preCycle ch r
    have hbank : (ch.bankOf r).lastCmdCycle ≤ (ch.bankOf r).minPreCycle := h r.loc.bankId
    have hRP := hc.tRP
    omega

end Channel

section Queues

variable {s : DDRMemory} {w : Bool} {id memCycle sysCycle : ℕ}

theorem empty_eq_true : s.empty = true ↔ ∀ w, (s.tables w).reqList = [] := by
  unfold DDRMemory.empty
  rw [Bool.and_eq_true, List.isEmpty_iff, List.isEmpty_iff]
  constructor
  · intro h w
    cases w with
    | false => exact h.1
    | true => exact h.2
  · exact fun h => ⟨h false, h true⟩

theorem empty_eq_false_of_mem (hid : id ∈ (s.tables w).reqList) : s.empty = false := by
  rw [Bool.eq_false_iff, Ne, empty_eq_true]
  intro h
  rw [h w] at hid
  cases hid

/-- A full queue is not empty. -/
theorem empty_of_full (h : Placed c (queuesOf s)) (hdepth : 0 < c.queueDepth) (hfull : s.full = true) :
    s.empty = false := by
  have hused : ∀ w, (s.tables w).freeList = [] → s.empty = false := by
    intro w hw
    have hnodes : ((s.tables w).reqList ++ (s.tables w).freeList).Perm (List.range c.queueDepth) :=
      (h.tables w).nodes
    rw [hw, List.append_nil] at hnodes
    exact empty_eq_false_of_mem (hnodes.mem_iff.mpr (List.mem_range.mpr hdepth))
  unfold DDRMemory.full at hfull
  rw [Bool.or_eq_true, List.isEmpty_iff, List.isEmpty_iff] at hfull
  cases hfull with
  | inl hrd => exact hused false hrd
  | inr hwr => exact hused true hwr

/-- A queue that is not full has a node for the next request. -/
theorem getLast_of_not_full (h : ¬s.full = true) (w : Bool) :
    ∃ id, (s.tables w).freeList.getLast? = some id := by
  unfold DDRMemory.full at h
  rw [Bool.or_eq_true, List.isEmpty_iff, List.isEmpty_iff, not_or] at h
  cases w with
  | false => exact ⟨_, List.getLast?_eq_some_getLast h.1⟩
  | true => exact ⟨_, List.getLast?_eq_some_getLast h.2⟩

/-- The queue that `trySchedule` looks at has requests. -/
theorem isWriteQueue_ne_nil (h : s.empty = false) : (s.tables (s.isWriteQueue c)).reqList ≠ [] := by
  intro hnil
  cases hw : s.isWriteQueue c with
  | true =>
    rw [hw] at hnil
    unfold DDRMemory.isWriteQueue at hw
    dsimp only at hw
    rw [hnil, List.length_nil] at hw
    simp only [Nat.not_lt_zero, decide_false, Bool.and_false, Bool.or_false, List.isEmpty_iff] at hw
    have hempty : s.empty = true := by
      rw [empty_eq_true]
      intro w
      cases w with
      | false => exact hw
      | true => exact hnil
    rw [hempty] at h
    cases h
  | false =>
    rw [hw] at hnil
    unfold DDRMemory.isWriteQueue at hw
    dsimp only at hw
    rw [hnil] at hw
    cases hw

/-- A request that is alone in its queue is first in its bank. -/
theorem first_of_inserted {t : ReqTable} {n rowHitLimit : ℕ} {bank : Bank} {req : Request}
    (h : TableOk n t) (hid : t.freeList.getLast? = some id) (hnil : t.reqList = []) :
    (inserted t id rowHitLimit bank req memCycle).First id := by
  have hreqs : (inserted t id rowHitLimit bank req memCycle).reqList = t.reqList ++ [id] := rfl
  have hinserted := @TableOk.inserted t id rowHitLimit memCycle bank req n h hid
  obtain ⟨x, hx, hfirst⟩ := hinserted.exists_first (by rw [hreqs]; simp)
  rw [hreqs, hnil, List.nil_append, List.mem_singleton] at hx
  rw [hx] at hfirst
  exact hfirst

/-- A request was stored in a free node: `queue` puts it in its place. -/
theorem ends_queue_inserted {tables : Bool → ReqTable} {waiting : List Request} {req : Request}
    {ev : DDRMemoryAccEvent} (h : Placed c (tables, waiting))
    (hid : (tables w).freeList.getLast? = some id) (hw : useWrQueue c req = w)
    (hev : req.ev = some ev) (hwrite : ev.isWrite = req.write)
    (htables : s.tables = Function.update tables w (((tables w).alloc id).store id req))
    (hover : s.overflowQueue = waiting)
    (hacc : AccountsWith s (entry req :: (waitingIn (tables, waiting)).map entry)) :
    ends E (queue c w id memCycle) (fun _ s' => Placed c (queuesOf s') ∧ AccountsOk s' ∧
      s'.empty = false ∧ ((s'.tables w).First id ∨ ∃ w', (tables w').reqList ≠ []) ∧
        s'.overflowQueue = waiting) s := by
  have hreq : (s.tables w).elem id = req := by
    rw [htables, Function.update_self]
    exact Function.update_self ..
  refine ends_mono (ends_also (ends_queue hreq hev hacc) (queues_queue w id memCycle s))
    fun _ s' hs => ?_
  obtain ⟨haccounts, hqueues⟩ := hs
  have hins : queuesOf s' = (Function.update tables w
      (inserted (tables w) id c.rowHitLimit (s.chan.bankOf req) req memCycle), waiting) := by
    rw [hqueues, hreq, hover, htables, Function.update_self, Function.update_idem]
    rfl
  have htab : s'.tables w = inserted (tables w) id c.rowHitLimit (s.chan.bankOf req) req memCycle := by
    rw [(Prod.mk.inj hins).1, Function.update_self]
  have hmem : id ∈ (s'.tables w).reqList := by
    rw [htab]
    exact List.mem_append_right _ (List.mem_singleton.mpr rfl)
  refine ⟨?_, ?_, empty_eq_false_of_mem hmem, ?_, (Prod.mk.inj hins).2⟩
  · rw [hins]
    exact h.inserted hid hw ⟨ev, hev, hwrite⟩
  · unfold AccountsOk
    rw [hins]
    exact haccounts.perm ((waitingIn_inserted h hid).map entry).symm
  · by_cases hnil : (tables w).reqList = []
    · rw [htab]
      exact .inl (first_of_inserted (h.tables w) hid hnil)
    · exact .inr ⟨w, hnil⟩

/-- `lowerSchedCycle` reads only, and wakes up for a request that is first. -/
theorem ends_lowerSchedCycle {minSchedCycle : WithTop ℕ} (hmin : (memCycle : WithTop ℕ) ≤ minSchedCycle) :
    ends E (lowerSchedCycle c w id memCycle minSchedCycle) (fun next s' => s' = s ∧
      (memCycle : WithTop ℕ) ≤ next ∧ ((s.tables w).First id ∨ minSchedCycle ≠ ⊤ → next ≠ ⊤)) s := by
  have hqueued : (memCycle : WithTop ℕ) ≤ (s.minSchedCycle c memCycle : ℕ) :=
    WithTop.coe_le_coe.mpr (le_max_left ..)
  unfold lowerSchedCycle
  rw [ends_bind, ends_observe, ends_ite]
  split
  case isFalse hfirst => exact ⟨rfl, hmin, fun hor => hor.resolve_left hfirst⟩
  case isTrue =>
    refine ⟨rfl, le_min ?_ hqueued, fun _ htop => ?_⟩
    · split
      · exact WithTop.coe_le_coe.mpr (le_max_of_le_left (WithTop.coe_le_coe.mp hqueued))
      · exact hmin
    · exact WithTop.coe_ne_top (top_le_iff.mp (htop.symm.le.trans (min_le_right ..)))

end Queues

section Scheduling

variable {s : DDRMemory} {w : Bool} {id sysCycle : ℕ}

/-- What `trySchedule` and `takeOverflow` keep, and the cycle they answer. -/
structure Scheduled (c : DDRConfig) (memCycle : ℕ) (next : WithTop ℕ) (s : DDRMemory) : Prop where
  placed : Placed c (queuesOf s)
  accounts : AccountsOk s
  ahead : (memCycle : WithTop ℕ) ≤ next
  alarm : s.empty = false → next ≠ ⊤

/-- The response to the request that is served. -/
theorem ends_respondRead {r : Request} {entries : List (ℕ × Option DDRMemoryAccEvent)}
    (hr : InQueue c w r) (hacc : AccountsWith s (entry r :: entries))
    (hdone : sysCycle ≤ c.memToSysCycle s.chan.minRespCycle + c.controllerSysLatency) :
    ends E (respondRead c r sysCycle)
      (fun _ s' => AccountsWith s' ((r.origin, none) :: entries)) s := by
  unfold entry at hacc
  unfold respondRead
  split
  case h_1 hev =>
    rw [hev] at hacc
    exact hacc
  case h_2 ev hev =>
    have hwrite : r.write = false := by
      rw [Bool.eq_false_iff]
      exact fun hw => nomatch hev.symm.trans (hr.write hw)
    obtain ⟨ev', hsome, hread⟩ := hr.read hwrite
    cases hev.symm.trans hsome
    rw [hev] at hacc
    simp only [ends_bind, ends_observe, ends_ensure, hread, hwrite, hdone, not_true, false_implies,
      and_true, true_implies, and_self]
    exact (ends_bind ..).mp (ends_answer hacc _)

/-- `trySchedule` from the request it found on. -/
theorem ends_serve (hc : c.Accepted) (h : Placed c (queuesOf s)) (hacc : AccountsOk s)
    (hbanks : BanksAhead s.chan) (hid : id ∈ (s.tables w).reqList) (hfirst : (s.tables w).First id)
    (hready : s.chan.findMinCmdCycle c ((s.tables w).elem id) ≤ c.sysToMemCycle sysCycle) :
    ends E (serve c w id (c.sysToMemCycle sysCycle) sysCycle)
      (Scheduled c (c.sysToMemCycle sysCycle)) s := by
  have hact := (Nat.le_add_right _ c.tFAW).trans
    (@DDRActWindows.minActCycle_le_actCycle c s.chan ((s.tables w).elem id))
  have hlast := hbanks.lastCmd_lt hc hready
  have hcmd := @WeavePromise.curCycle_le_cmdCycle c s.chan ((s.tables w).elem id) (c.sysToMemCycle sysCycle)
  have hin : InQueue c w ((s.tables w).elem id) := h.queued w _ (List.mem_map_of_mem hid)
  have hentries : AccountsWith s (entry ((s.tables w).elem id) ::
      (waitingIn (Function.update s.tables w ((s.tables w).remove id), s.overflowQueue)).map entry) :=
    hacc.perm ((waitingIn_remove hid).map entry)
  unfold serve
  simp only [ends_bind, ends_observe, ends_ensure, ends_change, setTable, ends_pure, hact, hlast,
    or_true, not_true, false_implies, and_true, true_implies]
  generalize hchan : s.chan.issue c ((s.tables w).elem id) (c.sysToMemCycle sysCycle)
    (c.closedPage && !(s.tables w).hitFollows id) = chan
  have hresp : chan.minRespCycle = s.chan.cmdCycle c ((s.tables w).elem id) (c.sysToMemCycle sysCycle) +
      c.tCL + c.tBL := by
    rw [← hchan]
    rfl
  have hdone : sysCycle ≤ c.memToSysCycle chan.minRespCycle + c.controllerSysLatency := by
    have hle := @WeavePromise.le_memToSysCycle c sysCycle sysCycle 0 chan.minRespCycle hc le_rfl
    rw [Nat.zero_mul, Nat.zero_div] at hle
    omega
  have hkeep := keeps_of_outsideAcc (@keeps_respondRead c ((s.tables w).elem id) sysCycle)
    (fun s => (queuesOf s, chanOf s)) fun _ => rfl
  refine ends_mono (ends_also (ends_respondRead hin hentries hdone) hkeep.after) fun _ s₁ hs₁ => ?_
  obtain ⟨hacc₁, hsame⟩ := hs₁
  obtain ⟨hqueues, hchan₁⟩ := Prod.mk.inj hsame
  obtain ⟨htables, hover⟩ := Prod.mk.inj hqueues
  change s₁.tables = s.tables at htables
  change s₁.overflowQueue = s.overflowQueue at hover
  change s₁.chan = chan at hchan₁
  constructor
  case placed =>
    change Placed c (Function.update s₁.tables w _, s₁.overflowQueue)
    rw [htables, hover]
    exact h.remove hid hfirst
  case accounts =>
    change Accounts s₁.accepted _ _
      ((waitingIn (Function.update s₁.tables w _, s₁.overflowQueue)).map entry) _
    rw [htables, hover]
    exact hacc₁.leave
  case ahead =>
    split
    · exact le_top
    · have hle : c.sysToMemCycle sysCycle ≤ s₁.chan.minRespCycle - c.tCL := by
        rw [hchan₁, hresp]
        omega
      exact WithTop.coe_le_coe.mpr hle
  case alarm =>
    intro hempty
    rw [hempty]
    exact WithTop.coe_ne_top

theorem ends_trySchedule (hc : c.Accepted) (h : Placed c (queuesOf s)) (hacc : AccountsOk s)
    (hbanks : BanksAhead s.chan) :
    ends E (trySchedule c (c.sysToMemCycle sysCycle) sysCycle)
      (Scheduled c (c.sysToMemCycle sysCycle)) s := by
  unfold trySchedule
  rw [ends_bind, ends_observe, ends_ite]
  split
  case isTrue hempty =>
    refine ⟨h, hacc, le_top, fun hno => ?_⟩
    rw [hempty] at hno
    cases hno
  case isFalse hempty =>
    rw [ends_ite]
    split
    case isTrue hahead =>
      have hle : c.sysToMemCycle sysCycle ≤ s.chan.minRespCycle - c.tCL := by omega
      exact ⟨h, hacc, WithTop.coe_le_coe.mpr hle, fun _ => WithTop.coe_ne_top⟩
    case isFalse =>
      have hne := @isWriteQueue_ne_nil c s (Bool.eq_false_iff.mpr hempty)
      rw [ends_bind, ends_ensure]
      refine ⟨fun _ => ?_, fun hno => (hno hne).elim⟩
      split
      case h_1 minSchedCycle hfind =>
        obtain ⟨cycle, hcycle, hlt⟩ := (h.tables _).findReady_finite hne hfind
        rw [hcycle]
        exact ⟨h, hacc, WithTop.coe_le_coe.mpr hlt.le, fun _ => WithTop.coe_ne_top⟩
      case h_2 id minSchedCycle hfind =>
        obtain ⟨hid, hfirst, hready⟩ := findReady_some hfind
        exact ends_serve hc h hacc hbanks hid hfirst hready

/-- After `takeOverflow` a request of the overflow queue waits for a queued one. -/
theorem ends_takeOverflow (hdepth : 0 < c.queueDepth) {memCycle : ℕ} {minSchedCycle : WithTop ℕ}
    (h : Scheduled c memCycle minSchedCycle s) :
    ends E (takeOverflow c memCycle minSchedCycle) (fun next s' => Scheduled c memCycle next s' ∧
      (s'.overflowQueue ≠ [] → s'.empty = false)) s := by
  unfold takeOverflow
  rw [ends_bind, ends_observe]
  split
  case h_1 hnil => exact ⟨h, fun hne => (hne hnil).elim⟩
  case h_2 req reqs hover =>
    rw [ends_ite]
    split
    case isTrue hfull => exact ⟨h, fun _ => empty_of_full h.placed hdepth hfull⟩
    case isFalse hfull =>
      obtain ⟨id, hid⟩ := getLast_of_not_full hfull (useWrQueue c req)
      have hplaced : Placed c (s.tables, reqs) := by
        refine ⟨h.placed.tables, h.placed.queued, fun r hr => h.placed.overflow r ?_⟩
        change r ∈ s.overflowQueue
        rw [hover]
        exact List.mem_cons_of_mem req hr
      obtain ⟨ev, hev, hwrite⟩ : ∃ ev, req.ev = some ev ∧ ev.isWrite = req.write := by
        refine h.placed.overflow req ?_
        change req ∈ s.overflowQueue
        rw [hover]
        exact List.mem_cons_self
      have hentries : AccountsWith s (entry req :: (waitingIn (s.tables, reqs)).map entry) := by
        refine h.accounts.perm (List.Perm.map entry ?_ : ((waitingIn (queuesOf s)).map entry).Perm
          ((req :: waitingIn (s.tables, reqs)).map entry))
        unfold waitingIn queuesOf
        dsimp only
        rw [hover]
        exact List.perm_middle
      unfold alloc
      simp only [ends_bind, ends_observe, hid, setTable, ends_change, ends_pure]
      refine ends_mono (ends_queue_inserted hplaced hid rfl hev hwrite ?_ rfl hentries) fun _ s₁ hs₁ => ?_
      · simp only [Function.update_idem, Function.update_self]
      · obtain ⟨hplaced₁, hacc₁, hempty, hfirst, -⟩ := hs₁
        refine ends_mono (ends_lowerSchedCycle h.ahead) fun next s₂ hs₂ => ?_
        obtain ⟨hsame, hahead, hnext⟩ := hs₂
        rw [hsame]
        refine ⟨⟨hplaced₁, hacc₁, hahead, fun _ => hnext ?_⟩, fun _ => hempty⟩
        cases hfirst with
        | inl hfirst => exact .inl hfirst
        | inr hex =>
          obtain ⟨w', hw'⟩ := hex
          obtain ⟨i, hi⟩ := List.exists_mem_of_ne_nil _ hw'
          exact .inr (h.alarm (empty_eq_false_of_mem hi))

end Scheduling

end Zsim.DDRDeliveries
