import Zsim.MemController

/-!
# Routing of requests to the channels

A channel asserts that the addresses it gets are its own. The controller decodes
the channel of an address with `ReturnChannel`, and the scheduler of a channel
only holds addresses decoded to that channel, so the assertion holds wherever
an address is decoded.
-/

namespace Zsim.MemRouting

open WeakestPre Outcomes DetailedMemParams MemAddressMap MemChannel MemController

/-- Every failure but that of `assert(myId == chnl)`. -/
def NotChnl (e : MemFailure) : Prop := e ≠ .chnl

section Rank

variable {p : MemParam} {arrivalCycle refreshNum row bank : ℕ} {rowHit : Bool} {type : MemAccessType}

theorem updateRefreshNum_ends (r : MemRankBase) :
    ends NotChnl (UpdateRefreshNum p arrivalCycle) (fun _ _ => True) r := by
  simp [-bind_pure_comp, UpdateRefreshNum, NotChnl]

theorem updatePowerDownCycle_ends (lastPhaseCycle : ℕ) (r : MemRankBase) :
    ends NotChnl (UpdatePowerDownCycle p arrivalCycle lastPhaseCycle refreshNum)
      (fun _ _ => True) r := by
  simp [UpdatePowerDownCycle, NotChnl, ends_ite]

theorem updateLastRefreshCycle_ends (r : MemRankBase) :
    ends NotChnl (UpdateLastRefreshCycle p refreshNum) (fun _ _ => True) r := by
  simp [UpdateLastRefreshCycle, NotChnl, ends_ite]

theorem openRow_ends (r : MemRankBase) :
    ends NotChnl (openRow p rowHit type arrivalCycle refreshNum row bank) (fun _ _ => True) r := by
  simp [-bind_pure_comp, openRow, openPolicyStart, closedPolicyStart, NotChnl, ends_ite,
    CalcIntraIssueCycle, IssuePrecharge, IssueActivate, CalcActConst]

theorem rdwrStart_ends (opened : Option ℕ × Bool) (r : MemRankBase) :
    ends NotChnl (rdwrStart p opened rowHit type arrivalCycle refreshNum) (fun _ _ => True) r := by
  rcases opened with ⟨_ | _, _ | _⟩ <;>
    simp [-bind_pure_comp, rdwrStart, NotChnl, CalcIntraIssueCycle]

theorem access_ends (accessCycle issuedCycle : ℕ) (r : MemRankBase) :
    ends NotChnl (MemRankBase.access accessCycle issuedCycle row bank type) (fun _ _ => True) r := by
  simp [MemRankBase.access, NotChnl]

theorem closeRow_ends (rdwrIssueCycle : ℕ) (r : MemRankBase) :
    ends NotChnl (closeRow p type bank rdwrIssueCycle) (fun _ _ => True) r := by
  simp [closeRow, IssuePrecharge, NotChnl, ends_ite]

end Rank

section Channel

variable {p : MemParam} {s : MemChannelBase}

/-- What happens on a rank leaves the id of the channel. -/
theorem onRank_myId {α : Type} {m : RankAct α} (hm : ∀ r, ends NotChnl m (fun _ _ => True) r)
    (rank : ℕ) (s : MemChannelBase) :
    ends NotChnl (onRank rank m) (fun _ s' => s'.myId = s.myId) s := by
  rw [ends_onRank]
  exact ends_mono (hm _) fun _ _ _ => rfl

/-- A channel that decoded the address fails no assertion on its id, and keeps it. -/
theorem schedule_myId (loc : Location) (arrivalCycle lastPhaseCycle : ℕ) (type : MemAccessType) :
    ends NotChnl (schedule p loc arrivalCycle lastPhaseCycle type)
      (fun _ s' => s'.myId = s.myId) s := by
  have hbus : ∀ a b (s₁ : MemChannelBase), s₁.myId = s.myId →
      ends NotChnl (UpdateDataBusCycle p a b) (fun _ s' => s'.myId = s.myId) s₁ := by
    intro a b s₁ h₁
    unfold UpdateDataBusCycle
    simp only [ends_bind, ends_observe, ends_ite, ends_change]
    split
    · split
      · simp [NotChnl]
      · exact h₁
    · exact h₁
  have hrank : ∀ {α : Type} {m : RankAct α} (rank : ℕ) (s₁ : MemChannelBase), s₁.myId = s.myId →
      (∀ r, ends NotChnl m (fun _ _ => True) r) →
      ends NotChnl (onRank rank m) (fun _ s' => s'.myId = s.myId) s₁ := by
    intro α m rank s₁ h₁ hm
    exact ends_mono (onRank_myId hm rank s₁) fun _ _ h => h.trans h₁
  have hne : ∀ e : MemFailure, e ≠ .chnl → NotChnl e := fun _ h => h
  unfold schedule
  simp only [ends_bind, ends_observe, ends_ensure]
  refine ⟨fun _ => ⟨fun _ => ?_, fun _ => hne _ (by decide)⟩, fun _ => hne _ (by decide)⟩
  refine ends_mono (hrank _ s rfl updateRefreshNum_ends) fun refreshNum s₁ h₁ => ?_
  refine ends_mono (hrank _ s₁ h₁ (updatePowerDownCycle_ends _)) fun _ s₂ h₂ => ?_
  refine ends_mono (hrank _ s₂ h₂ updateLastRefreshCycle_ends) fun _ s₃ h₃ => ?_
  refine ends_mono (hrank _ s₃ h₃ openRow_ends) fun opened s₄ h₄ => ?_
  refine ends_mono (hrank _ s₄ h₄ (rdwrStart_ends opened)) fun start s₅ h₅ => ?_
  refine ⟨fun _ => ⟨fun _ => ?_, fun _ => hne _ (by decide)⟩, fun _ => hne _ (by decide)⟩
  refine ends_mono (hrank _ s₅ h₅ (access_ends _ _)) fun _ s₆ h₆ => ?_
  refine ends_mono (hrank _ s₆ h₆ (closeRow_ends _)) fun _ s₇ h₇ => ?_
  exact hbus _ _ s₇ h₇

/-- The channel that an address belongs to. -/
def Owns (p : MemParam) (s : MemChannelBase) (addr : UInt64) : Prop :=
  (AddressMap p addr).chnl = s.myId

theorem locate_ends {addr : UInt64} (h : Owns p s addr) :
    ends NotChnl (locate p addr) (fun _ s' => s' = s) s := by
  simp only [locate, ends_bind, ends_observe, ends_ensure, ends_pure]
  exact ⟨fun _ => trivial, fun hne => absurd h.symm hne⟩

theorem latencySimulate_myId {addr : UInt64} (h : Owns p s addr) (arrivalCycle lastPhaseCycle : ℕ)
    (type : MemAccessType) :
    ends NotChnl (MemChannel.LatencySimulate p addr arrivalCycle lastPhaseCycle type)
      (fun _ s' => s'.myId = s.myId) s := by
  rw [MemChannel.LatencySimulate, ends_bind]
  refine ends_mono (locate_ends h) fun loc s₁ h₁ => ?_
  rw [h₁]
  exact schedule_myId loc arrivalCycle lastPhaseCycle type

theorem findBestRequest_ends {queue : List MemSchedQueueElem} (h : ∀ e ∈ queue, Owns p s e.addr)
    (tmpIdx : ℕ) : ends NotChnl (FindBestRequest p queue tmpIdx) (fun _ s' => s' = s) s := by
  induction queue generalizing tmpIdx with
  | nil => exact rfl
  | cons e queue ih =>
    rw [FindBestRequest, ends_bind]
    refine ends_mono (locate_ends (h e List.mem_cons_self)) fun loc s₁ h₁ => ?_
    rw [h₁, ends_bind, ends_observe, ends_ite]
    split
    · exact rfl
    · exact ih (fun x hx => h x (List.mem_cons_of_mem e hx)) (tmpIdx + 1)

end Channel

section Controller

variable {c : MemConfig} {s : MemControllerBase}

/-- An entry of the scheduler of a channel. -/
structure Routed (p : MemParam) (channel : UInt32) (e : MemSchedQueueElem) : Prop where
  chnl : (AddressMap p e.addr).chnl = channel
  ev : ∀ ev, e.ev = some ev → ev.addr = e.addr

/-- The channels have their ids, and the schedulers what was routed to them. -/
structure Wired (c : MemConfig) (s : MemControllerBase) : Prop where
  myId : ∀ i, (s.chnls i).myId = .ofNat i
  rdQueue : ∀ i, ∀ e ∈ (s.sches i).rdQueue, Routed c.toMemParam (.ofNat i) e
  wrQueue : ∀ i, ∀ e ∈ (s.sches i).wrQueue, Routed c.toMemParam (.ofNat i) e

theorem wired_new : Wired c (.new c) where
  myId _ := rfl
  rdQueue _ _ he := absurd he List.not_mem_nil
  wrQueue _ _ he := absurd he List.not_mem_nil

/-- What happens on a channel that keeps its id leaves the controller wired. -/
theorem onChannel_wired {α : Type} {m : Act α} (h : Wired c s) (channel : ℕ)
    (hm : ends NotChnl m (fun _ d => d.myId = (s.chnls channel).myId) (s.chnls channel)) :
    ends NotChnl (onChannel channel m) (fun _ => Wired c) s := by
  rw [ends_onChannel]
  refine ends_mono hm fun _ d hd => ⟨fun i => ?_, h.rdQueue, h.wrQueue⟩
  change (Function.update s.chnls channel d i).myId = _
  by_cases hi : i = channel
  · rw [hi, Function.update_self, hd]
    exact h.myId channel
  · rw [Function.update_of_ne hi]
    exact h.myId i

/-- Replacing a scheduler by one that holds requests of its channel. -/
theorem Wired.setSched (h : Wired c s) (channel : ℕ) {q : MemSchedulerDefault}
    (hrd : ∀ e ∈ q.rdQueue, Routed c.toMemParam (.ofNat channel) e)
    (hwr : ∀ e ∈ q.wrQueue, Routed c.toMemParam (.ofNat channel) e) :
    Wired c { s with sches := Function.update s.sches channel q } := by
  refine ⟨h.myId, fun i => ?_, fun i => ?_⟩
  all_goals
    by_cases hi : i = channel
    · simpa only [hi, Function.update_self] using by assumption
    · simp only [Function.update_of_ne hi]
      first | exact h.rdQueue i | exact h.wrQueue i

/-- The id of the channel that `ReturnChannel` selects. -/
theorem Wired.owns (h : Wired c s) {addr : UInt64} {channel : UInt32}
    (hr : ReturnChannel c.toMemParam addr = some channel) :
    Owns c.toMemParam (s.chnls channel.toNat) addr := by
  rw [Owns, addressMap_chnl hr, h.myId, UInt32.ofNat_toNat]

theorem channelIdx_ends (addr : UInt64) : ends NotChnl (channelIdx c addr)
    (fun i s' => s' = s ∧ ∃ channel, ReturnChannel c.toMemParam addr = some channel ∧
      i = channel.toNat) s := by
  unfold channelIdx
  cases hr : ReturnChannel c.toMemParam addr with
  | none =>
    rw [ends_abort]
    exact fun h => by cases h
  | some channel =>
    rw [ends_pure]
    exact ⟨rfl, channel, rfl, rfl⟩

theorem latencySimulate_wired (h : Wired c s) (addr : UInt64) (sysCycle : ℕ) (type : MemAccessType) :
    ends NotChnl (MemController.LatencySimulate c addr sysCycle type) (fun _ => Wired c) s := by
  rw [MemController.LatencySimulate, ends_bind]
  refine ends_mono (channelIdx_ends addr) fun i s₁ hends => ?_
  obtain ⟨h₁, channel, hr, hi⟩ := hends
  rw [h₁, hi]
  simp only [ends_bind, ends_ensure, ends_observe, ends_pure]
  refine ⟨fun _ => ?_, fun _ he => by cases he⟩
  refine ends_mono (onChannel_wired h _ (latencySimulate_myId (h.owns hr) _ _ _)) fun _ s₂ h₂ => ?_
  exact ⟨fun _ => h₂, fun _ he => by cases he⟩

/-- The scheduler that gets a request of its channel holds requests of its channel. -/
theorem checkSetEvent_routed {p : MemParam} {channel : UInt32} {q : MemSchedulerDefault}
    {ev : MemAccessEventBase} (hev : (AddressMap p ev.addr).chnl = channel)
    (hrd : ∀ e ∈ q.rdQueue, Routed p channel e) (hwr : ∀ e ∈ q.wrQueue, Routed p channel e) :
    (∀ e ∈ (q.CheckSetEvent ev).1.rdQueue, Routed p channel e) ∧
      ∀ e ∈ (q.CheckSetEvent ev).1.wrQueue, Routed p channel e := by
  have hwrite : Routed p channel ⟨none, ev.addr⟩ := ⟨hev, fun _ he => by cases he⟩
  have hread : Routed p channel ⟨some ev, ev.addr⟩ := ⟨hev, fun _ he => by cases he; rfl⟩
  have happend : ∀ {l : List MemSchedQueueElem} {x}, (∀ e ∈ l, Routed p channel e) →
      Routed p channel x → ∀ e ∈ l ++ [x], Routed p channel e := by
    intro l x hl hx e he
    rcases List.mem_append.mp he with he | he
    · exact hl e he
    · rw [List.mem_singleton.mp he]
      exact hx
  unfold MemSchedulerDefault.CheckSetEvent
  cases findAddr ev.addr q.wrQueue with
  | some i =>
    dsimp only
    split
    · exact ⟨hrd, happend (fun e he => hwr e (List.mem_of_mem_eraseIdx he)) hwrite⟩
    · exact ⟨hrd, hwr⟩
  | none =>
    cases findAddr ev.addr q.wrDoneQueue with
    | some i =>
      dsimp only
      split
      · exact ⟨hrd, hwr⟩
      · exact ⟨hrd, happend hwr hwrite⟩
    | none =>
      dsimp only
      split
      · exact ⟨happend hrd hread, hwr⟩
      · exact ⟨hrd, happend hwr hwrite⟩

theorem done_wired (h : Wired c s) (ev : MemAccessEventBase) (doneCycle : ℤ) :
    ends NotChnl (done ev doneCycle) (fun _ => Wired c) s := ⟨h.myId, h.rdQueue, h.wrQueue⟩

theorem enqueue_wired (h : Wired c s) (ev : MemAccessEventBase) :
    ends NotChnl (enqueue c ev) (fun _ => Wired c) s := by
  unfold enqueue
  simp only [ends_ite, ends_bind, ends_ensure, ends_observe]
  split
  · exact ends_mono (latencySimulate_wired h _ _ _) fun _ s₁ h₁ => done_wired h₁ _ _
  · refine ends_mono (channelIdx_ends ev.addr) fun i s₁ hends => ?_
    obtain ⟨h₁, channel, hr, hi⟩ := hends
    rw [h₁, hi]
    refine ⟨fun _ => ?_, fun _ he => by cases he⟩
    have hchannel : (AddressMap c.toMemParam ev.addr).chnl = .ofNat channel.toNat := by
      rw [addressMap_chnl hr, UInt32.ofNat_toNat]
    obtain ⟨hrd, hwr⟩ := checkSetEvent_routed hchannel (h.rdQueue channel.toNat)
      (h.wrQueue channel.toNat)
    have hset := h.setSched channel.toNat hrd hwr
    simp only [modifySched, ends_change]
    cases ev.type with
    | READ =>
      dsimp only
      rw [ends_ite]
      split
      · exact done_wired hset _ _
      · exact hset
    | WRITE => exact done_wired hset _ _

/-- The scheduler of a channel offers requests of its channel. -/
theorem findBestRequest_wired (h : Wired c s) (channel : ℕ) {queue : List MemSchedQueueElem}
    (hq : ∀ e ∈ queue, Routed c.toMemParam (.ofNat channel) e) :
    ends NotChnl (onChannel channel (FindBestRequest c.toMemParam queue 0))
      (fun _ s' => s' = s) s := by
  rw [ends_onChannel]
  refine ends_mono (findBestRequest_ends (fun e he => ?_) 0) fun _ d hd => ?_
  · rw [Owns, (hq e he).chnl, h.myId]
  · rw [hd, Function.update_eq_self]

theorem pickRead_wired (h : Wired c s) (channel : ℕ) :
    ends NotChnl (pickRead c.toMemParam channel) (fun _ => Wired c) s := by
  simp only [pickRead, ends_bind, ends_observe]
  refine ends_mono (findBestRequest_wired h channel (h.rdQueue channel)) fun idx s₁ h₁ => ?_
  rw [h₁]
  split
  · exact h.setSched channel (fun e he => h.rdQueue channel e (List.mem_of_mem_eraseIdx he))
      (h.wrQueue channel)
  · exact fun he => by cases he
  · exact h

theorem pickWrite_wired (h : Wired c s) (channel : ℕ) :
    ends NotChnl (pickWrite c.toMemParam channel) (fun _ => Wired c) s := by
  simp only [pickWrite, ends_bind, ends_observe]
  refine ends_mono (findBestRequest_wired h channel (h.wrQueue channel)) fun idx s₁ h₁ => ?_
  rw [h₁]
  split
  · exact h.setSched channel (h.rdQueue channel)
      (fun e he => h.wrQueue channel e (List.mem_of_mem_eraseIdx he))
  · exact h

theorem getEvent_wired (h : Wired c s) (channel : ℕ) :
    ends NotChnl (GetEvent c.toMemParam channel) (fun _ => Wired c) s := by
  have h₁ := h.setSched channel
    (q := { s.sches channel with prioritizedAccessType := (s.sches channel).priority })
    (h.rdQueue channel) (h.wrQueue channel)
  rw [GetEvent, ends_bind, modifySched, ends_change, ends_bind, ends_observe, ends_bind]
  refine ends_mono (Q := fun _ => Wired c) ?_ fun picked s₂ h₂ => ?_
  · rw [ends_ite]
    split
    · exact pickRead_wired h₁ channel
    · exact h₁
  · cases picked with
    | some e => exact h₂
    | none => exact pickWrite_wired h₂ channel

theorem tickChannel_wired (h : Wired c s) (sysCycle channel : ℕ) :
    ends NotChnl (tickChannel c sysCycle channel) (fun _ => Wired c) s := by
  rw [tickChannel, ends_bind]
  refine ends_mono (getEvent_wired h channel) fun picked s₁ h₁ => ?_
  cases picked with
  | none => exact h₁
  | some e =>
    obtain ⟨ev, addr, type⟩ := e
    dsimp only
    rw [ends_bind]
    refine ends_mono (latencySimulate_wired h₁ addr sysCycle type) fun latency s₂ h₂ => ?_
    cases type with
    | WRITE => exact h₂
    | READ =>
      cases ev with
      | none => exact fun he => by cases he
      | some ev => exact done_wired h₂ _ _

/-- Every input leaves the controller wired, and fails no assertion on the id
of a channel. -/
theorem perform_wired (h : Wired c s) (x : Input) :
    ends NotChnl (perform c x) (fun _ => Wired c) s := by
  cases x with
  | enqueue ev => exact enqueue_wired h ev
  | tick sysCycle =>
    rw [perform, tick, ends_ite]
    split
    · exact ends_forM (Wired c) (fun i _ s₁ h₁ => tickChannel_wired h₁ sysCycle i) h
    · exact h

/-- The two decoders select the same channel, and no request that the
controller routes fails the assertion of its channel. -/
theorem decoders_agree (c : MemConfig) (htype : c.interleaveType ≤ 8) (hchannel : 1 ≤ c.channelCount) :
    (∀ addr, ∃ channel, ReturnChannel c.toMemParam addr = some channel ∧
      channel < c.channelCount ∧ (AddressMap c.toMemParam addr).chnl = channel) ∧
    ∀ inputs : List Input, ends NotChnl (inputs.forM (perform c)) (fun _ _ => True) (.new c) := by
  constructor
  · intro addr
    obtain ⟨channel, hr⟩ := returnChannel_of_le htype addr
    exact ⟨channel, hr, returnChannel_lt hchannel hr, addressMap_chnl hr⟩
  · intro inputs
    refine ends_mono (ends_forM (Wired c) (fun x _ s h => perform_wired h x) wired_new) ?_
    exact fun _ _ _ => trivial

/-- Three channels, with the channel above the rank and bank bits. -/
def threeChannels : MemConfig where
  openPolicy := true
  channelCount := 3
  interleaveType := 8
  powerDownCycle := 50
  controllerLatency := 0
  byteOffsetWidth := 6
  accessLogDepth := 4
  mergeContinuous := false
  schedulerQueueCount := 16
  bankCount := 8
  colAddrWidth := 10
  rankCount := 2
  rankWidth := 1
  bankWidth := 3
  channelDataWidthLog := 3
  tRC := 33
  tRAS := 24
  tRCD := 9
  tRP := 9
  tRPab := 9
  tRTRS := 1
  tRRD := 4
  tWR := 10
  tWTR := 5
  tCAS := 9
  tCWD := 7
  tCCD := 4
  tTrans := 4
  tTransCrit := 1
  tXP := 4
  tREFI := 5200
  tRFC := 74
  tFAW := 20
  tRTP := 5
  sysFreqKHz := 2000000
  memFreqKHz := 666666
  sysFreqKHz_pos := by decide
  memFreqKHz_pos := by decide

theorem threeChannels_agree :
    (∀ addr, ∃ channel, ReturnChannel threeChannels.toMemParam addr = some channel ∧
      channel < threeChannels.channelCount ∧
      (AddressMap threeChannels.toMemParam addr).chnl = channel) ∧
    ∀ inputs : List Input,
      ends NotChnl (inputs.forM (perform threeChannels)) (fun _ _ => True) (.new threeChannels) :=
  decoders_agree threeChannels (by decide) (by decide)

end Controller

end Zsim.MemRouting
