import Zsim.MESIRaceSafety

/-!
# Every interleaving of requests and invalidations

The steps of the parent's side are complete once the loop of `sendInvalidates`
is: each round takes one child out of the directory, and its end leaves the
line as the access that started it needs it. With the children's own steps this
makes the invariant one of every run, and every check of the parent succeeds.
-/

namespace Zsim.MESIRaceRuns

open WeakestPre MemoryHierarchy MESIDirectory GuardedRuns MESIRace MESIRaceSafety
open MESIControllers (checkForMESIRace)

/-- Waiting requests still ask for the same. -/
def Keeps (st st' : State) : Prop :=
  ∀ d r, st.request d = some r →
    ∃ r', st'.request d = some r' ∧ r'.type = r.type ∧ r'.lineAddr = r.lineAddr

section Frame

variable {n c : ℕ} {a : Address} {st st' : State} {l l' : Loop} {type : AccessType}

theorem Keeps.rfl : Keeps st st := fun _ r hr => ⟨r, hr, Eq.refl _, Eq.refl _⟩

theorem Keeps.asks (hk : Keeps st st') (h : Asks st c type a) : Asks st' c type a := by
  obtain ⟨ht, r, hr, htype, haddr⟩ := h
  obtain ⟨r', hr', htype', haddr'⟩ := hk c r hr
  exact ⟨ht, r', hr', htype'.trans htype, haddr'.trans haddr⟩

/-- Whoever is served has a request waiting. -/
theorem asks_of_grant (h : PurposeOk st l) (hc : l.purpose = .grant c) :
    ∃ type, Asks st c type l.lineAddr := by
  rw [PurposeOk, hc] at h
  rcases h.2 with ⟨-, hask, -⟩ | ⟨-, hask, -⟩
  · exact ⟨_, hask⟩
  · exact ⟨_, hask⟩

theorem stage_frame (h : StageOk st) (hk : Keeps st st') (hserving : st'.serving = st.serving)
    (hown : ∀ b, st.own b = .I → st'.own b = .I)
    (hvacant : ∀ b, (st.entry b).Vacant → (st'.entry b).Vacant)
    (hloop : ∀ l, st.loop = some l → ∃ l', st'.loop = some l' ∧ l'.purpose = l.purpose) :
    StageOk st' := by
  unfold StageOk at h ⊢
  rw [hserving]
  split at h
  · trivial
  · obtain ⟨l, hl, hp⟩ := h
    obtain ⟨l', hl', hp'⟩ := hloop l hl
    exact ⟨l', hl', by rwa [hp']⟩
  · obtain ⟨type, a, hask, hI, hba, hv⟩ := h
    exact ⟨type, a, hk.asks hask, hown a hI, hba, hvacant _ hv⟩
  · obtain ⟨type, a, hask, hI⟩ := h
    exact ⟨type, a, hk.asks hask, fun ht => hown a (hI ht)⟩

theorem purpose_frame (h : PurposeOk st l) (hk : Keeps st st')
    (hserving : st'.serving = st.serving) (hown : st'.own = st.own)
    (hchild : ∀ c, l.purpose = .grant c → st.child c l.lineAddr = .I →
      st'.child c l.lineAddr = .I)
    (hl : l'.purpose = l.purpose ∧ l'.type = l.type ∧ l'.lineAddr = l.lineAddr) :
    PurposeOk st' l' := by
  obtain ⟨hp, ht, ha⟩ := hl
  unfold PurposeOk at h ⊢
  rw [hp, ht, ha, hserving, hown]
  cases hpurpose : l.purpose with
  | evict c =>
    rw [hpurpose] at h
    obtain ⟨hinv, hserv, type, b, hask, hrest⟩ := h
    exact ⟨hinv, hserv, type, b, hk.asks hask, hrest⟩
  | grant c =>
    rw [hpurpose] at h
    obtain ⟨hserv, ⟨hinv, hask, hx⟩ | ⟨hinvx, hask, hI⟩⟩ := h
    · exact ⟨hserv, .inl ⟨hinv, hk.asks hask, hx⟩⟩
    · exact ⟨hserv, .inr ⟨hinvx, hk.asks hask, hchild c hpurpose hI⟩⟩
  | inval =>
    rw [hpurpose] at h
    exact h

end Frame

section Rounds

variable {n c : ℕ} {a : Address} {st : State} {l : Loop} {type : InvType}

/-- The requests that wait while a child's line is invalidated. -/
theorem requests_signal (h : ∀ d r, st.request d = some r → RequestOk r (st.child d r.lineAddr))
    (hI : st.child c a ≠ .I) (hF : type ≠ .FWD)
    (hX : type = .INVX → (st.child c a).exclusive = true) (dirtyBelow : Bool) (d : ℕ) (r : Request)
    (hr : Function.update st.request c ((st.request c).map fun r =>
      r.signal a (st.child c a == .M || (dirtyBelow && (st.child c a).exclusive))) d = some r) :
    RequestOk r (Function.update st.child c
      (Function.update (st.child c) a (invState type (st.child c a))) d r.lineAddr) := by
  by_cases hd : d = c
  · subst hd
    rw [Function.update_self, Option.map_eq_some_iff] at hr
    obtain ⟨r₀, hr₀, rfl⟩ := hr
    by_cases ha : r₀.lineAddr = a
    · subst ha
      have hline : ∀ b, (r₀.signal r₀.lineAddr b).lineAddr = r₀.lineAddr := by
        intro b
        simp [Request.signal]
      rw [hline, Function.update_self, Function.update_self]
      exact (h d r₀ hr₀).inv hI hF hX dirtyBelow
    · rw [Request.signal, if_neg ha, Function.update_self, Function.update_of_ne ha]
      exact h d r₀ hr₀
  · rw [Function.update_of_ne hd] at hr
    rw [Function.update_of_ne hd]
    exact h d r hr

theorem keeps_signal (st : State) (c : ℕ) (a : Address) (dirty : Bool) :
    Keeps st (st.setRequest c ((st.request c).map fun r => r.signal a dirty)) := by
  intro d r hr
  by_cases hd : d = c
  · subst hd
    refine ⟨r.signal a dirty, by simp [State.setRequest, hr], ?_, ?_⟩
    · unfold Request.signal
      split <;> rfl
    · unfold Request.signal
      split <;> rfl
  · exact ⟨r, by simp [State.setRequest, Function.update_of_ne hd, hr], rfl, rfl⟩

theorem holders_cases (l : Loop) : (∀ child, holders l child = child) ∨
    ∃ c, l.purpose = .grant c ∧ l.type = .INV ∧
      ∀ child, holders l child = Function.update child c .I := by
  unfold holders
  split
  · next c hp ht => exact .inr ⟨c, hp, ht, fun _ => rfl⟩
  · exact .inl fun _ => rfl

theorem holders_INVX (ht : l.type = .INVX) (child : ℕ → MESIState) : holders l child = child := by
  rcases holders_cases l with hsame | ⟨-, -, hinv, -⟩
  · exact hsame child
  · rw [ht] at hinv
    cases hinv

/-- A child with its bit set holds the line. -/
theorem holds_of_sharer (h : LoopOk n st l) (hs : (st.entry l.lineAddr).sharers c = true) :
    holders l (fun d => st.child d l.lineAddr) c ≠ .I ∧ st.child c l.lineAddr ≠ .I ∧ c < n := by
  have hsettled : (settled l (st.entry l.lineAddr)).sharers = (st.entry l.lineAddr).sharers := by
    unfold settled
    split
    · rfl
    · split <;> rfl
  have hs' : (settled l (st.entry l.lineAddr)).sharers c = true := by rwa [hsettled]
  have hne := (h.agrees.sharers_iff c).mp hs'
  refine ⟨hne, ?_, h.agrees.sharers_lt c hs'⟩
  rcases holders_cases l with hsame | ⟨g, -, -, hupdate⟩
  · rwa [hsame] at hne
  · rw [hupdate] at hne
    by_cases hcg : c = g
    · exact absurd (by rw [hcg, Function.update_self]) hne
    · rwa [Function.update_of_ne hcg] at hne

/-- The child that is served keeps clear of the loop. -/
theorem not_granted (h : LoopOk n st l) (hs : (st.entry l.lineAddr).sharers c = true) :
    l.purpose ≠ .grant c := by
  intro hp
  obtain ⟨hne, hne', -⟩ := holds_of_sharer h hs
  have hpurpose := h.purpose
  rw [PurposeOk, hp] at hpurpose
  obtain ⟨-, ⟨ht, -, -⟩ | ⟨-, -, hI⟩⟩ := hpurpose
  · simp [holders, hp, ht] at hne
  · exact hne' hI

/-- Writing another child's state is seen by the loop. -/
theorem holders_update (l : Loop) (child : ℕ → MESIState) (s : MESIState)
    (hc : l.purpose ≠ .grant c) :
    holders l (Function.update child c s) = Function.update (holders l child) c s := by
  rcases holders_cases l with hsame | ⟨g, hp, -, hupdate⟩
  · rw [hsame, hsame]
  · have hcg : c ≠ g := by
      rintro rfl
      exact hc hp
    rw [hupdate, hupdate, Function.update_comm hcg]

/-- The loop one child further. -/
def further (l : Loop) (dirty : Bool) : Loop :=
  { l with next := l.next + 1, sentInvs := l.sentInvs + 1, writeback := l.writeback || dirty }

/-- Child `next` has been invalidated and the entry changed to `e`. -/
def sent (st : State) (l : Loop) (e : Entry) (dirty : Bool) : State :=
  { st.setRequest l.next ((st.request l.next).map fun r => r.signal l.lineAddr dirty) with
    child := Function.update st.child l.next (Function.update (st.child l.next) l.lineAddr
      (invState l.type (st.child l.next l.lineAddr)))
    entry := Function.update st.entry l.lineAddr e
    loop := some (further l dirty) }

/-- Whether a child has dirty data for the parent. -/
def dirtyIn (s : MESIState) (dirtyBelow : Bool) : Bool := s == .M || (dirtyBelow && s.exclusive)

theorem exclusive_of_dirtyIn {s : MESIState} {dirtyBelow : Bool}
    (h : dirtyIn s dirtyBelow = true) : s.exclusive = true := by
  revert h
  cases s <;> simp [dirtyIn]

theorem entry_of_progress (h : Progress n l (st.entry l.lineAddr)) :
    ¬ (st.entry l.lineAddr).Vacant := by
  intro hv
  unfold Progress at h
  split at h
  · exact h.2.1 hv.1
  · rw [hv.1] at h
    cases h.1
  · exact h

/-- What a round must show about the line itself. -/
theorem sent_inv {e : Entry} {dirtyBelow : Bool} (h : Inv n st) (hl : st.loop = some l)
    (hs : (st.entry l.lineAddr).sharers l.next = true)
    (hX : l.type = .INVX → (st.child l.next l.lineAddr).exclusive = true)
    (ha : Agrees n (st.own l.lineAddr)
      (settled (further l (dirtyIn (st.child l.next l.lineAddr) dirtyBelow)) e)
      (Function.update (holders l fun d => st.child d l.lineAddr) l.next
        (invState l.type (st.child l.next l.lineAddr))))
    (hp : Progress n (further l (dirtyIn (st.child l.next l.lineAddr) dirtyBelow)) e) :
    Inv n (sent st l e (dirtyIn (st.child l.next l.lineAddr) dirtyBelow)) := by
  have hloop := h.loop l hl
  obtain ⟨hheld, hne, -⟩ := holds_of_sharer hloop hs
  have hgranted := not_granted hloop hs
  have hF : l.type ≠ .FWD := by
    intro ht
    have hprog := hloop.progress
    rw [Progress, ht] at hprog
    exact hprog
  have hkeeps : Keeps st (sent st l e (dirtyIn (st.child l.next l.lineAddr) dirtyBelow)) :=
    keeps_signal st l.next l.lineAddr _
  refine ⟨fun b hb => ?_, fun d r hr => ?_, fun l' hl' => ?_, ?_, fun d r hr => ?_⟩
  · have hba : b ≠ l.lineAddr := (hb _ rfl).symm
    simp only [sent, Function.update_of_ne hba, child_other st.child _ (Or.inr hba)]
    refine h.agrees b fun l' hl' => ?_
    rw [hl] at hl'
    cases hl'
    exact hba.symm
  · exact requests_signal h.requests hne hF hX dirtyBelow d r hr
  · cases hl'
    refine ⟨?_, ?_, fun hw => ?_, ?_⟩
    · simp only [sent, further, Function.update_self, child_column]
      rw [← holders_update l _ _ hgranted] at ha
      exact ha
    · simpa only [sent, further, Function.update_self] using hp
    · rw [further, Bool.or_eq_true] at hw
      rcases hw with hw | hw
      · exact hloop.writeback hw
      · refine (hloop.agrees.exclusive_up l.next ?_).1
        rcases holders_cases l with hid | ⟨g, hpurpose, -, hupdate⟩
        · rw [hid]
          exact exclusive_of_dirtyIn hw
        · have hg : l.next ≠ g := by
            rintro rfl
            exact hgranted hpurpose
          rw [hupdate, Function.update_of_ne hg]
          exact exclusive_of_dirtyIn hw
    · refine purpose_frame hloop.purpose hkeeps rfl rfl (fun g hpurpose hI => ?_) ⟨rfl, rfl, rfl⟩
      have hg : g ≠ l.next := by
        rintro rfl
        exact hgranted hpurpose
      simpa only [sent, Function.update_of_ne hg] using hI
  · refine stage_frame h.stage hkeeps rfl (fun _ => id) (fun b hv => ?_) fun l' hl' => ?_
    · have hba : b ≠ l.lineAddr := by
        rintro rfl
        exact entry_of_progress hloop.progress hv
      simpa only [sent, Function.update_of_ne hba] using hv
    · rw [hl] at hl'
      cases hl'
      exact ⟨_, rfl, rfl⟩
  · by_cases hd : d = l.next
    · rw [hd]
      exact (holds_of_sharer hloop hs).2.2
    · refine h.requester d r ?_
      simpa only [sent, State.setRequest, Function.update_of_ne hd] using hr

/-- INV reaches child `next`. -/
theorem sent_INV {dirtyBelow : Bool} (h : Inv n st) (hl : st.loop = some l) (ht : l.type = .INV)
    (hs : (st.entry l.lineAddr).sharers l.next = true) :
    Inv n (sent st l { st.entry l.lineAddr with
        sharers := Function.update (st.entry l.lineAddr).sharers l.next false }
      (dirtyIn (st.child l.next l.lineAddr) dirtyBelow)) := by
  have hloop := h.loop l hl
  obtain ⟨hheld, -, hlt⟩ := holds_of_sharer hloop hs
  have hprog := hloop.progress
  rw [Progress, ht] at hprog
  obtain ⟨hnum, hpos, hpast⟩ := hprog
  have hdrop := sharerCount_drop hlt hs
  refine sent_inv h hl hs (fun hx => absurd (ht.symm.trans hx) (by decide)) ?_ ?_
  · have hput := hloop.agrees.put hheld
    simpa [settled, further, ht, Entry.dropSharer, invState, Nat.sub_sub] using hput
  · simp only [Progress, further, ht]
    refine ⟨by omega, hpos, fun d hd => ?_⟩
    by_cases hdn : d = l.next
    · rw [hdn, Function.update_self]
    · rw [Function.update_of_ne hdn]
      exact hpast d (by omega)

/-- INVX reaches child `next`, the one sharer. -/
theorem sent_INVX {dirtyBelow : Bool} (h : Inv n st) (hl : st.loop = some l) (ht : l.type = .INVX)
    (hs : (st.entry l.lineAddr).sharers l.next = true) :
    (st.child l.next l.lineAddr).exclusive = true ∧
      Inv n (sent st l (st.entry l.lineAddr)
        (dirtyIn (st.child l.next l.lineAddr) dirtyBelow)) := by
  have hloop := h.loop l hl
  have hprog := hloop.progress
  rw [Progress, ht] at hprog
  obtain ⟨hone, hexcl, ⟨hz, hpast⟩ | ⟨-, hrest⟩⟩ := hprog
  · have hx := (isExclusive_iff _).mpr ⟨hone, hexcl⟩
    have hagree := hloop.agrees
    simp only [settled, ht, hz, if_true, holders_INVX ht] at hagree
    have hchild := hagree.exclusive_down hx _ hs
    refine ⟨hchild, sent_inv h hl hs (fun _ => hchild) ?_ ?_⟩
    · simpa [settled, holders_INVX ht, further, ht] using hagree.downgrade hx hs
    · simp only [Progress, further, ht]
      refine ⟨hone, hexcl, .inr ⟨by omega, fun d hd => ?_⟩⟩
      refine Bool.eq_false_of_not_eq_true fun hsd => ?_
      have heq := hagree.unique hx ((hagree.sharers_iff d).mp hsd) ((hagree.sharers_iff _).mp hs)
      omega
  · rw [hrest l.next le_rfl] at hs
    cases hs

/-- A child without the line is passed over. -/
theorem passed_inv (h : Inv n st) (hl : st.loop = some l)
    (hs : (st.entry l.lineAddr).sharers l.next = false) :
    Inv n { st with loop := some { l with next := l.next + 1 } } := by
  have hloop := h.loop l hl
  have hpast : (∀ d < l.next, (st.entry l.lineAddr).sharers d = false) →
      ∀ d < l.next + 1, (st.entry l.lineAddr).sharers d = false := by
    intro hlt d hd
    rcases Nat.lt_succ_iff_lt_or_eq.mp hd with hd | rfl
    · exact hlt d hd
    · exact hs
  have hprog : Progress n { l with next := l.next + 1 } (st.entry l.lineAddr) := by
    have hprog := hloop.progress
    unfold Progress at hprog ⊢
    dsimp only
    split at hprog
    · exact ⟨hprog.1, hprog.2.1, hpast hprog.2.2⟩
    · refine ⟨hprog.1, hprog.2.1, hprog.2.2.imp (fun hz => ⟨hz.1, hpast hz.2⟩) fun hone => ?_⟩
      exact ⟨hone.1, fun d hd => hone.2 d (by omega)⟩
    · exact hprog
  refine ⟨fun b hb => h.agrees b fun l' hl' => ?_, h.requests, fun l' hl' => ?_, ?_, h.requester⟩
  · rw [hl] at hl'
    cases hl'
    exact hb { l with next := l.next + 1 } rfl
  · cases hl'
    exact ⟨hloop.agrees, hprog, hloop.writeback,
      purpose_frame hloop.purpose Keeps.rfl rfl rfl (fun _ _ => id) ⟨rfl, rfl, rfl⟩⟩
  · refine stage_frame h.stage Keeps.rfl rfl (fun _ => id) (fun _ => id) fun l' hl' => ?_
    rw [hl] at hl'
    cases hl'
    exact ⟨_, rfl, rfl⟩

/-- A loop that has looked at every child has accounted for all of them. -/
theorem sentInvs_all (h : LoopOk n st l) (hn : n ≤ l.next) :
    l.sentInvs = (st.entry l.lineAddr).numSharers ∧
      (l.type = .INV ∧ settled l (st.entry l.lineAddr) =
          { st.entry l.lineAddr with numSharers := 0 } ∨
        l.type = .INVX ∧ (st.entry l.lineAddr).exclusive = true ∧
          (st.entry l.lineAddr).numSharers = 1 ∧
          settled l (st.entry l.lineAddr) = { st.entry l.lineAddr with exclusive := false }) := by
  have hnone : (∀ d < l.next, (st.entry l.lineAddr).sharers d = false) →
      sharerCount n (st.entry l.lineAddr).sharers = 0 := by
    intro hpast
    rw [sharerCount, Finset.card_eq_zero, Finset.filter_eq_empty_iff]
    intro d hd
    rw [hpast d (lt_of_lt_of_le (Finset.mem_range.mp hd) hn)]
    simp
  have hprog := h.progress
  have hagree := h.agrees
  unfold Progress at hprog
  split at hprog
  · next ht =>
    have hz := hnone hprog.2.2
    have hnum : l.sentInvs = (st.entry l.lineAddr).numSharers := by omega
    refine ⟨hnum, .inl ⟨ht, ?_⟩⟩
    simp only [settled, ht, hnum, Nat.sub_self]
  · next ht =>
    obtain ⟨hone, hexcl, ⟨hz, hpast⟩ | ⟨hsent, -⟩⟩ := hprog
    · have hcount := hagree.count
      simp only [settled, ht, hz, if_true, hone, hnone hpast] at hcount
      cases hcount
    · refine ⟨hsent.trans hone.symm, .inr ⟨ht, hexcl, hone, ?_⟩⟩
      simp [settled, ht, hsent]
  · exact hprog.elim

/-- The end of a loop: its address agrees again, but for a child that upgrades. -/
theorem resume_spec {e : Entry} (h : Inv n st) (hl : st.loop = some l)
    (he : e = settled l (st.entry l.lineAddr))
    (hINV : l.type = .INV → e.Vacant) (hINVX : l.type = .INVX → e.isExclusive = false) :
    wp (resume l) (fun _ => Inv n)
      { st with entry := Function.update st.entry l.lineAddr e, loop := none } := by
  have hloop := h.loop l hl
  have hagree := hloop.agrees
  rw [← he] at hagree
  have hother : ∀ b, b ≠ l.lineAddr → Agrees n (st.own b) (st.entry b) fun d => st.child d b := by
    intro b hb
    refine h.agrees b fun l' hl' => ?_
    rw [hl] at hl'
    cases hl'
    exact hb.symm
  have hentry : ∀ b, b ≠ l.lineAddr →
      Agrees n (st.own b) (Function.update st.entry l.lineAddr e b) fun d => st.child d b := by
    intro b hb
    rw [Function.update_of_ne hb]
    exact hother b hb
  have hpurpose := hloop.purpose
  unfold PurposeOk at hpurpose
  unfold resume
  cases hp : l.purpose with
  | evict c =>
    rw [hp] at hpurpose
    obtain ⟨ht, hserving, type, a, hask, hI, hba⟩ := hpurpose
    obtain ⟨hget, r, hr, rfl, rfl⟩ := hask
    have hv := hINV ht
    have hhere : holders l = id := by
      funext child
      rcases holders_cases l with hsame | ⟨g, hg, -, -⟩
      · exact hsame child
      · rw [hp] at hg
        cases hg
    rw [hhere] at hagree
    simp only [wp_bind, wp_observe, hr]
    refine bottomEviction_spec (r:=r) ⟨⟨fun b _ => ?_, h.requests, h.requester, rfl⟩,
      hentry _ (Ne.symm hba), hserving, h.requester c r hr, (h.requests c r hr).get hget,
      fun hg => ⟨hg, r, hr, rfl, rfl⟩⟩ hget hI (by simpa using hv) hba hloop.writeback
    by_cases hb : b = l.lineAddr
    · rw [hb]
      simpa using hagree
    · exact hentry b hb
  | grant c =>
    rw [hp] at hpurpose
    have happ : Apart n l.lineAddr
        { st with entry := Function.update st.entry l.lineAddr e, loop := none } :=
      ⟨hentry, h.requests, h.requester, rfl⟩
    obtain ⟨-, ⟨ht, ⟨-, r, hr, -, -⟩, hx⟩ | ⟨ht, ⟨-, r, hr, -, -⟩, hI⟩⟩ := hpurpose
    · have hv := hINV ht
      simp only [ht]
      refine grantExclusive_spec happ hx (by simpa using hv) (h.requester c r hr) fun d hd => ?_
      have hnone := hagree.child_I_of_vacant hv d
      simpa [holders, hp, ht, Function.update_of_ne hd] using hnone
    · rw [holders_INVX ht] at hagree
      have hprog := hloop.progress
      rw [Progress, ht] at hprog
      -- the child that has been downgraded keeps the line
      have hown : st.own l.lineAddr ≠ .I := by
        intro hown
        rw [hown] at hagree
        have hnum : e.numSharers = 1 := by
          rw [he, settled, ht]
          dsimp only
          split <;> exact hprog.1
        have hnone : ∀ d, e.sharers d = false := fun d =>
          Bool.eq_false_of_not_eq_true fun hd =>
            (hagree.sharers_iff d).mp hd (hagree.child_I_of_own_I d)
        have hcount := hagree.count
        rw [show e.sharers = fun _ => false from funext hnone, sharerCount_none, hnum] at hcount
        cases hcount
      simp only [ht]
      exact grantShared_spec happ (by simpa using hagree) (by simpa using hINVX ht) hown
        (h.requester c r hr) hI hloop.writeback
  | inval =>
    rw [hp] at hpurpose
    have hhere : holders l = id := by
      funext child
      rcases holders_cases l with hsame | ⟨g, hg, -, -⟩
      · exact hsame child
      · rw [hp] at hg
        cases hg
    rw [hhere] at hagree
    have hvacant : ∀ b, (st.entry b).Vacant → b ≠ l.lineAddr := by
      rintro b hv rfl
      exact entry_of_progress hloop.progress hv
    have hstage : StageOk { st with
        entry := Function.update st.entry l.lineAddr e, loop := none } := by
      have hst := h.stage
      unfold StageOk at hst ⊢
      dsimp only
      split at hst
      · trivial
      · next c hserving => exact absurd hserving (hpurpose.1 c)
      · obtain ⟨type, a, hask, hI, hba, hv⟩ := hst
        exact ⟨type, a, hask, hI, hba, by simpa [Function.update_of_ne (hvacant _ hv)] using hv⟩
      · exact hst
    have hinv : Inv n { st with
        entry := Function.update st.entry l.lineAddr e, loop := none } :=
      Apart.inv (a:=l.lineAddr) ⟨hentry, h.requests, h.requester, rfl⟩ (by simpa using hagree) hstage
    refine bottomInval_spec hinv rfl hpurpose.2 (fun ht d => ?_) fun ht d => ?_
    · exact hagree.child_I_of_vacant (hINV ht) d
    · refine Bool.eq_false_of_not_eq_true fun hx => ?_
      have hex := (hagree.exclusive_up d hx).2
      rw [hINVX ht] at hex
      cases hex

/-- Every round of a loop, and its end, succeed and keep the invariant. -/
theorem invalidateNext_spec (h : Inv n st) (hl : st.loop = some l) (dirtyBelow : Bool) :
    wp (invalidateNext n l dirtyBelow) (fun _ => Inv n) st := by
  have hloop := h.loop l hl
  simp only [invalidateNext, wp_bind, wp_observe, wp_ite]
  split
  · split
    · next hs =>
      have hne := (holds_of_sharer hloop hs).2.1
      have hF : l.type = .INV ∨ l.type = .INVX := by
        have hprog := hloop.progress
        cases ht : l.type with
        | INV => exact .inl rfl
        | INVX => exact .inr rfl
        | FWD =>
          rw [Progress, ht] at hprog
          exact hprog.elim
      simp only [invalidateChild, signal, wp_bind, wp_observe, wp_ensure, wp_setChild, wp_change,
        wp_pure, wp_setEntry, wp_setLoop]
      rcases hF with ht | ht
      · refine ⟨hne, fun hx => absurd (ht.symm.trans hx) (by decide), ?_⟩
        rw [if_pos ht]
        exact sent_INV h hl ht hs
      · have hsent : _ ∧ Inv n (sent st l (st.entry l.lineAddr)
            (dirtyIn (st.child l.next l.lineAddr) dirtyBelow)) := sent_INVX h hl ht hs
        refine ⟨hne, fun _ => hsent.1, ?_⟩
        rw [if_neg (by rw [ht]; simp)]
        have hinv := hsent.2
        simp only [sent, Function.update_eq_self] at hinv
        exact hinv
    · next hs =>
      rw [wp_setLoop]
      exact passed_inv h hl (Bool.eq_false_of_not_eq_true hs)
  · next hn =>
    obtain ⟨hsent, hend⟩ := sentInvs_all hloop (Nat.le_of_not_lt hn)
    simp only [wp_ensure, wp_setEntry, wp_setLoop]
    refine ⟨hsent, ?_⟩
    rcases hend with ⟨ht, hsettled⟩ | ⟨ht, hexcl, hone, hsettled⟩
    · rw [if_pos ht]
      refine resume_spec h hl hsettled.symm (fun _ => ?_) fun hx => absurd (ht.symm.trans hx) (by decide)
      have hempty : (settled l (st.entry l.lineAddr)).isEmpty = true := by
        rw [hsettled]
        rfl
      rw [← hsettled]
      exact hloop.agrees.vacant_of_isEmpty hempty
    · rw [if_neg (by rw [ht]; simp)]
      refine ⟨⟨hexcl, hone⟩, resume_spec h hl hsettled.symm (fun hx => absurd (ht.symm.trans hx) (by decide))
        fun _ => ?_⟩
      simp [Entry.isExclusive]

end Rounds

section Steps

variable {n c : ℕ} {a : Address} {st : State}

/-- A child without a request is not served. -/
theorem not_asked (hc : st.request c = none) {d : ℕ} {type : AccessType} {b : Address}
    (hask : Asks st d type b) : d ≠ c := by
  rintro rfl
  obtain ⟨-, r, hr, -⟩ := hask
  rw [hc] at hr
  cases hr

theorem not_granted_idle {l : Loop} (h : LoopOk n st l) (hc : st.request c = none) :
    l.purpose ≠ .grant c := by
  intro hp
  obtain ⟨type, hask⟩ := asks_of_grant h.purpose hp
  exact not_asked hc hask rfl

theorem silent_inv (h : Inv n st) (hc : st.request c = none) (hE : st.child c a = .E) :
    Inv n { st with
      child := Function.update st.child c (Function.update (st.child c) a .M) } := by
  refine ⟨fun b hb => ?_, fun d r hr => ?_, fun l hl => ?_, ?_, h.requester⟩
  · have hagree := h.agrees b hb
    by_cases hba : b = a
    · subst hba
      simp only [child_column]
      exact hagree.silent hE
    · simpa only [child_other st.child _ (Or.inr hba)] using hagree
  · have hd : d ≠ c := by
      rintro rfl
      rw [show st.request d = some r from hr] at hc
      cases hc
    simpa only [Function.update_of_ne hd] using h.requests d r hr
  · have hloop := h.loop l hl
    have hgranted := not_granted_idle hloop hc
    refine ⟨?_, hloop.progress, hloop.writeback, ?_⟩
    · by_cases hla : l.lineAddr = a
      · simp only [hla, child_column, holders_update l _ _ hgranted]
        refine (hla ▸ hloop.agrees).silent ?_
        rcases holders_cases l with hsame | ⟨g, hp, -, hupdate⟩
        · rw [hsame]
          exact hE
        · have hcg : c ≠ g := by
            rintro rfl
            exact hgranted hp
          rw [hupdate, Function.update_of_ne hcg]
          exact hE
      · simpa only [child_other st.child _ (Or.inr hla)] using hloop.agrees
    · refine purpose_frame hloop.purpose Keeps.rfl rfl rfl (fun g hp hI => ?_) ⟨rfl, rfl, rfl⟩
      have hg : g ≠ c := by
        rintro rfl
        exact hgranted hp
      simpa only [Function.update_of_ne hg] using hI
  · exact stage_frame h.stage Keeps.rfl rfl (fun _ => id) (fun _ => id) fun l hl => ⟨l, hl, rfl⟩

theorem issue_inv {r : Request} (h : Inv n st) (hc : st.request c = none) (hn : c < n)
    (hr : RequestOk r (st.child c r.lineAddr)) : Inv n (st.setRequest c (some r)) := by
  have hkeeps : Keeps st (st.setRequest c (some r)) := by
    intro d r' hr'
    have hd : d ≠ c := by
      rintro rfl
      rw [hc] at hr'
      cases hr'
    exact ⟨r', by simpa only [State.setRequest, Function.update_of_ne hd] using hr', rfl, rfl⟩
  have hcases : ∀ d r', (st.setRequest c (some r)).request d = some r' →
      d = c ∧ r' = r ∨ st.request d = some r' := by
    intro d r' hr'
    by_cases hd : d = c
    · subst hd
      simp only [State.setRequest, Function.update_self, Option.some.injEq] at hr'
      exact .inl ⟨rfl, hr'.symm⟩
    · exact .inr (by simpa only [State.setRequest, Function.update_of_ne hd] using hr')
  refine ⟨h.agrees, fun d r' hr' => ?_, fun l hl => ?_, ?_, fun d r' hr' => ?_⟩
  · rcases hcases d r' hr' with ⟨rfl, rfl⟩ | hold
    · exact hr
    · exact h.requests d r' hold
  · have hloop := h.loop l hl
    exact ⟨hloop.agrees, hloop.progress, hloop.writeback,
      purpose_frame hloop.purpose hkeeps rfl rfl (fun _ _ => id) ⟨rfl, rfl, rfl⟩⟩
  · exact stage_frame h.stage hkeeps rfl (fun _ => id) (fun _ => id) fun l hl => ⟨l, hl, rfl⟩
  · rcases hcases d r' hr' with ⟨rfl, rfl⟩ | hold
    · exact hn
    · exact h.requester d r' hold

theorem bccFree_iff : st.bccFree = true ↔
    st.loop = none ∧ ∀ c, st.serving ≠ some (c, .running) := by
  unfold State.bccFree
  rw [Bool.and_eq_true, Option.isNone_iff_eq_none]
  refine and_congr_right fun _ => ?_
  split
  · next c hserving => simp [hserving]
  · next hother => simpa using fun c hserving => hother c hserving

/-- An invalidation of the parent's own parent. -/
theorem inval_spec {type : InvType} (h : Inv n st) (hfree : st.bccFree = true)
    (hinv : invalidatable type (st.own a) = true) :
    wp (sendInvalidates .inval a type fun _ => bottomInval a type) (fun _ => Inv n) st := by
  obtain ⟨hl, hserving⟩ := bccFree_iff.mp hfree
  have hagree := h.agrees a (by simp [hl])
  have hF : type ≠ .FWD := by
    rintro rfl
    cases hinv
  refine sendInvalidates_spec (fun hskip => ?_) fun hx hne => ?_
  · refine bottomInval_spec h hl hinv (fun ht d => ?_) fun ht d => ?_
    · have hempty : (st.entry a).isEmpty = true := by simpa [ht] using hskip
      exact hagree.child_I_of_vacant (hagree.vacant_of_isEmpty hempty) d
    · refine Bool.eq_false_of_not_eq_true fun hd => ?_
      have hex := (hagree.exclusive_up d hd).2
      rcases hskip with ⟨-, hnx⟩ | hempty
      · rw [hnx] at hex
        cases hex
      · rw [(hagree.vacant_of_isEmpty hempty).not_isExclusive] at hex
        cases hex
  · refine (h.apart hl a).begin hagree hx hne hF ⟨hserving, hinv⟩ ?_
    refine stage_frame h.stage Keeps.rfl rfl (fun _ => id) (fun _ => id) fun l hl' => ?_
    rw [hl] at hl'
    cases hl'

/-- Every step that can be taken succeeds and keeps the invariant. -/
theorem action_spec (h : Inv n st) {l : Label} {act : Act Unit} (hact : action n st l = some act) :
    wp act (fun _ => Inv n) st := by
  cases l with
  | silent c a =>
    simp only [action, Option.ite_none_right_eq_some, Option.some.injEq] at hact
    obtain ⟨⟨hc, hE⟩, rfl⟩ := hact
    rw [wp_setChild]
    exact silent_inv h (Option.isNone_iff_eq_none.mp hc) hE
  | issue c type a noexcl =>
    simp only [action, Option.ite_none_right_eq_some, Option.some.injEq] at hact
    obtain ⟨⟨hn, hc, hbuilt⟩, rfl⟩ := hact
    rw [wp_change]
    exact issue_inv h (Option.isNone_iff_eq_none.mp hc) hn
      ⟨hbuilt, .inl rfl, fun hM hne => absurd hM hne⟩
  | start c victim =>
    simp only [action] at hact
    split at hact
    · cases hact
    · next r hr =>
      simp only [Option.ite_none_right_eq_some, Option.some.injEq] at hact
      obtain ⟨⟨-, hl, hvictim⟩, rfl⟩ := hact
      exact startAccess_spec h hr (Option.isNone_iff_eq_none.mp hl) hvictim
  | next dirtyBelow =>
    simp only [action] at hact
    split at hact
    · cases hact
    · next l hl =>
      cases hact
      exact invalidateNext_spec h hl dirtyBelow
  | answer s =>
    simp only [action] at hact
    split at hact
    · cases hact
    · next c stage hserving =>
      split at hact
      · cases hact
      · next r hr =>
        simp only [Option.ite_none_right_eq_some, Option.some.injEq] at hact
        obtain ⟨⟨hfree, hs⟩, rfl⟩ := hact
        exact answer_spec h hr (bccFree_iff.mp hfree).1 hserving hs
  | inval type a =>
    simp only [action, Option.ite_none_right_eq_some, Option.some.injEq] at hact
    obtain ⟨⟨hfree, hinv⟩, rfl⟩ := hact
    exact inval_spec h hfree hinv

/-- No step fails. -/
theorem step_inv (h : Inv n st) {l : Label} {res : Except Failure State}
    (hs : step n (.ok st) l = some res) : ∃ st', res = .ok st' ∧ Inv n st' := by
  obtain ⟨act, hact, rfl⟩ := Option.map_eq_some_iff.mp hs
  obtain ⟨_, st', hrun, hinv⟩ := action_spec h hact
  exact ⟨st', by rw [hrun]; rfl, hinv⟩

theorem init_inv (n : ℕ) : Inv n State.init where
  agrees _ _ := .vacant _ clear_vacant fun _ => rfl
  requests _ _ hr := by cases hr
  loop _ hl := by cases hl
  stage := trivial
  requester _ _ hr := by cases hr

theorem run_inv {ls : List Label} {res : Except Failure State}
    (hr : run (step n) (.ok State.init) ls = some res) : ∃ st, res = .ok st ∧ Inv n st := by
  have hstep : ∀ s l s', (∃ st, s = .ok st ∧ Inv n st) → step n s l = some s' →
      ∃ st, s' = .ok st ∧ Inv n st := by
    rintro - l s' ⟨st, rfl, hinv⟩ hs
    exact step_inv hinv hs
  exact run_invariant hstep ⟨State.init, rfl, init_inv n⟩ hr

end Steps

section Completed

variable {α : Type} {n c : ℕ} {a : Address} {st st' : State} {r : Request}

/-- An action that neither begins a loop nor touches the requests. -/
def Plain (m : Act α) : Prop :=
  ∀ st st' : State, wp m (fun _ s => s = st') st → st'.loop = st.loop ∧ st'.request = st.request

/-- An action that gives up a request outside a loop only. -/
def Quiet (m : Act Unit) : Prop :=
  ∀ st st' : State, st.loop = none → wp m (fun _ s => s = st') st →
    st'.loop = none ∨ st'.request = st.request

theorem plain_observe (f : State → α) : Plain (observe f) := by
  intro st st' h
  rw [wp_observe] at h
  exact h ▸ ⟨rfl, rfl⟩

theorem plain_pure (v : α) : Plain (pure v) := by
  intro st st' h
  rw [wp_pure] at h
  exact h ▸ ⟨rfl, rfl⟩

theorem plain_ensure (p : Prop) [Decidable p] (e : Failure) : Plain (ensure p e) := by
  intro st st' h
  rw [wp_ensure] at h
  exact h.2 ▸ ⟨rfl, rfl⟩

theorem plain_change {f : State → State} (hl : ∀ st, (f st).loop = st.loop)
    (hr : ∀ st, (f st).request = st.request) : Plain (change f) := by
  intro st st' h
  rw [wp_change] at h
  exact h ▸ ⟨hl st, hr st⟩

theorem plain_setOwn (a : Address) (s : MESIState) : Plain (setOwn a s) :=
  plain_change (fun _ => rfl) fun _ => rfl

theorem plain_setEntry (a : Address) (e : Entry) : Plain (setEntry a e) :=
  plain_change (fun _ => rfl) fun _ => rfl

theorem plain_setChild (c : ℕ) (a : Address) (s : MESIState) : Plain (setChild c a s) :=
  plain_change (fun _ => rfl) fun _ => rfl

theorem plain_setServing (c : ℕ) (stage : Stage) : Plain (setServing c stage) :=
  plain_change (fun _ => rfl) fun _ => rfl

theorem Plain.bind {β : Type} {m : Act β} {k : β → Act α} (hm : Plain m)
    (hk : ∀ v, Plain (k v)) : Plain (m >>= k) := by
  intro st st' h
  rw [wp_bind] at h
  obtain ⟨v, s, hrun, hk'⟩ := h
  obtain ⟨hl, hr⟩ := hm st s ⟨v, s, hrun, rfl⟩
  obtain ⟨hl', hr'⟩ := hk v s st' hk'
  exact ⟨hl'.trans hl, hr'.trans hr⟩

theorem Plain.andThen {β : Type} {m : Act β} {k : β → Act Unit} (hm : Plain m)
    (hk : ∀ v, Quiet (k v)) : Quiet (m >>= k) := by
  intro st st' hl h
  rw [wp_bind] at h
  obtain ⟨v, s, hrun, hk'⟩ := h
  obtain ⟨hls, hrs⟩ := hm st s ⟨v, s, hrun, rfl⟩
  exact (hk v s st' (hls.trans hl) hk').imp_right fun hr => hr.trans hrs

theorem Plain.quiet {m : Act Unit} (hm : Plain m) : Quiet m := fun st st' hl h =>
  .inl ((hm st st' h).1.trans hl)

theorem Plain.ite {p : Prop} [Decidable p] {m k : Act α} (hm : Plain m) (hk : Plain k) :
    Plain (if p then m else k) := by
  split
  · exact hm
  · exact hk

theorem Quiet.ite {p : Prop} [Decidable p] {m k : Act Unit} (hm : Quiet m) (hk : Quiet k) :
    Quiet (if p then m else k) := by
  split
  · exact hm
  · exact hk

theorem quiet_endAccess (c : ℕ) : Quiet (endAccess c) := by
  intro st st' hl h
  rw [wp_endAccess] at h
  exact .inl (h ▸ hl)

theorem quiet_sendInvalidates (purpose : Purpose) (a : Address) (type : InvType)
    {next : Bool → Act Unit} (hnext : Quiet (next false)) :
    Quiet (sendInvalidates purpose a type next) := by
  refine (plain_observe _).andThen fun e => hnext.ite fun st st' _ h => ?_
  rw [wp_setLoop] at h
  exact .inr (h ▸ rfl)

theorem plain_processWritebackOnAccess (a : Address) (wb : Bool) :
    Plain (processWritebackOnAccess a wb) :=
  ((plain_observe _).bind fun _ => (plain_ensure _ _).bind fun _ => plain_setOwn a .M).ite
    (plain_pure ())

theorem quiet_grantShared (c : ℕ) (a : Address) (wb : Bool) : Quiet (grantShared c a wb) :=
  (plain_observe _).andThen fun _ => (plain_ensure _ _).andThen fun _ =>
    (plain_setEntry a _).andThen fun _ => (plain_setChild c a .S).andThen fun _ =>
      (plain_processWritebackOnAccess a wb).andThen fun _ => quiet_endAccess c

theorem quiet_grantExclusive (c : ℕ) (a : Address) (wb : Bool) :
    Quiet (grantExclusive c a wb) :=
  (plain_observe _).andThen fun _ => (plain_setEntry a _).andThen fun _ =>
    (plain_ensure _ _).andThen fun _ => (plain_setChild c a .M).andThen fun _ =>
      (plain_processWritebackOnAccess a wb).andThen fun _ => quiet_endAccess c

theorem quiet_removeSharer (c : ℕ) (a : Address) : Quiet (removeSharer c a) :=
  (plain_observe _).andThen fun _ => (plain_ensure _ _).andThen fun _ =>
    (plain_setEntry a _).andThen fun _ => (plain_setChild c a .I).andThen fun _ =>
      quiet_endAccess c

theorem quiet_topAccess (c : ℕ) (r : Request) : Quiet (topAccess c r) := by
  refine (plain_observe _).andThen fun e => (plain_observe _).andThen fun s => ?_
  cases r.type with
  | PUTX => exact (plain_ensure _ _).andThen fun _ => quiet_removeSharer c _
  | PUTS => exact quiet_removeSharer c _
  | GETS =>
    refine Quiet.ite ?_ ((plain_ensure _ _).andThen fun _ => Quiet.ite ?_ ?_)
    · exact (plain_setEntry _ _).andThen fun _ => (plain_setChild _ _ _).andThen fun _ =>
        quiet_endAccess c
    · exact quiet_sendInvalidates _ _ _ (quiet_grantShared c _ _)
    · exact quiet_grantShared c _ _
  | GETX =>
    refine (plain_ensure _ _).andThen fun _ => Plain.andThen (Plain.ite ?_ (plain_pure ()))
      fun _ => quiet_sendInvalidates _ _ _ (quiet_grantExclusive c _ _)
    exact (plain_ensure _ _).bind fun _ => plain_setEntry _ _

theorem quiet_processAccess (c : ℕ) (r : Request) : Quiet (processAccess c r) := by
  refine (plain_observe _).andThen fun s => ?_
  have htop := quiet_topAccess c r
  cases r.type with
  | PUTS => exact (plain_ensure _ _).andThen fun _ => htop
  | PUTX =>
    exact (plain_ensure _ _).andThen fun _ => (plain_ensure _ _).andThen fun _ =>
      (plain_setOwn _ _).andThen fun _ => htop
  | GETS => exact (plain_setServing c _).quiet.ite htop
  | GETX => exact (plain_setServing c _).quiet.ite ((plain_setOwn _ _).andThen fun _ => htop)

theorem quiet_insert (c : ℕ) (r : Request) (b : Address) : Quiet (MESIRace.insert c r b) :=
  (plain_change (f:=fun st => st.reuseLine r.lineAddr b) (fun _ => rfl) fun _ => rfl).andThen
    fun _ => quiet_processAccess c r

theorem quiet_bottomEviction (c : ℕ) (r : Request) (b : Address) (wb : Bool) :
    Quiet (bottomEviction c r b wb) := by
  refine Plain.andThen (Plain.ite ?_ (plain_pure ())) fun _ =>
    (plain_observe _).andThen fun _ => (quiet_insert c r b).ite (plain_setServing c _).quiet
  exact (plain_observe _).bind fun _ => (plain_ensure _ _).bind fun _ => plain_setOwn b .M

theorem quiet_startAccess (c : ℕ) (r : Request) (victim : Option Address) :
    Quiet (startAccess c r victim) := by
  refine (plain_observe _).andThen fun s => ?_
  split
  · intro st st' _ h
    exact ((wp_abort _ _ _).mp h).elim
  · exact quiet_endAccess c
  · refine (plain_setServing c _).andThen fun _ => ?_
    cases victim with
    | none => exact quiet_processAccess c _
    | some b =>
      exact (plain_ensure _ _).andThen fun _ =>
        quiet_sendInvalidates _ _ _ (quiet_bottomEviction c _ b _)

theorem quiet_answer (c : ℕ) (r : Request) (stage : Stage) (s : MESIState) :
    Quiet (answer c r stage s) := by
  cases stage with
  | running => exact (plain_pure ()).quiet
  | writingBack b =>
    exact (plain_setOwn b .I).andThen fun _ => (plain_setServing c _).andThen fun _ =>
      quiet_insert c r b
  | fetching =>
    exact (plain_setOwn _ s).andThen fun _ => (plain_setServing c _).andThen fun _ =>
      quiet_topAccess c r

theorem quiet_bottomInval (a : Address) (type : InvType) : Quiet (bottomInval a type) :=
  (plain_observe _).andThen fun _ => (plain_ensure _ _).andThen fun _ =>
    (plain_ensure _ _).andThen fun _ => (plain_setOwn a _).quiet

theorem quiet_resume (l : Loop) : Quiet (resume l) := by
  unfold resume
  cases l.purpose with
  | evict c =>
    refine (plain_observe _).andThen fun r => ?_
    cases r with
    | none => exact (plain_pure ()).quiet
    | some r => exact quiet_bottomEviction c r _ _
  | grant c =>
    cases l.type with
    | INV => exact quiet_grantExclusive c _ _
    | INVX => exact quiet_grantShared c _ _
    | FWD => exact quiet_grantShared c _ _
  | inval => exact quiet_bottomInval _ _

/-- A round of a loop keeps every request. -/
theorem invalidateNext_completed {l : Loop} {dirtyBelow : Bool}
    (h : wp (invalidateNext n l dirtyBelow) (fun _ s => s = st') st)
    (hc : st.request c ≠ none) (hc' : st'.request c = none) : st'.loop = none := by
  simp only [invalidateNext, wp_bind, wp_observe, wp_ite] at h
  split at h
  · split at h
    · simp only [invalidateChild, signal, wp_bind, wp_observe, wp_ensure, wp_setChild, wp_change,
        wp_pure, wp_setEntry, wp_setLoop] at h
      obtain ⟨-, -, h⟩ := h
      have hkept : st'.request c = Function.update st.request l.next ((st.request l.next).map
          fun r => r.signal l.lineAddr (st.child l.next l.lineAddr == .M ||
            (dirtyBelow && (st.child l.next l.lineAddr).exclusive))) c := by
        split at h <;> exact h ▸ rfl
      rw [hc'] at hkept
      by_cases hn : c = l.next
      · rw [hn, Function.update_self] at hkept
        exact absurd (Option.map_eq_none_iff.mp hkept.symm) (hn ▸ hc)
      · rw [Function.update_of_ne hn] at hkept
        exact absurd hkept.symm hc
    · rw [wp_setLoop] at h
      rw [← h] at hc'
      exact absurd hc' hc
  · have hend : ∀ e : Entry, wp (resume l) (fun _ s => s = st')
        { st with entry := Function.update st.entry l.lineAddr e, loop := none } →
        st'.loop = none := by
      intro e hres
      rcases quiet_resume l _ st' rfl hres with hl | hr
      · exact hl
      · rw [hr] at hc'
        exact absurd hc' hc
    simp only [wp_ensure, wp_setEntry, wp_setLoop] at h
    obtain ⟨-, h⟩ := h
    split at h
    · exact hend _ h
    · exact hend _ h.2

/-- When a request is completed, no invalidations are being sent. -/
theorem step_completed {l : Label} (hs : step n (.ok st) l = some (.ok st'))
    (hc : st.request c ≠ none) (hc' : st'.request c = none) : st'.loop = none := by
  obtain ⟨act, hact, hrun⟩ := Option.map_eq_some_iff.mp hs
  have hwp : wp act (fun _ s => s = st') st := by
    cases hr : act st with
    | error e =>
      rw [hr] at hrun
      cases hrun
    | ok x =>
      rw [hr] at hrun
      cases hrun
      exact ⟨x.1, x.2, hr, rfl⟩
  have hquiet : st.loop = none → Quiet act → st'.loop = none := by
    intro hl hq
    rcases hq st st' hl hwp with hl' | hr
    · exact hl'
    · rw [hr] at hc'
      exact absurd hc' hc
  cases l with
  | silent d a =>
    simp only [action, Option.ite_none_right_eq_some, Option.some.injEq] at hact
    obtain ⟨-, rfl⟩ := hact
    rw [wp_setChild] at hwp
    rw [← hwp] at hc'
    exact absurd hc' hc
  | issue d type a noexcl =>
    simp only [action, Option.ite_none_right_eq_some, Option.some.injEq] at hact
    obtain ⟨-, rfl⟩ := hact
    rw [wp_change] at hwp
    rw [← hwp] at hc'
    by_cases hd : c = d
    · simp [State.setRequest, hd] at hc'
    · simp only [State.setRequest, Function.update_of_ne hd] at hc'
      exact absurd hc' hc
  | start d victim =>
    simp only [action] at hact
    split at hact
    · cases hact
    · next r hr =>
      simp only [Option.ite_none_right_eq_some, Option.some.injEq] at hact
      obtain ⟨⟨-, hl, -⟩, rfl⟩ := hact
      exact hquiet (Option.isNone_iff_eq_none.mp hl) (quiet_startAccess d r victim)
  | next dirtyBelow =>
    simp only [action] at hact
    split at hact
    · cases hact
    · cases hact
      exact invalidateNext_completed hwp hc hc'
  | answer s =>
    simp only [action] at hact
    split at hact
    · cases hact
    · next d stage hserving =>
      split at hact
      · cases hact
      · next r hr =>
        simp only [Option.ite_none_right_eq_some, Option.some.injEq] at hact
        obtain ⟨⟨hfree, -⟩, rfl⟩ := hact
        exact hquiet (bccFree_iff.mp hfree).1 (quiet_answer d r stage s)
  | inval type a =>
    simp only [action, Option.ite_none_right_eq_some, Option.some.injEq] at hact
    obtain ⟨⟨hfree, -⟩, rfl⟩ := hact
    exact hquiet (bccFree_iff.mp hfree).1
      (quiet_sendInvalidates _ _ _ (quiet_bottomInval a type))

end Completed

section Complete

variable {n c : ℕ} {st : State} {r : Request}

/-- What the race check makes of a waiting request. -/
structure Resolved (st : State) (c : ℕ) (r : Request) : Prop where
  /-- No assertion of the check fails. -/
  checked : ∃ skip type,
    checkForMESIRace r.type (st.child c r.lineAddr) r.initialState = .ok (skip, type)
  unraced : st.child c r.lineAddr = r.initialState →
    checkForMESIRace r.type (st.child c r.lineAddr) r.initialState = .ok (false, r.type)
  put_invalidated : r.type = .PUTS ∨ r.type = .PUTX → st.child c r.lineAddr = .I →
    checkForMESIRace r.type (st.child c r.lineAddr) r.initialState = .ok (true, r.type) ∧
      (st.entry r.lineAddr).sharers c = false
  putx_downgraded : r.type = .PUTX → st.child c r.lineAddr ≠ .M → st.child c r.lineAddr ≠ .I →
    checkForMESIRace r.type (st.child c r.lineAddr) r.initialState = .ok (false, .PUTS) ∧
      r.signalled = true
  getx_invalidated : r.type = .GETX → st.child c r.lineAddr = .I →
    checkForMESIRace r.type (st.child c r.lineAddr) r.initialState = .ok (false, .GETX) ∧
      (st.entry r.lineAddr).sharers c = false ∧
      ∀ victim, startAccess c r victim st = startAccess c { r with initialState := .I } victim st

/-- A child that no longer holds the line is no longer listed. -/
theorem unlisted (h : Inv n st) (hl : st.loop = none) {a : Address} (hI : st.child c a = .I) :
    (st.entry a).sharers c = false :=
  Bool.eq_false_of_not_eq_true fun hs =>
    ((h.agrees a (by simp [hl])).sharers_iff c).mp hs hI

theorem resolved (h : Inv n st) (hl : st.loop = none) (hr : st.request c = some r) :
    Resolved st c r := by
  have hok := h.requests c r hr
  obtain ⟨skip, type, hcheck, -⟩ := hok.checked
  refine ⟨⟨skip, type, hcheck⟩, fun hs => by simp [checkForMESIRace, hs],
    fun ht hI => ⟨?_, unlisted h hl hI⟩, fun ht hM hI => ?_, fun ht hI => ?_⟩
  · rcases hok.race with ⟨hs, -⟩ | ⟨-, -, -, hrace⟩ | ⟨hs, -⟩ | ⟨-, -, hgetx, -⟩
    · have hbuilt := hok.built
      rw [← hs, hI] at hbuilt
      rcases ht with ht | ht <;> simp [requestable, ht] at hbuilt
    · exact hrace
    · rw [hI] at hs
      cases hs
    · rcases ht with ht | ht <;> simp [ht] at hgetx
  · have hinit : r.initialState = .M := by
      have hbuilt := hok.built
      simpa [requestable, ht] using hbuilt
    refine ⟨?_, hok.signalled hinit hM⟩
    rcases hok.race with ⟨hs, -⟩ | ⟨hs, -⟩ | ⟨-, -, -, hrace⟩ | ⟨hs, -⟩
    · exact absurd (hs.trans hinit) hM
    · exact absurd hs hI
    · exact hrace
    · exact absurd hs hI
  · have hrace : checkForMESIRace r.type (st.child c r.lineAddr) r.initialState =
        .ok (false, .GETX) := by
      rcases hok.race with ⟨-, hrace⟩ | ⟨-, -, hput, -⟩ | ⟨-, -, hput, -⟩ | ⟨-, -, -, hrace⟩
      · rw [hrace, ht]
      · rcases hput with hput | hput <;> simp [ht] at hput
      · rcases hput with hput | hput <;> simp [ht] at hput
      · exact hrace
    refine ⟨hrace, unlisted h hl hI, fun victim => ?_⟩
    have hplain : checkForMESIRace r.type (st.child c r.lineAddr) .I = .ok (false, .GETX) := by
      simp [checkForMESIRace, hI, ht]
    have hobserve : ∀ (f : State → MESIState) (k : MESIState → Act Unit),
        (observe f >>= k) st = k (f st) st := fun _ _ => rfl
    simp only [startAccess, hobserve, hrace, hplain]
    cases victim <;> rfl

/-- In every interleaving no check of the parent fails, the race check resolves
every race as it means to, and the directory lists exactly the children that
hold a line unless an invalidation of the line is on its way, which it is not
when a request has been completed. -/
theorem races_resolved (n : ℕ) {ls : List Label} {res : Except Failure State}
    (hrun : run (step n) (.ok State.init) ls = some res) :
    ∃ st, res = .ok st ∧
      (∀ l res', step n (.ok st) l = some res' → ∃ st', res' = .ok st' ∧
        ∀ c, st.request c ≠ none → st'.request c = none → st'.loop = none) ∧
      (st.loop = none → ∀ c r, st.request c = some r → Resolved st c r) ∧
      ∀ a, (∀ l, st.loop = some l → l.lineAddr ≠ a) →
        (∀ c, (st.entry a).sharers c = true ↔ st.child c a ≠ .I) ∧
        (st.entry a).numSharers = sharerCount n (st.entry a).sharers ∧
        ∀ c, (st.child c a).exclusive = true ↔
          (st.entry a).isExclusive = true ∧ (st.entry a).sharers c = true := by
  obtain ⟨st, rfl, hinv⟩ := run_inv hrun
  refine ⟨st, rfl, fun l res' hs => ?_, fun hl c r hr => resolved hinv hl hr, fun a ha => ?_⟩
  · obtain ⟨st', rfl, -⟩ := step_inv hinv hs
    exact ⟨st', rfl, fun c => step_completed hs⟩
  · have hagree := hinv.agrees a ha
    refine ⟨hagree.sharers_iff, hagree.count, fun c => ⟨fun hx => ?_, fun hx => ?_⟩⟩
    · exact ⟨(hagree.exclusive_up c hx).2, (hagree.sharers_iff c).mpr (ne_I_of_exclusive hx)⟩
    · exact hagree.exclusive_down hx.1 c hx.2

/-- Child 1 reads what child 0 has written while child 0 is evicting it. -/
def downgradeRace : List Label :=
  [.issue 0 .GETX 5 false, .start 0 none, .answer .M, .issue 0 .PUTX 5 false,
    .issue 1 .GETS 5 false, .start 1 none, .next false, .next false, .next false]

theorem downgradeRace_resolved : ∃ st, run (step 2) (.ok State.init) downgradeRace = some (.ok st) ∧
    st.loop = none ∧ (st.request 0).isSome = true ∧ st.child 0 5 = .S ∧
    ∀ c r, st.request c = some r → Resolved st c r := by
  have hrun : ∃ res, run (step 2) (.ok State.init) downgradeRace = some res ∧
      ∃ st, res = .ok st ∧ st.loop = none ∧ (st.request 0).isSome = true ∧ st.child 0 5 = .S :=
    ⟨_, rfl, _, rfl, rfl, rfl, rfl⟩
  obtain ⟨res, hres, st, rfl, hl, hr, hS⟩ := hrun
  obtain ⟨st', hst, -, hresolved, -⟩ := races_resolved 2 hres
  cases hst
  exact ⟨st, hres, hl, hr, hS, hresolved hl⟩

end Complete

end Zsim.MESIRaceRuns
