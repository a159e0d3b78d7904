import Zsim.MESIRace

/-!
# The race protocol is complete

While no invalidations are being sent, the directory describes the children
exactly, whatever requests are waiting. While they are, it does once the
invalidations already sent are taken off the count. The state a waiting request
finds its line in is the one it was built in, less what invalidations and
downgrades have taken. From this every check of the parent succeeds in every
interleaving.
-/

namespace Zsim.MESIRaceSafety

open WeakestPre MemoryHierarchy MESIDirectory GuardedRuns MESIRace
open MESIControllers (checkForMESIRace)

/-- What invalidations can have done to the line of a request that waits. -/
structure RequestOk (r : Request) (s : MESIState) : Prop where
  built : requestable r.type r.initialState = true
  since : s = r.initialState ∨ (s = .I ∧ r.initialState ≠ .I) ∨
    (s = .S ∧ r.initialState.exclusive = true)
  /-- Dirty data does not leave a line unnoticed. -/
  signalled : r.initialState = .M → s ≠ .M → r.signalled = true

/-- The entry once the invalidations sent so far are accounted for. -/
def settled (l : Loop) (e : Entry) : Entry :=
  match l.type with
  | .INV => { e with numSharers := e.numSharers - l.sentInvs }
  | _ => if l.sentInvs = 0 then e else { e with exclusive := false }

/-- The children's states; a child that upgrades has left the directory. -/
def holders (l : Loop) (child : ℕ → MESIState) : ℕ → MESIState :=
  match l.purpose, l.type with
  | .grant c, .INV => Function.update child c .I
  | _, _ => child

/-- How far a loop has come. -/
def Progress (n : ℕ) (l : Loop) (e : Entry) : Prop :=
  match l.type with
  | .INV => e.numSharers = l.sentInvs + sharerCount n e.sharers ∧ e.numSharers ≠ 0 ∧
      ∀ c < l.next, e.sharers c = false
  | .INVX => e.numSharers = 1 ∧ e.exclusive = true ∧
      (l.sentInvs = 0 ∧ (∀ c < l.next, e.sharers c = false) ∨
        l.sentInvs = 1 ∧ ∀ c, l.next ≤ c → e.sharers c = false)
  | .FWD => False

/-- The request that is served, if it asks for a line. -/
def Asks (st : State) (c : ℕ) (type : AccessType) (a : Address) : Prop :=
  (type = .GETS ∨ type = .GETX) ∧ ∃ r, st.request c = some r ∧ r.type = type ∧ r.lineAddr = a

/-- What the access under the tcc lock relies on while it waits. -/
def StageOk (st : State) : Prop :=
  match st.serving with
  | none => True
  | some (c, .running) => ∃ l, st.loop = some l ∧ (l.purpose = .evict c ∨ l.purpose = .grant c)
  | some (c, .writingBack b) => ∃ type a, Asks st c type a ∧ st.own a = .I ∧ b ≠ a ∧
      (st.entry b).Vacant
  | some (c, .fetching) => ∃ type a, Asks st c type a ∧ (type = .GETS → st.own a = .I)

/-- What a loop is for. -/
def PurposeOk (st : State) (l : Loop) : Prop :=
  match l.purpose with
  | .evict c => l.type = .INV ∧ st.serving = some (c, .running) ∧
      ∃ type a, Asks st c type a ∧ st.own a = .I ∧ l.lineAddr ≠ a
  | .grant c => st.serving = some (c, .running) ∧
      (l.type = .INV ∧ Asks st c .GETX l.lineAddr ∧ (st.own l.lineAddr).exclusive = true ∨
        l.type = .INVX ∧ Asks st c .GETS l.lineAddr ∧ st.child c l.lineAddr = .I)
  | .inval => (∀ c, st.serving ≠ some (c, .running)) ∧
      invalidatable l.type (st.own l.lineAddr) = true

/-- The invariant of a running loop. -/
structure LoopOk (n : ℕ) (st : State) (l : Loop) : Prop where
  agrees : Agrees n (st.own l.lineAddr) (settled l (st.entry l.lineAddr))
    (holders l fun c => st.child c l.lineAddr)
  progress : Progress n l (st.entry l.lineAddr)
  writeback : l.writeback = true → (st.own l.lineAddr).exclusive = true
  purpose : PurposeOk st l

/-- The invariant of the parent and its children. -/
structure Inv (n : ℕ) (st : State) : Prop where
  agrees : ∀ a, (∀ l, st.loop = some l → l.lineAddr ≠ a) →
    Agrees n (st.own a) (st.entry a) fun c => st.child c a
  requests : ∀ c r, st.request c = some r → RequestOk r (st.child c r.lineAddr)
  loop : ∀ l, st.loop = some l → LoopOk n st l
  stage : StageOk st
  /-- Requests come from children of the parent. -/
  requester : ∀ c r, st.request c = some r → c < n

section Requests

variable {r : Request} {s : MESIState} {a : Address}

/-- The race check never fails, and this is what it makes of a request. -/
theorem RequestOk.race (h : RequestOk r s) :
    (s = r.initialState ∧ checkForMESIRace r.type s r.initialState = .ok (false, r.type)) ∨
    (s = .I ∧ r.initialState ≠ .I ∧ (r.type = .PUTS ∨ r.type = .PUTX) ∧
      checkForMESIRace r.type s r.initialState = .ok (true, r.type)) ∨
    (s = .S ∧ r.initialState.exclusive = true ∧ (r.type = .PUTS ∨ r.type = .PUTX) ∧
      checkForMESIRace r.type s r.initialState = .ok (false, .PUTS)) ∨
    (s = .I ∧ r.initialState = .S ∧ r.type = .GETX ∧
      checkForMESIRace r.type s r.initialState = .ok (false, .GETX)) := by
  obtain ⟨type, a, initial, noexcl, signalled⟩ := r
  have hbuilt := h.built
  have hsince := h.since
  clear h
  revert hbuilt hsince
  cases type <;> cases initial <;> cases s <;>
    simp [requestable, checkForMESIRace, MESIState.exclusive]

/-- An invalidation of the line takes away what the check allows for, and tells
the parent if the line was dirty. -/
theorem RequestOk.inv (h : RequestOk r s) {type : InvType} (hI : s ≠ .I) (hF : type ≠ .FWD)
    (hX : type = .INVX → s.exclusive = true) (dirtyBelow : Bool) :
    RequestOk (r.signal r.lineAddr (s == .M || (dirtyBelow && s.exclusive))) (invState type s) := by
  obtain ⟨rtype, a, initial, noexcl, signalled⟩ := r
  obtain ⟨hbuilt, hsince, hsig⟩ := h
  simp only [Request.signal, if_true]
  refine ⟨hbuilt, ?_, ?_⟩
  · dsimp only at hsince ⊢
    cases type
    · revert hsince
      cases s <;> cases initial <;> simp_all [invState]
    · revert hsince
      cases s <;> cases initial <;> simp_all [invState]
    · exact absurd rfl hF
  · dsimp only at hsig ⊢
    intro hM _
    by_cases hs : s = .M
    · simp [hs]
    · simp [hsig hM hs]

end Requests

/-- Without a loop, agreement everywhere but at one address. -/
structure Apart (n : ℕ) (a : Address) (st : State) : Prop where
  agrees : ∀ b, b ≠ a → Agrees n (st.own b) (st.entry b) fun c => st.child c b
  requests : ∀ c r, st.request c = some r → RequestOk r (st.child c r.lineAddr)
  requester : ∀ c r, st.request c = some r → c < n
  loop : st.loop = none

section Serving

variable {n c : ℕ} {a b : Address} {st st' : State} {r : Request} {e : Entry} {wb : Bool}
  {Q : Unit → State → Prop}

theorem Inv.apart (h : Inv n st) (hl : st.loop = none) (a : Address) : Apart n a st :=
  ⟨fun b _ => h.agrees b (by simp [hl]), h.requests, h.requester, hl⟩

theorem Apart.inv (h : Apart n a st) (ha : Agrees n (st.own a) (st.entry a) fun c => st.child c a)
    (hs : StageOk st) : Inv n st where
  agrees b _ := by
    by_cases hb : b = a
    · exact hb ▸ ha
    · exact h.agrees b hb
  requests := h.requests
  loop l hl := by
    rw [h.loop] at hl
    cases hl
  stage := hs
  requester := h.requester

/-- The end of an access: the address agrees again and the request is gone. -/
theorem Apart.close (h : Apart n a st) (hown : ∀ b, b ≠ a → st'.own b = st.own b)
    (hentry : ∀ b, b ≠ a → st'.entry b = st.entry b)
    (hchild : ∀ d b, d ≠ c ∨ b ≠ a → st'.child d b = st.child d b)
    (hreq : st'.request = Function.update st.request c none) (hserving : st'.serving = none)
    (hloop : st'.loop = st.loop)
    (ha : Agrees n (st'.own a) (st'.entry a) fun d => st'.child d a) : Inv n st' := by
  have hother : ∀ d r, st'.request d = some r → d ≠ c ∧ st.request d = some r := by
    intro d r hr
    rw [hreq] at hr
    have hd : d ≠ c := by
      rintro rfl
      rw [Function.update_self] at hr
      cases hr
    rw [Function.update_of_ne hd] at hr
    exact ⟨hd, hr⟩
  have happ : Apart n a st' := by
    refine ⟨fun b hb => ?_, fun d r hr => ?_, fun d r hr => h.requester d r (hother d r hr).2,
      hloop.trans h.loop⟩
    · rw [hown b hb, hentry b hb]
      simp only [hchild _ b (.inr hb)]
      exact h.agrees b hb
    · obtain ⟨hd, hr⟩ := hother d r hr
      rw [hchild d _ (.inl hd)]
      exact h.requests d r hr
  exact happ.inv ha (by simp [StageOk, hserving])

/-- The states of one address after a child's state has been written. -/
theorem child_column (child : ℕ → Address → MESIState) (c : ℕ) (a : Address) (s : MESIState) :
    (fun d => Function.update child c (Function.update (child c) a s) d a) =
      Function.update (fun d => child d a) c s := by
  funext d
  by_cases hd : d = c
  · simp [hd]
  · simp [Function.update_of_ne hd]

theorem child_other (child : ℕ → Address → MESIState) (s : MESIState) {d : ℕ}
    (h : d ≠ c ∨ b ≠ a) :
    Function.update child c (Function.update (child c) a s) d b = child d b := by
  by_cases hd : d = c
  · subst hd
    rw [Function.update_self, Function.update_of_ne (h.resolve_left (by simp))]
  · rw [Function.update_of_ne hd]

theorem removeSharer_spec (h : Apart n a st)
    (ha : Agrees n (st.own a) (st.entry a) fun d => st.child d a) (hc : st.child c a ≠ .I) :
    wp (removeSharer c a) (fun _ => Inv n) st := by
  simp only [removeSharer, wp_bind, wp_observe, wp_ensure, wp_setEntry, wp_setChild, wp_endAccess]
  refine ⟨(ha.sharers_iff c).mpr hc, h.close (c:=c) (fun _ _ => rfl)
    (fun b hb => Function.update_of_ne hb _ _) (fun d b hd => child_other st.child .I hd) rfl rfl rfl ?_⟩
  simp only [State.setRequest, Function.update_self, child_column]
  exact ha.put hc

/-- The parent's own state after a writeback induced by the loop. -/
theorem processWritebackOnAccess_spec (hwb : wb = true → (st.own a).exclusive = true)
    (hQ : ∀ s, ((st.own a).exclusive = true → s.exclusive = true) → (st.own a ≠ .I → s ≠ .I) →
      Q () { st with own := Function.update st.own a s }) :
    wp (processWritebackOnAccess a wb) Q st := by
  unfold processWritebackOnAccess
  rw [wp_ite]
  split
  · next h =>
    simp only [wp_bind, wp_observe, wp_ensure, wp_setOwn]
    exact ⟨hwb h, hQ .M (fun _ => rfl) fun _ h => by cases h⟩
  · have hsame := hQ (st.own a) id id
    rw [Function.update_eq_self] at hsame
    rwa [wp_pure]

theorem grantShared_spec (h : Apart n a st)
    (ha : Agrees n (st.own a) (st.entry a) fun d => st.child d a)
    (hx : (st.entry a).isExclusive = false) (hown : st.own a ≠ .I) (hc : c < n)
    (hI : st.child c a = .I) (hwb : wb = true → (st.own a).exclusive = true) :
    wp (grantShared c a wb) (fun _ => Inv n) st := by
  simp only [grantShared, wp_bind, wp_observe, wp_ensure, wp_setEntry, wp_setChild, wp_endAccess]
  refine ⟨hx, processWritebackOnAccess_spec hwb fun s hsx hs => ?_⟩
  refine h.close (c:=c) (fun b hb => Function.update_of_ne hb _ _)
    (fun b hb => Function.update_of_ne hb _ _) (fun d b hd => child_other st.child .S hd) rfl rfl rfl ?_
  simp only [State.setRequest, Function.update_self, child_column]
  have hshared := ha.getsShared hx hown hc hI
  exact hshared.changeOwn (fun _ _ => hs hown) fun d hd => hsx (hshared.exclusive_up d hd).1

theorem grantExclusive_spec (h : Apart n a st) (hown : (st.own a).exclusive = true)
    (hv : (st.entry a).Vacant) (hc : c < n) (hothers : ∀ d, d ≠ c → st.child d a = .I) :
    wp (grantExclusive c a wb) (fun _ => Inv n) st := by
  simp only [grantExclusive, wp_bind, wp_observe, wp_ensure, wp_setEntry, wp_setChild, wp_endAccess]
  refine ⟨by rw [hv.1], processWritebackOnAccess_spec (fun _ => hown) fun s hsx hs => ?_⟩
  refine h.close (c:=c) (fun b hb => Function.update_of_ne hb _ _)
    (fun b hb => Function.update_of_ne hb _ _) (fun d b hd => child_other st.child .M hd) rfl rfl rfl ?_
  simp only [State.setRequest, Function.update_self, child_column]
  exact Agrees.getx hv (hsx hown) hc hothers

theorem sendInvalidates_spec {purpose : Purpose} {type : InvType} {next : Bool → Act Unit}
    (hskip : (type = .INVX ∧ (st.entry a).isExclusive = false) ∨ (st.entry a).isEmpty = true →
      wp (next false) Q st)
    (hloop : (type = .INVX → (st.entry a).isExclusive = true) → (st.entry a).isEmpty = false →
      Q () { st with loop := some ⟨purpose, a, type, 0, 0, false⟩ }) :
    wp (sendInvalidates purpose a type next) Q st := by
  simp only [sendInvalidates, wp_bind, wp_observe, wp_ite, wp_setLoop]
  split
  · next h => exact hskip h
  · next h =>
    rw [not_or, not_and, Bool.not_eq_false, Bool.not_eq_true] at h
    exact hloop h.1 h.2

/-- A loop begins with nothing sent. -/
theorem Apart.begin {purpose : Purpose} {type : InvType} (h : Apart n a st)
    (ha : Agrees n (st.own a) (st.entry a)
      (holders ⟨purpose, a, type, 0, 0, false⟩ fun d => st.child d a))
    (hx : type = .INVX → (st.entry a).isExclusive = true) (hne : (st.entry a).isEmpty = false)
    (hF : type ≠ .FWD) (hp : PurposeOk st ⟨purpose, a, type, 0, 0, false⟩)
    (hs : StageOk { st with loop := some ⟨purpose, a, type, 0, 0, false⟩ }) :
    Inv n { st with loop := some ⟨purpose, a, type, 0, 0, false⟩ } where
  agrees b hb := h.agrees b fun hba => hb _ rfl hba.symm
  requests := h.requests
  loop l hl := by
    cases hl
    have hprogress : Progress n ⟨purpose, a, type, 0, 0, false⟩ (st.entry a) := by
      cases type with
      | INV =>
        have hnum : (st.entry a).numSharers ≠ 0 := by simpa [Entry.isEmpty] using hne
        exact ⟨by simpa using ha.count, hnum, fun _ hd => absurd hd (Nat.not_lt_zero _)⟩
      | INVX =>
        obtain ⟨hone, hexcl⟩ := (isExclusive_iff _).mp (hx rfl)
        exact ⟨hone, hexcl, .inl ⟨rfl, fun _ hd => absurd hd (Nat.not_lt_zero _)⟩⟩
      | FWD => exact absurd rfl hF
    refine ⟨?_, hprogress, by simp, hp⟩
    cases type <;> exact ha
  stage := hs
  requester := h.requester

/-- An access that holds both locks, with nothing pending. -/
structure Running (n c : ℕ) (r : Request) (st : State) : Prop where
  apart : Apart n r.lineAddr st
  agrees : Agrees n (st.own r.lineAddr) (st.entry r.lineAddr) fun d => st.child d r.lineAddr
  serving : st.serving = some (c, .running)
  lt : c < n
  /-- The race check has made the request one for the present state. -/
  fresh : requestable r.type (st.child c r.lineAddr) = true
  asks : r.type = .GETS ∨ r.type = .GETX → Asks st c r.type r.lineAddr

theorem gets_spec (h : Running n c r st) (ht : r.type = .GETS) (hown : st.own r.lineAddr ≠ .I) :
    wp (topAccess c r) (fun _ => Inv n) st := by
  have hI : st.child c r.lineAddr = .I := by simpa [requestable, ht] using h.fresh
  have hs : (st.entry r.lineAddr).sharers c = false :=
    Bool.eq_false_of_not_eq_true fun hs => (h.agrees.sharers_iff c).mp hs hI
  simp only [topAccess, wp_bind, wp_observe, ht, wp_ite]
  split
  · next he =>
    simp only [wp_setEntry, wp_setChild, wp_endAccess]
    refine h.apart.close (c:=c) (fun _ _ => rfl) (fun b hb => Function.update_of_ne hb _ _)
      (fun d b hd => child_other st.child .E hd) rfl rfl rfl ?_
    simp only [State.setRequest, Function.update_self, child_column]
    exact h.agrees.getsExclusive he.1 he.2.1 h.lt
  · rw [wp_ensure]
    refine ⟨hs, ?_⟩
    split
    · next hx =>
      refine sendInvalidates_spec (fun hskip => ?_) fun _ hne => ?_
      · obtain ⟨hone, -⟩ := (isExclusive_iff _).mp hx
        rcases hskip with ⟨-, hnx⟩ | hempty
        · rw [hnx] at hx
          cases hx
        · rw [Entry.isEmpty, hone] at hempty
          cases hempty
      · have hask := h.asks (.inl ht)
        rw [ht] at hask
        exact h.apart.begin h.agrees (fun _ => hx) hne (by simp) ⟨h.serving, .inr ⟨rfl, hask, hI⟩⟩
          (by simp [StageOk, h.serving])
    · next hx =>
      exact grantShared_spec h.apart h.agrees (Bool.eq_false_of_not_eq_true hx) hown h.lt hI (by simp)

theorem getx_spec (h : Running n c r st) (ht : r.type = .GETX)
    (hown : (st.own r.lineAddr).exclusive = true) : wp (topAccess c r) (fun _ => Inv n) st := by
  have hask := h.asks (.inr ht)
  rw [ht] at hask
  -- the directory without the upgrading child, whatever its state
  have hsend : ∀ e : Entry,
      Agrees n (st.own r.lineAddr) e (Function.update (fun d => st.child d r.lineAddr) c .I) →
      wp (sendInvalidates (.grant c) r.lineAddr .INV (grantExclusive c r.lineAddr)) (fun _ => Inv n)
        { st with entry := Function.update st.entry r.lineAddr e } := by
    intro e he
    have happ : Apart n r.lineAddr { st with entry := Function.update st.entry r.lineAddr e } :=
      ⟨fun b hb => by
        simp only [Function.update_of_ne hb]
        exact h.apart.agrees b hb, h.apart.requests, h.apart.requester, h.apart.loop⟩
    refine sendInvalidates_spec (fun hskip => ?_) fun _ hne => ?_
    · have hempty : e.isEmpty = true := by simpa using hskip
      have hv := he.vacant_of_isEmpty hempty
      refine grantExclusive_spec happ hown (by simpa using hv) h.lt fun d hd => ?_
      simpa [Function.update_of_ne hd] using he.child_I_of_vacant hv d
    · refine happ.begin (by simpa [holders] using he) (by simp) hne (by simp)
        ⟨h.serving, .inl ⟨rfl, hask, hown⟩⟩ (by simp [StageOk, h.serving])
  simp only [topAccess, wp_bind, wp_observe, ht, wp_ensure, wp_ite, wp_setEntry, wp_pure]
  refine ⟨hown, ?_⟩
  split
  · next hs =>
    have hS : st.child c r.lineAddr = .S := by
      have hfresh := h.fresh
      have hne := (h.agrees.sharers_iff c).mp hs
      simpa [requestable, ht, hne] using hfresh
    refine ⟨Bool.eq_false_of_not_eq_true fun hx => ?_, hsend _ (h.agrees.put (hS ▸ (by simp)))⟩
    have hexcl := h.agrees.exclusive_down hx c hs
    rw [hS] at hexcl
    cases hexcl
  · next hs =>
    have hI : st.child c r.lineAddr = .I := by
      by_contra hne
      exact hs ((h.agrees.sharers_iff c).mpr hne)
    have hsame := hsend (st.entry r.lineAddr) (by
      rw [show MESIState.I = (fun d => st.child d r.lineAddr) c from hI.symm,
        Function.update_eq_self]
      exact h.agrees)
    rwa [Function.update_eq_self] at hsame

theorem put_spec (h : Running n c r st) (ht : r.type = .PUTS ∨ r.type = .PUTX) :
    wp (topAccess c r) (fun _ => Inv n) st := by
  have hfresh := h.fresh
  rcases ht with ht | ht
  · have hne : st.child c r.lineAddr ≠ .I := by
      intro hI
      simp [requestable, ht, hI] at hfresh
    simp only [topAccess, wp_bind, wp_observe, ht]
    exact removeSharer_spec h.apart h.agrees hne
  · have hM : st.child c r.lineAddr = .M := by simpa [requestable, ht] using hfresh
    simp only [topAccess, wp_bind, wp_observe, ht, wp_ensure]
    exact ⟨(h.agrees.exclusive_up c (by simp [hM])).2,
      removeSharer_spec h.apart h.agrees (by simp [hM])⟩

/-- A state of the parent that still covers the children may replace its own. -/
theorem Running.setOwn (h : Running n c r st) {s : MESIState}
    (hs : Agrees n s (st.entry b) fun d => st.child d b) :
    Running n c r { st with own := Function.update st.own b s } := by
  have hall : ∀ x, Agrees n (st.own x) (st.entry x) (fun d => st.child d x) →
      Agrees n (Function.update st.own b s x) (st.entry x) fun d => st.child d x := by
    intro x hx
    by_cases hxb : x = b
    · subst hxb
      rwa [Function.update_self]
    · rwa [Function.update_of_ne hxb]
  exact ⟨⟨fun x hx => hall x (h.apart.agrees x hx), h.apart.requests, h.apart.requester,
    h.apart.loop⟩, hall _ h.agrees, h.serving, h.lt, h.fresh, h.asks⟩

/-- The parent waits for its line with the access's request kept. -/
theorem Running.fetching (h : Running n c r st) (ht : r.type = .GETS ∨ r.type = .GETX)
    (hI : r.type = .GETS → st.own r.lineAddr = .I) :
    Inv n { st with serving := some (c, .fetching) } :=
  Apart.inv (a:=r.lineAddr)
    ⟨h.apart.agrees, h.apart.requests, h.apart.requester, h.apart.loop⟩ h.agrees
    ⟨r.type, r.lineAddr, h.asks ht, hI⟩

theorem processAccess_spec (h : Running n c r st) :
    wp (processAccess c r) (fun _ => Inv n) st := by
  have hfresh := h.fresh
  simp only [processAccess, wp_bind, wp_observe]
  cases ht : r.type with
  | PUTS =>
    have hne : st.child c r.lineAddr ≠ .I := by
      intro hI
      simp [requestable, ht, hI] at hfresh
    rw [wp_bind, wp_ensure]
    exact ⟨h.agrees.valid c hne, put_spec h (.inl ht)⟩
  | PUTX =>
    have hM : st.child c r.lineAddr = .M := by simpa [requestable, ht] using hfresh
    have hx := (h.agrees.exclusive_up c (by simp [hM])).1
    simp only [wp_bind, wp_ensure, wp_setOwn]
    exact ⟨ne_I_of_exclusive hx, hx,
      put_spec (h.setOwn (h.agrees.upgradeOwn (by simp) fun _ => rfl)) (.inr ht)⟩
  | GETS =>
    simp only [wp_ite, wp_setServing]
    split
    · next hI => exact h.fetching (.inl ht) fun _ => hI
    · next hI => exact gets_spec h ht hI
  | GETX =>
    simp only [wp_bind, wp_ite, wp_setServing, wp_setOwn]
    split
    · exact h.fetching (.inr ht) fun hg => by
        rw [ht] at hg
        cases hg
    · exact getx_spec (h.setOwn (h.agrees.upgradeOwn (by simp) fun _ => rfl)) ht (by simp)

/-- The victim is gone from every cache: its line is free for the request. -/
theorem insert_spec (h : Running n c r st) (ha : st.own r.lineAddr = .I) (hb : st.own b = .I)
    (hv : (st.entry b).Vacant) (hba : b ≠ r.lineAddr) :
    wp (insert c r b) (fun _ => Inv n) st := by
  have hchild : ∀ x, st.own x = .I → ∀ d, st.child d x = .I := by
    intro x hx d
    have hagree : Agrees n (st.own x) (st.entry x) fun d => st.child d x := by
      by_cases hxa : x = r.lineAddr
      · exact hxa ▸ h.agrees
      · exact h.apart.agrees x hxa
    rw [hx] at hagree
    exact hagree.child_I_of_own_I d
  simp only [MESIRace.insert, wp_bind, wp_change]
  refine processAccess_spec ⟨⟨fun x hx => ?_, h.apart.requests, h.apart.requester, h.apart.loop⟩,
    ?_, h.serving, h.lt, h.fresh, h.asks⟩
  · by_cases hxb : x = b
    · subst hxb
      simp only [State.reuseLine, Function.update_self]
      exact .vacant _ clear_vacant (hchild x hb)
    · simp only [State.reuseLine, Function.update_of_ne hxb, Function.update_of_ne hx]
      exact h.apart.agrees x hx
  · simp only [State.reuseLine, Function.update_of_ne (Ne.symm hba), Function.update_self]
    exact .vacant _ hv (hchild _ ha)

/-- A vacant line can take any state. -/
theorem Running.agrees_vacant (h : Running n c r st) (hv : (st.entry b).Vacant)
    (s : MESIState) : Agrees n s (st.entry b) fun d => st.child d b := by
  refine .vacant s hv fun d => ?_
  by_cases hba : b = r.lineAddr
  · rw [hba] at hv ⊢
    exact h.agrees.child_I_of_vacant hv d
  · exact (h.apart.agrees b hba).child_I_of_vacant hv d

theorem bottomEviction_spec (h : Running n c r st) (ht : r.type = .GETS ∨ r.type = .GETX)
    (ha : st.own r.lineAddr = .I) (hv : (st.entry b).Vacant) (hba : b ≠ r.lineAddr)
    (hwb : wb = true → (st.own b).exclusive = true) :
    wp (bottomEviction c r b wb) (fun _ => Inv n) st := by
  have hrest : ∀ s, wp (do
      let s ← observe fun st : State => st.own b
      if s = .I then insert c r b else setServing c (.writingBack b)) (fun _ => Inv n)
      { st with own := Function.update st.own b s } := by
    intro s
    have hrun := h.setOwn (h.agrees_vacant hv s)
    have ha' : Function.update st.own b s r.lineAddr = .I := by
      rwa [Function.update_of_ne (Ne.symm hba)]
    simp only [wp_bind, wp_observe, wp_ite, wp_setServing]
    split
    · next hI => exact insert_spec hrun ha' hI hv hba
    · refine Apart.inv (a:=r.lineAddr) ⟨hrun.apart.agrees, hrun.apart.requests,
        hrun.apart.requester, hrun.apart.loop⟩ hrun.agrees ?_
      exact ⟨r.type, r.lineAddr, h.asks ht, ha', hba, hv⟩
  have hsame := hrest (st.own b)
  rw [Function.update_eq_self] at hsame
  rw [bottomEviction, wp_bind, wp_ite]
  split
  · next hw =>
    simp only [wp_bind, wp_observe, wp_ensure, wp_setOwn]
    exact ⟨hwb hw, by simpa only [wp_bind, wp_observe] using hrest .M⟩
  · rw [wp_pure]
    exact hsame

/-- What the race check lets through is a request for the present state. -/
theorem RequestOk.checked {s : MESIState} (h : RequestOk r s) :
    ∃ skip type, checkForMESIRace r.type s r.initialState = .ok (skip, type) ∧
      (skip = false → requestable type s = true ∧
        (type = .GETS ∨ type = .GETX → r.type = type)) := by
  rcases h.race with ⟨hs, hcheck⟩ | ⟨-, -, -, hcheck⟩ | ⟨hs, -, -, hcheck⟩ | ⟨hs, -, ht, hcheck⟩
  · exact ⟨_, _, hcheck, fun _ => ⟨hs ▸ h.built, fun _ => rfl⟩⟩
  · exact ⟨_, _, hcheck, by simp⟩
  · exact ⟨_, _, hcheck, fun _ => ⟨by simp [requestable, hs], fun hg => by simp at hg⟩⟩
  · exact ⟨_, _, hcheck, fun _ => ⟨by simp [requestable, hs], fun _ => ht⟩⟩

/-- A request for a line stays one for the present state. -/
theorem RequestOk.get {s : MESIState} (h : RequestOk r s) (ht : r.type = .GETS ∨ r.type = .GETX) :
    requestable r.type s = true := by
  obtain ⟨skip, type, hcheck, hfresh⟩ := h.checked
  rcases h.race with ⟨hs, -⟩ | ⟨-, -, hput, -⟩ | ⟨-, -, hput, -⟩ | ⟨hs, -, hgetx, -⟩
  · exact hs ▸ h.built
  · rcases ht with ht | ht <;> simp [ht] at hput
  · rcases ht with ht | ht <;> simp [ht] at hput
  · simp [requestable, hs, hgetx]

theorem Inv.running (h : Inv n st) (hl : st.loop = none) (hc : c < n)
    (hfresh : requestable r.type (st.child c r.lineAddr) = true)
    (hasks : r.type = .GETS ∨ r.type = .GETX → Asks st c r.type r.lineAddr) :
    Running n c r { st with serving := some (c, .running) } where
  apart := ⟨fun b _ => h.agrees b (by simp [hl]), h.requests, h.requester, hl⟩
  agrees := h.agrees _ (by simp [hl])
  serving := rfl
  lt := hc
  fresh := hfresh
  asks := hasks

theorem startAccess_spec {victim : Option Address} (h : Inv n st) (hr : st.request c = some r)
    (hl : st.loop = none) (hvictim : ∀ b ∈ victim, st.own r.lineAddr = .I ∧ b ≠ r.lineAddr) :
    wp (startAccess c r victim) (fun _ => Inv n) st := by
  have hc := h.requester c r hr
  obtain ⟨skip, type, hcheck, hfresh⟩ := (h.requests c r hr).checked
  simp only [startAccess, wp_bind, wp_observe, hcheck]
  cases skip with
  | true =>
    simp only [wp_endAccess]
    exact (h.apart hl r.lineAddr).close (c:=c) (fun _ _ => rfl) (fun _ _ => rfl) (fun _ _ _ => rfl)
      rfl rfl rfl (h.agrees _ (by simp [hl]))
  | false =>
    obtain ⟨hreq, htype⟩ := hfresh rfl
    have hrun : Running n c { r with type := type } { st with serving := some (c, .running) } :=
      h.running hl hc hreq fun hg => ⟨hg, r, hr, htype hg, rfl⟩
    simp only [wp_bind, wp_setServing]
    cases victim with
    | none => exact processAccess_spec hrun
    | some b =>
      obtain ⟨hI, hba⟩ := hvictim b rfl
      have hg : type = .GETS ∨ type = .GETX := by
        have hcI : st.child c r.lineAddr = .I := by
          have hagree := hrun.agrees
          rw [show (State.own _ _ : MESIState) = .I from hI] at hagree
          exact hagree.child_I_of_own_I c
        rw [hcI] at hreq
        revert hreq
        cases type <;> simp [requestable]
      have hb := hrun.apart.agrees b hba
      simp only [wp_bind, wp_ensure]
      refine ⟨hg, sendInvalidates_spec (fun hskip => ?_) fun _ hne => ?_⟩
      · have hempty : (st.entry b).isEmpty = true := by simpa using hskip
        exact bottomEviction_spec hrun hg hI (hb.vacant_of_isEmpty hempty) hba (by simp)
      · refine Apart.begin (a:=b) ⟨fun x _ => h.agrees x (by simp [hl]), h.requests, h.requester, hl⟩
          hb (by simp) hne (by simp) ⟨rfl, rfl, type, r.lineAddr, hrun.asks hg, hI, hba⟩ ?_
        exact ⟨_, rfl, .inl rfl⟩

theorem Asks.request {type : AccessType} (h : Asks st c type a) (hr : st.request c = some r) :
    r.type = type ∧ r.lineAddr = a := by
  obtain ⟨-, r', hr', htype, haddr⟩ := h
  rw [hr] at hr'
  cases hr'
  exact ⟨htype, haddr⟩

theorem answer_spec {stage : Stage} {s : MESIState} (h : Inv n st) (hr : st.request c = some r)
    (hl : st.loop = none) (hserving : st.serving = some (c, stage))
    (hs : stage = .fetching → answerable r.type s = true) :
    wp (answer c r stage s) (fun _ => Inv n) st := by
  have hc := h.requester c r hr
  have hrun : r.type = .GETS ∨ r.type = .GETX →
      Running n c r { st with serving := some (c, .running) } := fun ht =>
    h.running hl hc ((h.requests c r hr).get ht) fun _ => ⟨ht, r, hr, rfl, rfl⟩
  have hstage := h.stage
  rw [StageOk, hserving] at hstage
  cases stage with
  | running =>
    simp only [answer, wp_pure]
    exact h
  | writingBack b =>
    obtain ⟨type, a, hask, hI, hba, hv⟩ := hstage
    obtain ⟨rfl, rfl⟩ := hask.request hr
    simp only [answer, wp_bind, wp_setOwn, wp_setServing]
    have hrun' := (hrun hask.1).setOwn ((hrun hask.1).agrees_vacant hv .I)
    exact insert_spec hrun' (by simpa [Function.update_of_ne (Ne.symm hba)] using hI) (by simp) hv hba
  | fetching =>
    obtain ⟨type, a, hask, hI⟩ := hstage
    obtain ⟨rfl, rfl⟩ := hask.request hr
    have hans := hs rfl
    simp only [answer, wp_bind, wp_setOwn, wp_setServing]
    rcases hask.1 with ht | ht
    · have hnone : ∀ d, st.child d r.lineAddr = .I := by
        have hagree := (hrun hask.1).agrees
        rw [show (State.own _ _ : MESIState) = .I from hI ht] at hagree
        exact hagree.child_I_of_own_I
      have hne : s ≠ .I := by
        rintro rfl
        simp [answerable, ht] at hans
      refine gets_spec ((hrun hask.1).setOwn ?_) ht (by simpa using hne)
      exact (hrun hask.1).agrees.changeOwn (fun _ _ => hne) fun d hd => by
        rw [hnone d] at hd
        cases hd
    · have hM : s = .M := by simpa [answerable, ht] using hans
      subst hM
      exact getx_spec ((hrun hask.1).setOwn ((hrun hask.1).agrees.upgradeOwn (by simp) fun _ => rfl))
        ht (by simp)

/-- The parent's own line follows its children. -/
theorem bottomInval_spec {type : InvType} (h : Inv n st) (hl : st.loop = none)
    (hinv : invalidatable type (st.own a) = true)
    (hI : type = .INV → ∀ d, st.child d a = .I)
    (hX : type = .INVX → ∀ d, (st.child d a).exclusive = false) :
    wp (bottomInval a type) (fun _ => Inv n) st := by
  have hne : st.own a ≠ .I := by
    intro hown
    rw [hown] at hinv
    cases type <;> cases hinv
  have hagree := h.agrees a (by simp [hl])
  simp only [bottomInval, wp_bind, wp_observe, wp_ensure, wp_setOwn]
  refine ⟨hne, fun ht => by rwa [ht] at hinv, Apart.inv (a:=a) ⟨fun b hb => ?_, h.requests,
    h.requester, hl⟩ ?_ ?_⟩
  · simp only [Function.update_of_ne hb]
    exact h.agrees b (by simp [hl])
  · simp only [Function.update_self]
    cases type with
    | INV =>
      refine hagree.changeOwn (fun d hd => absurd (hI rfl d) hd) fun d hd => ?_
      rw [hI rfl d] at hd
      cases hd
    | INVX =>
      refine hagree.changeOwn (fun _ _ => ?_) fun d hd => ?_
      · rw [invState, if_pos (by rwa [invalidatable] at hinv)]
        simp
      · rw [hX rfl d] at hd
        cases hd
    | FWD => cases hinv
  · have hkeep : ∀ b, st.own b = .I → Function.update st.own a (invState type (st.own a)) b = .I := by
      intro b hb
      rwa [Function.update_of_ne]
      rintro rfl
      exact hne hb
    have hstage := h.stage
    unfold StageOk at hstage ⊢
    dsimp only
    split at hstage
    · trivial
    · exact hstage
    · obtain ⟨type, x, hask, hx, hrest⟩ := hstage
      exact ⟨type, x, hask, hkeep x hx, hrest⟩
    · obtain ⟨type, x, hask, hx⟩ := hstage
      exact ⟨type, x, hask, fun ht => hkeep x (hx ht)⟩

end Serving

end Zsim.MESIRaceSafety
