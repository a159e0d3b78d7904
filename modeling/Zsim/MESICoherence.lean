import Zsim.MESIInvalidation

/-!
# Coherent states of a cache tree

Coherence is the directory agreement of every cache with its children, for
every address, together with sound lines. Dirtiness of an address means that
some cache holds it in M. This file gives the moves that keep a state coherent:
a silent upgrade to M, the exchange of an invalid line for a new address, the
invalidations of an eviction, and the grant that closes every access. A state
may be coherent but for one address at one cache while an upgrade is served.
-/

namespace Zsim.MESICoherence

open WeakestPre MemoryHierarchy CacheArrays MESIDirectory MESIControllers MESIInvalidation

variable {σ : Type}

/-- Every cache is sound and its directory describes its children. -/
structure Coherent (t : Hierarchy σ) (F : Faithful t.array) (w : World σ) : Prop where
  lines : ∀ p, LinesOk F (w.cache p)
  edges : ∀ p a, EdgeOk t w p a

/-- Coherent everywhere but for one address at one cache. -/
structure CoherentBut (t : Hierarchy σ) (F : Faithful t.array) (p : CachePath) (a : Address)
    (w : World σ) : Prop where
  lines : ∀ q, LinesOk F (w.cache q)
  edges : ∀ q b, (q = p → b ≠ a) → EdgeOk t w q b

/-- Some cache holds the address in M. -/
def Dirty (t : Hierarchy σ) (w : World σ) (a : Address) : Prop := ∃ q, stateAt t w q a = .M

/-- No dirty address is forgotten: it stays dirty or the memory has received
its data. Nothing but dirty writebacks is logged in between. -/
def KeepsDirty (t : Hierarchy σ) (w w' : World σ) : Prop :=
  ∃ l : List Address, w'.log = w.log ++ l.map .memPutx ∧
    ∀ a, Dirty t w a → Dirty t w' a ∨ a ∈ l

section Dirtiness

variable {t : Hierarchy σ} {w w₁ w₂ : World σ}

theorem KeepsDirty.of_log (hlog : w₁.log = w.log)
    (h : ∀ a, Dirty t w a → Dirty t w₁ a) : KeepsDirty t w w₁ :=
  ⟨[], by simpa using hlog, fun a ha => .inl (h a ha)⟩

theorem KeepsDirty.refl (w : World σ) : KeepsDirty t w w := .of_log rfl fun _ => id

theorem KeepsDirty.trans (h₁ : KeepsDirty t w w₁) (h₂ : KeepsDirty t w₁ w₂) :
    KeepsDirty t w w₂ := by
  obtain ⟨l₁, hl₁, hd₁⟩ := h₁
  obtain ⟨l₂, hl₂, hd₂⟩ := h₂
  refine ⟨l₁ ++ l₂, by rw [hl₂, hl₁, List.map_append, List.append_assoc], fun a ha => ?_⟩
  rcases hd₁ a ha with h | h
  · exact (hd₂ a h).imp_right fun h => List.mem_append_right l₁ h
  · exact .inr (List.mem_append_left l₂ h)

/-- Where every state is the same, so is dirtiness. -/
theorem dirty_congr (h : ∀ q a, stateAt t w₁ q a = stateAt t w q a) (a : Address) :
    Dirty t w₁ a ↔ Dirty t w a := by
  simp only [Dirty, h]

end Dirtiness

section Writes

variable {t : Hierarchy σ} {F : Faithful t.array} {w : World σ} {p q : CachePath}
  {a b : Address} {i : LineId} {s : MESIState} {e : Entry}

/-- Writing a line's state changes the state of its address at that cache. -/
theorem stateAt_setState (hl : LinesOk F (w.cache p))
    (hi : t.array.lookup (w.cache p).array a = some i) (s : MESIState) (q : CachePath)
    (b : Address) :
    stateAt t (w.setState p i s) q b = if q = p ∧ b = a then s else stateAt t w q b := by
  by_cases hq : q = p
  · subst hq
    by_cases hb : b = a
    · subst hb
      simp only [stateAt, setState_self, heldState_update_self hi, and_self, if_true]
    · simp only [stateAt, setState_self, heldState_update_of_ne hl hi hb, hb, and_false, if_false]
  · simp only [stateAt_congr (setState_of_ne i s hq), hq, false_and, if_false]

@[simp] theorem entryAt_setState (w : World σ) (p : CachePath) (i : LineId) (s : MESIState)
    (q : CachePath) (b : Address) :
    entryAt t (w.setState p i s) q b = entryAt t w q b := by
  by_cases hq : q = p
  · subst hq
    simp only [entryAt, heldEntry, setState_self]
  · exact entryAt_congr (setState_of_ne i s hq) b

@[simp] theorem stateAt_setEntry (w : World σ) (p : CachePath) (i : LineId) (e : Entry)
    (q : CachePath) (b : Address) :
    stateAt t (w.setEntry p i e) q b = stateAt t w q b := by
  by_cases hq : q = p
  · subst hq
    simp only [stateAt, heldState, setEntry_self]
  · exact stateAt_congr (setEntry_of_ne i e hq) b

/-- Writing a line's entry changes the entry of its address at that cache. -/
theorem entryAt_setEntry (hl : LinesOk F (w.cache p))
    (hi : t.array.lookup (w.cache p).array a = some i) (e : Entry) (q : CachePath)
    (b : Address) :
    entryAt t (w.setEntry p i e) q b = if q = p ∧ b = a then e else entryAt t w q b := by
  by_cases hq : q = p
  · subst hq
    by_cases hb : b = a
    · subst hb
      simp only [entryAt, setEntry_self, heldEntry_update_self hi, and_self, if_true]
    · simp only [entryAt, setEntry_self, heldEntry_update_of_ne hl hi hb, hb, and_false, if_false]
  · simp only [entryAt_congr (setEntry_of_ne i e hq), hq, false_and, if_false]

@[simp] theorem setState_array (w : World σ) (p : CachePath) (i : LineId) (s : MESIState)
    (q : CachePath) : ((w.setState p i s).cache q).array = (w.cache q).array := by
  by_cases hq : q = p
  · rw [hq, setState_self]
  · rw [setState_of_ne i s hq]

@[simp] theorem setEntry_array (w : World σ) (p : CachePath) (i : LineId) (e : Entry)
    (q : CachePath) : ((w.setEntry p i e).cache q).array = (w.cache q).array := by
  by_cases hq : q = p
  · rw [hq, setEntry_self]
  · rw [setEntry_of_ne i e hq]

theorem linesOk_setState (hl : ∀ q, LinesOk F (w.cache q))
    (hi : t.array.lookup (w.cache p).array a = some i)
    (hs : s = .I → ((w.cache p).tcc i).Vacant) (q : CachePath) :
    LinesOk F ((w.setState p i s).cache q) := by
  by_cases hq : q = p
  · rw [hq, setState_self]
    exact (hl p).setState hi hs
  · rw [setState_of_ne i s hq]
    exact hl q

theorem linesOk_setEntry (hl : ∀ q, LinesOk F (w.cache q)) (hv : (w.cache p).bcc i ≠ .I)
    (e : Entry) (q : CachePath) : LinesOk F ((w.setEntry p i e).cache q) := by
  by_cases hq : q = p
  · rw [hq, setEntry_self]
    exact (hl p).setEntry fun hI => absurd hI hv
  · rw [setEntry_of_ne i e hq]
    exact hl q

/-- An edge is unchanged when its states and its entry are. -/
theorem edgeOk_congr {w₁ : World σ} (h : EdgeOk t w p a)
    (hs : stateAt t w₁ p a = stateAt t w p a) (he : entryAt t w₁ p a = entryAt t w p a)
    (hc : ∀ c, stateAt t w₁ (c :: p) a = stateAt t w (c :: p) a) : EdgeOk t w₁ p a := by
  rw [EdgeOk, hs, he, funext hc]
  exact h

/-- A cache's own state may change when its entry is vacant or no permission
is lost. -/
theorem edgeOk_own (h : EdgeOk t w p a)
    (hs : (entryAt t w p a).Vacant ∨
      (s ≠ .I ∧ ((stateAt t w p a).exclusive = true → s.exclusive = true))) :
    Agrees (t.numChildren p) s (entryAt t w p a) fun c => stateAt t w (c :: p) a := by
  rcases hs with hv | ⟨hne, hx⟩
  · exact Agrees.vacant s hv (h.child_I_of_vacant hv)
  · exact h.upgradeOwn hne hx

end Writes

section Moves

variable {t : Hierarchy σ} {F : Faithful t.array} {w w₁ : World σ} {p q : CachePath}
  {a b : Address} {i j : LineId} {s : MESIState} {e : Entry} {c : ℕ}

theorem Coherent.but (h : Coherent t F w) (p : CachePath) (a : Address) : CoherentBut t F p a w :=
  ⟨h.lines, fun q b _ => h.edges q b⟩

theorem CoherentBut.close (h : CoherentBut t F p a w) (he : EdgeOk t w p a) : Coherent t F w where
  lines := h.lines
  edges q b := by
    by_cases hq : q = p ∧ b = a
    · rw [hq.1, hq.2]
      exact he
    · exact h.edges q b fun hqp hb => hq ⟨hqp, hb⟩

/-- Only the states of valid addresses and their entries matter. -/
theorem Coherent.ofView (h : Coherent t F w) (hl : ∀ q, LinesOk F (w₁.cache q))
    (hs : ∀ q b, stateAt t w₁ q b = stateAt t w q b)
    (he : ∀ q b, stateAt t w q b ≠ .I → entryAt t w₁ q b = entryAt t w q b) :
    Coherent t F w₁ where
  lines := hl
  edges q b := by
    by_cases hI : stateAt t w q b = .I
    · have hch : ∀ d, stateAt t w₁ (d :: q) b = .I := by
        have hag := h.edges q b
        rw [EdgeOk, hI] at hag
        exact fun d => (hs _ _).trans (hag.child_I_of_own_I d)
      exact Agrees.vacant _ ((hl q).vacant_of_I ((hs q b).trans hI)) hch
    · exact edgeOk_congr (h.edges q b) (hs q b) (he q b hI) fun d => hs _ _

/-- An invalid address has no sharers, wherever it is. -/
theorem Coherent.childI (h : Coherent t F w) (hp : stateAt t w p a = .I) (c : ℕ) :
    stateAt t w (c :: p) a = .I := by
  have hag := h.edges p a
  rw [EdgeOk, hp] at hag
  exact hag.child_I_of_own_I c

/-- A child with exclusive permission may move to M. -/
theorem agrees_childM {n : ℕ} {own : MESIState} {child : ℕ → MESIState}
    (h : Agrees n own e child) (hc : (child c).exclusive = true) :
    Agrees n own e (Function.update child c .M) := by
  have hup := h.exclusive_up c hc
  have hne : child c ≠ .I := ne_I_of_exclusive hc
  refine ⟨fun d => ?_, h.sharers_lt, h.count, fun d hd => ?_, fun d hd => ?_, fun hx d hd => ?_,
    h.flag⟩
  · by_cases hdc : d = c
    · simpa [hdc] using (h.sharers_iff c).mpr hne
    · simpa [Function.update_of_ne hdc] using h.sharers_iff d
  · by_cases hdc : d = c
    · exact ne_I_of_exclusive hup.1
    · exact h.valid d (by simpa [Function.update_of_ne hdc] using hd)
  · by_cases hdc : d = c
    · exact hup
    · exact h.exclusive_up d (by simpa [Function.update_of_ne hdc] using hd)
  · by_cases hdc : d = c
    · simp [hdc]
    · simpa [Function.update_of_ne hdc] using h.exclusive_down hx d hd

/-- The silent move of a line with exclusive permission to M. -/
theorem Coherent.toM (h : Coherent t F w) (hi : t.array.lookup (w.cache p).array a = some i)
    (hx : (stateAt t w p a).exclusive = true) : Coherent t F (w.setState p i .M) where
  lines := linesOk_setState h.lines hi (by simp)
  edges q b := by
    have hst := stateAt_setState (h.lines p) hi .M
    have hold := h.edges q b
    have hch : (fun d => stateAt t (w.setState p i .M) (d :: q) b) =
        fun d => if d :: q = p ∧ b = a then .M else stateAt t w (d :: q) b :=
      funext fun d => hst (d :: q) b
    rw [EdgeOk, entryAt_setState, hch]
    by_cases hself : q = p ∧ b = a
    · have hne : ∀ d, ¬ (d :: q = p ∧ b = a) := fun d hd => by
        have hlen := congrArg List.length (hself.1.trans hd.1.symm)
        simp at hlen
      rw [funext fun d => if_neg (hne d), hst, if_pos hself]
      obtain ⟨rfl, rfl⟩ := hself
      exact edgeOk_own hold (.inr ⟨by decide, fun _ => rfl⟩)
    · rw [hst, if_neg hself]
      by_cases hup : ∃ c, c :: q = p ∧ b = a
      · obtain ⟨c, hcp, hba⟩ := hup
        have hfun : (fun d => if d :: q = p ∧ b = a then MESIState.M else stateAt t w (d :: q) b) =
            Function.update (fun d => stateAt t w (d :: q) b) c .M := by
          funext d
          by_cases hdc : d = c
          · simp [hdc, hcp, hba]
          · have hdp : d :: q ≠ p := fun hd => hdc (List.cons.inj (hd.trans hcp.symm)).1
            simp [hdp, Function.update_of_ne hdc]
        rw [hfun]
        exact agrees_childM hold (by rw [hcp, hba]; exact hx)
      · rw [funext fun d => if_neg fun hd => hup ⟨d, hd⟩]
        exact hold

theorem keepsDirty_toM (hl : LinesOk F (w.cache p))
    (hi : t.array.lookup (w.cache p).array a = some i) :
    KeepsDirty t w (w.setState p i .M) := by
  refine .of_log rfl fun b ⟨q, hq⟩ => ⟨q, ?_⟩
  rw [stateAt_setState hl hi]
  split
  · rfl
  · exact hq

/-- The state of the cache below the root changes, seen from the memory. -/
theorem Coherent.setRoot (h : Coherent t F w)
    (hi : t.array.lookup (w.cache []).array a = some i)
    (hs : (entryAt t w [] a).Vacant ∨
      (s ≠ .I ∧ ((stateAt t w [] a).exclusive = true → s.exclusive = true))) :
    Coherent t F (w.setState [] i s) where
  lines := linesOk_setState h.lines hi fun hsI => by
    rcases hs with hv | ⟨hne, -⟩
    · rwa [entryAt, heldEntry_of_lookup hi] at hv
    · exact absurd hsI hne
  edges q b := by
    have hst := stateAt_setState (h.lines []) hi s
    have hch : (fun d => stateAt t (w.setState [] i s) (d :: q) b) =
        fun d => stateAt t w (d :: q) b := funext fun d => by simp [hst]
    rw [EdgeOk, entryAt_setState, hch, hst]
    split
    case isTrue hself =>
      rw [hself.1, hself.2]
      exact edgeOk_own (h.edges [] a) hs
    case isFalse => exact h.edges q b

/-- The close of an access: the parent's entry and the requester's state are
written together. -/
theorem CoherentBut.grant (h : CoherentBut t F p a w)
    (hi : t.array.lookup (w.cache p).array a = some i) (hv : (w.cache p).bcc i ≠ .I)
    (hj : t.array.lookup (w.cache (c :: p)).array a = some j)
    (hag : Agrees (t.numChildren p) (stateAt t w p a) e
      (Function.update (fun d => stateAt t w (d :: p) a) c s))
    (hs : (entryAt t w (c :: p) a).Vacant ∨
      (s ≠ .I ∧ ((stateAt t w (c :: p) a).exclusive = true → s.exclusive = true))) :
    Coherent t F ((w.setEntry p i e).setState (c :: p) j s) := by
  have hlines := linesOk_setEntry h.lines hv e
  have hj' : t.array.lookup ((w.setEntry p i e).cache (c :: p)).array a = some j := by
    rwa [setEntry_array]
  have hcp : c :: p ≠ p := List.cons_ne_self c p
  have htcc : ((w.setEntry p i e).cache (c :: p)).tcc j = entryAt t w (c :: p) a := by
    rw [setEntry_of_ne i e hcp, entryAt, heldEntry_of_lookup hj]
  have hst : ∀ q b, stateAt t ((w.setEntry p i e).setState (c :: p) j s) q b =
      if q = c :: p ∧ b = a then s else stateAt t w q b := fun q b => by
    rw [stateAt_setState (hlines _) hj', stateAt_setEntry]
  have hen : ∀ q b, entryAt t ((w.setEntry p i e).setState (c :: p) j s) q b =
      if q = p ∧ b = a then e else entryAt t w q b := fun q b => by
    rw [entryAt_setState, entryAt_setEntry (h.lines p) hi]
  refine ⟨linesOk_setState hlines hj' fun hsI => ?_, fun q b => ?_⟩
  · rw [htcc]
    rcases hs with hvac | ⟨hne, -⟩
    · exact hvac
    · exact absurd hsI hne
  have hch : (fun d => stateAt t ((w.setEntry p i e).setState (c :: p) j s) (d :: q) b) =
      fun d => if d :: q = c :: p ∧ b = a then s else stateAt t w (d :: q) b :=
    funext fun d => hst (d :: q) b
  rw [EdgeOk, hen, hst, hch]
  by_cases hparent : q = p ∧ b = a
  · obtain ⟨rfl, rfl⟩ := hparent
    have hfun : (fun d => if d :: q = c :: q ∧ b = b then s else stateAt t w (d :: q) b) =
        Function.update (fun d => stateAt t w (d :: q) b) c s := by
      funext d
      by_cases hdc : d = c
      · simp [hdc]
      · simp [hdc]
    rw [hfun, if_neg fun hq => hcp hq.1.symm, if_pos ⟨rfl, rfl⟩]
    exact hag
  · have hold := h.edges q b fun hq hb => hparent ⟨hq, hb⟩
    have hne : ∀ d, ¬ (d :: q = c :: p ∧ b = a) := fun d hd =>
      hparent ⟨(List.cons.inj hd.1).2, hd.2⟩
    rw [funext fun d => if_neg (hne d), if_neg hparent]
    by_cases hself : q = c :: p ∧ b = a
    · obtain ⟨rfl, rfl⟩ := hself
      rw [if_pos ⟨rfl, rfl⟩]
      exact edgeOk_own hold hs
    · rw [if_neg hself]
      exact hold

end Moves

section Sends

variable {t : Hierarchy σ} {F : Faithful t.array} {w w₁ : World σ} {p q : CachePath}
  {a b : Address} {i : LineId} {ty : InvType} {cycle : ℕ} {wb : Bool} {r : ℕ × Bool}

/-- Only the address and the subtrees the invalidations reach change state. -/
theorem sendPost_state (h : SendPost t F p i a ty cycle wb w r w₁)
    (hn : ¬ (Reached p ((w.cache p).tcc i) q ∧ b = a)) :
    stateAt t w₁ q b = stateAt t w q b := by
  by_cases hq : q = p
  · rw [hq, h.effect.ownState]
  · by_cases hb : b = a
    · exact stateAt_congr (h.effect.outside q hq fun hr => hn ⟨hr, hb⟩) b
    · exact h.effect.otherState q b hq hb

theorem sendPost_entry (h : SendPost t F p i a ty cycle wb w r w₁)
    (hl : LinesOk F (w.cache p)) (hi : t.array.lookup (w.cache p).array a = some i)
    (hn : ¬ (Reached p ((w.cache p).tcc i) q ∧ b = a)) (hq : ¬ (q = p ∧ b = a)) :
    entryAt t w₁ q b = entryAt t w q b := by
  by_cases hb : b = a
  · have hqp : q ≠ p := fun hqp => hq ⟨hqp, hb⟩
    exact entryAt_congr (h.effect.outside q hqp fun hr => hn ⟨hr, hb⟩) b
  · by_cases hqp : q = p
    · rw [hqp, h.effect.ownOtherEntry hl hi hb]
    · exact h.effect.otherEntry q b hqp hb

/-- A child of a cache the invalidations do not reach is not reached, unless
that cache is the sender. -/
theorem not_reached_child {e : Entry} {c : ℕ} (hr : ¬ Reached p e q) (hq : q ≠ p) :
    ¬ Reached p e (c :: q) := by
  rintro ⟨d, hs, hd⟩
  rcases List.suffix_cons_iff.mp hd with heq | hsub
  · exact hq (List.cons.inj heq).2.symm
  · exact hr ⟨d, hs, hsub⟩

/-- Invalidations keep every other edge as good as it was. -/
theorem CoherentBut.send (h : CoherentBut t F p a w)
    (hi : t.array.lookup (w.cache p).array a = some i)
    (hs : SendPost t F p i a ty cycle wb w r w₁) : CoherentBut t F p a w₁ := by
  refine ⟨hs.lines, fun q b hqb => ?_⟩
  have hold := h.edges q b hqb
  by_cases hb : b = a
  · subst hb
    have hqp : q ≠ p := fun hq => hqb hq rfl
    by_cases hr : Reached p ((w.cache p).tcc i) q
    · have hch : ∀ d, Reached p ((w.cache p).tcc i) (d :: q) := by
        obtain ⟨c, hc, hq⟩ := hr
        exact fun d => ⟨c, hc, hq.trans (List.suffix_cons d q)⟩
      rw [EdgeOk, hs.effect.state q hr, hs.effect.entry q hr,
        funext fun d => hs.effect.state (d :: q) (hch d)]
      exact hold.inv ty
    · refine edgeOk_congr hold (sendPost_state hs fun hn => hr hn.1)
        (sendPost_entry hs (h.lines p) hi (fun hn => hr hn.1) fun hn => hqp hn.1) fun d => ?_
      exact sendPost_state hs fun hn => not_reached_child hr hqp hn.1
  · exact edgeOk_congr hold (sendPost_state hs fun hn => hb hn.2)
      (sendPost_entry hs (h.lines p) hi (fun hn => hb hn.2) fun hn => hb hn.2)
      fun d => sendPost_state hs fun hn => hb hn.2

/-- The children after the invalidations, when the entry described them. -/
theorem sendPost_children (h : SendPost t F p i a ty cycle wb w r w₁) {c : ℕ}
    (hbit : ((w.cache p).tcc i).sharers c = true ∨ stateAt t w (c :: p) a = .I) :
    stateAt t w₁ (c :: p) a = invState ty (stateAt t w (c :: p) a) := by
  by_cases hr : Reached p ((w.cache p).tcc i) (c :: p)
  · exact h.effect.state _ hr
  · rcases hbit with hs | hI
    · exact absurd ⟨c, hs, List.suffix_rfl⟩ hr
    · rw [sendPost_state h fun hn => hr hn.1, hI, invState_I]

/-- A coherent state stays coherent when one cache invalidates or downgrades
an address of its own below it. -/
theorem Coherent.send (h : Coherent t F w) (hi : t.array.lookup (w.cache p).array a = some i)
    (hs : SendPost t F p i a ty cycle wb w r w₁) : Coherent t F w₁ := by
  refine ((h.but p a).send hi hs).close ?_
  have hold := h.edges p a
  have he : entryAt t w p a = (w.cache p).tcc i := heldEntry_of_lookup hi
  have hch : ∀ d, stateAt t w₁ (d :: p) a = invState ty (stateAt t w (d :: p) a) := by
    intro d
    refine sendPost_children hs ?_
    by_cases hI : stateAt t w (d :: p) a = .I
    · exact .inr hI
    · exact .inl (he ▸ (hold.sharers_iff d).mpr hI)
  rw [EdgeOk, hs.effect.ownState, hs.effect.ownEntry hi, funext hch, ← he]
  refine (hold.inv ty).changeOwn (fun d hd => ?_) fun d hd => ?_
  · refine hold.valid d fun hI => hd ?_
    rw [hI, invState_I]
  · cases ty with
    | INV => cases hd
    | FWD => exact (hold.exclusive_up d hd).1
    | INVX =>
      refine (hold.exclusive_up d ?_).1
      unfold invState at hd
      dsimp only at hd
      split at hd
      · assumption
      · exact hd

/-- The conditions for sending hold at every line the directory describes. -/
theorem Coherent.sendable (h : Coherent t F w)
    (hi : t.array.lookup (w.cache p).array a = some i) (hv : (w.cache p).bcc i ≠ .I)
    (hty : ty ≠ .FWD) : Sendable t F p i a ty w := by
  have hold := h.edges p a
  have he : entryAt t w p a = (w.cache p).tcc i := heldEntry_of_lookup hi
  rw [EdgeOk, he] at hold
  exact ⟨h.lines, hi, hv, hold.sharers_lt, hold.count, fun c hs => (hold.sharers_iff c).mp hs,
    fun q _ => h.edges q a, hty, fun _ c hs => Bool.eq_iff_iff.mpr
      ⟨fun hx => (hold.exclusive_up c hx).2, fun hx => hold.exclusive_down hx c hs⟩⟩

/-- A dirty address survives the invalidations, or they report it. -/
theorem sendPost_dirty (h : SendPost t F p i a ty cycle wb w r w₁) (hd : Dirty t w b) :
    Dirty t w₁ b ∨ (b = a ∧ r.2 = true) := by
  obtain ⟨q, hq⟩ := hd
  by_cases hr : Reached p ((w.cache p).tcc i) q ∧ b = a
  · obtain ⟨hr, rfl⟩ := hr
    exact .inr ⟨rfl, h.writeback.mpr (.inr ⟨q, hr, hq⟩)⟩
  · exact .inl ⟨q, (sendPost_state h hr).trans hq⟩

end Sends

section Insertion

variable {A : CacheArray σ} {F : Faithful A} {c : CacheState σ} {a b : Address} {i : LineId}

/-- Inserting a missing address at an invalid candidate moves no valid line. -/
theorem lookup_inserted (hc : LinesOk F c) (hacc : F.Accepts a) (ha : A.lookup c.array a = none)
    (hi : i ∈ A.candidates c.array a) (hI : c.bcc i = .I) (b : Address) (hb : heldState A c b ≠ .I) :
    A.lookup (A.postinsert (A.preinsert c.array a i) a i) b = A.lookup c.array b := by
  obtain ⟨j, hj, hs⟩ := lookup_of_held hb
  have hji : j ≠ i := by
    rintro rfl
    exact hb (hs.symm.trans hI)
  rw [hj, F.insert_others _ a i b j hc.inv hacc ha hi hj hji]

theorem heldState_inserted (hc : LinesOk F c) (hacc : F.Accepts a)
    (ha : A.lookup c.array a = none) (hi : i ∈ A.candidates c.array a) (hI : c.bcc i = .I)
    (b : Address) :
    heldState A { c with array := A.postinsert (A.preinsert c.array a i) a i } b =
      heldState A c b := by
  by_cases hb : heldState A c b = .I
  · rw [hb]
    cases hl : A.lookup (A.postinsert (A.preinsert c.array a i) a i) b with
    | none => exact heldState_of_missing hl
    | some j =>
      rw [heldState_of_lookup (c:={ c with array := _ }) hl]
      by_contra hne
      have hji : j ≠ i := by
        rintro rfl
        exact hne hI
      -- a valid line keeps its address, under which it was found before
      have hline := F.lookup_line _ b j (F.insert_inv _ a i hc.inv hacc ha hi) hl
      rw [F.insert_line _ a i hc.inv hacc ha hi, Function.update_of_ne hji] at hline
      have hheld := hc.held_line hne
      rw [hline, hb] at hheld
      exact hne hheld.symm
  · simp only [heldState, lookup_inserted hc hacc ha hi hI b hb]

theorem heldEntry_inserted (hc : LinesOk F c) (hacc : F.Accepts a)
    (ha : A.lookup c.array a = none) (hi : i ∈ A.candidates c.array a) (hI : c.bcc i = .I)
    (hb : heldState A c b ≠ .I) :
    heldEntry A { c with array := A.postinsert (A.preinsert c.array a i) a i } b =
      heldEntry A c b := by
  simp only [heldEntry, lookup_inserted hc hacc ha hi hI b hb]

theorem linesOk_inserted (hc : LinesOk F c) (hacc : F.Accepts a)
    (ha : A.lookup c.array a = none) (hi : i ∈ A.candidates c.array a) (hI : c.bcc i = .I) :
    LinesOk F { c with array := A.postinsert (A.preinsert c.array a i) a i } where
  inv := F.insert_inv _ a i hc.inv hacc ha hi
  found j hj := by
    have hji : j ≠ i := by
      rintro rfl
      exact hj hI
    have hline : A.line (A.postinsert (A.preinsert c.array a i) a i) j = A.line c.array j := by
      rw [F.insert_line _ a i hc.inv hacc ha hi, Function.update_of_ne hji]
    rw [hline]
    exact F.insert_others _ a i _ j hc.inv hacc ha hi (hc.found j hj) hji
  vacant := hc.vacant

end Insertion

end Zsim.MESICoherence
