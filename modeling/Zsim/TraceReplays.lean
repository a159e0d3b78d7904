import Zsim.TraceDriver

/-!
# What the children of a replay hold

Between two actions of the parent every entry agrees with the tables of the
children. An invalidation keeps that, only takes permissions away, and returns
the lines it takes from M with a writeback. A GET is answered after such
invalidations alone. A PUT is replayed with the type it was recorded with, and
agrees with the parent only if the child still holds the line in the state that
the type stands for.
-/

namespace Zsim.TraceReplays

open WeakestPre MemoryHierarchy MESIDirectory AccessTracing TraceDriver

/-- A line leaves in M if and only if it is written back. -/
def Proper : Departure → Prop
  | .put _ _ state type => (state = .M → type = .PUTX) ∧ (type = .PUTX → state = .M)
  | .inv _ _ dirty writeback => dirty = true → writeback = true

/-- The data of a line that a child holds in M goes to the parent. -/
def Returns (c : ℕ) (a : Address) : Departure → Prop
  | .put childId lineAddr _ type => childId = c ∧ lineAddr = a ∧ type = .PUTX
  | .inv lineAddr _ dirty writeback => lineAddr = a ∧ dirty = true ∧ writeback = true

/-- Every departure since `w` is proper, and no line has left M without one. -/
structure Leaves (w w' : Replay) : Prop where
  departed : ∃ ds, w'.departures = w.departures ++ ds ∧ (∀ d ∈ ds, Proper d) ∧
    ∀ c a, w.state c a = .M → w'.state c a = .M ∨ ∃ d ∈ ds, Returns c a d

/-- The entries agree with the states `state`. -/
def Sound (d : Setup) (w : Replay) (state : ℕ → Address → MESIState) : Prop :=
  ∀ a, Agrees d.numChildren (w.own a) (w.entry a) fun c => state c a

/-- The entries agree with `state`, and so do the children, except that a line may be
left in S at a child that the parent does not list. -/
structure Lists (d : Setup) (w : Replay) (state : ℕ → Address → MESIState) : Prop where
  sound : Sound d w state
  listed : ∀ c a, state c a ≠ .I → w.state c a = state c a
  unlisted : ∀ c a, state c a = .I → (w.state c a).exclusive = false

/-- A child's table has a line, not in I, exactly when the parent lists it as a
sharer; and it has no line in I. -/
structure Coherent (d : Setup) (w : Replay) : Prop where
  sound : Sound d w w.state
  stored : ∀ c a, (w.children c).cStore a ≠ some .I

/-- Since `w`, the children have lost permissions only. -/
structure Below (w w' : Replay) : Prop where
  leaves : Leaves w w'
  invalid : ∀ c a, w.state c a = .I → w'.state c a = .I
  shared : ∀ c a, (w.state c a).exclusive = false → (w'.state c a).exclusive = false
  stored : ∀ c a, (w'.children c).cStore a = some .I → (w.children c).cStore a = some .I

/-- The effect of an invalidation of a line on its entry and on the children. -/
structure Lowered (a : Address) (ty : InvType) (w w' : Replay) : Prop where
  own : w'.own = w.own
  entry : w'.entry = Function.update w.entry a (invEntry ty (w.entry a))
  state : ∀ c b, w'.state c b =
    if b = a ∧ (w.entry a).sharers c = true then invState ty (w.state c b) else w.state c b
  stored : ∀ c b, (w'.children c).cStore b = some .I → (w.children c).cStore b = some .I
  leaves : Leaves w w'

/-- The children hold the same lines, and the departures are the same. -/
structure Same (w w' : Replay) : Prop where
  stores : ∀ c, (w'.children c).cStore = (w.children c).cStore
  departures : w'.departures = w.departures

theorem Leaves.refl (w : Replay) : Leaves w w :=
  ⟨[], (List.append_nil _).symm, by simp, fun _ _ h => .inl h⟩

theorem Leaves.trans {w w₁ w₂ : Replay} (h₁ : Leaves w w₁) (h₂ : Leaves w₁ w₂) : Leaves w w₂ := by
  obtain ⟨ds₁, he₁, hp₁, hm₁⟩ := h₁.departed
  obtain ⟨ds₂, he₂, hp₂, hm₂⟩ := h₂.departed
  refine ⟨ds₁ ++ ds₂, by rw [he₂, he₁, List.append_assoc], fun d hd => ?_, fun c a hM => ?_⟩
  · cases List.mem_append.mp hd with
    | inl hd => exact hp₁ d hd
    | inr hd => exact hp₂ d hd
  · cases hm₁ c a hM with
    | inr hr =>
      obtain ⟨d, hd, hr⟩ := hr
      exact .inr ⟨d, List.mem_append_left _ hd, hr⟩
    | inl hM =>
      cases hm₂ c a hM with
      | inl hM => exact .inl hM
      | inr hr =>
        obtain ⟨d, hd, hr⟩ := hr
        exact .inr ⟨d, List.mem_append_right _ hd, hr⟩

theorem Same.state {w w' : Replay} (h : Same w w') : w'.state = w.state := by
  funext c a
  rw [Replay.state, Replay.state, h.stores]

/-- Nothing leaves while the children stay as they are. -/
theorem Same.leaves {w w' : Replay} (h : Same w w') : Leaves w w' := by
  refine ⟨[], by rw [h.departures, List.append_nil], by simp, fun c a hM => .inl ?_⟩
  rw [h.state, hM]

theorem Same.below {w w' : Replay} (h : Same w w') : Below w w' := by
  have hs := h.state
  refine ⟨h.leaves, fun c a hI => by rw [hs, hI], fun c a hx => by rw [hs, hx], fun c a hI => ?_⟩
  rwa [← h.stores]

theorem Below.refl (w : Replay) : Below w w := Same.below ⟨fun _ => rfl, rfl⟩

theorem Below.trans {w w₁ w₂ : Replay} (h₁ : Below w w₁) (h₂ : Below w₁ w₂) : Below w w₂ where
  leaves := h₁.leaves.trans h₂.leaves
  invalid c a hI := h₂.invalid c a (h₁.invalid c a hI)
  shared c a hx := h₂.shared c a (h₁.shared c a hx)
  stored c a hI := h₁.stored c a (h₂.stored c a hI)

theorem invState_exclusive (ty : InvType) {s : MESIState} (h : s.exclusive = false) :
    (invState ty s).exclusive = false := by
  cases ty with
  | INV => rfl
  | INVX =>
    rw [invState, h, if_neg Bool.false_ne_true]
    exact h
  | FWD => exact h

theorem Lowered.below {a : Address} {ty : InvType} {w w' : Replay} (h : Lowered a ty w w') : Below w w' where
  leaves := h.leaves
  invalid c b hI := by
    rw [h.state, hI, invState_I, ite_self]
  shared c b hx := by
    rw [h.state]
    split
    · exact invState_exclusive ty hx
    · exact hx
  stored := h.stored

theorem Lists.refl {d : Setup} {w : Replay} (hs : Sound d w w.state) : Lists d w w.state :=
  ⟨hs, fun _ _ _ => rfl, fun c a hI => by rw [hI]; rfl⟩

section Lists

variable {d : Setup} {w : Replay} {st : ℕ → Address → MESIState} {a : Address} {c : ℕ}

/-- A listed line is in the child's table. -/
theorem Lists.held (hl : Lists d w st) (hbit : (w.entry a).sharers c = true) :
    w.state c a = st c a ∧ st c a ≠ .I := by
  have hne := ((hl.sound a).sharers_iff c).mp hbit
  exact ⟨hl.listed c a hne, hne⟩

theorem Lists.not_exclusive (hl : Lists d w st) (hbit : (w.entry a).sharers c = false) :
    (w.state c a).exclusive = false := by
  refine hl.unlisted c a ?_
  by_contra hne
  rw [((hl.sound a).sharers_iff c).mpr hne] at hbit
  cases hbit

/-- A line held in M is listed. -/
theorem Lists.sharer_of_exclusive (hl : Lists d w st) (hx : (w.state c a).exclusive = true) :
    (w.entry a).sharers c = true := by
  cases hbit : (w.entry a).sharers c with
  | true => rfl
  | false =>
    rw [hl.not_exclusive hbit] at hx
    cases hx

end Lists

section Invalidates

variable {d : Setup} {w : Replay} {st : ℕ → Address → MESIState} {a : Address} {ty : InvType}

/-- What becomes of a child's line that is invalidated or downgraded. -/
def lineAfter (ty : InvType) : Option MESIState := if ty = .INVX then some .S else none

/-- The replay once every sharer that is not in `rem` has been sent its invalidation. -/
def sent (w : Replay) (a : Address) (ty : InvType) (rem : List ℕ) : Replay :=
  { w with
    children := fun c =>
      if (w.entry a).sharers c = true ∧ c ∉ rem then (w.children c).store a (lineAfter ty) else w.children c
    entry := Function.update w.entry a (if ty = .INV then
      { w.entry a with sharers := fun c => (w.entry a).sharers c && decide (c ∈ rem) } else w.entry a) }

/-- Nothing has been sent yet. -/
theorem sent_all (h : ∀ c, (w.entry a).sharers c = true → c < d.numChildren) :
    sent w a ty (List.range d.numChildren) = w := by
  have hchildren : ∀ c, ¬ ((w.entry a).sharers c = true ∧ c ∉ List.range d.numChildren) := by
    intro c hc
    exact hc.2 (List.mem_range.mpr (h c hc.1))
  have hsharers : (fun c => (w.entry a).sharers c && decide (c ∈ List.range d.numChildren)) =
      (w.entry a).sharers := by
    funext c
    cases hs : (w.entry a).sharers c with
    | false => rfl
    | true => simpa using h c hs
  simp only [sent, hchildren, if_false, hsharers, ite_self, Function.update_eq_self]

/-- A child that has not been visited has what it had. -/
theorem sent_child (w : Replay) (a : Address) (ty : InvType) (c : ℕ) (rem : List ℕ) :
    (sent w a ty (c :: rem)).children c = w.children c := by
  simp [sent]

/-- A child that is no sharer is passed over. -/
theorem sent_skip {c : ℕ} (hs : (w.entry a).sharers c = false) (rem : List ℕ) :
    sent w a ty (c :: rem) = sent w a ty rem := by
  have hmem : ∀ c', (w.entry a).sharers c' = true → (c' ∈ c :: rem ↔ c' ∈ rem) := by
    intro c' hc'
    have hne : c' ≠ c := by
      intro he
      rw [he, hs] at hc'
      cases hc'
    simp [hne]
  have hchildren : ∀ c', ((w.entry a).sharers c' = true ∧ c' ∉ c :: rem) =
      ((w.entry a).sharers c' = true ∧ c' ∉ rem) := fun c' =>
    propext (and_congr_right fun hc' => not_congr (hmem c' hc'))
  have hsharers : (fun c' => (w.entry a).sharers c' && decide (c' ∈ c :: rem)) =
      fun c' => (w.entry a).sharers c' && decide (c' ∈ rem) := by
    funext c'
    cases hc' : (w.entry a).sharers c' with
    | false => rfl
    | true => simp only [hmem c' hc']
  simp only [sent, hchildren, hsharers]

/-- A sharer is sent its invalidation. -/
theorem sent_cons {c : ℕ} {rem : List ℕ} (hs : (w.entry a).sharers c = true) (hc : c ∉ rem) :
    ((sent w a ty (c :: rem)).setStore c a (lineAfter ty)).setEntry a
      (if ty = .INV then { (sent w a ty (c :: rem)).entry a with
        sharers := Function.update ((sent w a ty (c :: rem)).entry a).sharers c false }
      else (sent w a ty (c :: rem)).entry a) = sent w a ty rem := by
  have hchildren : Function.update (sent w a ty (c :: rem)).children c
      (((sent w a ty (c :: rem)).children c).store a (lineAfter ty)) = (sent w a ty rem).children := by
    funext c'
    by_cases he : c' = c
    · subst he
      rw [Function.update_self, sent_child]
      simp [sent, hs, hc]
    · rw [Function.update_of_ne he]
      simp [sent, he]
  have hentry : Function.update (sent w a ty (c :: rem)).entry a
      (if ty = .INV then { (sent w a ty (c :: rem)).entry a with
        sharers := Function.update ((sent w a ty (c :: rem)).entry a).sharers c false }
      else (sent w a ty (c :: rem)).entry a) = (sent w a ty rem).entry := by
    by_cases hty : ty = .INV
    · have hsharers : Function.update (fun c' => (w.entry a).sharers c' && decide (c' ∈ c :: rem)) c false =
          fun c' => (w.entry a).sharers c' && decide (c' ∈ rem) := by
        funext c'
        by_cases he : c' = c
        · simp [he, hc]
        · simp [he]
      simp only [sent, hty, if_true, Function.update_self, Function.update_idem, hsharers]
    · simp only [sent, hty, if_false, Function.update_self, Function.update_idem]
  simp only [Replay.setStore, Replay.setChild, Replay.setEntry, hchildren, hentry]
  rfl

/-- What holds before the children in `rem` are visited. -/
structure Sending (w : Replay) (a : Address) (ty : InvType) (n : ℕ) (wb : Bool) (cycle : ℕ) (rem : List ℕ)
    (acc : InvAcc) (w' : Replay) : Prop where
  reached : w' = sent w a ty rem
  nodup : rem.Nodup
  lt : ∀ c ∈ rem, c < n
  count : acc.sentInvs + rem.countP (w.entry a).sharers = (w.entry a).numSharers
  cycle : cycle ≤ acc.maxCycle
  dirty : ∀ c, w.state c a = .M → c ∈ rem ∨ acc.writeback = true
  clean : acc.writeback = true → wb = true ∨ ∃ c, w.state c a = .M

/-- A line that a child holds is in its table. -/
theorem stored_of_held {c : ℕ} (h : w.state c a ≠ .I) :
    (w.children c).cStore a = some (w.state c a) := by
  cases hs : (w.children c).cStore a with
  | none => exact absurd (by rw [Replay.state, hs]; rfl) h
  | some s => rw [Replay.state, hs]; rfl

/-- The loop body sends one invalidation, or none. -/
theorem wp_sendInvalidate (hl : Lists d w st) {wb : Bool} {cycle c : ℕ} {rem : List ℕ} {acc : InvAcc}
    {w' : Replay} (h : Sending w a ty d.numChildren wb cycle (c :: rem) acc w') :
    wp (MESITopCC.sendInvalidate d a ty acc c) (Sending w a ty d.numChildren wb cycle rem) w' := by
  have hw := h.reached
  have hc := (List.nodup_cons.mp h.nodup).1
  have hlt := h.lt c List.mem_cons_self
  have hbit : (w'.entry a).sharers c = (w.entry a).sharers c := by
    rw [hw]
    by_cases hty : ty = .INV
    · simp [sent, hty]
    · simp [sent, hty]
  simp only [MESITopCC.sendInvalidate, entryOf, wp_bind, wp_observe, wp_ite, wp_pure, hbit]
  split
  · next hbitc =>
    have hheld := hl.held hbitc
    have hstored : (w'.children c).cStore a = some (w.state c a) := by
      rw [hw, sent_child, stored_of_held (by rw [hheld.1]; exact hheld.2)]
    have hafter : _ = sent w a ty rem := sent_cons hbitc hc
    rw [← hw] at hafter
    have hcount : acc.sentInvs + 1 + rem.countP (w.entry a).sharers = (w.entry a).numSharers := by
      have hold := h.count
      rw [List.countP_cons, if_pos hbitc] at hold
      omega
    have hdirty : ∀ c', w.state c' a = .M → (w.state c a == .M) = true := by
      intro c' hM
      have hx : (w.state c' a).exclusive = true := by rw [hM]; rfl
      rw [(hl.held (hl.sharer_of_exclusive hx)).1] at hx
      by_cases he : c = c'
      · rw [he, hM]
        rfl
      · exact absurd ((hl.sound a).others_I hx he) hheld.2
    have hfinal : Sending w a ty d.numChildren wb cycle rem
        ⟨max (0 + d.childrenRTT c) acc.maxCycle, w.state c a == .M, acc.sentInvs + 1⟩ (sent w a ty rem) :=
      ⟨rfl, (List.nodup_cons.mp h.nodup).2, fun c' hc' => h.lt c' (List.mem_cons_of_mem c hc'), hcount,
        h.cycle.trans (le_max_right _ _), fun c' hM => .inr (hdirty c' hM),
        fun hM => .inr ⟨c, by simpa using hM⟩⟩
    simp only [invalidate, wp_bind, wp_ensure, wp_observe, hstored, wp_change, wp_pure]
    refine ⟨hlt, ?_⟩
    by_cases hty : ty = .INV
    · rw [if_pos hty] at hafter
      simp only [hty, if_true, setEntry, wp_change] at hfinal hafter ⊢
      rw [← hafter] at hfinal
      exact hfinal
    · rw [if_neg hty] at hafter
      have hsame : (w'.setStore c a (lineAfter ty)).setEntry a (w'.entry a) = w'.setStore c a (lineAfter ty) := by
        simp only [Replay.setEntry, Replay.setStore, Replay.setChild, Function.update_eq_self]
      rw [← hafter, hsame] at hfinal
      simp only [hty, if_false]
      exact hfinal
  · next hbitc =>
    have hbitc : (w.entry a).sharers c = false := Bool.eq_false_of_not_eq_true hbitc
    refine ⟨by rw [hw, sent_skip hbitc], (List.nodup_cons.mp h.nodup).2,
      fun c' hc' => h.lt c' (List.mem_cons_of_mem c hc'), ?_, h.cycle, fun c' hM => ?_, h.clean⟩
    · have hold := h.count
      rwa [List.countP_cons, if_neg (by rw [hbitc]; exact Bool.false_ne_true), Nat.add_zero] at hold
    · cases h.dirty c' hM with
      | inr hwb => exact .inr hwb
      | inl hmem =>
        cases List.mem_cons.mp hmem with
        | inr hmem => exact .inl hmem
        | inl he =>
          have hx := hl.not_exclusive hbitc
          rw [← he, hM] at hx
          cases hx

/-- A line without permissions to lose stays as it is. -/
theorem Lowered.refl (hentry : invEntry ty (w.entry a) = w.entry a)
    (hstate : ∀ c, (w.entry a).sharers c = true → invState ty (w.state c a) = w.state c a) : Lowered a ty w w where
  own := rfl
  entry := by rw [hentry, Function.update_eq_self]
  state c b := by
    split
    · next hb => rw [hb.1, hstate c hb.2]
    · rfl
  stored _ _ h := h
  leaves := Leaves.refl w

theorem dirtySharer_iff (hl : Lists d w st) :
    MESITopCC.dirtySharer d w a = true ↔ ∃ c, w.state c a = .M := by
  simp only [MESITopCC.dirtySharer, List.any_eq_true, List.mem_range, Bool.and_eq_true, beq_iff_eq]
  constructor
  · rintro ⟨c, -, -, hM⟩
    exact ⟨c, hM⟩
  · rintro ⟨c, hM⟩
    have hbit := hl.sharer_of_exclusive (c := c) (a := a) (by rw [hM]; rfl)
    exact ⟨c, (hl.sound a).sharers_lt c hbit, hbit, hM⟩

/-- What the children hold once all sharers have been sent their invalidation. -/
theorem sent_state (hl : Lists d w st) (hty : ty ≠ .FWD)
    (hx : ty = .INVX → (w.entry a).isExclusive = true) (c : ℕ) (b : Address) :
    (sent w a ty []).state c b =
      if b = a ∧ (w.entry a).sharers c = true then invState ty (w.state c b) else w.state c b := by
  have hchild : (sent w a ty []).children c =
      if (w.entry a).sharers c = true then (w.children c).store a (lineAfter ty) else w.children c := by
    simp [sent]
  cases hbit : (w.entry a).sharers c with
  | false =>
    rw [Replay.state, hchild, hbit, if_neg Bool.false_ne_true, if_neg fun h => Bool.false_ne_true h.2]
    rfl
  | true =>
    rw [Replay.state, hchild, hbit, if_pos rfl]
    by_cases hb : b = a
    · rw [if_pos ⟨hb, rfl⟩, hb, ChildInfo.store_self, lineAfter]
      cases ty with
      | INV => rfl
      | INVX =>
        have hexcl := (hl.sound a).exclusive_down (hx rfl) c hbit
        rw [← (hl.held hbit).1] at hexcl
        rw [invState, if_pos hexcl]
        rfl
      | FWD => exact absurd rfl hty
    · rw [if_neg fun h => hb h.1, ChildInfo.store_of_ne _ hb]
      rfl

/-- All sharers have been sent their invalidation, and the entry says so. -/
theorem sent_lowered (hl : Lists d w st) (hty : ty ≠ .FWD)
    (hx : ty = .INVX → (w.entry a).isExclusive = true) {wb : Bool} (hwb : ∀ c, w.state c a = .M → wb = true) :
    Lowered a ty w (((sent w a ty []).setEntry a (invEntry ty (w.entry a))).depart
      (.inv a ty (MESITopCC.dirtySharer d w a) wb)) where
  own := rfl
  entry := by
    simp only [sent, Replay.setEntry, Replay.depart, Function.update_idem]
  state := sent_state hl hty hx
  stored c b h := by
    change ((sent w a ty []).children c).cStore b = some .I at h
    have hchild : (sent w a ty []).children c =
        if (w.entry a).sharers c = true then (w.children c).store a (lineAfter ty) else w.children c := by
      simp [sent]
    rw [hchild] at h
    split at h
    · by_cases hb : b = a
      · rw [hb, ChildInfo.store_self, lineAfter] at h
        split at h <;> cases h
      · rwa [ChildInfo.store_of_ne _ hb] at h
    · exact h
  leaves := by
    refine ⟨[.inv a ty (MESITopCC.dirtySharer d w a) wb], rfl, fun dep hdep => ?_, fun c b hM => ?_⟩
    · rw [List.mem_singleton.mp hdep]
      intro hdirty
      obtain ⟨c, hM⟩ := (dirtySharer_iff hl).mp hdirty
      exact hwb c hM
    · by_cases hb : b = a
      · rw [hb] at hM ⊢
        exact .inr ⟨_, List.mem_singleton.mpr rfl, rfl, (dirtySharer_iff hl).mpr ⟨c, hM⟩, hwb c hM⟩
      · refine .inl ?_
        have hstate := sent_state hl hty hx c b
        rw [if_neg fun h => hb h.1, hM] at hstate
        exact hstate

/-- `sendInvalidates` fails nowhere, and says whether the data comes back. -/
theorem wp_sendInvalidates (hl : Lists d w st) (hty : ty ≠ .FWD) (wb : Bool) (cycle : ℕ) :
    wp (MESITopCC.sendInvalidates d a ty wb cycle) (fun r w' => cycle ≤ r.1 ∧
      (r.2 = true → wb = true ∨ ∃ c, w.state c a = .M) ∧ Lowered a ty w w') w := by
  have hag := hl.sound a
  simp only [MESITopCC.sendInvalidates, entryOf, setEntry, require, wp_bind, wp_observe, wp_ite, wp_pure]
  split
  · next hnone =>
    refine ⟨le_rfl, .inl, ?_⟩
    cases hnone with
    | inl hx =>
      have hstate : ∀ c, (w.entry a).sharers c = true → invState ty (w.state c a) = w.state c a := by
        intro c hbit
        rw [hx.1, invState, if_neg]
        intro hexcl
        rw [(hl.held hbit).1] at hexcl
        have hup := (hag.exclusive_up c hexcl).2
        rw [hx.2] at hup
        cases hup
      refine Lowered.refl ?_ hstate
      rw [hx.1, invEntry, hx.2, if_neg Bool.false_ne_true]
    | inr hempty =>
      have hv := hag.vacant_of_isEmpty hempty
      refine Lowered.refl (hv.invEntry_eq ty) fun c hbit => ?_
      rw [hv.2 c] at hbit
      cases hbit
  · next hsome =>
    have hx : ty = .INVX → (w.entry a).isExclusive = true := by
      intro he
      by_contra hne
      exact hsome (.inl ⟨he, Bool.eq_false_of_not_eq_true hne⟩)
    have hstart : Sending w a ty d.numChildren wb cycle (List.range d.numChildren) ⟨cycle, wb, 0⟩ w := by
      refine ⟨(sent_all hag.sharers_lt).symm, List.nodup_range, fun c hc => List.mem_range.mp hc, ?_, le_rfl,
        fun c hM => .inl ?_, .inl⟩
      · rw [countP_range, Nat.zero_add, hag.count]
      · have hbit := hl.sharer_of_exclusive (c := c) (a := a) (by rw [hM]; rfl)
        exact List.mem_range.mpr (hag.sharers_lt c hbit)
    have hloop := wp_foldlM (Sending w a ty d.numChildren wb cycle)
      (fun c rem acc w' h => wp_sendInvalidate hl h) hstart
    refine wp_mono hloop fun acc w' h => ?_
    have hreached := h.reached
    have hcount := h.count
    have hwb : ∀ c, w.state c a = .M → acc.writeback = true := fun c hM =>
      (h.dirty c hM).resolve_left List.not_mem_nil
    have hlow := sent_lowered hl hty hx hwb
    rw [List.countP_nil, Nat.add_zero] at hcount
    have hclean := h.clean
    have hcycle := h.cycle
    subst hreached
    cases ty with
    | INV =>
      have hentry : (sent w a .INV []).entry a = { w.entry a with sharers := fun _ => false } := by
        simp [sent]
      rw [invEntry, Entry.dropAll] at hlow
      simp only [if_true, wp_ensure, wp_change, hentry]
      exact ⟨hcount, hcycle, hclean, hlow⟩
    | INVX =>
      have hentry : (sent w a .INVX []).entry a = w.entry a := by simp [sent]
      have hexcl := (isExclusive_iff _).mp (hx rfl)
      rw [invEntry, if_pos (hx rfl)] at hlow
      simp only [reduceCtorEq, if_false, wp_ensure, wp_change, hentry]
      exact ⟨hcount, ⟨hexcl.2, hexcl.1⟩, hcycle, hclean, hlow⟩
    | FWD => exact absurd rfl hty

end Invalidates

section Parent

variable {d : Setup} {w w' : Replay} {a : Address}

/-- An invalidation that takes nothing from the parent itself keeps the entries right. -/
theorem Lowered.sound {ty : InvType} {st : ℕ → Address → MESIState} (hs : Sound d w st) (h : Lowered a ty w w') :
    Sound d w' fun c b => if b = a then invState ty (st c b) else st c b := by
  intro b
  have hb := hs b
  rw [h.own, h.entry]
  by_cases he : b = a
  · subst he
    simp only [if_true, Function.update_self]
    refine (hb.inv ty).changeOwn (fun c hc => hb.valid c ?_) fun c hc => (hb.exclusive_up c ?_).1
    · intro hI
      rw [hI, invState_I] at hc
      exact hc rfl
    · by_contra hx
      rw [invState_exclusive ty (Bool.eq_false_of_not_eq_true hx)] at hc
      cases hc
  · simp only [if_neg he, Function.update_of_ne he]
    exact hb

/-- Where all lines are listed, all of them are invalidated. -/
theorem Lowered.state_all {ty : InvType} (hs : Sound d w w.state) (h : Lowered a ty w w') :
    w'.state = fun c b => if b = a then invState ty (w.state c b) else w.state c b := by
  funext c b
  rw [h.state]
  by_cases hb : b = a
  · rw [if_pos hb, hb]
    cases hbit : (w.entry a).sharers c with
    | true => rw [if_pos ⟨rfl, rfl⟩]
    | false =>
      have hI : w.state c a = .I := by
        by_contra hne
        rw [((hs a).sharers_iff c).mpr hne] at hbit
        cases hbit
      rw [hI, invState_I, ite_self]
  · rw [if_neg hb, if_neg fun h => hb h.1]

/-- A change of a line's entry only. -/
theorem Sound.setEntry {st : ℕ → Address → MESIState} (hs : Sound d w st) {e : Entry}
    (he : Agrees d.numChildren (w.own a) e fun c => st c a) : Sound d (w.setEntry a e) st := by
  intro b
  by_cases hb : b = a
  · subst hb
    rw [Replay.setEntry_entry_self]
    exact he
  · rw [Replay.setEntry_entry_of_ne _ hb]
    exact hs b

/-- The parent's own state of a line may change while it still covers the children. -/
theorem Sound.setOwn {st : ℕ → Address → MESIState} (hs : Sound d w st) {s : MESIState}
    (hvalid : ∀ c, st c a ≠ .I → s ≠ .I) (hexcl : ∀ c, (st c a).exclusive = true → s.exclusive = true) :
    Sound d (w.setOwn a s) st := by
  intro b
  by_cases hb : b = a
  · subst hb
    rw [Replay.setOwn_own_self]
    exact (hs b).changeOwn hvalid hexcl
  · rw [Replay.setOwn_own_of_ne _ hb]
    exact hs b

/-- `MESICC::processInv`: an invalidation that the levels above may send. -/
theorem wp_finishInvalidate (hs : Sound d w w.state) {ty : InvType} (hallowed : allowed d ty (w.own a) = true) :
    wp (finishInvalidate d a ty) (fun _ w' => Sound d w' w'.state ∧ Below w w' ∧
      ∀ b, w.own b = .I → w'.own b = .I) w := by
  have hne : w.own a ≠ .I := by
    intro hI
    rw [hI] at hallowed
    cases ty <;> cases hallowed
  have hkeep : ∀ s b, w.own b = .I → Function.update w.own a s b = .I := by
    intro s b hb
    have he : b ≠ a := by
      intro he
      rw [he] at hb
      exact hne hb
    rwa [Function.update_of_ne he]
  cases ty with
  | FWD =>
    simp only [allowed, Bool.and_eq_true, beq_iff_eq, Bool.not_eq_true'] at hallowed
    simp only [finishInvalidate, MESITopCC.processInval, MESIBottomCC.processInval, ownOf, require, if_true,
      wp_bind, wp_ensure, wp_observe, wp_pure]
    exact ⟨hallowed.2, hne, hallowed.1, hs, Below.refl w, fun b hb => hb⟩
  | INV =>
    have hsend := wp_sendInvalidates (a := a) (Lists.refl hs) (by decide : InvType.INV ≠ .FWD) false d.invLat
    simp only [finishInvalidate, MESITopCC.processInval, reduceCtorEq, if_false, wp_bind]
    refine wp_mono hsend fun r w' hr => ?_
    have hlow := hr.2.2
    have hstate := hlow.state_all hs
    have hs' := hlow.sound hs
    rw [← hstate] at hs'
    have hI : ∀ c, w'.state c a = .I := by
      intro c
      rw [hstate]
      exact if_pos rfl
    have hown : w'.own a ≠ .I := by rwa [hlow.own]
    simp only [MESIBottomCC.processInval, ownOf, setOwn, require, wp_bind, wp_ensure, wp_observe, wp_change, wp_pure]
    refine ⟨hown, hs'.setOwn (fun c hc => absurd (hI c) hc) fun c hc => ?_,
      hlow.below.trans (Same.below ⟨fun _ => rfl, rfl⟩), fun b hb => ?_⟩
    · rw [hI c] at hc
      cases hc
    · rw [Replay.setOwn, hlow.own]
      exact hkeep .I b hb
  | INVX =>
    have hsend := wp_sendInvalidates (a := a) (Lists.refl hs) (by decide : InvType.INVX ≠ .FWD) false d.invLat
    simp only [finishInvalidate, MESITopCC.processInval, reduceCtorEq, if_false, wp_bind]
    refine wp_mono hsend fun r w' hr => ?_
    have hlow := hr.2.2
    have hstate := hlow.state_all hs
    have hs' := hlow.sound hs
    rw [← hstate] at hs'
    have hx : ∀ c, (w'.state c a).exclusive = false := by
      intro c
      rw [hstate]
      simp only [if_true, invState]
      split
      · rfl
      · next hne => exact Bool.eq_false_of_not_eq_true hne
    have hown : (w'.own a).exclusive = true := by rwa [hlow.own]
    simp only [MESIBottomCC.processInval, ownOf, setOwn, require, wp_bind, wp_ensure, wp_observe, wp_change, wp_pure]
    refine ⟨ne_I_of_exclusive hown, hown, hs'.setOwn (fun _ _ h => by cases h) fun c hc => ?_,
      hlow.below.trans (Same.below ⟨fun _ => rfl, rfl⟩), fun b hb => ?_⟩
    · rw [hx c] at hc
      cases hc
    · rw [Replay.setOwn, hlow.own]
      exact hkeep .S b hb

/-- Invalidations from above fail nowhere. -/
theorem wp_invalidations (invs : List (Address × InvType)) (hs : Sound d w w.state) :
    wp (invalidations d invs) (fun _ w' => Sound d w' w'.state ∧ Below w w' ∧ ∀ b, w.own b = .I → w'.own b = .I) w := by
  induction invs generalizing w with
  | nil =>
    simp only [invalidations, wp_pure]
    exact ⟨hs, Below.refl w, fun b hb => hb⟩
  | cons inv invs ih =>
    simp only [invalidations, ownOf, wp_bind, wp_observe, wp_ite, wp_pure]
    split
    · next hallowed =>
      refine wp_mono (wp_finishInvalidate hs hallowed) fun _ w₁ h₁ => ?_
      refine wp_mono (ih h₁.1) fun _ w₂ h₂ => ?_
      exact ⟨h₂.1, h₁.2.1.trans h₂.2.1, fun b hb => h₂.2.2 b (h₁.2.2 b hb)⟩
    · exact ih hs

/-- A request leaves the line in the state it is granted, if that covers the children. -/
theorem wp_request (hs : Sound d w w.state) (type : AccessType) (cycle : ℕ)
    (hcover : type ≠ .GETX → ∀ c, w.state c a = .I) :
    wp (request d a type cycle) (fun r w' => cycle ≤ r ∧ Sound d w' w'.state ∧ Below w w' ∧
      (∃ exclusive, w'.own a = grantedState exclusive type) ∧ ∀ b, b ≠ a → w.own b = .I → w'.own b = .I) w := by
  simp only [request, setOwn, wp_bind, wp_observe, wp_change, wp_pure]
  have hinvs := wp_invalidations (d := d) (w := { w with upcalls := w.upcalls.tail })
    (w.upcalls.headD ⟨[], false, 0⟩).invs hs
  refine wp_mono hinvs fun _ w' h => ?_
  obtain ⟨hs', hb, hI⟩ := h
  have hread : Below w { w with upcalls := w.upcalls.tail } := Same.below ⟨fun _ => rfl, rfl⟩
  have hbelow := hread.trans hb
  have hstate : type ≠ .GETX → ∀ c, w'.state c a = .I := fun ht c => hbelow.invalid c a (hcover ht c)
  refine ⟨Nat.le_add_right _ _, hs'.setOwn (fun c hc => ?_) fun c hc => ?_, hbelow.trans (Same.below ⟨fun _ => rfl, rfl⟩),
    ⟨_, Replay.setOwn_own_self ..⟩, fun b hne hown => ?_⟩
  · by_cases ht : type = .GETX
    · rw [ht]
      exact fun h => by cases h
    · exact absurd (hstate ht c) hc
  · by_cases ht : type = .GETX
    · rw [ht]
      rfl
    · rw [hstate ht c] at hc
      cases hc
  · rw [Replay.setOwn_own_of_ne _ hne]
    exact hI b hown

/-- Writing back a line marks it as modified. -/
theorem Sound.markModified {st : ℕ → Address → MESIState} (hs : Sound d w st) (b : Address) :
    Sound d (w.setOwn b .M) st :=
  hs.setOwn (fun _ _ h => by cases h) fun _ _ => rfl

/-- What is left of a replacement when the line is requested to be put. -/
theorem wp_requestPut (hs : Sound d w w.state) (hI : ∀ c, w.state c a = .I) {type : AccessType}
    (ht : type = .PUTS ∨ type = .PUTX) (cycle : ℕ) :
    wp (request d a type cycle) (fun _ w' => w'.own a = .I ∧ Sound d w' w'.state ∧ Below w w' ∧
      ∀ b, b ≠ a → w.own b = .I → w'.own b = .I) w := by
  refine wp_mono (wp_request hs type cycle fun _ => hI) fun r w' h => ?_
  obtain ⟨-, hs', hb, ⟨x, hx⟩, hown⟩ := h
  have hput : grantedState x type = .I := by
    cases ht with
    | inl he => rw [he]; rfl
    | inr he => rw [he]; rfl
  exact ⟨hx.trans hput, hs', hb, hown⟩

/-- The eviction of a line of the parent, after its children have lost it. -/
theorem wp_processEviction (hs : Sound d w w.state) (hI : ∀ c, w.state c a = .I) {wb : Bool}
    (hwb : wb = true → (w.own a).exclusive = true) (cycle : ℕ) :
    wp (MESIBottomCC.processEviction d a wb cycle) (fun _ w' => Sound d w' w'.state ∧ Below w w' ∧
      ∀ b, b ≠ a → w.own b = .I → w'.own b = .I) w := by
  cases wb with
  | true =>
    have hput := wp_requestPut (hs.markModified a) hI (Or.inr rfl : AccessType.PUTX = .PUTS ∨ _) cycle
    simp only [MESIBottomCC.processEviction, ownOf, setOwn, require, if_true, wp_bind, wp_observe, wp_ensure,
      wp_change, wp_pure, Replay.setOwn_own_self]
    refine ⟨hwb rfl, wp_mono hput fun _ w' h => ?_⟩
    have hbelow : Below w (w.setOwn a .M) := Same.below ⟨fun _ => rfl, rfl⟩
    refine ⟨h.1, h.2.1, hbelow.trans h.2.2.1, fun b hb hown => h.2.2.2 b hb ?_⟩
    rwa [Replay.setOwn_own_of_ne _ hb]
  | false =>
    simp only [MESIBottomCC.processEviction, ownOf, require, Bool.false_eq_true, if_false, wp_bind, wp_observe,
      wp_ensure, wp_pure]
    cases hown : w.own a with
    | I =>
      simp only [wp_pure]
      exact ⟨hown, hs, Below.refl w, fun _ _ h => h⟩
    | S => exact wp_mono (wp_requestPut hs hI (.inl rfl) cycle) fun _ _ h => h
    | E => exact wp_mono (wp_requestPut hs hI (.inl rfl) cycle) fun _ _ h => h
    | M => exact wp_mono (wp_requestPut hs hI (.inr rfl) cycle) fun _ _ h => h

/-- What the parent's children and the entry are after `MESITopCC::processEviction`. -/
theorem wp_topEviction (hs : Sound d w w.state) (cycle : ℕ)
    (hheld : d.nonInclusiveHack = true → ∀ c, w.state c a = .I) :
    wp (MESITopCC.processEviction d a cycle) (fun r w' => Sound d w' w'.state ∧ Below w w' ∧ w'.own = w.own ∧
      (∀ c, w'.state c a = .I) ∧ (r.2 = true → (w.own a).exclusive = true)) w := by
  simp only [MESITopCC.processEviction, wp_ite]
  split
  · next hhack =>
    simp only [setEntry, wp_bind, wp_change, wp_pure]
    exact ⟨hs.setEntry (Agrees.vacant _ clear_vacant (hheld hhack)), Same.below ⟨fun _ => rfl, rfl⟩, rfl, hheld hhack,
      by simp⟩
  · refine wp_mono (wp_sendInvalidates (Lists.refl hs) (by decide : InvType.INV ≠ .FWD) false cycle) fun r w' h => ?_
    obtain ⟨-, hclean, hlow⟩ := h
    have hstate := hlow.state_all hs
    have hs' := hlow.sound hs
    rw [← hstate] at hs'
    refine ⟨hs', hlow.below, hlow.own, fun c => ?_, fun hr => ?_⟩
    · rw [hstate]
      exact if_pos rfl
    · obtain ⟨c, hM⟩ := (hclean hr).resolve_left Bool.false_ne_true
      exact ((hs a).exclusive_up c (by rw [hM]; rfl)).1

/-- The replacement of a line keeps the replay sound; a parent that is not inclusive
must not replace a line that a child holds. -/
theorem wp_replace (hs : Sound d w w.state) (cycle : ℕ)
    (hvictim : d.nonInclusiveHack = true → ∀ v, w.victims.headD none = some v → v ≠ a → ∀ c, w.state c v = .I) :
    wp (replace d a cycle) (fun _ w' => Sound d w' w'.state ∧ Below w w' ∧ (w.own a = .I → w'.own a = .I)) w := by
  have hread : Below w { w with victims := w.victims.tail } := Same.below ⟨fun _ => rfl, rfl⟩
  simp only [replace, wp_bind, wp_observe, wp_change]
  cases hv : w.victims.headD none with
  | none =>
    simp only [wp_pure]
    exact ⟨hs, hread, fun h => h⟩
  | some v =>
    simp only [wp_ite, wp_pure]
    split
    · exact ⟨hs, hread, fun h => h⟩
    · next hne =>
      simp only [wp_bind]
      have htop := wp_topEviction (d := d) (w := { w with victims := w.victims.tail }) (a := v) hs cycle
        fun hhack => hvictim hhack v hv hne
      refine wp_mono htop fun r w₁ h₁ => ?_
      obtain ⟨hs₁, hb₁, hown₁, hI₁, hr⟩ := h₁
      rw [← hown₁] at hr
      refine wp_mono (wp_processEviction hs₁ hI₁ hr r.1) fun _ w₂ h₂ => ?_
      rw [wp_pure]
      refine ⟨h₂.1, (hread.trans hb₁).trans h₂.2.1, fun hI => h₂.2.2 a (Ne.symm hne) ?_⟩
      rw [hown₁]
      exact hI

theorem wp_fetch (hs : Sound d w w.state) (type : AccessType) (cycle : ℕ)
    (hcover : type ≠ .GETX → ∀ c, w.state c a = .I) :
    wp (MESIBottomCC.fetch d a type cycle) (fun r w' => cycle ≤ r ∧ Sound d w' w'.state ∧ Below w w' ∧
      ∃ exclusive, w'.own a = grantedState exclusive type) w := by
  simp only [MESIBottomCC.fetch, wp_bind, wp_pure]
  refine wp_mono (wp_request hs type cycle hcover) fun r w' h => ?_
  exact ⟨Nat.le_add_right _ _, h.2.1, h.2.2.1, h.2.2.2.1⟩

/-- The parent gets itself the permissions for a GETS. -/
theorem wp_bottomGets (hs : Sound d w w.state) (cycle : ℕ) :
    wp (MESIBottomCC.processAccess d a .GETS cycle) (fun r w' => cycle ≤ r ∧ Sound d w' w'.state ∧ Below w w' ∧
      w'.own a ≠ .I) w := by
  simp only [MESIBottomCC.processAccess, ownOf, require, wp_bind, wp_observe, wp_ensure, wp_ite, wp_pure]
  split
  · next hI =>
    have hchild : ∀ c, w.state c a = .I := by
      have hag := hs a
      rw [hI] at hag
      exact hag.child_I_of_own_I
    refine wp_mono (wp_fetch hs .GETS cycle fun _ => hchild) fun r w' h => ?_
    obtain ⟨hle, hs', hb, x, hx⟩ := h
    have hown : w'.own a = .S ∨ w'.own a = .E := by
      rw [hx, grantedState]
      cases x with
      | false => exact .inl rfl
      | true => exact .inr rfl
    refine ⟨hown, hle, hle, hs', hb, ?_⟩
    cases hown with
    | inl h => rw [h]; simp
    | inr h => rw [h]; simp
  · next hne => exact ⟨le_rfl, le_rfl, hs, Below.refl w, hne⟩

/-- The parent gets itself the permissions for a GETX. -/
theorem wp_bottomGetx (hs : Sound d w w.state) (cycle : ℕ) :
    wp (MESIBottomCC.processAccess d a .GETX cycle) (fun r w' => cycle ≤ r ∧ Sound d w' w'.state ∧ Below w w' ∧
      w'.own a = .M) w := by
  simp only [MESIBottomCC.processAccess, ownOf, setOwn, require, wp_bind, wp_observe, wp_ensure, wp_ite, wp_pure,
    wp_change]
  split
  · refine wp_mono (wp_fetch hs .GETX cycle fun h => absurd rfl h) fun r w' h => ?_
    obtain ⟨hle, hs', hb, x, hx⟩ := h
    exact ⟨hx, hle, hle, hs', hb, hx⟩
  · next hne =>
    split
    · exact ⟨Replay.setOwn_own_self .., le_rfl, le_rfl, hs.markModified a, Same.below ⟨fun _ => rfl, rfl⟩,
        Replay.setOwn_own_self ..⟩
    · next hE =>
      have hM : w.own a = .M := by
        cases hown : w.own a with
        | I => exact absurd (.inl hown) hne
        | S => exact absurd (.inr hown) hne
        | E => exact absurd hown hE
        | M => rfl
      exact ⟨hM, le_rfl, le_rfl, hs, Below.refl w, hM⟩

/-- The states with that of one line replaced. -/
def override (st : ℕ → Address → MESIState) (c : ℕ) (a : Address) (s : MESIState) : ℕ → Address → MESIState :=
  fun c' b => if b = a then Function.update (fun c' => st c' a) c s c' else st c' b

theorem sound_override {st : ℕ → Address → MESIState} {c : ℕ} {s : MESIState}
    (ha : Agrees d.numChildren (w.own a) (w.entry a) (Function.update (fun c' => st c' a) c s))
    (hb : ∀ b, b ≠ a → Agrees d.numChildren (w.own b) (w.entry b) fun c' => st c' b) :
    Sound d w (override st c a s) := by
  intro b
  by_cases he : b = a
  · subst he
    simp only [override, if_true]
    exact ha
  · simp only [override, if_neg he]
    exact hb b he

/-- A GETS that the parent can answer. -/
theorem wp_topGets (hs : Sound d w w.state) {c : ℕ} (hc : c < d.numChildren) (hI : w.state c a = .I)
    (hown : w.own a ≠ .I) (cycle : ℕ) :
    wp (MESITopCC.processAccess d a .GETS c (w.own a).exclusive cycle) (fun r w' => cycle ≤ r.1 ∧ r.2.2 ≠ .I ∧
      Below w w' ∧ Sound d w' (override w'.state c a r.2.2) ∧ (r.2.1 = true → (w'.own a).exclusive = true)) w := by
  have hbit : (w.entry a).sharers c = false := by
    cases hbit : (w.entry a).sharers c with
    | false => rfl
    | true => exact absurd hI (((hs a).sharers_iff c).mp hbit)
  simp only [MESITopCC.processAccess, entryOf, setEntry, require, wp_bind, wp_observe, wp_ensure, wp_ite, wp_pure,
    wp_change]
  split
  · next hexcl =>
    refine ⟨le_rfl, by simp, Same.below ⟨fun _ => rfl, rfl⟩, sound_override ?_ fun b hb => ?_, by simp⟩
    · rw [Replay.setEntry_entry_self]
      exact (hs a).getsExclusive hexcl.1 hexcl.2 hc
    · rw [Replay.setEntry_entry_of_ne _ hb]
      exact hs b
  · refine ⟨hbit, ?_⟩
    have hshared : ∀ w', Sound d w' w'.state → Below w w' → w'.own = w.own → (w'.entry a).isExclusive = false →
        Sound d (w'.setEntry a { (w'.entry a).addSharer c with exclusive := false })
          (override w'.state c a .S) := by
      intro w' hs' hb hown' hx
      refine sound_override ?_ fun b hne => ?_
      · rw [Replay.setEntry_entry_self]
        exact (hs' a).getsShared hx (by rwa [hown']) hc (hb.invalid c a hI)
      · rw [Replay.setEntry_entry_of_ne _ hne]
        exact hs' b
    split
    · next hx =>
      refine wp_mono (wp_sendInvalidates (Lists.refl hs) (by decide : InvType.INVX ≠ .FWD) false cycle) fun r w' h => ?_
      obtain ⟨hle, hclean, hlow⟩ := h
      have hs' := hlow.sound hs
      rw [← hlow.state_all hs] at hs'
      have hx' : (w'.entry a).isExclusive = false := by
        rw [hlow.entry, Function.update_self, invEntry, if_pos hx]
        simp [Entry.isExclusive]
      refine ⟨hx', hle, by simp, hlow.below.trans (Same.below ⟨fun _ => rfl, rfl⟩), hshared w' hs' hlow.below hlow.own hx',
        fun hr => ?_⟩
      obtain ⟨c', hM⟩ := (hclean hr).resolve_left Bool.false_ne_true
      rw [Replay.setEntry_own, hlow.own]
      exact ((hs a).exclusive_up c' (by rw [hM]; rfl)).1
    · next hx =>
      have hx := Bool.eq_false_of_not_eq_true hx
      exact ⟨hx, le_rfl, by simp, Same.below ⟨fun _ => rfl, rfl⟩, hshared w hs (Below.refl w) rfl hx, by simp⟩

theorem override_of_ne {st : ℕ → Address → MESIState} {c c' : ℕ} {b : Address} (s : MESIState)
    (h : ¬ (c' = c ∧ b = a)) : override st c a s c' b = st c' b := by
  rw [override]
  split
  · next hb => rw [Function.update_of_ne fun hc => h ⟨hc, hb⟩, hb]
  · rfl

@[simp] theorem override_self (st : ℕ → Address → MESIState) (c : ℕ) (a : Address) (s : MESIState) :
    override st c a s c a = s := by
  rw [override, if_pos rfl, Function.update_self]

/-- Before an upgrade the child keeps the line that the parent takes off its list. -/
theorem lists_override {c : ℕ} (hs : Sound d w (override w.state c a .I)) (hx : (w.state c a).exclusive = false) :
    Lists d w (override w.state c a .I) := by
  refine ⟨hs, fun c' b hne => ?_, fun c' b hI => ?_⟩
  · by_cases h : c' = c ∧ b = a
    · rw [h.1, h.2, override_self] at hne
      exact absurd rfl hne
    · rw [override_of_ne _ h]
  · by_cases h : c' = c ∧ b = a
    · rw [h.1, h.2]
      exact hx
    · rw [override_of_ne _ h] at hI
      rw [hI]
      rfl

/-- The end of a GETX: no other child keeps the line. -/
theorem wp_invalidateOthers {c : ℕ} (hs : Sound d w (override w.state c a .I))
    (hx : (w.state c a).exclusive = false) (hc : c < d.numChildren) (hown : w.own a = .M) (cycle : ℕ) :
    wp (MESITopCC.sendInvalidates d a .INV false cycle) (fun r w' => (w'.entry a).numSharers + 1 = 1 ∧ cycle ≤ r.1 ∧
      Below w w' ∧ w'.own a = .M ∧ Sound d (w'.setEntry a { (w'.entry a).addSharer c with exclusive := true })
        (override w'.state c a .M)) w := by
  have hl := lists_override hs hx
  refine wp_mono (wp_sendInvalidates hl (by decide : InvType.INV ≠ .FWD) false cycle) fun r w' h => ?_
  obtain ⟨hle, -, hlow⟩ := h
  have hentry : w'.entry a = (w.entry a).dropAll := by
    rw [hlow.entry, Function.update_self, invEntry]
  have hv : (w'.entry a).Vacant := by
    rw [hentry]
    exact dropAll_vacant _
  have hothers : ∀ c', c' ≠ c → w'.state c' a = .I := by
    intro c' hne
    have hst : override w.state c a .I c' a = w.state c' a := override_of_ne _ fun h => hne h.1
    rw [hlow.state]
    split
    · rfl
    · next hbit =>
      by_contra hI
      rw [← hst] at hI
      exact hbit ⟨rfl, ((hs a).sharers_iff c').mpr hI⟩
  have hown' : w'.own a = .M := by rw [hlow.own, hown]
  refine ⟨by rw [hv.1], hle, hlow.below, hown', sound_override ?_ fun b hb => ?_⟩
  · rw [Replay.setEntry_entry_self]
    refine Agrees.getx hv ?_ hc hothers
    rw [Replay.setEntry_own, hown']
    rfl
  · have hb' := hlow.sound hs b
    simp only [if_neg hb] at hb'
    have hstate : (fun c' => w'.state c' b) = fun c' => override w.state c a .I c' b := by
      funext c'
      rw [hlow.state, if_neg fun h => hb h.1, override_of_ne _ fun h => hb h.2]
    rw [Replay.setEntry_entry_of_ne _ hb, hstate]
    exact hb'

/-- A GETX that the parent can answer. -/
theorem wp_topGetx (hs : Sound d w w.state) {c : ℕ} (hc : c < d.numChildren)
    (hx : (w.state c a).exclusive = false) (hown : w.own a = .M) (cycle : ℕ) :
    wp (MESITopCC.processAccess d a .GETX c (w.own a).exclusive cycle) (fun r w' => cycle ≤ r.1 ∧ r.2.2 ≠ .I ∧
      Below w w' ∧ Sound d w' (override w'.state c a r.2.2) ∧ (r.2.1 = true → (w'.own a).exclusive = true)) w := by
  have hexcl : (w.own a).exclusive = true := by rw [hown]; rfl
  simp only [MESITopCC.processAccess, entryOf, setEntry, require, wp_bind, wp_observe, wp_ensure, wp_ite, wp_pure,
    wp_change]
  refine ⟨hexcl, ?_⟩
  split
  · next hbit =>
    have hne := ((hs a).sharers_iff c).mp hbit
    have hnot : (w.entry a).isExclusive = false := by
      cases he : (w.entry a).isExclusive with
      | false => rfl
      | true =>
        have hcon := (hs a).exclusive_down he c hbit
        rw [hx] at hcon
        cases hcon
    have hdrop : Sound d (w.setEntry a ((w.entry a).dropSharer c)) (override w.state c a .I) := by
      refine sound_override ?_ fun b hb => ?_
      · rw [Replay.setEntry_entry_self]
        exact (hs a).put hne
      · rw [Replay.setEntry_entry_of_ne _ hb]
        exact hs b
    have hbelow : Below w (w.setEntry a ((w.entry a).dropSharer c)) := Same.below ⟨fun _ => rfl, rfl⟩
    refine ⟨hnot, wp_mono (wp_invalidateOthers (w := w.setEntry a ((w.entry a).dropSharer c)) hdrop hx hc hown cycle)
      fun r w' h => ?_⟩
    obtain ⟨hone, hle, hb, hM, hs'⟩ := h
    refine ⟨hone, hle, by simp, (hbelow.trans hb).trans (Same.below ⟨fun _ => rfl, rfl⟩), hs', fun _ => ?_⟩
    rw [Replay.setEntry_own, hM]
    rfl
  · next hbit =>
    have hI : w.state c a = .I := by
      by_contra hne
      exact hbit (((hs a).sharers_iff c).mpr hne)
    have hsame : Sound d w (override w.state c a .I) := by
      refine sound_override ?_ fun b _ => hs b
      rw [← hI, Function.update_eq_self]
      exact hs a
    refine wp_mono (wp_invalidateOthers hsame hx hc hown cycle) fun r w' h => ?_
    obtain ⟨hone, hle, hb, hM, hs'⟩ := h
    refine ⟨hone, hle, by simp, hb.trans (Same.below ⟨fun _ => rfl, rfl⟩), hs', fun _ => ?_⟩
    rw [Replay.setEntry_own, hM]
    rfl

/-- The writeback of a line that an access took from another child. -/
theorem wp_writebackOnAccess {st : ℕ → Address → MESIState} (hs : Sound d w st) {wb : Bool}
    (hwb : wb = true → (w.own a).exclusive = true) :
    wp (if wb = true then MESIBottomCC.processWritebackOnAccess a else pure ())
      (fun _ w' => Same w w' ∧ Sound d w' st) w := by
  rw [wp_ite]
  split
  · next h =>
    simp only [MESIBottomCC.processWritebackOnAccess, ownOf, setOwn, require, wp_bind, wp_observe, wp_ensure, wp_ite,
      wp_change, wp_pure]
    refine ⟨hwb h, ?_⟩
    split
    · exact ⟨⟨fun _ => rfl, rfl⟩, hs.markModified a⟩
    · exact ⟨⟨fun _ => rfl, rfl⟩, hs⟩
  · simp only [wp_pure]
    exact ⟨⟨fun _ => rfl, rfl⟩, hs⟩

/-- A GET of a line that the child does not hold, or holds in S and asks to write. -/
theorem wp_accessGet (hs : Sound d w w.state) {c : ℕ} (hc : c < d.numChildren) {type : AccessType}
    (htype : type = .GETS ∧ w.state c a = .I ∨ type = .GETX ∧ (w.state c a).exclusive = false)
    (hvictim : d.nonInclusiveHack = true → w.own a = .I →
      ∀ v, w.victims.headD none = some v → v ≠ a → ∀ c, w.state c v = .I) (cycle : ℕ) :
    wp (access d a type c cycle) (fun r w' => r.2 ≠ .I ∧ Below w w' ∧ Sound d w' (override w'.state c a r.2)) w := by
  have hreplace : wp (if w.own a = .I then replace d a (cycle + d.accLat) else pure ())
      (fun _ w' => Sound d w' w'.state ∧ Below w w') w := by
    rw [wp_ite]
    split
    · next hI =>
      exact wp_mono (wp_replace hs _ fun hhack => hvictim hhack hI) fun _ w' h => ⟨h.1, h.2.1⟩
    · rw [wp_pure]
      exact ⟨hs, Below.refl w⟩
  have hput : ¬ ((type = .PUTS ∨ type = .PUTX) ∧ w.own a = .I) := by
    rintro ⟨hput | hput, -⟩
    · cases htype with
      | inl h => rw [h.1] at hput; cases hput
      | inr h => rw [h.1] at hput; cases hput
    · cases htype with
      | inl h => rw [h.1] at hput; cases hput
      | inr h => rw [h.1] at hput; cases hput
  have hend : ∀ (r : ℕ × Bool × MESIState) (w' : Replay), cycle + d.accLat ≤ r.1 → r.2.2 ≠ .I → Below w w' →
      Sound d w' (override w'.state c a r.2.2) → (r.2.1 = true → (w'.own a).exclusive = true) →
      wp (if r.2.1 = true then MESIBottomCC.processWritebackOnAccess a else pure ())
        (fun _ w'' => cycle ≤ r.1 ∧ r.2.2 ≠ .I ∧ Below w w'' ∧ Sound d w'' (override w''.state c a r.2.2)) w' := by
    intro r w' hle hne hb hs' hwb
    refine wp_mono (wp_writebackOnAccess hs' hwb) fun _ w'' h => ?_
    refine ⟨by omega, hne, hb.trans h.1.below, ?_⟩
    rw [h.1.state]
    exact h.2
  simp only [access, ownOf, require, wp_bind, wp_observe, if_neg hput, wp_ensure, wp_pure]
  refine wp_mono hreplace fun _ w₁ h₁ => ?_
  obtain ⟨hs₁, hb₁⟩ := h₁
  cases htype with
  | inl h =>
    obtain ⟨rfl, hI⟩ := h
    refine wp_mono (wp_bottomGets hs₁ _) fun resp w₂ h₂ => ?_
    obtain ⟨hle₂, hs₂, hb₂, hown₂⟩ := h₂
    have hI₂ := hb₂.invalid c a (hb₁.invalid c a hI)
    refine wp_mono (wp_topGets hs₂ hc hI₂ hown₂ resp) fun r w₃ h₃ => ?_
    obtain ⟨hle₃, hne, hb₃, hs₃, hwb⟩ := h₃
    exact hend r w₃ (hle₂.trans hle₃) hne ((hb₁.trans hb₂).trans hb₃) hs₃ hwb
  | inr h =>
    obtain ⟨rfl, hx⟩ := h
    refine wp_mono (wp_bottomGetx hs₁ _) fun resp w₂ h₂ => ?_
    obtain ⟨hle₂, hs₂, hb₂, hown₂⟩ := h₂
    have hx₂ := hb₂.shared c a (hb₁.shared c a hx)
    refine wp_mono (wp_topGetx hs₂ hc hx₂ hown₂ resp) fun r w₃ h₃ => ?_
    obtain ⟨hle₃, hne, hb₃, hs₃, hwb⟩ := h₃
    exact hend r w₃ (hle₂.trans hle₃) hne ((hb₁.trans hb₂).trans hb₃) hs₃ hwb

/-- A PUT of a line that the child holds, by the type that its state allows. -/
theorem wp_accessPut (hs : Sound d w w.state) {c : ℕ} (hne : w.state c a ≠ .I) {type : AccessType}
    (htype : type = .PUTS ∨ type = .PUTX ∧ (w.state c a).exclusive = true) (cycle : ℕ) :
    wp (access d a type c cycle) (fun r w' => r.2 = .I ∧ Same w w' ∧ w'.own a ≠ .I ∧
      Sound d w' (override w'.state c a .I)) w := by
  have hbit := ((hs a).sharers_iff c).mpr hne
  have hown := (hs a).valid c hne
  have hdrop : ∀ w' : Replay, Sound d w' w.state →
      Sound d (w'.setEntry a ((w'.entry a).dropSharer c)) (override w.state c a .I) := by
    intro w' hs'
    refine sound_override ?_ fun b hb => ?_
    · rw [Replay.setEntry_entry_self]
      exact (hs' a).put hne
    · rw [Replay.setEntry_entry_of_ne _ hb]
      exact hs' b
  have hput : ¬ ((type = .PUTS ∨ type = .PUTX) ∧ w.own a = .I) := fun h => hown h.2
  simp only [access, ownOf, require, wp_bind, wp_observe, if_neg hput, if_neg hown, wp_ensure, wp_pure]
  cases htype with
  | inl h =>
    subst h
    simp only [MESIBottomCC.processAccess, MESITopCC.processAccess, MESITopCC.removeSharer, ownOf, entryOf,
      setEntry, require, wp_bind, wp_observe, wp_ensure, wp_ite, wp_change, wp_pure, if_neg Bool.false_ne_true]
    exact ⟨hown, le_rfl, hbit, Nat.le_add_right _ _, trivial, ⟨fun _ => rfl, rfl⟩, hown, hdrop w hs⟩
  | inr h =>
    obtain ⟨rfl, hx⟩ := h
    have hup := (hs a).exclusive_up c hx
    simp only [MESIBottomCC.processAccess, MESITopCC.processAccess, MESITopCC.removeSharer, ownOf, setOwn, entryOf,
      setEntry, require, wp_bind, wp_observe, wp_ensure, wp_ite, wp_change, wp_pure, if_neg Bool.false_ne_true]
    refine ⟨hup.1, ?_⟩
    split
    · have hM : ((w.setOwn a .M).setEntry a (((w.setOwn a .M).entry a).dropSharer c)).own a ≠ .I := by
        rw [Replay.setEntry_own, Replay.setOwn_own_self]
        simp
      exact ⟨le_rfl, hup.2, hbit, Nat.le_add_right _ _, trivial, ⟨fun _ => rfl, rfl⟩, hM,
        hdrop _ (hs.markModified a)⟩
    · exact ⟨le_rfl, hup.2, hbit, Nat.le_add_right _ _, trivial, ⟨fun _ => rfl, rfl⟩, hown, hdrop w hs⟩

end Parent

section Driver

variable {d : Setup} {w w' : Replay} {a : Address} {c : ℕ}

theorem setStore_state (w : Replay) (c : ℕ) (a : Address) (s : Option MESIState) :
    (w.setStore c a s).state = override w.state c a (s.getD .I) := by
  funext c' b
  by_cases h : c' = c ∧ b = a
  · rw [h.1, h.2, override_self, Replay.state, Replay.setStore, Replay.setChild_self, ChildInfo.store_self]
  · rw [override_of_ne _ h, Replay.state, Replay.setStore]
    by_cases hc : c' = c
    · rw [hc, Replay.setChild_self, ChildInfo.store_of_ne _ fun hb => h ⟨hc, hb⟩]
      rfl
    · rw [Replay.setChild_of_ne _ hc]
      rfl

theorem setStore_stored (w : Replay) {c : ℕ} {a : Address} {s : Option MESIState} {c' : ℕ} {b : Address}
    (h : (((w.setStore c a s).children c').cStore b) = some .I) :
    (c' = c ∧ b = a ∧ s = some .I) ∨ (¬ (c' = c ∧ b = a) ∧ (w.children c').cStore b = some .I) := by
  rw [Replay.setStore] at h
  by_cases hc : c' = c
  · rw [hc, Replay.setChild_self] at h
    by_cases hb : b = a
    · rw [hb, ChildInfo.store_self] at h
      exact .inl ⟨hc, hb, h⟩
    · rw [ChildInfo.store_of_ne _ hb] at h
      exact .inr ⟨fun he => hb he.2, by rwa [hc]⟩
  · rw [Replay.setChild_of_ne _ hc] at h
    exact .inr ⟨fun he => hc he.1, h⟩

/-- A child may be replaced by one with the same lines. -/
theorem same_setChild {i : ChildInfo} (h : i.cStore = (w.children c).cStore) : Same w (w.setChild c i) := by
  refine ⟨fun c' => ?_, rfl⟩
  by_cases hc : c' = c
  · rw [hc, Replay.setChild_self, h]
  · rw [Replay.setChild_of_ne _ hc]

theorem Coherent.keep (h : Coherent d w) (hown : w'.own = w.own) (hentry : w'.entry = w.entry) (hs : Same w w') :
    Coherent d w' where
  sound b := by
    rw [hs.state, hown, hentry]
    exact h.sound b
  stored c a := by
    rw [hs.stores]
    exact h.stored c a

/-- What a PUT of a line leaves behind, before the line is erased. -/
structure Put (d : Setup) (c : ℕ) (a : Address) (w w' : Replay) : Prop where
  sound : Sound d w' w'.state
  leaves : Leaves w w'
  gone : w'.state c a = .I
  own : w'.own a ≠ .I
  stored : ∀ c' b, (w'.children c').cStore b = some .I → c' = c ∧ b = a

/-- A PUT whose type fits the state of the line. -/
theorem wp_put (h : Coherent d w) {s : MESIState} (hstored : (w.children c).cStore a = some s) {type : AccessType}
    (htype : type = .PUTS ∧ s ≠ .M ∨ type = .PUTX ∧ s = .M) (reqCycle : UInt64) :
    wp (put d a type c s reqCycle) (fun _ w' => Put d c a w w') w := by
  have hstate : w.state c a = s := by rw [Replay.state, hstored]; rfl
  have hne : w.state c a ≠ .I := by
    rw [hstate]
    intro hI
    exact h.stored c a (hI ▸ hstored)
  have hfits : type = .PUTS ∨ type = .PUTX ∧ (w.state c a).exclusive = true := by
    cases htype with
    | inl h => exact .inl h.1
    | inr h =>
      rw [hstate, h.2]
      exact .inr ⟨h.1, rfl⟩
  have haccess := wp_accessPut (w := w.depart (.put c a s type)) h.sound hne hfits reqCycle.toNat
  simp only [put, wp_bind, wp_change, wp_ensure, wp_pure]
  refine wp_mono haccess fun r w₁ h₁ => ?_
  obtain ⟨hI, hsame, hown, hs⟩ := h₁
  have hstate₁ : (w₁.setStore c a (some r.2)).state = override w.state c a .I := by
    rw [setStore_state, hsame.state, hI]
    rfl
  refine ⟨hI, ⟨?_, ⟨[.put c a s type], hsame.departures, fun dep hdep => ?_, fun c' b hM => ?_⟩, ?_, hown,
    fun c' b hb => ?_⟩⟩
  · rw [hstate₁]
    rw [hsame.state] at hs
    exact hs
  · rw [List.mem_singleton.mp hdep]
    cases htype with
    | inl h => exact ⟨fun hM => absurd hM h.2, fun hx => by rw [h.1] at hx; cases hx⟩
    | inr h => exact ⟨fun _ => h.1, fun _ => h.2⟩
  · by_cases he : c' = c ∧ b = a
    · rw [he.1, he.2, hstate] at hM
      have hx : type = .PUTX := by
        cases htype with
        | inl h => exact absurd hM h.2
        | inr h => exact h.1
      exact .inr ⟨_, List.mem_singleton.mpr rfl, he.1.symm, he.2.symm, hx⟩
    · refine .inl ?_
      rw [hstate₁, override_of_ne _ he]
      exact hM
  · rw [hstate₁, override_self]
  · cases setStore_stored w₁ hb with
    | inl he => exact ⟨he.1, he.2.1⟩
    | inr he =>
      rw [hsame.stores] at he
      exact absurd he.2 (h.stored c' b)

/-- A GET of a line that the child does not hold, or holds in S and asks to write. -/
theorem wp_get (hs : Sound d w w.state) (hstored : ∀ c' b, (w.children c').cStore b = some .I → c' = c ∧ b = a)
    (hc : c < d.numChildren) {acc : AccessRecord}
    (htype : acc.type = .GETS ∧ w.state c a = .I ∨ acc.type = .GETX ∧ (w.state c a).exclusive = false)
    (hvictim : d.nonInclusiveHack = true → w.own a = .I →
      ∀ v, w.victims.headD none = some v → v ≠ a → ∀ c, w.state c v = .I) :
    wp (TraceDriver.get d a acc c) (fun _ w' => Coherent d w' ∧ Leaves w w') w := by
  have hnot : (w.state c a).exclusive = false := by
    cases htype with
    | inl h => rw [h.2]; rfl
    | inr h => exact h.2
  simp only [TraceDriver.get, wp_bind, wp_change, wp_ensure, wp_pure]
  refine wp_mono (wp_accessGet hs hc htype hvictim _) fun r w₁ h₁ => ?_
  obtain ⟨hne, hb, hs₁⟩ := h₁
  have hskew : Same w₁ (w₁.setChild c { w₁.children c with
      skew := (w₁.children c).skew + (.ofNat (r.1 - acc.reqCycle.toNat) - .ofNat acc.latency.toNat) }) :=
    same_setChild rfl
  have hafter := setStore_state (w₁.setChild c { w₁.children c with
      skew := (w₁.children c).skew + (.ofNat (r.1 - acc.reqCycle.toNat) - .ofNat acc.latency.toNat) }) c a (some r.2)
  rw [hskew.state] at hafter
  refine ⟨hne, ⟨?_, fun c' b hI => ?_⟩, (hb.leaves.trans hskew.leaves).trans
    ⟨[], (List.append_nil _).symm, by simp, fun c' b hM => .inl ?_⟩⟩
  · rw [hafter]
    exact hs₁
  · cases setStore_stored _ hI with
    | inl he => exact hne (Option.some.inj he.2.2)
    | inr he =>
      rw [hskew.stores] at he
      exact he.1 (hstored c' b (hb.stored c' b he.2))
  · rw [hskew.state] at hM
    have hother : ¬ (c' = c ∧ b = a) := by
      rintro ⟨rfl, rfl⟩
      have hx := hb.shared c' b hnot
      rw [hM] at hx
      cases hx
    rw [hafter]
    exact (override_of_ne _ hother).trans hM

/-- The end of `executeAccess` touches no line. -/
theorem wp_finish (h : Coherent d w) (acc : AccessRecord) (c : ℕ) (lat : Int64) :
    wp (finish d acc c lat) (fun _ w' => Coherent d w' ∧ Leaves w w') w := by
  have hlast : Same w (w.setChild c { w.children c with lastReqCycle := acc.reqCycle }) := same_setChild rfl
  simp only [finish, wp_bind, wp_change, wp_ite, wp_pure]
  split
  · exact ⟨h.keep rfl rfl ⟨hlast.stores, rfl⟩, Same.leaves ⟨hlast.stores, rfl⟩⟩
  · exact ⟨h.keep rfl rfl hlast, hlast.leaves⟩

/-- The recorded access still fits the state of the replay: a PUT that is played has
the type that the child's line asks for, and no line is replaced at a parent that is
not inclusive while a child holds it. -/
structure Fits (d : Setup) (w : Replay) (acc : AccessRecord) : Prop where
  child : acc.childId.toNat < d.numChildren
  put : d.playPuts = true → ∀ s, (w.children acc.childId.toNat).cStore acc.lineAddr.toNat = some s →
    (acc.type = .PUTS → s ≠ .M) ∧ (acc.type = .PUTX → s = .M)
  victim : d.nonInclusiveHack = true → acc.type = .GETS ∨ acc.type = .GETX → w.own acc.lineAddr.toNat = .I →
    ∀ v, w.victims.headD none = some v → v ≠ acc.lineAddr.toNat → ∀ c, w.state c v = .I

/-- A PUT of the trace, once it is played. -/
theorem wp_playPut (h : Coherent d w) {acc : AccessRecord} {s : MESIState}
    (hstored : (w.children acc.childId.toNat).cStore acc.lineAddr.toNat = some s)
    (htype : acc.type = .PUTS ∧ s ≠ .M ∨ acc.type = .PUTX ∧ s = .M) :
    wp (do
      let lat ← put d acc.lineAddr.toNat acc.type acc.childId.toNat s acc.reqCycle
      change fun w => w.setStore acc.childId.toNat acc.lineAddr.toNat none
      finish d acc acc.childId.toNat lat) (fun _ w' => Coherent d w' ∧ Leaves w w') w := by
  simp only [wp_bind, wp_change]
  refine wp_mono (wp_put h hstored htype acc.reqCycle) fun lat w₁ h₁ => ?_
  have hstate : (w₁.setStore acc.childId.toNat acc.lineAddr.toNat none).state = w₁.state := by
    funext c b
    rw [setStore_state]
    by_cases he : c = acc.childId.toNat ∧ b = acc.lineAddr.toNat
    · rw [he.1, he.2, override_self, h₁.gone]
      rfl
    · rw [override_of_ne _ he]
  have hcoherent : Coherent d (w₁.setStore acc.childId.toNat acc.lineAddr.toNat none) := by
    refine ⟨?_, fun c b hI => ?_⟩
    · rw [hstate]
      exact h₁.sound
    · cases setStore_stored _ hI with
      | inl he => cases he.2.2
      | inr he => exact he.1 (h₁.stored c b he.2)
  have herased : Leaves w₁ (w₁.setStore acc.childId.toNat acc.lineAddr.toNat none) := by
    refine ⟨[], (List.append_nil _).symm, by simp, fun c b hM => .inl ?_⟩
    rw [hstate]
    exact hM
  refine wp_mono (wp_finish hcoherent acc _ lat) fun _ w₂ h₂ => ?_
  exact ⟨h₂.1, (h₁.leaves.trans herased).trans h₂.2⟩

/-- A GET of the trace that is replayed as it is. -/
theorem wp_playGet (hs : Sound d w w.state) {acc : AccessRecord}
    (hstored : ∀ c b, (w.children c).cStore b = some .I → c = acc.childId.toNat ∧ b = acc.lineAddr.toNat)
    (hc : acc.childId.toNat < d.numChildren)
    (htype : acc.type = .GETS ∧ w.state acc.childId.toNat acc.lineAddr.toNat = .I ∨
      acc.type = .GETX ∧ (w.state acc.childId.toNat acc.lineAddr.toNat).exclusive = false)
    (hvictim : d.nonInclusiveHack = true → w.own acc.lineAddr.toNat = .I →
      ∀ v, w.victims.headD none = some v → v ≠ acc.lineAddr.toNat → ∀ c, w.state c v = .I) :
    wp (do
      let lat ← TraceDriver.get d acc.lineAddr.toNat acc acc.childId.toNat
      finish d acc acc.childId.toNat lat) (fun _ w' => Coherent d w' ∧ Leaves w w') w := by
  simp only [wp_bind]
  refine wp_mono (wp_get hs hstored hc htype hvictim) fun lat w₁ h₁ => ?_
  refine wp_mono (wp_finish h₁.1 acc _ lat) fun _ w₂ h₂ => ?_
  exact ⟨h₂.1, h₁.2.trans h₂.2⟩

/-- A GET of a line that the child has to put first. -/
theorem wp_putAndGet (h : Coherent d w) {acc : AccessRecord} {s : MESIState}
    (hstored : (w.children acc.childId.toNat).cStore acc.lineAddr.toNat = some s)
    (hc : acc.childId.toNat < d.numChildren) (htype : acc.type = .GETS ∨ acc.type = .GETX) :
    wp (do
      let _ ← put d acc.lineAddr.toNat (if s = .M then .PUTX else .PUTS) acc.childId.toNat s acc.reqCycle
      let lat ← TraceDriver.get d acc.lineAddr.toNat acc acc.childId.toNat
      finish d acc acc.childId.toNat lat) (fun _ w' => Coherent d w' ∧ Leaves w w') w := by
  have hput : (if s = .M then AccessType.PUTX else .PUTS) = .PUTS ∧ s ≠ .M ∨
      (if s = .M then AccessType.PUTX else .PUTS) = .PUTX ∧ s = .M := by
    split
    · next hM => exact .inr ⟨rfl, hM⟩
    · next hM => exact .inl ⟨rfl, hM⟩
  rw [wp_bind]
  refine wp_mono (wp_put h hstored hput acc.reqCycle) fun _ w₁ h₁ => ?_
  have hget : acc.type = .GETS ∧ w₁.state acc.childId.toNat acc.lineAddr.toNat = .I ∨
      acc.type = .GETX ∧ (w₁.state acc.childId.toNat acc.lineAddr.toNat).exclusive = false := by
    rw [h₁.gone]
    cases htype with
    | inl ht => exact .inl ⟨ht, rfl⟩
    | inr ht => exact .inr ⟨ht, rfl⟩
  refine wp_mono (wp_playGet h₁.sound h₁.stored hc hget fun _ hI => absurd hI h₁.own) fun _ w₂ h₂ => ?_
  exact ⟨h₂.1, h₁.leaves.trans h₂.2⟩

/-- One access of the trace: the children agree with the parent after it. -/
theorem wp_executeAccess (h : Coherent d w) {acc : AccessRecord} (hfits : Fits d w acc) :
    wp (executeAccess d acc) (fun _ w' => Coherent d w' ∧ Leaves w w') w := by
  have hsame : Coherent d w ∧ Leaves w w := ⟨h, Leaves.refl w⟩
  have hnone : ∀ c b, (w.children c).cStore b = some .I → c = acc.childId.toNat ∧ b = acc.lineAddr.toNat :=
    fun c b hI => absurd hI (h.stored c b)
  have hgone : (w.children acc.childId.toNat).cStore acc.lineAddr.toNat = none →
      w.state acc.childId.toNat acc.lineAddr.toNat = .I := by
    intro hit
    rw [Replay.state, hit]
    rfl
  simp only [executeAccess, wp_bind, wp_ensure, wp_observe]
  refine ⟨hfits.child, ?_⟩
  cases ht : acc.type with
  | PUTS =>
    cases hit : (w.children acc.childId.toNat).cStore acc.lineAddr.toNat with
    | none => simpa only [wp_pure] using hsame
    | some s =>
      simp only [wp_ite, wp_pure]
      split
      · exact hsame
      · next hplay =>
        have hput := hfits.put (Bool.eq_true_of_not_eq_false hplay) s hit
        have hplayed := wp_playPut h hit (.inl ⟨ht, hput.1 ht⟩)
        rwa [ht] at hplayed
  | PUTX =>
    cases hit : (w.children acc.childId.toNat).cStore acc.lineAddr.toNat with
    | none => simpa only [wp_pure] using hsame
    | some s =>
      simp only [wp_ite, wp_pure]
      split
      · exact hsame
      · next hplay =>
        have hput := hfits.put (Bool.eq_true_of_not_eq_false hplay) s hit
        have hplayed := wp_playPut h hit (.inr ⟨ht, hput.2 ht⟩)
        rwa [ht] at hplayed
  | GETS =>
    cases hit : (w.children acc.childId.toNat).cStore acc.lineAddr.toNat with
    | none => exact wp_playGet h.sound hnone hfits.child (.inl ⟨ht, hgone hit⟩) fun hhack => hfits.victim hhack (.inl ht)
    | some s =>
      simp only [wp_ite, wp_pure, reduceCtorEq, and_false, if_false]
      split
      · exact wp_putAndGet h hit hfits.child (.inl ht)
      · exact hsame
  | GETX =>
    cases hit : (w.children acc.childId.toNat).cStore acc.lineAddr.toNat with
    | none =>
      refine wp_playGet h.sound hnone hfits.child (.inr ⟨ht, ?_⟩) fun hhack => hfits.victim hhack (.inr ht)
      rw [hgone hit]
      rfl
    | some s =>
      simp only [wp_ite, wp_pure, and_true]
      split
      · next hS =>
        refine wp_playGet h.sound hnone hfits.child (.inr ⟨ht, ?_⟩) fun hhack => hfits.victim hhack (.inr ht)
        rw [Replay.state, hit, hS]
        rfl
      · split
        · exact wp_putAndGet h hit hfits.child (.inr ht)
        · exact hsame

/-- Invalidations between two accesses. -/
theorem Coherent.invalidations (h : Coherent d w) (invs : List (Address × InvType)) :
    wp (invalidations d invs) (fun _ w' => Coherent d w' ∧ Leaves w w') w := by
  refine wp_mono (wp_invalidations invs h.sound) fun _ w' h' => ?_
  exact ⟨⟨h'.1, fun c b hI => h.stored c b (h'.2.1.stored c b hI)⟩, h'.2.1.leaves⟩

/-- Nothing is held at first. -/
theorem start_coherent (d : Setup) (upcalls : List Upcall) (victims : List (Option Address)) :
    Coherent d (start upcalls victims) :=
  ⟨fun _ => Agrees.vacant _ clear_vacant fun _ => rfl, fun _ _ h => by cases h⟩

/-- The states of a replay whose accesses fit: before every access the levels above
may invalidate lines. -/
inductive Reached (d : Setup) : Replay → Prop where
  | start (upcalls : List Upcall) (victims : List (Option Address)) : Reached d (start upcalls victims)
  | access {w w₁ w₂ : Replay} (h : Reached d w) (invs : List (Address × InvType)) (acc : AccessRecord)
      (hinvs : TraceDriver.invalidations d invs w = .ok ((), w₁)) (hfits : Fits d w₁ acc)
      (hacc : executeAccess d acc w₁ = .ok ((), w₂)) : Reached d w₂

/-- What a run has reached is coherent. -/
theorem Reached.coherent (h : Reached d w) : Coherent d w := by
  induction h with
  | start upcalls victims => exact start_coherent d upcalls victims
  | access _ invs acc hinvs hfits hacc ih =>
    have hc := wp_of_ok (ih.invalidations invs) hinvs
    exact (wp_of_ok (wp_executeAccess hc.1 hfits) hacc).1

/-- In every run whose accesses fit, a child's table has a line exactly when the parent
lists it, whatever the levels above do; the next invalidations and the next access fail
no assertion; and lines leave M with their data, and only then as a PUTX. -/
theorem replay_coherent (h : Reached d w) (invs : List (Address × InvType)) (acc : AccessRecord) :
    (∀ c a, (w.entry a).sharers c = true ↔ ∃ s, (w.children c).cStore a = some s ∧ s ≠ .I) ∧
    wp (invalidations d invs) (fun _ w₁ => Leaves w w₁ ∧
      (Fits d w₁ acc → wp (executeAccess d acc) (fun _ w₂ => Leaves w₁ w₂) w₁)) w := by
  have hc := h.coherent
  refine ⟨fun c a => ?_, wp_mono (hc.invalidations invs) fun _ w₁ h₁ => ⟨h₁.2, fun hfits => ?_⟩⟩
  · rw [(hc.sound a).sharers_iff c]
    constructor
    · exact fun hne => ⟨_, stored_of_held hne, hne⟩
    · rintro ⟨s, hs, hne⟩
      rw [Replay.state, hs]
      exact hne
  · exact wp_mono (wp_executeAccess h₁.1 hfits) fun _ w₂ h₂ => h₂.2
/-- One child below a parent that is given every line exclusively. -/
def oneChild : Setup := ⟨1, true, true, false, false, false, 4, 2, 0, fun _ => 0⟩

/-- What the state of a replay says after the child has written a line. -/
theorem replay_coherent_written : ∃ w, Reached oneChild w ∧ w.state 0 64 = .M ∧
    (∀ c a, (w.entry a).sharers c = true ↔ ∃ s, (w.children c).cStore a = some s ∧ s ≠ .I) ∧
    wp (invalidations oneChild [(64, .INVX)]) (fun _ w₁ => Leaves w w₁ ∧
      (Fits oneChild w₁ ⟨64, 100, 0, 0, .PUTS⟩ →
        wp (executeAccess oneChild ⟨64, 100, 0, 0, .PUTS⟩) (fun _ w₂ => Leaves w₁ w₂) w₁)) w := by
  have hfits : Fits oneChild (start [⟨[], true, 10⟩] []) ⟨64, 0, 0, 0, .GETX⟩ := ⟨by decide, by simp, fun h => by cases h⟩
  have hreached := Reached.access (.start [⟨[], true, 10⟩] []) [] ⟨64, 0, 0, 0, .GETX⟩ rfl hfits rfl
  exact ⟨_, hreached, rfl, replay_coherent hreached [(64, .INVX)] ⟨64, 100, 0, 0, .PUTS⟩⟩

/-- A recorded PUTS drops the data of a line that the child has written in this replay,
and a recorded PUTX of a line that it shares fails the parent's assertion. -/
theorem recorded_puts :
    ((do
      executeAccess oneChild ⟨64, 0, 0, 0, .GETX⟩
      executeAccess oneChild ⟨64, 100, 0, 0, .PUTS⟩ : Act Unit) (start [⟨[], true, 10⟩] [])).map
        (fun r => r.2.departures) = .ok [.put 0 64 .M .PUTS] ∧
    ¬ Proper (.put 0 64 .M .PUTS) ∧
    ((do
      executeAccess oneChild ⟨64, 0, 0, 0, .GETS⟩
      executeAccess oneChild ⟨64, 100, 0, 0, .PUTX⟩ : Act Unit) (start [⟨[], false, 10⟩] [])).map
        (fun r => r.2.departures) = .error (.parent .putxNotExclusive) := by
  refine ⟨rfl, fun h => ?_, rfl⟩
  cases h.1 rfl

end Driver

end Zsim.TraceReplays
