import Zsim.MESIControllers

/-!
# What an invalidation does to a subtree

Caches are read by address: the state and entry of an address are those of the
line it is found at. An INV or INVX of an address rewrites the state and entry
of exactly that address in exactly the subtree it is sent to, and its writeback
flag reports whether some cache there held the address in M.
-/

namespace Zsim.MESIInvalidation

open WeakestPre MemoryHierarchy CacheArrays MESIDirectory MESIControllers

variable {σ : Type}

/-- State of an address in a cache. -/
def heldState (A : CacheArray σ) (c : CacheState σ) (a : Address) : MESIState :=
  match A.lookup c.array a with
  | none => .I
  | some i => c.bcc i

/-- Directory entry of an address in a cache. -/
def heldEntry (A : CacheArray σ) (c : CacheState σ) (a : Address) : Entry :=
  match A.lookup c.array a with
  | none => .clear
  | some i => c.tcc i

/-- State of an address at the cache with the given path. -/
def stateAt (t : Hierarchy σ) (w : World σ) (p : CachePath) (a : Address) : MESIState :=
  heldState t.array (w.cache p) a

/-- Directory entry of an address at the cache with the given path. -/
def entryAt (t : Hierarchy σ) (w : World σ) (p : CachePath) (a : Address) : Entry :=
  heldEntry t.array (w.cache p) a

/-- The lines of one cache: valid lines are found by their address, and
invalid lines have no sharers. -/
structure LinesOk {A : CacheArray σ} (F : Faithful A) (c : CacheState σ) : Prop where
  inv : F.Inv c.array
  found : ∀ i, c.bcc i ≠ .I → A.lookup c.array (A.line c.array i) = some i
  vacant : ∀ i, c.bcc i = .I → (c.tcc i).Vacant

section OneCache

variable {A : CacheArray σ} {F : Faithful A} {c : CacheState σ} {a b : Address} {i : LineId}

theorem heldState_of_lookup (h : A.lookup c.array a = some i) : heldState A c a = c.bcc i := by
  simp only [heldState, h]

theorem heldEntry_of_lookup (h : A.lookup c.array a = some i) : heldEntry A c a = c.tcc i := by
  simp only [heldEntry, h]

theorem heldState_of_missing (h : A.lookup c.array a = none) : heldState A c a = .I := by
  simp only [heldState, h]

/-- A valid address is found, at a line in that state. -/
theorem lookup_of_held (h : heldState A c a ≠ .I) :
    ∃ i, A.lookup c.array a = some i ∧ c.bcc i = heldState A c a := by
  cases hl : A.lookup c.array a with
  | none => exact absurd (heldState_of_missing hl) h
  | some i => exact ⟨i, rfl, (heldState_of_lookup hl).symm⟩

/-- An invalid address has no sharers. -/
theorem LinesOk.vacant_of_I (hc : LinesOk F c) (h : heldState A c a = .I) :
    (heldEntry A c a).Vacant := by
  cases hl : A.lookup c.array a with
  | none => simpa only [heldEntry, hl] using clear_vacant
  | some i =>
    rw [heldEntry_of_lookup hl]
    exact hc.vacant i (heldState_of_lookup hl ▸ h)

/-- A valid line is what its address is found at. -/
theorem LinesOk.held_line (hc : LinesOk F c) (h : c.bcc i ≠ .I) :
    heldState A c (A.line c.array i) = c.bcc i :=
  heldState_of_lookup (hc.found i h)

theorem LinesOk.lookup_inj (hc : LinesOk F c) (ha : A.lookup c.array a = some i)
    (hb : A.lookup c.array b = some i) : a = b := by
  rw [← F.lookup_line _ a i hc.inv ha, F.lookup_line _ b i hc.inv hb]

/-- Writing the state of a found line changes the state of its address only. -/
theorem heldState_update_self (ha : A.lookup c.array a = some i) (s : MESIState) :
    heldState A { c with bcc := Function.update c.bcc i s } a = s := by
  simp only [heldState, ha, Function.update_self]

theorem heldState_update_of_ne (hc : LinesOk F c) (ha : A.lookup c.array a = some i)
    (hb : b ≠ a) (s : MESIState) :
    heldState A { c with bcc := Function.update c.bcc i s } b = heldState A c b := by
  unfold heldState
  dsimp only
  cases hl : A.lookup c.array b with
  | none => rfl
  | some j =>
    have hj : j ≠ i := fun hji => hb (hc.lookup_inj (hji ▸ hl) ha)
    exact Function.update_of_ne hj _ _

theorem heldEntry_update_self (ha : A.lookup c.array a = some i) (e : Entry) :
    heldEntry A { c with tcc := Function.update c.tcc i e } a = e := by
  simp only [heldEntry, ha, Function.update_self]

theorem heldEntry_update_of_ne (hc : LinesOk F c) (ha : A.lookup c.array a = some i)
    (hb : b ≠ a) (e : Entry) :
    heldEntry A { c with tcc := Function.update c.tcc i e } b = heldEntry A c b := by
  unfold heldEntry
  dsimp only
  cases hl : A.lookup c.array b with
  | none => rfl
  | some j =>
    have hj : j ≠ i := fun hji => hb (hc.lookup_inj (hji ▸ hl) ha)
    exact Function.update_of_ne hj _ _

/-- A found line may change state; it must be vacant to become invalid. -/
theorem LinesOk.setState (hc : LinesOk F c) (ha : A.lookup c.array a = some i) {s : MESIState}
    (hs : s = .I → (c.tcc i).Vacant) :
    LinesOk F { c with bcc := Function.update c.bcc i s } where
  inv := hc.inv
  found j hj := by
    by_cases hji : j = i
    · subst hji
      rw [F.lookup_line _ a j hc.inv ha]
      exact ha
    · exact hc.found j (by simpa [Function.update_of_ne hji] using hj)
  vacant j hj := by
    by_cases hji : j = i
    · subst hji
      exact hs (by simpa using hj)
    · exact hc.vacant j (by simpa [Function.update_of_ne hji] using hj)

/-- The entry of a valid line may change freely. -/
theorem LinesOk.setEntry (hc : LinesOk F c) {e : Entry} (he : c.bcc i = .I → e.Vacant) :
    LinesOk F { c with tcc := Function.update c.tcc i e } where
  inv := hc.inv
  found := hc.found
  vacant j hj := by
    by_cases hji : j = i
    · subst hji
      simpa using he hj
    · simpa [Function.update_of_ne hji] using hc.vacant j hj

end OneCache

section Paths

variable {p q : CachePath} {c d : ℕ}

theorem not_child_suffix_self : ¬ (c :: p) <:+ p := by
  intro h
  have hl := h.length_le
  simp at hl

theorem suffix_of_child (h : (c :: p) <:+ q) : p <:+ q := (List.suffix_cons c p).trans h

theorem ne_of_child_suffix (h : (c :: p) <:+ q) : q ≠ p := by
  rintro rfl
  exact not_child_suffix_self h

/-- Subtrees of different children are disjoint. -/
theorem child_unique (hc : (c :: p) <:+ q) (hd : (d :: p) <:+ q) : c = d := by
  have hs : (c :: p) <:+ (d :: p) := List.suffix_of_suffix_length_le hc hd (by simp)
  have he := hs.eq_of_length (by simp)
  exact (List.cons.inj he).1

/-- A path in a subtree is its root or lies below one child. -/
theorem suffix_cases (h : p <:+ q) : q = p ∨ ∃ c, (c :: p) <:+ q := by
  obtain ⟨u, rfl⟩ := h
  rcases List.eq_nil_or_concat u with rfl | ⟨u', c, rfl⟩
  · exact .inl rfl
  · exact .inr ⟨c, u', by simp⟩

end Paths

/-- The entry of an address at one cache describes its children. -/
def EdgeOk (t : Hierarchy σ) (w : World σ) (p : CachePath) (a : Address) : Prop :=
  Agrees (t.numChildren p) (stateAt t w p a) (entryAt t w p a) fun c => stateAt t w (c :: p) a

/-- Some cache of the subtree holds the address in M. -/
def DirtyIn (t : Hierarchy σ) (w : World σ) (p : CachePath) (a : Address) : Prop :=
  ∃ q, p <:+ q ∧ stateAt t w q a = .M

/-- Below a cache without exclusive permission no cache has it. -/
theorem not_exclusive_below {t : Hierarchy σ} {w : World σ} {a : Address} {p q : CachePath}
    (hsub : ∀ r, p <:+ r → EdgeOk t w r a) (hp : (stateAt t w p a).exclusive = false)
    (hq : p <:+ q) : (stateAt t w q a).exclusive = false := by
  obtain ⟨u, rfl⟩ := hq
  induction u with
  | nil => exact hp
  | cons c u ih =>
    cases hx : (stateAt t w (c :: u ++ p) a).exclusive with
    | false => rfl
    | true =>
      have hup := ((hsub (u ++ p) ⟨u, rfl⟩).exclusive_up c hx).1
      rw [ih] at hup
      cases hup

/-- Below an invalid cache every cache is invalid. -/
theorem invalid_below {t : Hierarchy σ} {w : World σ} {a : Address} {p q : CachePath}
    (hsub : ∀ r, p <:+ r → EdgeOk t w r a) (hp : stateAt t w p a = .I)
    (hq : p <:+ q) : stateAt t w q a = .I := by
  obtain ⟨u, rfl⟩ := hq
  induction u with
  | nil => exact hp
  | cons c u ih =>
    by_contra hne
    exact (hsub (u ++ p) ⟨u, rfl⟩).valid c hne ih

/-- The effect of an invalidation of `a` on the caches of `inside`. -/
structure Invalidated (t : Hierarchy σ) (inside : CachePath → Prop) (a : Address) (ty : InvType)
    (w w' : World σ) : Prop where
  array : ∀ q, (w'.cache q).array = (w.cache q).array
  outside : ∀ q, ¬ inside q → w'.cache q = w.cache q
  otherState : ∀ q b, b ≠ a → stateAt t w' q b = stateAt t w q b
  otherEntry : ∀ q b, b ≠ a → entryAt t w' q b = entryAt t w q b
  state : ∀ q, inside q → stateAt t w' q a = invState ty (stateAt t w q a)
  entry : ∀ q, inside q → entryAt t w' q a = invEntry ty (entryAt t w q a)

/-- What a cache promises about an invalidation of its subtree. -/
def InvalidateSpec (t : Hierarchy σ) (F : Faithful t.array) (p : CachePath)
    (inval : InvReq → Bool → Act σ (ℕ × Bool)) : Prop :=
  ∀ (a : Address) (ty : InvType) (cycle : ℕ) (wb : Bool) (w : World σ), ty ≠ .FWD →
    (∀ q, LinesOk F (w.cache q)) → (∀ q, p <:+ q → EdgeOk t w q a) →
    stateAt t w p a ≠ .I → (ty = .INVX → (stateAt t w p a).exclusive = true) →
    wp (inval ⟨a, ty, cycle⟩ wb) (fun r w' =>
      cycle ≤ r.1 ∧ (r.2 = true ↔ wb = true ∨ DirtyIn t w p a) ∧
      (∀ q, LinesOk F (w'.cache q)) ∧ w'.picks = w.picks ∧ w'.log = w.log ∧
      Invalidated t (p <:+ ·) a ty w w') w

section World

variable {t : Hierarchy σ} {F : Faithful t.array} {w w₁ w₂ : World σ} {p q : CachePath}
  {a b : Address} {i : LineId}

@[simp] theorem set_cache_self (w : World σ) (p : CachePath) (c : CacheState σ) :
    (w.set p c).cache p = c := by
  simp [World.set]

theorem set_cache_of_ne (w : World σ) (c : CacheState σ) (h : q ≠ p) :
    (w.set p c).cache q = w.cache q := by
  simp [World.set, Function.update_of_ne h]

@[simp] theorem setEntry_picks (e : Entry) : (w.setEntry p i e).picks = w.picks := rfl
@[simp] theorem setEntry_log (e : Entry) : (w.setEntry p i e).log = w.log := rfl

@[simp] theorem setState_self (w : World σ) (p : CachePath) (i : LineId) (s : MESIState) :
    (w.setState p i s).cache p =
      { w.cache p with bcc := Function.update (w.cache p).bcc i s } :=
  set_cache_self ..

@[simp] theorem setEntry_self (w : World σ) (p : CachePath) (i : LineId) (e : Entry) :
    (w.setEntry p i e).cache p =
      { w.cache p with tcc := Function.update (w.cache p).tcc i e } :=
  set_cache_self ..

theorem setState_of_ne (i : LineId) (s : MESIState) (h : q ≠ p) :
    (w.setState p i s).cache q = w.cache q :=
  set_cache_of_ne _ _ h

theorem setEntry_of_ne (i : LineId) (e : Entry) (h : q ≠ p) :
    (w.setEntry p i e).cache q = w.cache q :=
  set_cache_of_ne _ _ h

theorem stateAt_congr (h : w₁.cache q = w₂.cache q) (b : Address) :
    stateAt t w₁ q b = stateAt t w₂ q b := by
  rw [stateAt, stateAt, h]

theorem entryAt_congr (h : w₁.cache q = w₂.cache q) (b : Address) :
    entryAt t w₁ q b = entryAt t w₂ q b := by
  rw [entryAt, entryAt, h]

end World

/-- The effect of `sendInvalidates` so far: the entry of line `i` at `p` is
`e`, and the subtrees in `inside` have lost the address. -/
structure Sent (t : Hierarchy σ) (p : CachePath) (i : LineId) (e : Entry)
    (inside : CachePath → Prop) (a : Address) (ty : InvType) (w w' : World σ) : Prop where
  own : w'.cache p = { w.cache p with tcc := Function.update (w.cache p).tcc i e }
  array : ∀ q, (w'.cache q).array = (w.cache q).array
  outside : ∀ q, q ≠ p → ¬ inside q → w'.cache q = w.cache q
  otherState : ∀ q b, q ≠ p → b ≠ a → stateAt t w' q b = stateAt t w q b
  otherEntry : ∀ q b, q ≠ p → b ≠ a → entryAt t w' q b = entryAt t w q b
  state : ∀ q, inside q → stateAt t w' q a = invState ty (stateAt t w q a)
  entry : ∀ q, inside q → entryAt t w' q a = invEntry ty (entryAt t w q a)

namespace Sent

variable {t : Hierarchy σ} {F : Faithful t.array} {p : CachePath} {i : LineId} {e : Entry}
  {inside inside' : CachePath → Prop} {a : Address} {ty : InvType} {w w₁ w₂ : World σ}

/-- Before anything has been sent. -/
theorem start (hnone : ∀ q, ¬ inside q) : Sent t p i ((w.cache p).tcc i) inside a ty w w where
  own := by rw [Function.update_eq_self]
  array _ := rfl
  outside _ _ _ := rfl
  otherState _ _ _ _ := rfl
  otherEntry _ _ _ _ := rfl
  state q hq := absurd hq (hnone q)
  entry q hq := absurd hq (hnone q)

theorem congr (h : Sent t p i e inside a ty w w₁) (hi : ∀ q, inside' q ↔ inside q) :
    Sent t p i e inside' a ty w w₁ := by
  rwa [show inside' = inside from funext fun q => propext (hi q)]

/-- One more child's subtree has been invalidated. -/
theorem child (h : Sent t p i e inside a ty w w₁) {c : ℕ}
    (hnew : ∀ q, (c :: p) <:+ q → ¬ inside q)
    (hinv : Invalidated t ((c :: p) <:+ ·) a ty w₁ w₂) :
    Sent t p i e (fun q => inside q ∨ (c :: p) <:+ q) a ty w w₂ where
  own := by rw [hinv.outside p not_child_suffix_self, h.own]
  array q := by rw [hinv.array, h.array]
  outside q hq hout := by
    rw [hinv.outside q fun hc => hout (.inr hc), h.outside q hq fun hi => hout (.inl hi)]
  otherState q b hq hb := by rw [hinv.otherState q b hb, h.otherState q b hq hb]
  otherEntry q b hq hb := by rw [hinv.otherEntry q b hb, h.otherEntry q b hq hb]
  state q hq := by
    rcases hq with hq | hq
    · have hsame := hinv.outside q fun hc => hnew q hc hq
      rw [stateAt_congr hsame, h.state q hq]
    · have hsame := h.outside q (ne_of_child_suffix hq) (hnew q hq)
      rw [hinv.state q hq, stateAt_congr hsame]
  entry q hq := by
    rcases hq with hq | hq
    · have hsame := hinv.outside q fun hc => hnew q hc hq
      rw [entryAt_congr hsame, h.entry q hq]
    · have hsame := h.outside q (ne_of_child_suffix hq) (hnew q hq)
      rw [hinv.entry q hq, entryAt_congr hsame]

/-- The entry of the sender is rewritten. -/
theorem setEntry (h : Sent t p i e inside a ty w w₁) (hp : ¬ inside p) (e' : Entry) :
    Sent t p i e' inside a ty w (w₁.setEntry p i e') where
  own := by rw [setEntry_self, h.own, Function.update_idem]
  array q := by
    by_cases hq : q = p
    · rw [hq, setEntry_self, ← h.array p]
    · rw [setEntry_of_ne i e' hq, h.array]
  outside q hq hout := by rw [setEntry_of_ne i e' hq, h.outside q hq hout]
  otherState q b hq hb := by
    rw [stateAt_congr (setEntry_of_ne i e' hq), h.otherState q b hq hb]
  otherEntry q b hq hb := by
    rw [entryAt_congr (setEntry_of_ne i e' hq), h.otherEntry q b hq hb]
  state q hq := by
    have hqp : q ≠ p := by
      rintro rfl
      exact hp hq
    rw [stateAt_congr (setEntry_of_ne i e' hqp), h.state q hq]
  entry q hq := by
    have hqp : q ≠ p := by
      rintro rfl
      exact hp hq
    rw [entryAt_congr (setEntry_of_ne i e' hqp), h.entry q hq]

theorem tcc_self (h : Sent t p i e inside a ty w w₁) : (w₁.cache p).tcc i = e := by
  simp [h.own]

/-- The sender's own states are untouched. -/
theorem ownState (h : Sent t p i e inside a ty w w₁) (b : Address) :
    stateAt t w₁ p b = stateAt t w p b := by
  simp only [stateAt, heldState, h.own]

theorem ownEntry (h : Sent t p i e inside a ty w w₁)
    (ha : t.array.lookup (w.cache p).array a = some i) : entryAt t w₁ p a = e := by
  rw [entryAt, h.own]
  exact heldEntry_update_self ha e

theorem ownOtherEntry (h : Sent t p i e inside a ty w w₁) (hc : LinesOk F (w.cache p))
    (ha : t.array.lookup (w.cache p).array a = some i) {b : Address} (hb : b ≠ a) :
    entryAt t w₁ p b = entryAt t w p b := by
  rw [entryAt, h.own]
  exact heldEntry_update_of_ne hc ha hb e

end Sent

/-- The subtrees an entry's invalidations reach. -/
def Reached (p : CachePath) (e : Entry) (q : CachePath) : Prop :=
  ∃ c, e.sharers c = true ∧ (c :: p) <:+ q

theorem reached_ne_self {p : CachePath} {e : Entry} : ¬ Reached p e p :=
  fun ⟨_, _, h⟩ => not_child_suffix_self h

/-- The entry while children of `rem` are still to be visited. -/
def partlySent (ty : InvType) (e : Entry) (rem : List ℕ) : Entry :=
  if ty = .INV then { e with sharers := fun c => e.sharers c && decide (c ∈ rem) } else e

/-- What the code relies on before it sends invalidations of line `i`. -/
structure Sendable (t : Hierarchy σ) (F : Faithful t.array) (p : CachePath) (i : LineId)
    (a : Address) (ty : InvType) (w : World σ) : Prop where
  lines : ∀ q, LinesOk F (w.cache q)
  lookup : t.array.lookup (w.cache p).array a = some i
  valid : (w.cache p).bcc i ≠ .I
  lt : ∀ c, ((w.cache p).tcc i).sharers c = true → c < t.numChildren p
  count : ((w.cache p).tcc i).numSharers =
    sharerCount (t.numChildren p) ((w.cache p).tcc i).sharers
  held : ∀ c, ((w.cache p).tcc i).sharers c = true → stateAt t w (c :: p) a ≠ .I
  below : ∀ q, Reached p ((w.cache p).tcc i) q → EdgeOk t w q a
  type : ty ≠ .FWD
  exclusive : ty = .INVX → ∀ c, ((w.cache p).tcc i).sharers c = true →
    (stateAt t w (c :: p) a).exclusive = ((w.cache p).tcc i).isExclusive

section Loop

variable {t : Hierarchy σ} {F : Faithful t.array} {p : CachePath} {i : LineId}
  {a : Address} {ty : InvType} {w : World σ}
  {inval : CachePath → InvReq → Bool → Act σ (ℕ × Bool)} {cycle : ℕ} {wb : Bool}

/-- The subtrees already visited. -/
def Visited (p : CachePath) (e : Entry) (rem : List ℕ) (q : CachePath) : Prop :=
  ∃ c, e.sharers c = true ∧ c ∉ rem ∧ (c :: p) <:+ q

/-- Loop invariant of `sendInvalidates`. -/
structure LoopInv (t : Hierarchy σ) (F : Faithful t.array) (p : CachePath) (i : LineId)
    (a : Address) (ty : InvType) (w : World σ) (cycle : ℕ) (wb : Bool) (rem : List ℕ)
    (acc : MESITopCC.InvAcc) (w₁ : World σ) : Prop where
  nodup : rem.Nodup
  cycle : cycle ≤ acc.maxCycle
  sent : acc.sentInvs + rem.countP ((w.cache p).tcc i).sharers = ((w.cache p).tcc i).numSharers
  writeback : acc.writeback = true ↔ wb = true ∨
    ∃ q, Visited p ((w.cache p).tcc i) rem q ∧ stateAt t w q a = .M
  lines : ∀ q, LinesOk F (w₁.cache q)
  picks : w₁.picks = w.picks
  log : w₁.log = w.log
  effect : Sent t p i (partlySent ty ((w.cache p).tcc i) rem)
    (Visited p ((w.cache p).tcc i) rem) a ty w w₁

theorem visited_cons {e : Entry} {c : ℕ} {rem : List ℕ} (hc : c ∉ rem) (q : CachePath) :
    Visited p e rem q ↔ Visited p e (c :: rem) q ∨ (e.sharers c = true ∧ (c :: p) <:+ q) := by
  constructor
  · rintro ⟨d, hd, hrem, hq⟩
    by_cases hdc : d = c
    · subst hdc
      exact .inr ⟨hd, hq⟩
    · exact .inl ⟨d, hd, by simp [hdc, hrem], hq⟩
  · rintro (⟨d, hd, hrem, hq⟩ | ⟨hs, hq⟩)
    · exact ⟨d, hd, fun hm => hrem (List.mem_cons_of_mem c hm), hq⟩
    · exact ⟨c, hs, hc, hq⟩

/-- Before the loop nothing has been visited. -/
theorem LoopInv.start (h : Sendable t F p i a ty w) :
    LoopInv t F p i a ty w cycle wb (List.range (t.numChildren p)) ⟨cycle, wb, 0⟩ w := by
  have hnone : ∀ q, ¬ Visited p ((w.cache p).tcc i) (List.range (t.numChildren p)) q := by
    rintro q ⟨c, hs, hc, -⟩
    exact hc (List.mem_range.mpr (h.lt c hs))
  have hentry : partlySent ty ((w.cache p).tcc i) (List.range (t.numChildren p)) =
      (w.cache p).tcc i := by
    unfold partlySent
    split
    · have hsh : (fun c => ((w.cache p).tcc i).sharers c &&
          decide (c ∈ List.range (t.numChildren p))) = ((w.cache p).tcc i).sharers := by
        funext c
        cases hs : ((w.cache p).tcc i).sharers c with
        | false => rfl
        | true => simpa using h.lt c hs
      rw [hsh]
    · rfl
  refine ⟨List.nodup_range, le_rfl, ?_, ?_, h.lines, rfl, rfl, ?_⟩
  · rw [Nat.zero_add, countP_range, h.count]
  · constructor
    · exact .inl
    · rintro (hw | ⟨q, hq, -⟩)
      · exact hw
      · exact absurd hq (hnone q)
  · rw [hentry]
    exact Sent.start hnone

/-- A child whose bit is clear is passed over. -/
theorem LoopInv.skip {c : ℕ} {rem : List ℕ} {acc : MESITopCC.InvAcc} {w₁ : World σ}
    (h : LoopInv t F p i a ty w cycle wb (c :: rem) acc w₁)
    (hs : ((w.cache p).tcc i).sharers c = false) : LoopInv t F p i a ty w cycle wb rem acc w₁ := by
  have hc : c ∉ rem := (List.nodup_cons.mp h.nodup).1
  have hvis : ∀ q, Visited p ((w.cache p).tcc i) rem q ↔
      Visited p ((w.cache p).tcc i) (c :: rem) q := fun q => by simp [visited_cons hc, hs]
  have hentry : partlySent ty ((w.cache p).tcc i) rem =
      partlySent ty ((w.cache p).tcc i) (c :: rem) := by
    unfold partlySent
    split
    · congr 1
      funext d
      by_cases hd : d = c
      · simp [hd, hs]
      · simp [hd]
    · rfl
  refine ⟨(List.nodup_cons.mp h.nodup).2, h.cycle, ?_, ?_, h.lines, h.picks, h.log, ?_⟩
  · simpa [List.countP_cons, hs] using h.sent
  · simpa only [hvis] using h.writeback
  · rw [hentry]
    exact h.effect.congr hvis

/-- Clearing the bit of the child just visited. -/
theorem partlySent_clear {e : Entry} {c : ℕ} {rem : List ℕ} (hc : c ∉ rem) :
    { partlySent .INV e (c :: rem) with
      sharers := Function.update (partlySent .INV e (c :: rem)).sharers c false } =
      partlySent .INV e rem := by
  simp only [partlySent, if_true]
  congr 1
  funext d
  by_cases hd : d = c
  · simp [hd, hc]
  · simp [hd]

/-- One child is invalidated and, for an INV, its bit is cleared. -/
theorem loop_step (h : Sendable t F p i a ty w)
    (hx : ty = .INVX → ((w.cache p).tcc i).isExclusive = true)
    (hspec : ∀ c, c < t.numChildren p → InvalidateSpec t F (c :: p) (inval (c :: p)))
    (c : ℕ) (rem : List ℕ) (acc : MESITopCC.InvAcc) (w₁ : World σ)
    (hinv : LoopInv t F p i a ty w cycle wb (c :: rem) acc w₁) :
    wp (MESITopCC.sendInvalidate t p inval a i ty cycle acc c)
      (LoopInv t F p i a ty w cycle wb rem) w₁ := by
  have hc : c ∉ rem := (List.nodup_cons.mp hinv.nodup).1
  have hcur : (w₁.cache p).tcc i = partlySent ty ((w.cache p).tcc i) (c :: rem) :=
    hinv.effect.tcc_self
  have hbit : ((w₁.cache p).tcc i).sharers c = ((w.cache p).tcc i).sharers c := by
    rw [hcur]
    unfold partlySent
    split <;> simp
  simp only [MESITopCC.sendInvalidate, wp_bind, wp_entryOf, wp_ite, hbit]
  split
  case isFalse hs =>
    rw [wp_pure]
    exact hinv.skip (Bool.eq_false_of_not_eq_true hs)
  case isTrue hs =>
    have hnew : ∀ q, (c :: p) <:+ q → ¬ Visited p ((w.cache p).tcc i) (c :: rem) q := by
      rintro q hq ⟨d, -, hd, hdq⟩
      exact hd (child_unique hq hdq ▸ List.mem_cons_self ..)
    have hsame : ∀ q, (c :: p) <:+ q → w₁.cache q = w.cache q := fun q hq =>
      hinv.effect.outside q (ne_of_child_suffix hq) (hnew q hq)
    have hself : w₁.cache (c :: p) = w.cache (c :: p) := hsame _ List.suffix_rfl
    have hedge : ∀ q, (c :: p) <:+ q → EdgeOk t w₁ q a := by
      intro q hq
      have hq' := h.below q ⟨c, hs, hq⟩
      have hch : (fun d => stateAt t w₁ (d :: q) a) = fun d => stateAt t w (d :: q) a :=
        funext fun d => stateAt_congr (hsame _ (hq.trans (List.suffix_cons d q))) a
      rw [EdgeOk, stateAt_congr (hsame q hq), entryAt_congr (hsame q hq), hch]
      exact hq'
    have hheld : stateAt t w₁ (c :: p) a ≠ .I := by
      rw [stateAt_congr hself]
      exact h.held c hs
    have hxcl : ty = .INVX → (stateAt t w₁ (c :: p) a).exclusive = true := by
      intro hty
      rw [stateAt_congr hself, h.exclusive hty c hs, hx hty]
    have hsp := hspec c (h.lt c hs) a ty cycle acc.writeback w₁ h.type hinv.lines hedge hheld hxcl
    refine wp_mono hsp ?_
    rintro r w₂ ⟨hcyc, hwb, hlines, hpicks, hlog, heff⟩
    have hvis : ∀ q, Visited p ((w.cache p).tcc i) rem q ↔
        Visited p ((w.cache p).tcc i) (c :: rem) q ∨ (c :: p) <:+ q := fun q => by
      simp [visited_cons hc, hs]
    have hown : w₂.cache p = w₁.cache p := heff.outside p not_child_suffix_self
    have hbcc : (w₂.cache p).bcc i ≠ .I := by
      rw [hown, hinv.effect.own]
      exact h.valid
    have hdirty : r.2 = true ↔ wb = true ∨
        ∃ q, Visited p ((w.cache p).tcc i) rem q ∧ stateAt t w q a = .M := by
      rw [hwb, hinv.writeback, or_assoc]
      simp only [hvis, or_and_right, exists_or]
      have hin : DirtyIn t w₁ (c :: p) a ↔ ∃ q, (c :: p) <:+ q ∧ stateAt t w q a = .M := by
        constructor
        · rintro ⟨q, hq, hm⟩
          exact ⟨q, hq, by rwa [stateAt_congr (hsame q hq)] at hm⟩
        · rintro ⟨q, hq, hm⟩
          exact ⟨q, hq, by rwa [stateAt_congr (hsame q hq)]⟩
      rw [hin]
    have hsent : acc.sentInvs + 1 + rem.countP ((w.cache p).tcc i).sharers =
        ((w.cache p).tcc i).numSharers := by
      have hold := hinv.sent
      simp only [List.countP_cons, hs, if_true] at hold
      omega
    have hmax : cycle ≤ max (r.1 + t.childrenRTT p c) acc.maxCycle :=
      hinv.cycle.trans (le_max_right _ _)
    have hsub := (hinv.effect.child hnew heff).congr hvis
    split
    case isTrue hty =>
      subst hty
      simp only [wp_setEntry, wp_pure]
      have he : (w₂.cache p).tcc i = partlySent .INV ((w.cache p).tcc i) (c :: rem) := by
        rw [hown, hcur]
      rw [he, partlySent_clear hc]
      refine ⟨(List.nodup_cons.mp hinv.nodup).2, hmax, hsent, hdirty, fun q => ?_, ?_, ?_, ?_⟩
      · by_cases hq : q = p
        · subst hq
          rw [setEntry_self]
          exact (hlines q).setEntry fun hI => absurd hI hbcc
        · rw [setEntry_of_ne _ _ hq]
          exact hlines q
      · rw [setEntry_picks, hpicks, hinv.picks]
      · rw [setEntry_log, hlog, hinv.log]
      · refine Sent.setEntry hsub ?_ _
        rintro ⟨d, -, -, hd⟩
        exact not_child_suffix_self hd
    case isFalse hty =>
      have he : partlySent ty ((w.cache p).tcc i) rem =
          partlySent ty ((w.cache p).tcc i) (c :: rem) := by
        simp [partlySent, hty]
      simp only [wp_pure]
      refine ⟨(List.nodup_cons.mp hinv.nodup).2, hmax, hsent, hdirty, hlines, ?_, ?_, ?_⟩
      · rw [hpicks, hinv.picks]
      · rw [hlog, hinv.log]
      · rw [he]
        exact hsub

/-- What `sendInvalidates` achieves. -/
structure SendPost (t : Hierarchy σ) (F : Faithful t.array) (p : CachePath) (i : LineId)
    (a : Address) (ty : InvType) (cycle : ℕ) (wb : Bool) (w : World σ) (r : ℕ × Bool)
    (w' : World σ) : Prop where
  cycle : cycle ≤ r.1
  writeback : r.2 = true ↔ wb = true ∨
    ∃ q, Reached p ((w.cache p).tcc i) q ∧ stateAt t w q a = .M
  lines : ∀ q, LinesOk F (w'.cache q)
  picks : w'.picks = w.picks
  log : w'.log = w.log
  effect : Sent t p i (invEntry ty ((w.cache p).tcc i)) (Reached p ((w.cache p).tcc i)) a ty w w'

/-- Nothing is sent for a vacant entry, nor for a downgrade of an entry that
is not exclusive; in both cases nothing below would change. -/
theorem SendPost.skip (h : Sendable t F p i a ty w)
    (hskip : (ty = .INVX ∧ ((w.cache p).tcc i).isExclusive = false) ∨
      ((w.cache p).tcc i).isEmpty = true) :
    SendPost t F p i a ty cycle wb w (cycle, wb) w := by
  have hnone : ∀ q, Reached p ((w.cache p).tcc i) q → ty = .INVX ∧
      (stateAt t w q a).exclusive = false ∧ (entryAt t w q a).isExclusive = false := by
    rintro q ⟨c, hs, hq⟩
    rcases hskip with ⟨hty, hne⟩ | hempty
    · have hbelow : ∀ r, (c :: p) <:+ r → EdgeOk t w r a := fun r hr => h.below r ⟨c, hs, hr⟩
      have hc : (stateAt t w (c :: p) a).exclusive = false := by rw [h.exclusive hty c hs, hne]
      refine ⟨hty, not_exclusive_below hbelow hc hq, ?_⟩
      by_contra hx
      have hx := Bool.eq_true_of_not_eq_false hx
      obtain ⟨d, hd⟩ := (hbelow q hq).exists_sharer hx
      have hdx := (hbelow q hq).exclusive_down hx d hd
      rw [not_exclusive_below hbelow hc (hq.trans (List.suffix_cons d q))] at hdx
      cases hdx
    · have hpos := sharerCount_pos (h.lt c hs) hs
      have hzero : ((w.cache p).tcc i).numSharers = 0 := by simpa [Entry.isEmpty] using hempty
      rw [← h.count] at hpos
      omega
  have hentry : invEntry ty ((w.cache p).tcc i) = (w.cache p).tcc i := by
    rcases hskip with ⟨rfl, hne⟩ | hempty
    · simp [invEntry, hne]
    · have hzero : ((w.cache p).tcc i).numSharers = 0 := by simpa [Entry.isEmpty] using hempty
      have hsh : ((w.cache p).tcc i).sharers = fun _ => false := by
        funext c
        by_contra hs
        have hs := Bool.eq_true_of_not_eq_false hs
        have hpos := sharerCount_pos (h.lt c hs) hs
        rw [← h.count] at hpos
        omega
      cases ty with
      | INV => rw [invEntry, Entry.dropAll, ← hsh, ← hzero]
      | INVX => simp [invEntry, Entry.isExclusive, hzero]
      | FWD => rfl
  refine ⟨le_rfl, ?_, h.lines, rfl, rfl, ?_⟩
  · constructor
    · exact .inl
    · rintro (hw | ⟨q, hq, hm⟩)
      · exact hw
      · have hx := (hnone q hq).2.1
        rw [hm] at hx
        cases hx
  · refine ⟨?_, fun _ => rfl, fun _ _ _ => rfl, fun _ _ _ _ => rfl, fun _ _ _ _ => rfl,
      fun q hq => ?_, fun q hq => ?_⟩
    · rw [hentry, Function.update_eq_self]
    · obtain ⟨rfl, hx, -⟩ := hnone q hq
      simp [invState, hx]
    · obtain ⟨rfl, -, hx⟩ := hnone q hq
      simp [invEntry, hx]

/-- The loop has visited every child; the entry is settled afterwards. -/
theorem LoopInv.finish (h : Sendable t F p i a ty w) {acc : MESITopCC.InvAcc} {w₁ : World σ}
    (hinv : LoopInv t F p i a ty w cycle wb [] acc w₁) (e : Entry)
    (he : e = invEntry ty ((w.cache p).tcc i)) :
    SendPost t F p i a ty cycle wb w (acc.maxCycle, acc.writeback) (w₁.setEntry p i e) := by
  have hvis : ∀ q, Reached p ((w.cache p).tcc i) q ↔ Visited p ((w.cache p).tcc i) [] q := by
    simp [Reached, Visited]
  have heff := (hinv.effect.setEntry (fun hp => reached_ne_self ((hvis p).mpr hp)) e).congr hvis
  refine ⟨hinv.cycle, ?_, fun q => ?_, hinv.picks, hinv.log, he ▸ heff⟩
  · simpa only [hvis] using hinv.writeback
  · by_cases hq : q = p
    · subst hq
      rw [setEntry_self]
      refine (hinv.lines q).setEntry fun hI => absurd hI ?_
      rw [hinv.effect.own]
      exact h.valid
    · rw [setEntry_of_ne _ _ hq]
      exact hinv.lines q

theorem sendInvalidates_spec (h : Sendable t F p i a ty w)
    (hspec : ∀ c, c < t.numChildren p → InvalidateSpec t F (c :: p) (inval (c :: p))) :
    wp (MESITopCC.sendInvalidates t p inval a i ty wb cycle)
      (SendPost t F p i a ty cycle wb w) w := by
  simp only [MESITopCC.sendInvalidates, wp_bind, wp_entryOf, wp_ite, wp_pure, wp_ensure]
  split
  case isTrue hskip => exact SendPost.skip h hskip
  case isFalse hgo =>
    have hx : ty = .INVX → ((w.cache p).tcc i).isExclusive = true := by
      intro hty
      by_contra hne
      exact hgo (.inl ⟨hty, Bool.eq_false_of_not_eq_true hne⟩)
    have hloop := wp_foldlM (LoopInv t F p i a ty w cycle wb) (loop_step h hx hspec)
      (LoopInv.start h)
    refine wp_mono hloop ?_
    intro acc w₁ hinv
    have hcur : (w₁.cache p).tcc i = partlySent ty ((w.cache p).tcc i) [] :=
      hinv.effect.tcc_self
    have hnum : (partlySent ty ((w.cache p).tcc i) []).numSharers =
        ((w.cache p).tcc i).numSharers := by
      unfold partlySent
      split <;> rfl
    refine ⟨by rw [hcur, hnum, ← hinv.sent]; rfl, ?_⟩
    split
    case isTrue hty =>
      subst hty
      rw [wp_setEntry, hcur]
      exact hinv.finish h _ (by simp [partlySent, invEntry, Entry.dropAll])
    case isFalse hty =>
      have hinvx : ty = .INVX := by
        cases ty with
        | INV => exact absurd rfl hty
        | INVX => rfl
        | FWD => exact absurd rfl h.type
      have he := hx hinvx
      subst hinvx
      have hkeep : partlySent .INVX ((w.cache p).tcc i) [] = (w.cache p).tcc i := rfl
      rw [wp_setEntry, hcur, hkeep]
      refine ⟨((isExclusive_iff _).mp he).symm, ?_⟩
      exact hinv.finish h _ (by simp [invEntry, he])

end Loop

section Whole

variable {t : Hierarchy σ} {F : Faithful t.array} {p : CachePath} {i : LineId}
  {a : Address} {ty : InvType} {w w₁ : World σ}

/-- A subtree that holds the address is reached through a set bit. -/
theorem reached_of_held (hedge : ∀ q, p <:+ q → EdgeOk t w q a)
    (hi : t.array.lookup (w.cache p).array a = some i) {c : ℕ} {q : CachePath}
    (hq : (c :: p) <:+ q) (hheld : stateAt t w q a ≠ .I) :
    Reached p ((w.cache p).tcc i) q := by
  have hchild : stateAt t w (c :: p) a ≠ .I := by
    intro hI
    exact hheld (invalid_below (fun r hr => hedge r (suffix_of_child hr)) hI hq)
  have hbit := ((hedge p List.suffix_rfl).sharers_iff c).mpr hchild
  rw [entryAt, heldEntry_of_lookup hi] at hbit
  exact ⟨c, hbit, hq⟩

/-- The cache adjusts its own state after its children. -/
theorem Sent.invalidated (hlines : ∀ q, LinesOk F (w.cache q))
    (hedge : ∀ q, p <:+ q → EdgeOk t w q a)
    (hi : t.array.lookup (w.cache p).array a = some i)
    (h : Sent t p i (invEntry ty ((w.cache p).tcc i)) (Reached p ((w.cache p).tcc i)) a ty w w₁) :
    Invalidated t (p <:+ ·) a ty w
      (w₁.setState p i (invState ty ((w.cache p).bcc i))) := by
  have hi₁ : t.array.lookup (w₁.cache p).array a = some i := by rw [h.array, hi]
  have hlines₁ : LinesOk F { w.cache p with
      tcc := Function.update (w.cache p).tcc i (invEntry ty ((w.cache p).tcc i)) } := by
    refine (hlines p).setEntry fun hI => ?_
    rw [((hlines p).vacant i hI).invEntry_eq]
    exact (hlines p).vacant i hI
  -- a child whose bit is clear heads a subtree without the address
  have hrest : ∀ q, q ≠ p → p <:+ q → ¬ Reached p ((w.cache p).tcc i) q →
      w₁.cache q = w.cache q ∧ stateAt t w q a = .I := by
    intro q hqp hq hout
    refine ⟨h.outside q hqp hout, ?_⟩
    obtain rfl | ⟨c, hc⟩ := suffix_cases hq
    · exact absurd rfl hqp
    · by_contra hheld
      exact hout (reached_of_held hedge hi hc hheld)
  refine ⟨fun q => ?_, fun q hq => ?_, fun q b hb => ?_, fun q b hb => ?_, fun q hq => ?_,
    fun q hq => ?_⟩
  · by_cases hqp : q = p
    · subst hqp
      rw [setState_self, h.array]
    · rw [setState_of_ne _ _ hqp, h.array]
  · have hqp : q ≠ p := by
      rintro rfl
      exact hq List.suffix_rfl
    rw [setState_of_ne _ _ hqp]
    exact h.outside q hqp fun ⟨c, _, hc⟩ => hq (suffix_of_child hc)
  · by_cases hqp : q = p
    · subst hqp
      rw [stateAt, setState_self, h.own,
        heldState_update_of_ne hlines₁ (show t.array.lookup _ a = some i from hi) hb]
      rfl
    · rw [stateAt_congr (setState_of_ne _ _ hqp), h.otherState q b hqp hb]
  · by_cases hqp : q = p
    · subst hqp
      rw [entryAt, setState_self, ← h.ownOtherEntry (hlines q) hi hb]
      rfl
    · rw [entryAt_congr (setState_of_ne _ _ hqp), h.otherEntry q b hqp hb]
  · by_cases hqp : q = p
    · subst hqp
      rw [stateAt, setState_self, heldState_update_self hi₁, stateAt, heldState_of_lookup hi]
    · rw [stateAt_congr (setState_of_ne _ _ hqp)]
      by_cases hr : Reached p ((w.cache p).tcc i) q
      · exact h.state q hr
      · obtain ⟨hsame, hI⟩ := hrest q hqp hq hr
        rw [stateAt_congr hsame, hI, invState_I]
  · by_cases hqp : q = p
    · subst hqp
      rw [entryAt, setState_self, entryAt, heldEntry_of_lookup hi, ← h.ownEntry hi]
      rfl
    · rw [entryAt_congr (setState_of_ne _ _ hqp)]
      by_cases hr : Reached p ((w.cache p).tcc i) q
      · exact h.entry q hr
      · obtain ⟨hsame, hI⟩ := hrest q hqp hq hr
        rw [entryAt_congr hsame, entryAt, ((hlines q).vacant_of_I hI).invEntry_eq]

/-- The own state change that `MESIBottomCC::processInval` makes, and its
contribution to the writeback flag. -/
theorem processInval_spec {wb : Bool} (hty : ty ≠ .FWD)
    (hval : (w.cache p).bcc i ≠ .I)
    (hx : ty = .INVX → ((w.cache p).bcc i).exclusive = true) :
    wp (MESIBottomCC.processInval p i ty wb) (fun r w' =>
      (r = true ↔ wb = true ∨ (w.cache p).bcc i = .M) ∧
      w' = w.setState p i (invState ty ((w.cache p).bcc i))) w := by
  cases ty with
  | INV =>
    simp only [MESIBottomCC.processInval, wp_bind, wp_stateOf, wp_ensure, wp_setState, wp_pure]
    exact ⟨hval, by simp, rfl⟩
  | INVX =>
    simp only [MESIBottomCC.processInval, wp_bind, wp_stateOf, wp_ensure, wp_setState, wp_pure]
    exact ⟨hval, hx rfl, by simp, by simp [invState, hx rfl]⟩
  | FWD => exact absurd rfl hty

/-- The bottom controller's part, once the children have been dealt with. -/
theorem inval_finish (hlines : ∀ q, LinesOk F (w.cache q))
    (hedge : ∀ q, p <:+ q → EdgeOk t w q a) {cycle : ℕ} {wb : Bool}
    (hi : t.array.lookup (w.cache p).array a = some i) (hty : ty ≠ .FWD)
    (hval : (w.cache p).bcc i ≠ .I)
    (hx : ty = .INVX → ((w.cache p).bcc i).exclusive = true)
    {r : ℕ × Bool} (h : SendPost t F p i a ty cycle wb w r w₁) :
    wp (MESIBottomCC.processInval p i ty r.2) (fun r' w' =>
      (r' = true ↔ wb = true ∨ DirtyIn t w p a) ∧ (∀ q, LinesOk F (w'.cache q)) ∧
      w'.picks = w.picks ∧ w'.log = w.log ∧ Invalidated t (p <:+ ·) a ty w w') w₁ := by
  have hbcc : (w₁.cache p).bcc i = (w.cache p).bcc i := by rw [h.effect.own]
  have hi₁ : t.array.lookup (w₁.cache p).array a = some i := by rw [h.effect.array, hi]
  refine wp_mono (processInval_spec hty (hbcc.symm ▸ hval) fun hxx => hbcc.symm ▸ hx hxx) ?_
  rintro r' w' ⟨hr', rfl⟩
  rw [hbcc] at hr' ⊢
  refine ⟨?_, fun q => ?_, h.picks, h.log, h.effect.invalidated hlines hedge hi⟩
  · have hstate : stateAt t w p a = (w.cache p).bcc i := heldState_of_lookup hi
    rw [hr', h.writeback, or_assoc]
    refine or_congr_right ⟨?_, ?_⟩
    · rintro (⟨q, ⟨c, -, hc⟩, hm⟩ | hm)
      · exact ⟨q, suffix_of_child hc, hm⟩
      · exact ⟨p, List.suffix_rfl, hstate.trans hm⟩
    · rintro ⟨q, hq, hm⟩
      obtain rfl | ⟨c, hc⟩ := suffix_cases hq
      · exact .inr (hstate.symm.trans hm)
      · exact .inl ⟨q, reached_of_held hedge hi hc (by rw [hm]; decide), hm⟩
  · by_cases hq : q = p
    · subst hq
      rw [setState_self]
      refine (h.lines q).setState hi₁ fun hI => ?_
      have hinv : ty = .INV := by
        cases ty with
        | INV => rfl
        | INVX => simp [invState, hx rfl] at hI
        | FWD => exact absurd rfl hty
      rw [h.effect.tcc_self, hinv]
      exact dropAll_vacant _
    · rw [setState_of_ne _ _ hq]
      exact h.lines q

/-- `Cache::invalidate` meets its specification at every cache of the tree;
the levels below it are enough for the recursion. -/
theorem invalidate_spec (levels : ℕ) (p : CachePath) (hlen : p.length ≤ t.height)
    (hlev : t.height < p.length + levels) : InvalidateSpec t F p (invalidate t levels p) := by
  induction levels generalizing p with
  | zero => omega
  | succ levels ih =>
    intro a ty cycle wb w hty hlines hedge hval hx
    obtain ⟨i, hi, hbcc⟩ := lookup_of_held hval
    have hown := hedge p List.suffix_rfl
    have hval' : (w.cache p).bcc i ≠ .I := by rwa [hbcc]
    have hx' : ty = .INVX → ((w.cache p).bcc i).exclusive = true := by rwa [hbcc]
    have hbit : ∀ c, ((w.cache p).tcc i).sharers c = true ↔ stateAt t w (c :: p) a ≠ .I := by
      intro c
      rw [← heldEntry_of_lookup (A:=t.array) hi]
      exact hown.sharers_iff c
    simp only [invalidate, Cache.finishInvalidate, Cache.lookup, wp_bind, wp_observe, hi]
    by_cases hn : t.numChildren p = 0
    · have hnone : ∀ q, ¬ Reached p ((w.cache p).tcc i) q := by
        rintro q ⟨c, hs, -⟩
        have hlt := hown.child_lt ((hbit c).mp hs)
        omega
      have hvac : ((w.cache p).tcc i).Vacant := by
        have hcount := hown.count
        rw [entryAt, heldEntry_of_lookup hi, hn] at hcount
        refine ⟨by rw [hcount]; rfl, fun c => ?_⟩
        by_contra hs
        exact hnone (c :: p) ⟨c, Bool.eq_true_of_not_eq_false hs, List.suffix_rfl⟩
      have hsent : SendPost t F p i a ty (cycle + t.invLat p) wb w (cycle + t.invLat p, wb) w := by
        refine ⟨le_rfl, ⟨.inl, ?_⟩, hlines, rfl, rfl, ?_⟩
        · rintro (hw | ⟨q, hq, -⟩)
          · exact hw
          · exact absurd hq (hnone q)
        · rw [hvac.invEntry_eq]
          exact Sent.start hnone
      simp only [hn, if_true, MESITerminalCC.processInv, wp_bind, wp_pure]
      refine wp_mono (inval_finish hlines hedge hi hty hval' hx' hsent) ?_
      rintro r w' ⟨hwb, hl, hpk, hlg, heff⟩
      exact ⟨Nat.le_add_right _ _, hwb, hl, hpk, hlg, heff⟩
    · have hheight : p.length < t.height := by
        by_contra hge
        exact hn (t.no_children p (not_lt.mp hge))
      have hsendable : Sendable t F p i a ty w := by
        have hcount := hown.count
        rw [entryAt, heldEntry_of_lookup hi] at hcount
        refine ⟨hlines, hi, hval', fun c hs => hown.child_lt ((hbit c).mp hs), hcount,
          fun c hs => (hbit c).mp hs, ?_, hty, ?_⟩
        · rintro q ⟨c, -, hc⟩
          exact hedge q (suffix_of_child hc)
        · intro _ c hs
          have hdown := hown.exclusive_down
          have hup := hown.exclusive_up c
          rw [entryAt, heldEntry_of_lookup hi] at hdown hup
          exact Bool.eq_iff_iff.mpr ⟨fun h => (hup h).2, fun h => hdown h c hs⟩
      have hchildren : ∀ c, c < t.numChildren p →
          InvalidateSpec t F (c :: p) (invalidate t levels (c :: p)) := fun c _ =>
        ih (c :: p) (by simp only [List.length_cons]; omega) (by simp only [List.length_cons]; omega)
      simp only [hn, if_false, MESICC.processInv, MESITopCC.processInval, if_neg hty, wp_bind,
        wp_pure]
      refine wp_mono (sendInvalidates_spec hsendable hchildren) ?_
      intro r w₁ hsent
      refine wp_mono (inval_finish hlines hedge hi hty hval' hx' hsent) ?_
      rintro r' w' ⟨hwb, hl, hpk, hlg, heff⟩
      exact ⟨(Nat.le_add_right _ _).trans hsent.cycle, hwb, hl, hpk, hlg, heff⟩

end Whole

end Zsim.MESIInvalidation
