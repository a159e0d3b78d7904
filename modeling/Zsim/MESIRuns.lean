import Zsim.MESIAccess
import Zsim.SetAssoc

/-!
# Whole runs of a cache tree

A run is a sequence of loads and stores at the leaves, each performed to
completion. Coherence and the ghost account of dirty data hold in every state
between two accesses, and no run meets a failure.
-/

namespace Zsim.MESIRuns

open WeakestPre MemoryHierarchy CacheArrays MESIDirectory MESIControllers MESIInvalidation
open MESICoherence MESIAccess

variable {σ : Type}

/-- The caches the cores access. -/
def IsLeaf (t : Hierarchy σ) (p : CachePath) : Prop := HasNode t p ∧ t.numChildren p = 0

/-- The accesses the caches are built for. -/
def Admissible (t : Hierarchy σ) (F : Faithful t.array) (x : CoreAccess) : Prop :=
  IsLeaf t x.leaf ∧ F.Accepts x.lineAddr

/-- Sequential MESI coherence, read off a state between two accesses. -/
structure SequentialCoherence (t : Hierarchy σ) (w : World σ) : Prop where
  /-- Next to a leaf in E or M every other leaf is in I. -/
  single_writer : ∀ a p q, IsLeaf t p → IsLeaf t q → q ≠ p →
    (stateAt t w p a).exclusive = true → stateAt t w q a = .I
  sharers_iff : ∀ p a c, (entryAt t w p a).sharers c = true ↔ stateAt t w (c :: p) a ≠ .I
  sharers_lt : ∀ p a c, (entryAt t w p a).sharers c = true → c < t.numChildren p
  count : ∀ p a, (entryAt t w p a).numSharers =
    sharerCount (t.numChildren p) (entryAt t w p a).sharers
  /-- A line that holds no valid address has no sharers. -/
  vacant : ∀ p i, (w.cache p).bcc i = .I → ((w.cache p).tcc i).Vacant
  /-- A valid line is the one its address is found at. -/
  found : ∀ p i, (w.cache p).bcc i ≠ .I →
    t.array.lookup (w.cache p).array (t.array.line (w.cache p).array i) = some i
  valid_up : ∀ p a c, stateAt t w (c :: p) a ≠ .I → stateAt t w p a ≠ .I
  exclusive_up : ∀ p a c, (stateAt t w (c :: p) a).exclusive = true →
    (stateAt t w p a).exclusive = true ∧ (entryAt t w p a).isExclusive = true

section Tree

variable {t : Hierarchy σ} {F : Faithful t.array} {w : World σ} {p q : CachePath} {a : Address}

/-- Two caches neither of which is above the other part at a common ancestor. -/
theorem exists_fork (hpq : ¬ p <:+ q) (hqp : ¬ q <:+ p) :
    ∃ r c d, c ≠ d ∧ (c :: r) <:+ p ∧ (d :: r) <:+ q := by
  induction p with
  | nil => exact absurd List.nil_suffix hpq
  | cons x p ih =>
    have hqp' : ¬ q <:+ p := fun h => hqp (h.trans (List.suffix_cons x p))
    by_cases hp : p <:+ q
    · obtain rfl | ⟨d, hd⟩ := suffix_cases hp
      · exact absurd (List.suffix_cons x q) hqp
      · refine ⟨p, x, d, ?_, List.suffix_rfl, hd⟩
        rintro rfl
        exact hpq hd
    · obtain ⟨r, c, d, hcd, hc, hd⟩ := ih hp hqp'
      exact ⟨r, c, d, hcd, hc.trans (List.suffix_cons x p), hd⟩

/-- Above a valid cache every cache is valid. -/
theorem valid_above (h : Coherent t F w) (hpq : p <:+ q) (hq : stateAt t w q a ≠ .I) :
    stateAt t w p a ≠ .I :=
  fun hp => hq (invalid_below (fun r _ => h.edges r a) hp hpq)

/-- Above a cache with exclusive permission every cache has it. -/
theorem exclusive_above (h : Coherent t F w) (hpq : p <:+ q)
    (hq : (stateAt t w q a).exclusive = true) : (stateAt t w p a).exclusive = true := by
  by_contra hp
  have hfalse := not_exclusive_below (fun r _ => h.edges r a) (Bool.eq_false_of_not_eq_true hp) hpq
  rw [hq] at hfalse
  cases hfalse

/-- A leaf has no valid cache below it. -/
theorem invalid_below_leaf (h : Coherent t F w) (hp : t.numChildren p = 0) (hpq : p <:+ q)
    (hne : q ≠ p) : stateAt t w q a = .I := by
  obtain rfl | ⟨c, hc⟩ := suffix_cases hpq
  · exact absurd rfl hne
  · by_contra hq
    have hlt := (h.edges p a).child_lt (valid_above h hc hq)
    omega

/-- Directory agreement at every edge is coherence of the whole tree. -/
theorem Coherent.sequential (h : Coherent t F w) : SequentialCoherence t w where
  single_writer a p q hp hq hne hx := by
    by_contra hvalid
    by_cases hpq : p <:+ q
    · exact hvalid (invalid_below_leaf h hp.2 hpq hne)
    by_cases hqp : q <:+ p
    · have hI := invalid_below_leaf (a:=a) h hq.2 hqp (Ne.symm hne)
      exact ne_I_of_exclusive hx hI
    obtain ⟨r, c, d, hcd, hc, hd⟩ := exists_fork hpq hqp
    have hI := (h.edges r a).others_I (exclusive_above h hc hx) (Ne.symm hcd)
    exact valid_above h hd hvalid hI
  sharers_iff p a := (h.edges p a).sharers_iff
  sharers_lt p a := (h.edges p a).sharers_lt
  count p a := (h.edges p a).count
  vacant p := (h.lines p).vacant
  found p := (h.lines p).found
  valid_up p a := (h.edges p a).valid
  exclusive_up p a := (h.edges p a).exclusive_up

/-- Empty caches are coherent. -/
theorem coherent_init {arrays : CachePath → σ} (harr : ∀ p, F.Inv (arrays p)) (picks : List ℕ) :
    Coherent t F (World.init arrays picks) := by
  have hI : ∀ p a, stateAt t (World.init arrays picks) p a = .I := by
    intro p a
    unfold stateAt heldState
    split <;> rfl
  have he : ∀ p a, (entryAt t (World.init arrays picks) p a).Vacant := by
    intro p a
    unfold entryAt heldEntry
    split <;> exact clear_vacant
  exact ⟨fun p => ⟨harr p, fun i hi => absurd rfl hi, fun _ _ => clear_vacant⟩,
    fun p a => Agrees.vacant _ (he p a) fun c => hI _ a⟩

end Tree

section Ghost

/-- The ghost bit of an address: set by a store at a leaf, cleared when the
memory receives a dirty writeback. -/
def ghostBit (log : List Event) (a : Address) : Bool :=
  log.foldl (fun bit ev =>
    match ev with
    | .leafM b => bit || b == a
    | .memPutx b => bit && b != a) false

theorem ghostBit_leafM (log : List Event) (a b : Address) :
    ghostBit (log ++ [.leafM b]) a = (ghostBit log a || b == a) := by
  simp only [ghostBit, List.foldl_append, List.foldl_cons, List.foldl_nil]

/-- Dirty writebacks clear the bits of their addresses. -/
theorem ghostBit_memPutx (log : List Event) (l : List Address) (a : Address) :
    ghostBit (log ++ l.map .memPutx) a = true ↔ ghostBit log a = true ∧ a ∉ l := by
  induction l generalizing log with
  | nil => simp
  | cons b l ih =>
    have hb : ghostBit (log ++ [.memPutx b]) a = (ghostBit log a && b != a) := by
      simp only [ghostBit, List.foldl_append, List.foldl_cons, List.foldl_nil]
    rw [List.map_cons, ← List.singleton_append, ← List.append_assoc, ih, hb, List.mem_cons, not_or,
      Bool.and_eq_true, bne_iff_ne, and_assoc, ne_comm]

/-- Every address whose ghost bit is set is held in M. -/
def Accounted (t : Hierarchy σ) (w : World σ) : Prop :=
  ∀ a, ghostBit w.log a = true → Dirty t w a

variable {t : Hierarchy σ} {w w₁ : World σ}

theorem Accounted.kept (h : Accounted t w) (hk : KeepsDirty t w w₁) : Accounted t w₁ := by
  obtain ⟨l, hlog, hdirty⟩ := hk
  intro a ha
  rw [hlog, ghostBit_memPutx] at ha
  exact (hdirty a (h a ha.1)).resolve_right ha.2

end Ghost

section Leaves

variable {t : Hierarchy σ} {F : Faithful t.array} {w : World σ} {x : CoreAccess}

/-- The eviction a leaf makes: it has no children to ask. -/
theorem terminal_processEviction_spec {p : CachePath} {up : MemReq → Act σ ℕ} {b : Address}
    {v : LineId} {cycle : ℕ} (hup : UpSpec t F p up) (hp : t.numChildren p = 0)
    (h : Coherent t F w) (hline : t.array.line (w.cache p).array v = b) :
    wp ((MESITerminalCC t p up).processEviction b v cycle)
      (fun _ w' => EvictPost t F p b v w w') w := by
  refine bottom_processEviction_spec hup h ?_
  by_cases hI : (w.cache p).bcc v = .I
  · exact .inl hI
  · have hlook := hline ▸ (h.lines p).found v hI
    exact .inr ⟨hlook, vacant_of_no_children h hp hlook⟩

/-- What one access of a core achieves. -/
structure CorePost (t : Hierarchy σ) (F : Faithful t.array) (x : CoreAccess) (w w' : World σ) :
    Prop where
  coherent : Coherent t F w'
  /-- The writebacks of the access come before the store is logged. -/
  dirty : ∃ w₁, KeepsDirty t w w₁ ∧ w'.cache = w₁.cache ∧
    w'.log = w₁.log ++ if x.store = true then [.leafM x.lineAddr] else []
  granted : Served x.type (stateAt t w' x.leaf x.lineAddr)

/-- The end of an access: a store is logged. -/
theorem logStore_spec {w₁ : World σ} (h₁ : Coherent t F w₁) (hk : KeepsDirty t w w₁)
    (hs : Served x.type (stateAt t w₁ x.leaf x.lineAddr)) :
    wp (if x.store = true then change fun w => { w with log := w.log ++ [.leafM x.lineAddr] }
      else pure () : Act σ Unit) (fun _ w' => CorePost t F x w w') w₁ := by
  rw [wp_ite]
  split
  case isTrue hst =>
    rw [wp_change]
    exact ⟨h₁.ofView h₁.lines (fun _ _ => rfl) fun _ _ _ => rfl,
      ⟨w₁, hk, rfl, by rw [if_pos hst]⟩, hs⟩
  case isFalse hst =>
    rw [wp_pure]
    exact ⟨h₁, ⟨w₁, hk, rfl, by rw [if_neg hst, List.append_nil]⟩, hs⟩

theorem coreAccess_spec (hincl : ∀ p, t.nonInclusiveHack p = false) (hx : Admissible t F x)
    (h : Coherent t F w) : wp (coreAccess t x) (fun _ w' => CorePost t F x w w') w := by
  obtain ⟨⟨hnode, hleaf⟩, hacc⟩ := hx
  have hup := parentAccess_spec (F:=F) hincl x.leaf hnode
  have htype : x.type = .GETS ∨ x.type = .GETX := by
    unfold CoreAccess.type
    split
    · exact .inr rfl
    · exact .inl rfl
  have hserves : ∀ s, Serves s x.type := by
    intro s
    rcases htype with hg | hg <;> rw [hg] <;> trivial
  -- the bottom controller's part, whatever the state the line is found in
  have hserve : ∀ (w₀ : World σ) (i : LineId), Coherent t F w₀ → KeepsDirty t w w₀ →
      t.array.lookup (w₀.cache x.leaf).array x.lineAddr = some i →
      wp (MESIBottomCC.processAccess t x.leaf (parentAccess t x.leaf) x.lineAddr i x.type
        (x.cycle + t.accLat x.leaf) { noexcl := x.noexcl }) (fun r w₁ => x.cycle ≤ r ∧
          Coherent t F w₁ ∧ KeepsDirty t w w₁ ∧
          Served x.type (stateAt t w₁ x.leaf x.lineAddr)) w₀ := by
    intro w₀ i h₀ hk hi
    refine wp_mono (bottom_processAccess_spec hup h₀ rfl rfl (.inr hacc) hi (hserves _))
      fun r w₁ hb => ?_
    exact ⟨(Nat.le_add_right _ _).trans hb.cycle, hb.coherent, hk.trans hb.dirty, hb.served⟩
  simp only [coreAccess, Cache.access, MESITerminalCC, raceCheck, readState,
    MESIControllers.liftExcept, checkForMESIRace, Cache.lookup, wp_bind, wp_pure, wp_ensure,
    if_true, Bool.false_eq_true, if_false, wp_observe]
  refine ⟨htype, ?_⟩
  cases hlook : t.array.lookup (w.cache x.leaf).array x.lineAddr with
  | some i =>
    rw [wp_pure]
    refine wp_mono (hserve w i h (.refl w) hlook) ?_
    rintro r w₁ ⟨hcyc, h₁, hk, hs⟩
    exact ⟨hcyc, logStore_spec h₁ hk hs⟩
  | none =>
    refine wp_mono (allocate_spec rfl hacc (fun w₀ => (wp_pure ..).mpr ⟨rfl, rfl⟩)
      (fun w₀ b v h₀ hline => terminal_processEviction_spec hup hleaf h₀ hline) h hlook)
      fun r w₀ hal => ?_
    obtain ⟨i, rfl, hi⟩ := hal.found
    refine wp_mono (hserve w₀ i hal.coherent hal.dirty hi) ?_
    rintro r w₁ ⟨hcyc, h₁, hk, hs⟩
    exact ⟨hcyc, logStore_spec h₁ hk hs⟩

/-- One access keeps the ghost account. -/
theorem CorePost.accounted {w' : World σ} (h : CorePost t F x w w') (ha : Accounted t w) :
    Accounted t w' := by
  obtain ⟨w₁, hk, hcache, hlog⟩ := h.dirty
  have hdirty : ∀ a, Dirty t w₁ a → Dirty t w' a := fun a ⟨q, hq⟩ =>
    ⟨q, by rwa [stateAt, hcache]⟩
  intro a hbit
  by_cases hst : x.store = true
  · rw [hlog, if_pos hst, ghostBit_leafM, Bool.or_eq_true, beq_iff_eq] at hbit
    rcases hbit with hbit | rfl
    · exact hdirty a (ha.kept hk a hbit)
    · have hserved := h.granted
      rw [CoreAccess.type, if_pos hst] at hserved
      exact ⟨x.leaf, hserved⟩
  · rw [hlog, if_neg hst, List.append_nil] at hbit
    exact hdirty a (ha.kept hk a hbit)

end Leaves

section Runs

variable {t : Hierarchy σ} {F : Faithful t.array} {w w₁ w₂ : World σ}

/-- The log grows, and an address that was dirty stays dirty or its writeback
is among the new events. -/
def Extends (t : Hierarchy σ) (w w' : World σ) : Prop :=
  ∃ written, w'.log = w.log ++ written ∧
    ∀ a, Dirty t w a → Dirty t w' a ∨ .memPutx a ∈ written

theorem Extends.refl (w : World σ) : Extends t w w :=
  ⟨[], (List.append_nil _).symm, fun _ => .inl⟩

theorem Extends.trans (h₁ : Extends t w w₁) (h₂ : Extends t w₁ w₂) : Extends t w w₂ := by
  obtain ⟨l₁, hlog₁, hd₁⟩ := h₁
  obtain ⟨l₂, hlog₂, hd₂⟩ := h₂
  refine ⟨l₁ ++ l₂, by rw [hlog₂, hlog₁, List.append_assoc], fun a ha => ?_⟩
  rcases hd₁ a ha with h | h
  · exact (hd₂ a h).imp_right fun h => List.mem_append_right l₁ h
  · exact .inr (List.mem_append_left l₂ h)

theorem CorePost.extends {x : CoreAccess} (h : CorePost t F x w w₁) : Extends t w w₁ := by
  obtain ⟨w', ⟨l, hlog, hdirty⟩, hcache, hstore⟩ := h.dirty
  refine ⟨l.map .memPutx ++ if x.store = true then [.leafM x.lineAddr] else [],
    by rw [hstore, hlog, List.append_assoc], fun a ha => ?_⟩
  rcases hdirty a ha with ⟨q, hq⟩ | hl
  · exact .inl ⟨q, by rwa [stateAt, hcache]⟩
  · exact .inr (List.mem_append_left _ (List.mem_map_of_mem hl))

/-- A run of accesses returns, and coherence and the ghost account hold after
it. -/
theorem runAccesses_spec (hincl : ∀ p, t.nonInclusiveHack p = false) {xs : List CoreAccess}
    (hadm : ∀ x ∈ xs, Admissible t F x) (h : Coherent t F w) (ha : Accounted t w) :
    wp (runAccesses t xs) (fun _ w' => Coherent t F w' ∧ Accounted t w' ∧ Extends t w w') w := by
  let Inv (rest : List CoreAccess) (_ : Unit) (w' : World σ) : Prop :=
    (∀ x ∈ rest, Admissible t F x) ∧ Coherent t F w' ∧ Accounted t w' ∧ Extends t w w'
  have hstep : ∀ x rest (b : Unit) w', Inv (x :: rest) b w' →
      wp (do let _ ← coreAccess t x; pure () : Act σ Unit) (Inv rest) w' := by
    rintro x rest b w' ⟨hadm, h, ha, hext⟩
    obtain ⟨hx, hrest⟩ := List.forall_mem_cons.mp hadm
    rw [wp_bind]
    refine wp_mono (coreAccess_spec hincl hx h) fun _ w'' hpost => ?_
    rw [wp_pure]
    exact ⟨hrest, hpost.coherent, hpost.accounted ha, hext.trans hpost.extends⟩
  exact wp_mono (wp_foldlM Inv hstep ⟨hadm, h, ha, .refl w⟩) fun _ _ hpost => hpost.2

/-- A cache that holds a line belongs to the tree. -/
theorem hasNode_of_valid (h : Coherent t F w) {p : CachePath} {a : Address}
    (hp : stateAt t w p a ≠ .I) : HasNode t p := by
  induction p with
  | nil => exact trivial
  | cons c q ih => exact ⟨(h.edges q a).child_lt hp, ih ((h.edges q a).valid c hp)⟩

theorem accounted_init (t : Hierarchy σ) (arrays : CachePath → σ) (picks : List ℕ) :
    Accounted t (World.init arrays picks) := by
  intro a ha
  cases ha

/-- From empty caches, every run of accesses at the leaves returns without a
failure, and its state is sequentially coherent. -/
theorem runAccesses_coherent (hincl : ∀ p, t.nonInclusiveHack p = false)
    {arrays : CachePath → σ} (harr : ∀ p, F.Inv (arrays p)) (picks : List ℕ)
    {xs : List CoreAccess} (hadm : ∀ x ∈ xs, Admissible t F x) :
    ∃ w, runAccesses t xs (World.init arrays picks) = .ok ((), w) ∧ SequentialCoherence t w := by
  obtain ⟨_, w, hrun, h, -⟩ :=
    runAccesses_spec hincl hadm (coherent_init harr picks) (accounted_init t arrays picks)
  exact ⟨w, hrun, Coherent.sequential h⟩

/-- An address whose ghost bit is set between two accesses is held in M, and if
after further accesses no cache holds it any more, the memory has received its
data in between. -/
theorem runAccesses_keep_dirty (hincl : ∀ p, t.nonInclusiveHack p = false)
    {arrays : CachePath → σ} (harr : ∀ p, F.Inv (arrays p)) (picks : List ℕ)
    {xs ys : List CoreAccess} (hxs : ∀ x ∈ xs, Admissible t F x)
    (hys : ∀ x ∈ ys, Admissible t F x) :
    ∃ w₁ w₂ written, runAccesses t xs (World.init arrays picks) = .ok ((), w₁) ∧
      runAccesses t ys w₁ = .ok ((), w₂) ∧ w₂.log = w₁.log ++ written ∧
      ∀ a, ghostBit w₁.log a = true →
        (∃ p, HasNode t p ∧ stateAt t w₁ p a = .M) ∧
        ((∀ p, HasNode t p → stateAt t w₂ p a = .I) → .memPutx a ∈ written) := by
  obtain ⟨_, w₁, hrun₁, h₁, ha₁, -⟩ :=
    runAccesses_spec hincl hxs (coherent_init harr picks) (accounted_init t arrays picks)
  obtain ⟨_, w₂, hrun₂, h₂, -, written, hlog, hkept⟩ := runAccesses_spec hincl hys h₁ ha₁
  refine ⟨w₁, w₂, written, hrun₁, hrun₂, hlog, fun a hbit => ⟨?_, fun hgone => ?_⟩⟩
  · obtain ⟨p, hp⟩ := ha₁ a hbit
    exact ⟨p, hasNode_of_valid h₁ (by rw [hp]; nofun), hp⟩
  · refine (hkept a (ha₁ a hbit)).resolve_left ?_
    rintro ⟨p, hp⟩
    have hI := hgone p (hasNode_of_valid h₂ (by rw [hp]; nofun))
    rw [hp] at hI
    cases hI

end Runs

section Example

open SetAssoc

/-- Two private caches of eight lines under a shared one. -/
def twoCores : Hierarchy SetAssocArray where
  array := setAssocArray
  numChildren p := if p.length = 0 then 2 else 0
  height := 1
  no_children p hp := if_neg (by omega)
  nonInclusiveHack _ := false
  accLat _ := 4
  invLat _ := 2
  parentRTT _ := 3
  childrenRTT _ _ := 3
  memLatency := 100
  memLatency_pos := by decide

/-- Four sets of two lines in every cache. -/
def smallArrays (_ : CachePath) : SetAssocArray := .init 8 2 fun _ a => a

theorem smallArrays_inv (p : CachePath) : setAssoc_faithful.Inv (smallArrays p) :=
  ⟨⟨2, show 8 / 2 = 2 ^ 2 by decide⟩, fun _ h => absurd rfl h, fun _ _ h => absurd rfl h⟩

/-- Accesses at the two private caches. -/
theorem twoCores_admissible {x : CoreAccess} (hx : x.leaf = [0] ∨ x.leaf = [1]) :
    Admissible twoCores setAssoc_faithful x := by
  refine ⟨?_, trivial⟩
  rcases hx with hx | hx <;> rw [hx] <;> exact ⟨⟨by decide, trivial⟩, rfl⟩

/-- One core stores, the other one stores to the same line, the first loads. -/
theorem twoCores_coherent : ∃ w, runAccesses twoCores
    [⟨[0], 64, true, false, 10⟩, ⟨[1], 64, true, false, 20⟩, ⟨[0], 64, false, true, 30⟩]
      (World.init smallArrays [1, 0]) = .ok ((), w) ∧ SequentialCoherence twoCores w :=
  runAccesses_coherent (F:=setAssoc_faithful) (fun _ => rfl) smallArrays_inv [1, 0]
    (by simp [twoCores_admissible])

/-- The same stores, and loads that may displace the line. -/
theorem twoCores_keep_dirty : ∃ w₁ w₂ written, runAccesses twoCores
      [⟨[0], 64, true, false, 10⟩, ⟨[1], 64, true, false, 20⟩] (World.init smallArrays [1, 0]) =
        .ok ((), w₁) ∧
    runAccesses twoCores [⟨[0], 68, false, true, 30⟩] w₁ = .ok ((), w₂) ∧
    w₂.log = w₁.log ++ written ∧ ∀ a, ghostBit w₁.log a = true →
      (∃ p, HasNode twoCores p ∧ stateAt twoCores w₁ p a = .M) ∧
      ((∀ p, HasNode twoCores p → stateAt twoCores w₂ p a = .I) → .memPutx a ∈ written) :=
  runAccesses_keep_dirty (F:=setAssoc_faithful) (fun _ => rfl) smallArrays_inv [1, 0]
    (by simp [twoCores_admissible]) (by simp [twoCores_admissible])

end Example

end Zsim.MESIRuns
