import Zsim.MESICoherence

/-!
# What a request to the parent does

A cache asks its parent for a line it lacks or gives up a line whose children
have let it go. The specification of such a request is the same for the memory
and for every cache: the run reaches no failure, the tree is coherent again, no
dirty address is forgotten, the requester has got the state it asked for and
its subtree has not been touched at that address. It is proved along the path
to the root, one controller function at a time.
-/

namespace Zsim.MESIAccess

open WeakestPre MemoryHierarchy CacheArrays MESIDirectory MESIControllers MESIInvalidation
open MESICoherence

variable {σ : Type}

/-- The paths of the caches of the tree. -/
def HasNode (t : Hierarchy σ) : CachePath → Prop
  | [] => True
  | c :: q => c < t.numChildren q ∧ HasNode t q

/-- The states in which a cache makes a request about an address. -/
def Requestable (t : Hierarchy σ) (w : World σ) (n : CachePath) (a : Address) : AccessType → Prop
  | .GETS => stateAt t w n a = .I
  | .GETX => stateAt t w n a = .I ∨ stateAt t w n a = .S
  | .PUTS => (stateAt t w n a = .S ∨ stateAt t w n a = .E) ∧ (entryAt t w n a).Vacant
  | .PUTX => stateAt t w n a = .M ∧ (entryAt t w n a).Vacant

/-- The states a request may leave its requester in. -/
def Granted : AccessType → MESIState → Prop
  | .GETS, s => s = .S ∨ s = .E
  | .GETX, s => s = .M
  | .PUTS, s | .PUTX, s => s = .I

/-- The request gives its line up. -/
def IsPut (type : AccessType) : Prop := type = .PUTS ∨ type = .PUTX

/-- What a request of cache `n` about `a` achieves. -/
structure UpPost (t : Hierarchy σ) (F : Faithful t.array) (n : CachePath) (a : Address)
    (type : AccessType) (cycle : ℕ) (w : World σ) (r : ℕ) (w' : World σ) : Prop where
  cycle : cycle ≤ r
  coherent : Coherent t F w'
  dirty : KeepsDirty t w w'
  array : ∀ q, n <:+ q → (w'.cache q).array = (w.cache q).array
  below : ∀ q, n <:+ q → q ≠ n → stateAt t w' q a = stateAt t w q a
  granted : Granted type (stateAt t w' n a)
  /-- A PUT moves no line and concerns its own address only. -/
  putArray : IsPut type → ∀ q, (w'.cache q).array = (w.cache q).array
  putOthers : IsPut type → ∀ q b, b ≠ a → stateAt t w' q b = stateAt t w q b

/-- The parent of cache `n` serves every request `n` makes. -/
def UpSpec (t : Hierarchy σ) (F : Faithful t.array) (n : CachePath)
    (up : MemReq → Act σ ℕ) : Prop :=
  ∀ (j : LineId) (a : Address) (type : AccessType) (cycle : ℕ) (flags : Flags) (w : World σ),
    flags.prefetch = false → flags.putxKeepExcl = false → (IsPut type ∨ F.Accepts a) →
    Coherent t F w → t.array.lookup (w.cache n).array a = some j → Requestable t w n a type →
    wp (up ⟨a, type, selfId n, some (n, j), cycle, (w.cache n).bcc j, flags⟩)
      (UpPost t F n a type cycle w) w

section Memory

variable {t : Hierarchy σ} {F : Faithful t.array} {w : World σ} {a : Address} {j : LineId}
  {s : MESIState}

/-- The root's state is written; the memory keeps no state of its own. -/
theorem memory_post {type : AccessType} {cycle r : ℕ} (log : List Address)
    (h : Coherent t F w) (hj : t.array.lookup (w.cache []).array a = some j)
    (hs : (entryAt t w [] a).Vacant ∨
      (s ≠ .I ∧ ((stateAt t w [] a).exclusive = true → s.exclusive = true)))
    (hm : stateAt t w [] a = .M → a ∈ log) (hg : Granted type s) (hr : cycle ≤ r) :
    UpPost t F [] a type cycle w r
      { w.setState [] j s with log := w.log ++ log.map .memPutx } := by
  have hst := stateAt_setState (h.lines []) hj s
  refine ⟨hr, ?_, ?_, fun q _ => setState_array w [] j s q, fun q _ hq => ?_, ?_,
    fun _ q => setState_array w [] j s q, fun _ q b hb => ?_⟩
  · exact (h.setRoot hj hs).ofView (h.setRoot hj hs).lines (fun _ _ => rfl) fun _ _ _ => rfl
  · refine ⟨log, rfl, fun b hb => ?_⟩
    obtain ⟨q, hq⟩ := hb
    by_cases hself : q = [] ∧ b = a
    · obtain ⟨rfl, rfl⟩ := hself
      exact .inr (hm hq)
    · exact .inl ⟨q, (hst q b).trans (by rw [if_neg hself, hq])⟩
  · exact (hst q a).trans (if_neg fun hn => hq hn.1)
  · change Granted type (stateAt t (w.setState [] j s) [] a)
    rw [hst, if_pos ⟨rfl, rfl⟩]
    exact hg
  · exact (hst q b).trans (if_neg fun hn => hb hn.2)

theorem simpleMemory_spec : UpSpec t F [] (SimpleMemory.access t) := by
  intro j a type cycle flags w _ _ _ h hj hreq
  have hlat := t.memLatency_pos
  have hle : cycle ≤ cycle + t.memLatency := Nat.le_add_right _ _
  have hlog : ∀ s, (w.setState [] j s) =
      { w.setState [] j s with log := w.log ++ ([] : List Address).map .memPutx } := by
    intro s
    simp only [List.map_nil, List.append_nil]
    rfl
  cases type with
  | PUTS =>
    simp only [SimpleMemory.access, writeState, wp_bind, wp_setState, wp_ensure, wp_pure]
    refine ⟨by omega, hlog .I ▸ memory_post [] h hj (.inl hreq.2) (fun hm => ?_) rfl hle⟩
    rcases hreq.1 with hs | hs <;> rw [hs] at hm <;> cases hm
  | PUTX =>
    simp only [SimpleMemory.access, writeState, wp_bind, wp_setState, wp_change, wp_ensure, wp_pure]
    exact ⟨by omega, memory_post [a] h hj (.inl hreq.2) (fun _ => by simp) rfl hle⟩
  | GETS =>
    simp only [SimpleMemory.access, writeState, wp_bind, wp_setState, wp_ensure, wp_pure]
    have hI : stateAt t w [] a = .I := hreq
    refine ⟨by omega, hlog _ ▸ memory_post [] h hj (.inr ⟨?_, ?_⟩) ?_ ?_ hle⟩
    · split <;> decide
    · simp [hI]
    · simp [hI]
    · split
      · exact .inl rfl
      · exact .inr rfl
  | GETX =>
    simp only [SimpleMemory.access, writeState, wp_bind, wp_setState, wp_ensure, wp_pure]
    refine ⟨by omega, hlog .M ▸ memory_post [] h hj (.inr ⟨by decide, fun _ => rfl⟩) ?_ rfl hle⟩
    rcases hreq with hs | hs <;> simp [hs]

end Memory

section Eviction

variable {t : Hierarchy σ} {F : Faithful t.array} {n : CachePath} {w : World σ} {a b : Address}
  {i v : LineId} {up : MemReq → Act σ ℕ}

/-- What the eviction of line `v`, which holds `b`, achieves. -/
structure EvictPost (t : Hierarchy σ) (F : Faithful t.array) (n : CachePath) (b : Address)
    (v : LineId) (w : World σ) (w' : World σ) : Prop where
  coherent : Coherent t F w'
  dirty : KeepsDirty t w w'
  array : ∀ q, (w'.cache q).array = (w.cache q).array
  others : ∀ q b', (b' = b → (w.cache n).bcc v = .I) → stateAt t w' q b' = stateAt t w q b'
  evicted : (w'.cache n).bcc v = .I

/-- An invalid line has nothing to be evicted. -/
theorem EvictPost.refl (h : Coherent t F w) (hI : (w.cache n).bcc v = .I) :
    EvictPost t F n b v w w :=
  ⟨h, .refl w, fun _ => rfl, fun _ _ _ => rfl, hI⟩

/-- The bottom controller writes a line back that no child holds. -/
theorem bottom_processEviction_spec (hup : UpSpec t F n up) (h : Coherent t F w) {cycle : ℕ}
    (hv : (w.cache n).bcc v = .I ∨
      (t.array.lookup (w.cache n).array b = some v ∧ ((w.cache n).tcc v).Vacant)) :
    wp (MESIBottomCC.processEviction n up b v false cycle)
      (fun _ w' => EvictPost t F n b v w w') w := by
  have hput : ∀ type, IsPut type → t.array.lookup (w.cache n).array b = some v →
      Requestable t w n b type →
      wp (MESIBottomCC.request n v b type cycle {} up) (fun _ w' =>
        EvictPost t F n b v w w' ∧ (w'.cache n).bcc v = .I) w := by
    intro type htype hlook hreq
    simp only [MESIBottomCC.request, wp_bind, wp_stateOf]
    refine wp_mono (hup v b type cycle {} w rfl rfl (.inl htype) h hlook hreq) fun r w' hp => ?_
    have hI : stateAt t w' n b = .I := by
      have hg := hp.granted
      rcases htype with rfl | rfl <;> exact hg
    have hlook' : t.array.lookup (w'.cache n).array b = some v := by
      rwa [hp.putArray htype]
    have hbcc : (w'.cache n).bcc v = .I := (heldState_of_lookup hlook').symm.trans hI
    refine ⟨⟨hp.coherent, hp.dirty, hp.putArray htype, fun q b' hb' => ?_, hbcc⟩, hbcc⟩
    refine hp.putOthers htype q b' fun hbb => ?_
    have hwI : stateAt t w n b = .I := (heldState_of_lookup hlook).trans (hb' hbb)
    rcases htype with rfl | rfl
    · rcases hreq.1 with hs | hs <;> rw [hs] at hwI <;> cases hwI
    · rw [hreq.1] at hwI
      cases hwI
  simp only [MESIBottomCC.processEviction, Bool.false_eq_true, if_false, wp_bind, wp_pure,
    wp_stateOf, wp_ensure]
  cases hst : (w.cache n).bcc v with
  | I => exact (wp_pure ..).mpr ⟨hst, EvictPost.refl h hst⟩
  | S =>
    obtain ⟨hlook, hvac⟩ := hv.resolve_left (by simp [hst])
    have hs : stateAt t w n b = .S := (heldState_of_lookup hlook).trans hst
    have he : (entryAt t w n b).Vacant := by rwa [entryAt, heldEntry_of_lookup hlook]
    exact wp_mono (hput .PUTS (.inl rfl) hlook ⟨.inl hs, he⟩) fun _ _ hp => ⟨hp.2, hp.1⟩
  | E =>
    obtain ⟨hlook, hvac⟩ := hv.resolve_left (by simp [hst])
    have hs : stateAt t w n b = .E := (heldState_of_lookup hlook).trans hst
    have he : (entryAt t w n b).Vacant := by rwa [entryAt, heldEntry_of_lookup hlook]
    exact wp_mono (hput .PUTS (.inl rfl) hlook ⟨.inr hs, he⟩) fun _ _ hp => ⟨hp.2, hp.1⟩
  | M =>
    obtain ⟨hlook, hvac⟩ := hv.resolve_left (by simp [hst])
    have hs : stateAt t w n b = .M := (heldState_of_lookup hlook).trans hst
    have he : (entryAt t w n b).Vacant := by rwa [entryAt, heldEntry_of_lookup hlook]
    exact wp_mono (hput .PUTX (.inr rfl) hlook ⟨hs, he⟩) fun _ _ hp => ⟨hp.2, hp.1⟩

/-- A writeback reported from below moves the line to M before it is evicted. -/
theorem wp_processEviction_true {cycle : ℕ} (Q : ℕ → World σ → Prop) :
    wp (MESIBottomCC.processEviction n up b v true cycle) Q w ↔
      ((w.cache n).bcc v).exclusive = true ∧
        wp (MESIBottomCC.processEviction n up b v false cycle) Q (w.setState n v .M) := by
  simp only [MESIBottomCC.processEviction, Bool.false_eq_true, if_true, if_false, wp_bind, wp_pure,
    wp_stateOf, wp_ensure, wp_setState]

/-- A cache without children keeps no sharers. -/
theorem vacant_of_no_children (h : Coherent t F w) (hn : t.numChildren n = 0)
    (hb : t.array.lookup (w.cache n).array b = some v) : ((w.cache n).tcc v).Vacant := by
  have hag := h.edges n b
  rw [EdgeOk, hn, entryAt, heldEntry_of_lookup hb] at hag
  refine ⟨hag.count, fun c => ?_⟩
  by_contra hs
  exact Nat.not_lt_zero c (hag.sharers_lt c (Bool.eq_true_of_not_eq_false hs))

variable {inval : CachePath → InvReq → Bool → Act σ (ℕ × Bool)}

/-- Both controllers together: the children let the line go, and what they
hand over is written back. -/
theorem processEviction_spec (hup : UpSpec t F n up)
    (hinv : ∀ c, c < t.numChildren n → InvalidateSpec t F (c :: n) (inval (c :: n)))
    (hincl : t.nonInclusiveHack n = false) (h : Coherent t F w)
    (hline : t.array.line (w.cache n).array v = b) {cycle : ℕ} :
    wp ((MESICC t n up inval).processEviction b v cycle)
      (fun _ w' => EvictPost t F n b v w w') w := by
  simp only [MESICC, MESITopCC.processEviction, hincl, Bool.false_eq_true, if_false, wp_bind]
  by_cases hI : (w.cache n).bcc v = .I
  · have hempty : ((w.cache n).tcc v).isEmpty = true := by
      simp [Entry.isEmpty, ((h.lines n).vacant v hI).1]
    simp only [MESITopCC.sendInvalidates, wp_bind, wp_entryOf, hempty, or_true, if_true, wp_pure]
    exact bottom_processEviction_spec hup h (.inl hI)
  · have hlook : t.array.lookup (w.cache n).array b = some v := hline ▸ (h.lines n).found v hI
    refine wp_mono (sendInvalidates_spec (h.sendable hlook hI (by decide)) hinv) fun r w₁ hs => ?_
    have h₁ := h.send hlook hs
    have hlook₁ : t.array.lookup (w₁.cache n).array b = some v := by rwa [hs.effect.array]
    have hown : (w₁.cache n).bcc v = (w.cache n).bcc v := by rw [hs.effect.own]
    have hvac : ((w₁.cache n).tcc v).Vacant := by
      rw [hs.effect.tcc_self]
      exact dropAll_vacant _
    have hframe : ∀ q b', (b' = b → (w.cache n).bcc v = .I) →
        b' ≠ b ∧ stateAt t w₁ q b' = stateAt t w q b' := fun q b' hb' => by
      have hne : b' ≠ b := fun hbb => hI (hb' hbb)
      exact ⟨hne, sendPost_state hs fun hn => hne hn.2⟩
    cases hwb : r.2 with
    | false =>
      refine wp_mono (bottom_processEviction_spec hup h₁ (.inr ⟨hlook₁, hvac⟩)) fun _ w₂ hp => ?_
      have hdirty : KeepsDirty t w w₁ := by
        refine .of_log hs.log fun a ha => (sendPost_dirty hs ha).resolve_right fun hn => ?_
        rw [hwb] at hn
        cases hn.2
      refine ⟨hp.coherent, hdirty.trans hp.dirty, fun q => ?_, fun q b' hb' => ?_, hp.evicted⟩
      · rw [hp.array, hs.effect.array]
      · obtain ⟨hne, heq⟩ := hframe q b' hb'
        rw [hp.others q b' fun hbb => absurd hbb hne, heq]
    | true =>
      -- some cache below held the line in M, so this one has exclusive permission
      have hx : (stateAt t w n b).exclusive = true := by
        obtain ⟨q, ⟨c, -, hc⟩, hm⟩ := (hs.writeback.mp hwb).resolve_left (by simp)
        by_contra hne
        have hfalse := not_exclusive_below (fun r _ => h.edges r b)
          (Bool.eq_false_of_not_eq_true hne) (suffix_of_child hc)
        rw [hm] at hfalse
        cases hfalse
      have hx₁ : ((w₁.cache n).bcc v).exclusive = true := by
        rw [hown, ← heldState_of_lookup (A:=t.array) hlook]
        exact hx
      have hst := stateAt_setState (h₁.lines n) hlook₁ .M
      have hM : Coherent t F (w₁.setState n v .M) :=
        h₁.toM hlook₁ (by rwa [stateAt, heldState_of_lookup hlook₁])
      have hvacM : (((w₁.setState n v .M).cache n).tcc v).Vacant := by
        rw [setState_self]
        exact hvac
      rw [wp_processEviction_true]
      refine ⟨hx₁, wp_mono (bottom_processEviction_spec hup hM
        (.inr ⟨by rwa [setState_array], hvacM⟩)) fun _ w₂ hp => ?_⟩
      have hdirty : KeepsDirty t w (w₁.setState n v .M) := by
        refine .of_log hs.log fun a ha => ?_
        rcases sendPost_dirty hs ha with ⟨q, hq⟩ | ⟨rfl, -⟩
        · refine ⟨q, (hst q a).trans ?_⟩
          split
          · rfl
          · exact hq
        · exact ⟨n, (hst n a).trans (if_pos ⟨rfl, rfl⟩)⟩
      refine ⟨hp.coherent, hdirty.trans hp.dirty, fun q => ?_, fun q b' hb' => ?_, hp.evicted⟩
      · rw [hp.array, setState_array, hs.effect.array]
      · obtain ⟨hne, heq⟩ := hframe q b' hb'
        rw [hp.others q b' fun hbb => absurd hbb hne, hst, if_neg fun hn => hne hn.2, heq]

end Eviction

section Allocation

variable {t : Hierarchy σ} {F : Faithful t.array} {n : CachePath} {w : World σ} {a : Address}
  {i : LineId} {cc : CC σ}

/-- What the miss path achieves: the address has a line, in state I. -/
structure AllocPost (t : Hierarchy σ) (F : Faithful t.array) (n : CachePath) (a : Address)
    (w : World σ) (r : Option LineId) (w' : World σ) : Prop where
  coherent : Coherent t F w'
  dirty : KeepsDirty t w w'
  array : ∀ q, q ≠ n → (w'.cache q).array = (w.cache q).array
  state : ∀ q, stateAt t w' q a = stateAt t w q a
  found : ∃ i, r = some i ∧ t.array.lookup (w'.cache n).array a = some i

/-- The policy answers with one of the candidates. -/
theorem victim_mem (h : F.Inv (w.cache n).array) :
    Cache.World.victim t w n a ∈ t.array.candidates (w.cache n).array a := by
  have hpos := List.length_pos_iff.mpr (F.candidates_ne_nil _ a h)
  rw [Cache.World.victim, List.getD_eq_getElem?_getD, List.getElem?_eq_getElem (Nat.mod_lt _ hpos)]
  exact List.getElem_mem _

@[simp] theorem setArray_self (w : World σ) (p : CachePath) (s : σ) :
    (w.setArray p s).cache p = { w.cache p with array := s } := set_cache_self ..

theorem setArray_of_ne {q : CachePath} (w : World σ) (s : σ) (h : q ≠ n) :
    (w.setArray n s).cache q = w.cache q := set_cache_of_ne _ _ h

/-- Choosing a victim leaves every line of the cache as sound as it was. -/
theorem linesOk_preinsert {c : CacheState σ} (hinv : F.Inv c.array) :
    LinesOk F { c with array := t.array.preinsert c.array a i } ↔ LinesOk F c := by
  have hfound : (∀ j, c.bcc j ≠ .I → t.array.lookup (t.array.preinsert c.array a i)
      (t.array.line (t.array.preinsert c.array a i) j) = some j) ↔
      ∀ j, c.bcc j ≠ .I → t.array.lookup c.array (t.array.line c.array j) = some j := by
    rw [F.preinsert_lookup, F.preinsert_line]
  constructor
  · intro h
    exact ⟨hinv, hfound.mp h.found, h.vacant⟩
  · intro h
    exact ⟨F.preinsert_inv _ a i hinv, hfound.mpr h.found, h.vacant⟩

/-- Exchanging the array of one cache, seen by address. -/
theorem setArray_view {s : σ}
    (hs : ∀ b, heldState t.array { w.cache n with array := s } b = stateAt t w n b)
    (he : ∀ b, stateAt t w n b ≠ .I →
      heldEntry t.array { w.cache n with array := s } b = entryAt t w n b) (q : CachePath)
    (b : Address) :
    stateAt t (w.setArray n s) q b = stateAt t w q b ∧
      (stateAt t w q b ≠ .I → entryAt t (w.setArray n s) q b = entryAt t w q b) := by
  by_cases hq : q = n
  · subst hq
    rw [stateAt, entryAt, setArray_self]
    exact ⟨hs b, he b⟩
  · rw [stateAt, entryAt, setArray_of_ne w s hq]
    exact ⟨rfl, fun _ => rfl⟩

theorem setArray_lines {s : σ} (hl : ∀ q, LinesOk F (w.cache q))
    (hs : LinesOk F { w.cache n with array := s }) (q : CachePath) :
    LinesOk F ((w.setArray n s).cache q) := by
  by_cases hq : q = n
  · rw [hq, setArray_self]
    exact hs
  · rw [setArray_of_ne w s hq]
    exact hl q

theorem allocate_spec {req : MemReq} {cycle : ℕ} (ha : req.lineAddr = a) (hacc : F.Accepts a)
    (hshould : ∀ w, wp (cc.shouldAllocate req) (fun r w' => r = true ∧ w' = w) w)
    (hevict : ∀ w b v, Coherent t F w → t.array.line (w.cache n).array v = b →
      wp (cc.processEviction b v cycle) (fun _ w' => EvictPost t F n b v w w') w)
    (h : Coherent t F w) (hmiss : t.array.lookup (w.cache n).array a = none) :
    wp (Cache.allocate t cc n req cycle) (AllocPost t F n a w) w := by
  subst ha
  have hinv := (h.lines n).inv
  have hmem := victim_mem (a:=req.lineAddr) hinv
  simp only [Cache.allocate, wp_bind]
  refine wp_mono (hshould w) ?_
  intro r w' hr
  rw [hr.1, hr.2]
  simp only [if_true, Cache.preinsert, Cache.postinsert, wp_bind, wp_observe, wp_change, wp_pure]
  generalize Cache.World.victim t w n req.lineAddr = v at hmem ⊢
  let w₀ : World σ := { w.setArray n (t.array.preinsert (w.cache n).array req.lineAddr v) with
    picks := w.picks.tail }
  have hcache₀ : w₀.cache n = { w.cache n with
      array := t.array.preinsert (w.cache n).array req.lineAddr v } := setArray_self ..
  have hview := setArray_view (t:=t) (w:=w) (n:=n)
    (s:=t.array.preinsert (w.cache n).array req.lineAddr v)
    (fun b => by simp only [heldState, F.preinsert_lookup, stateAt])
    (fun b _ => by simp only [heldEntry, F.preinsert_lookup, entryAt])
  have h₀ : Coherent t F w₀ := h.ofView
    (setArray_lines h.lines ((linesOk_preinsert hinv).mpr (h.lines n)))
    (fun q b => (hview q b).1) fun q b => (hview q b).2
  refine wp_mono (hevict w₀ _ v h₀ rfl) fun _ w₁ hp => ?_
  have harray : (w₁.cache n).array = t.array.preinsert (w.cache n).array req.lineAddr v := by
    rw [hp.array, hcache₀]
  -- the cache as the eviction left it, with the array it had before
  let c : CacheState σ := { w₁.cache n with array := (w.cache n).array }
  have hpre : { c with array := t.array.preinsert c.array req.lineAddr v } = w₁.cache n := by
    change { w₁.cache n with array := t.array.preinsert (w.cache n).array req.lineAddr v } = _
    rw [← harray]
  have hc : LinesOk F c := by
    refine (linesOk_preinsert (c:=c) (a:=req.lineAddr) (i:=v) hinv).mp ?_
    rw [hpre]
    exact hp.coherent.lines n
  have hst : ∀ b, heldState t.array c b = stateAt t w₁ n b := fun b => by
    rw [stateAt, ← hpre]
    simp only [heldState, F.preinsert_lookup]
  have hen : ∀ b, heldEntry t.array c b = entryAt t w₁ n b := fun b => by
    rw [entryAt, ← hpre]
    simp only [heldEntry, F.preinsert_lookup]
  have hpost := setArray_view (t:=t) (w:=w₁) (n:=n)
    (s:=t.array.postinsert (w₁.cache n).array req.lineAddr v)
    (fun b => by
      rw [harray, ← hst]
      exact heldState_inserted hc hacc hmiss hmem hp.evicted b)
    (fun b hb => by
      rw [harray, ← hen]
      exact heldEntry_inserted hc hacc hmiss hmem hp.evicted (by rwa [hst]))
  refine ⟨?_, ?_, fun q hq => ?_, fun q => ?_, v, rfl, ?_⟩
  · refine hp.coherent.ofView (setArray_lines hp.coherent.lines ?_) (fun q b => (hpost q b).1)
      fun q b => (hpost q b).2
    rw [harray]
    exact linesOk_inserted hc hacc hmiss hmem hp.evicted
  · have hd₀ : KeepsDirty t w w₀ := .of_log rfl fun b hb =>
      (dirty_congr (fun q b => (hview q b).1) b).mpr hb
    refine (hd₀.trans hp.dirty).trans (.of_log rfl fun b hb => ?_)
    exact (dirty_congr (fun q b => (hpost q b).1) b).mpr hb
  · rw [setArray_of_ne _ _ hq, hp.array]
    exact congrArg CacheState.array (setArray_of_ne w _ hq)
  · rw [(hpost q _).1, hp.others q _ ?_]
    · exact (hview q _).1
    · intro hb
      by_contra hv
      have hfound := (h₀.lines n).found v hv
      rw [← hb, hcache₀, F.preinsert_lookup, hmiss] at hfound
      cases hfound
  · rw [setArray_self, harray]
    exact F.insert_found _ _ v hinv hacc hmiss hmem

end Allocation

section Bottom

variable {t : Hierarchy σ} {F : Faithful t.array} {q : CachePath} {w : World σ} {a : Address}
  {i : LineId} {type : AccessType} {up : MemReq → Act σ ℕ}

/-- The own state the bottom controller must find for a PUT. -/
def Serves (s : MESIState) : AccessType → Prop
  | .GETS | .GETX => True
  | .PUTS => s ≠ .I
  | .PUTX => s.exclusive = true

/-- The own state after the bottom controller's part of an access. -/
def Served : AccessType → MESIState → Prop
  | .GETS, s | .PUTS, s => s ≠ .I
  | .GETX, s | .PUTX, s => s = .M

/-- What the bottom controller's part of an access achieves. -/
structure BottomPost (t : Hierarchy σ) (F : Faithful t.array) (q : CachePath) (a : Address)
    (type : AccessType) (cycle : ℕ) (w : World σ) (r : ℕ) (w' : World σ) : Prop where
  cycle : cycle ≤ r
  coherent : Coherent t F w'
  dirty : KeepsDirty t w w'
  array : ∀ p, q <:+ p → (w'.cache p).array = (w.cache p).array
  below : ∀ p, q <:+ p → p ≠ q → stateAt t w' p a = stateAt t w p a
  served : Served type (stateAt t w' q a)
  putArray : IsPut type → ∀ p, (w'.cache p).array = (w.cache p).array
  putOthers : IsPut type → ∀ p b, b ≠ a → stateAt t w' p b = stateAt t w p b

/-- A hit that changes nothing. -/
theorem BottomPost.hit {cycle : ℕ} (h : Coherent t F w) (hs : Served type (stateAt t w q a)) :
    BottomPost t F q a type cycle w cycle w :=
  ⟨le_rfl, h, .refl w, fun _ _ => rfl, fun _ _ _ => rfl, hs, fun _ _ => rfl, fun _ _ _ _ => rfl⟩

/-- A hit that records the write. -/
theorem BottomPost.silent {cycle : ℕ} (h : Coherent t F w)
    (hi : t.array.lookup (w.cache q).array a = some i) (hx : (stateAt t w q a).exclusive = true)
    (hs : Served type .M) :
    BottomPost t F q a type cycle w cycle (w.setState q i .M) := by
  have hst := stateAt_setState (h.lines q) hi .M
  refine ⟨le_rfl, h.toM hi hx, keepsDirty_toM (h.lines q) hi, fun p _ => setState_array w q i _ p,
    fun p _ hp => ?_, ?_, fun _ p => setState_array w q i _ p, fun _ p b hb => ?_⟩
  · rw [hst, if_neg fun hn => hp hn.1]
  · rwa [hst, if_pos ⟨rfl, rfl⟩]
  · rw [hst, if_neg fun hn => hb hn.2]

/-- The line in E moves to M, the line in M stays there. -/
theorem silent_ite {cycle : ℕ} (h : Coherent t F w)
    (hi : t.array.lookup (w.cache q).array a = some i) (hx : (stateAt t w q a).exclusive = true)
    (hs : Served type .M) :
    wp (if (w.cache q).bcc i = .E then setState q i .M else pure ())
      (fun _ w' => BottomPost t F q a type cycle w cycle w' ∧ (w'.cache q).bcc i = .M) w := by
  have hbcc : stateAt t w q a = (w.cache q).bcc i := heldState_of_lookup hi
  rw [wp_ite]
  split
  case isTrue =>
    rw [wp_setState]
    exact ⟨.silent h hi hx hs, by simp⟩
  case isFalse hE =>
    rw [wp_pure]
    rw [hbcc, exclusive_iff] at hx
    have hM := hx.resolve_right hE
    exact ⟨.hit h (by rw [hbcc, hM]; exact hs), hM⟩

/-- A miss is served by the parent. -/
theorem fetch_spec (hup : UpSpec t F q up) (h : Coherent t F w) {cycle : ℕ} {flags : Flags}
    (hpre : flags.prefetch = false) (hkeep : flags.putxKeepExcl = false) (hacc : F.Accepts a)
    (hi : t.array.lookup (w.cache q).array a = some i) (hreq : Requestable t w q a type)
    (hput : ¬ IsPut type) :
    wp (MESIBottomCC.fetch t q up a i type cycle flags) (fun r w' =>
      BottomPost t F q a type cycle w r w' ∧ Granted type ((w'.cache q).bcc i)) w := by
  simp only [MESIBottomCC.fetch, MESIBottomCC.request, wp_bind, wp_stateOf, wp_pure]
  refine wp_mono (hup i a type cycle flags w hpre hkeep (.inr hacc) h hi hreq) fun r w' hp => ?_
  have hi' : t.array.lookup (w'.cache q).array a = some i := by
    rwa [hp.array q List.suffix_rfl]
  have hgr := hp.granted
  have hserved : Served type (stateAt t w' q a) := by
    cases type with
    | GETS => rcases hgr with hs | hs <;> rw [hs] <;> exact fun hI => by cases hI
    | GETX => exact hgr
    | PUTS => exact absurd (.inl rfl) hput
    | PUTX => exact absurd (.inr rfl) hput
  rw [stateAt, heldState_of_lookup hi'] at hgr
  exact ⟨⟨Nat.le_add_right _ _, hp.coherent, hp.dirty, hp.array, hp.below, hserved,
    fun hn => absurd hn hput, fun hn => absurd hn hput⟩, hgr⟩

theorem bottom_processAccess_spec (hup : UpSpec t F q up) (h : Coherent t F w) {cycle : ℕ}
    {flags : Flags} (hpre : flags.prefetch = false) (hkeep : flags.putxKeepExcl = false)
    (hacc : IsPut type ∨ F.Accepts a) (hi : t.array.lookup (w.cache q).array a = some i)
    (hs : Serves (stateAt t w q a) type) :
    wp (MESIBottomCC.processAccess t q up a i type cycle flags)
      (BottomPost t F q a type cycle w) w := by
  have hbcc : stateAt t w q a = (w.cache q).bcc i := heldState_of_lookup hi
  cases type with
  | PUTS =>
    simp only [MESIBottomCC.processAccess, wp_bind, wp_stateOf, wp_ensure, wp_pure]
    exact ⟨hbcc ▸ hs, le_rfl, .hit h hs⟩
  | PUTX =>
    have hx : (stateAt t w q a).exclusive = true := hs
    simp only [MESIBottomCC.processAccess, wp_bind, wp_stateOf, wp_ensure, wp_pure]
    have hserved : Served .PUTX .M := rfl
    exact ⟨hbcc ▸ hx, wp_mono (silent_ite h hi hx hserved) fun _ _ hp => ⟨le_rfl, hp.1⟩⟩
  | GETS =>
    have haccept := hacc.resolve_left (by simp [IsPut])
    simp only [MESIBottomCC.processAccess, wp_bind, wp_stateOf, wp_ensure, wp_ite, wp_pure]
    split
    case isTrue hI =>
      exact wp_mono (fetch_spec hup h hpre hkeep haccept hi (hbcc.trans hI) (by simp [IsPut]))
        fun r w' hp => ⟨hp.2, hp.1.cycle, hp.1⟩
    case isFalse hI => exact ⟨le_rfl, .hit h (hbcc ▸ hI)⟩
  | GETX =>
    have haccept := hacc.resolve_left (by simp [IsPut])
    simp only [MESIBottomCC.processAccess, wp_bind, wp_stateOf, wp_ensure, wp_pure]
    rw [wp_ite]
    split
    case isTrue hIS =>
      exact wp_mono (fetch_spec hup h hpre hkeep haccept hi (hIS.imp hbcc.trans hbcc.trans)
        (by simp [IsPut])) fun r w' hp => ⟨hp.2, hp.1.cycle, hp.1⟩
    case isFalse hIS =>
      have hx : (stateAt t w q a).exclusive = true := by
        rw [hbcc]
        cases hc : (w.cache q).bcc i <;> simp [hc] at hIS ⊢
      have hserved : Served .GETX .M := rfl
      simp only [wp_bind, wp_pure]
      exact wp_mono (silent_ite h hi hx hserved) fun _ _ hp => ⟨hp.2, le_rfl, hp.1⟩

end Bottom

section Top

variable {t : Hierarchy σ} {F : Faithful t.array} {q : CachePath} {w w₀ w₁ : World σ} {a b : Address}
  {i j : LineId} {c : ℕ} {wb : Bool} {s : MESIState} {e : Entry} {type : AccessType}
  {inval : CachePath → InvReq → Bool → Act σ (ℕ × Bool)} {cycle : ℕ} {flags : Flags}

/-- What the top controller's part of an access by child `c` achieves. -/
structure TopPost (t : Hierarchy σ) (F : Faithful t.array) (q : CachePath) (c : ℕ) (a : Address)
    (type : AccessType) (cycle : ℕ) (w : World σ) (r : ℕ × Bool) (w' : World σ) : Prop where
  cycle : cycle ≤ r.1
  coherent : Coherent t F w'
  log : w'.log = w.log
  /-- What was dirty still is, unless the writeback is reported. -/
  dirty : ∀ b, Dirty t w b → Dirty t w' b ∨ (b = a ∧ r.2 = true)
  writeback : r.2 = true → (stateAt t w q a).exclusive = true
  array : ∀ p, (w'.cache p).array = (w.cache p).array
  others : ∀ p b, b ≠ a → stateAt t w' p b = stateAt t w p b
  own : stateAt t w' q a = stateAt t w q a
  below : ∀ p, (c :: q) <:+ p → p ≠ c :: q → stateAt t w' p a = stateAt t w p a
  granted : Granted type (stateAt t w' (c :: q) a)

/-- The state in which the grant is written: other children may have been
invalidated, the requester's subtree has not been touched. -/
structure Prepared (t : Hierarchy σ) (F : Faithful t.array) (q : CachePath) (c : ℕ) (a : Address)
    (wb : Bool) (w w₁ : World σ) : Prop where
  but : CoherentBut t F q a w₁
  log : w₁.log = w.log
  dirty : ∀ b, Dirty t w b → Dirty t w₁ b ∨ (b = a ∧ wb = true)
  writeback : wb = true → (stateAt t w q a).exclusive = true
  array : ∀ p, (w₁.cache p).array = (w.cache p).array
  others : ∀ p b, b ≠ a → stateAt t w₁ p b = stateAt t w p b
  own : stateAt t w₁ q a = stateAt t w q a
  inside : ∀ p, (c :: q) <:+ p → stateAt t w₁ p a = stateAt t w p a

theorem Prepared.refl (h : Coherent t F w) : Prepared t F q c a false w w :=
  ⟨h.but q a, rfl, fun _ => .inl, by simp, fun _ => rfl, fun _ _ _ => rfl, rfl,
    fun _ _ => rfl⟩

/-- Invalidations that pass the requester by. -/
theorem Prepared.send (h : Prepared t F q c a false w w₀)
    (hi : t.array.lookup (w₀.cache q).array a = some i) {ty : InvType} {r : ℕ × Bool}
    (hbit : ((w₀.cache q).tcc i).sharers c = false)
    (hx : r.2 = true → (stateAt t w q a).exclusive = true)
    (hs : SendPost t F q i a ty cycle false w₀ r w₁) : Prepared t F q c a r.2 w w₁ := by
  refine ⟨h.but.send hi hs, hs.log.trans h.log, fun b hb => ?_, hx, fun p => ?_, fun p b hb => ?_,
    ?_, fun p hp => ?_⟩
  · exact sendPost_dirty hs ((h.dirty b hb).resolve_right fun hn => by cases hn.2)
  · rw [hs.effect.array, h.array]
  · rw [sendPost_state hs fun hn => hb hn.2, h.others p b hb]
  · rw [hs.effect.ownState, h.own]
  · rw [sendPost_state hs ?_, h.inside p hp]
    rintro ⟨⟨d, hd, hdp⟩, -⟩
    rw [child_unique hdp hp, hbit] at hd
    cases hd

/-- The grant that closes every access. -/
theorem Prepared.grant (h : Prepared t F q c a wb w w₁)
    (hi : t.array.lookup (w.cache q).array a = some i) (hv : stateAt t w q a ≠ .I)
    (hj : t.array.lookup (w.cache (c :: q)).array a = some j)
    (hag : Agrees (t.numChildren q) (stateAt t w₁ q a) e
      (Function.update (fun d => stateAt t w₁ (d :: q) a) c s))
    (hs : (entryAt t w₁ (c :: q) a).Vacant ∨
      (s ≠ .I ∧ ((stateAt t w (c :: q) a).exclusive = true → s.exclusive = true)))
    (hM : stateAt t w (c :: q) a = .M → s = .M ∨ stateAt t w q a = .M) (hg : Granted type s)
    {r : ℕ} (hr : cycle ≤ r) :
    TopPost t F q c a type cycle w (r, wb) ((w₁.setEntry q i e).setState (c :: q) j s) := by
  have hi₁ : t.array.lookup (w₁.cache q).array a = some i := by rwa [h.array]
  have hj₁ : t.array.lookup (w₁.cache (c :: q)).array a = some j := by rwa [h.array]
  have hv₁ : (w₁.cache q).bcc i ≠ .I := by
    rwa [← heldState_of_lookup (A:=t.array) hi₁, ← stateAt, h.own]
  have hst : ∀ p b, stateAt t ((w₁.setEntry q i e).setState (c :: q) j s) p b =
      if p = c :: q ∧ b = a then s else stateAt t w₁ p b := fun p b => by
    rw [stateAt_setState (linesOk_setEntry h.but.lines hv₁ e _) (by rwa [setEntry_array]),
      stateAt_setEntry]
  have hqc : q ≠ c :: q := (List.cons_ne_self c q).symm
  refine ⟨hr, h.but.grant hi₁ hv₁ hj₁ hag ?_, h.log, fun b hb => ?_, h.writeback, fun p => ?_,
    fun p b hb => ?_, ?_, fun p hp hne => ?_, ?_⟩
  · rwa [h.inside _ List.suffix_rfl]
  · refine (h.dirty b hb).imp_left fun hends => ?_
    obtain ⟨p, hp⟩ := hends
    by_cases hpc : p = c :: q ∧ b = a
    · obtain ⟨rfl, rfl⟩ := hpc
      rw [h.inside _ List.suffix_rfl] at hp
      rcases hM hp with hsM | hqM
      · exact ⟨c :: q, by rw [hst, if_pos ⟨rfl, rfl⟩, hsM]⟩
      · exact ⟨q, by rw [hst, if_neg fun hn => hqc hn.1, h.own, hqM]⟩
    · exact ⟨p, by rw [hst, if_neg hpc, hp]⟩
  · rw [setState_array, setEntry_array, h.array]
  · rw [hst, if_neg fun hn => hb hn.2, h.others p b hb]
  · rw [hst, if_neg fun hn => hqc hn.1, h.own]
  · rw [hst, if_neg fun hn => hne hn.1, h.inside p hp]
  · rw [hst, if_pos ⟨rfl, rfl⟩]
    exact hg

/-- PUTS and PUTX end alike. -/
theorem removeSharer_spec (h : Coherent t F w)
    (hi : t.array.lookup (w.cache q).array a = some i)
    (hj : t.array.lookup (w.cache (c :: q)).array a = some j)
    (hchild : stateAt t w (c :: q) a ≠ .I) (hvac : (entryAt t w (c :: q) a).Vacant)
    (hM : stateAt t w (c :: q) a = .M → stateAt t w q a = .M) (hput : IsPut type) :
    wp (MESITopCC.removeSharer q i c (some (c :: q, j)))
      (fun _ w' => TopPost t F q c a type cycle w (cycle, false) w') w := by
  have hag := h.edges q a
  have he : entryAt t w q a = (w.cache q).tcc i := heldEntry_of_lookup hi
  rw [EdgeOk, he] at hag
  simp only [MESITopCC.removeSharer, writeState, wp_bind, wp_entryOf, wp_ensure, wp_setEntry,
    wp_setState]
  refine ⟨(hag.sharers_iff c).mpr hchild, ?_⟩
  refine (Prepared.refl h).grant hi (hag.valid c hchild) hj (hag.put hchild) (.inl hvac)
    (fun hm => .inr (hM hm)) ?_ le_rfl
  rcases hput with rfl | rfl <;> rfl

/-- GETS: the requester gets E when it is alone, else S. -/
theorem top_processAccess_gets (hinv : ∀ d, d < t.numChildren q →
      InvalidateSpec t F (d :: q) (inval (d :: q)))
    (h : Coherent t F w) (hi : t.array.lookup (w.cache q).array a = some i)
    (hv : stateAt t w q a ≠ .I) (hc : c < t.numChildren q)
    (hj : t.array.lookup (w.cache (c :: q)).array a = some j)
    (hchild : stateAt t w (c :: q) a = .I) :
    wp (MESITopCC.processAccess t q inval a i .GETS c ((w.cache q).bcc i).exclusive
      (some (c :: q, j)) cycle flags) (TopPost t F q c a .GETS cycle w) w := by
  have hag := h.edges q a
  have he : entryAt t w q a = (w.cache q).tcc i := heldEntry_of_lookup hi
  rw [EdgeOk, he] at hag
  have hbcc : stateAt t w q a = (w.cache q).bcc i := heldState_of_lookup hi
  have hvi : (w.cache q).bcc i ≠ .I := hbcc ▸ hv
  have hnochild : stateAt t w (c :: q) a ≠ .M := by
    rw [hchild]
    decide
  have hbit : ((w.cache q).tcc i).sharers c = false := by
    by_contra hs
    exact (hag.sharers_iff c).mp (Bool.eq_true_of_not_eq_false hs) hchild
  simp only [MESITopCC.processAccess, writeState, wp_bind, wp_entryOf]
  rw [wp_ite]
  split
  case isTrue hE =>
    simp only [wp_bind, wp_setEntry, wp_setState, wp_pure]
    have hgranted : Granted .GETS .E := Or.inr rfl
    exact (Prepared.refl h).grant hi hv hj (hag.getsExclusive hE.1 (hbcc ▸ hE.2.1) hc)
      (.inr ⟨by decide, fun _ => rfl⟩) (fun hm => absurd hm hnochild) hgranted le_rfl
  case isFalse =>
    simp only [wp_bind, wp_ensure, wp_entryOf, wp_setEntry, wp_setState, wp_pure]
    -- once no child is exclusive, the grant of S is the same in both cases
    have hgrant : ∀ (r : ℕ × Bool) (w₁ : World σ), cycle ≤ r.1 → Prepared t F q c a r.2 w w₁ →
        EdgeOk t w₁ q a → ((w₁.cache q).tcc i).isExclusive = false →
        TopPost t F q c a .GETS cycle w r
          ((w₁.setEntry q i { ((w₁.cache q).tcc i).addSharer c with exclusive := false }).setState
            (c :: q) j .S) := by
      intro r w₁ hr hp hedge hx
      have hi₁ : t.array.lookup (w₁.cache q).array a = some i := by rwa [hp.array]
      rw [EdgeOk, entryAt, heldEntry_of_lookup hi₁] at hedge
      have hchild₁ : stateAt t w₁ (c :: q) a = .I := (hp.inside _ List.suffix_rfl).trans hchild
      have hgranted : Granted .GETS .S := Or.inl rfl
      exact hp.grant hi hv hj (hedge.getsShared hx (hp.own ▸ hv) hc hchild₁)
        (.inr ⟨by decide, by simp [hchild]⟩) (fun hm => absurd hm hnochild) hgranted hr
    refine ⟨hbit, ?_⟩
    rw [wp_ite]
    split
    case isTrue hx =>
      refine wp_mono (sendInvalidates_spec (h.sendable hi hvi (by decide)) hinv) fun r w₁ hs => ?_
      obtain ⟨d, hd⟩ := hag.exists_sharer hx
      have hown : (stateAt t w q a).exclusive = true :=
        (hag.exclusive_up d (hag.exclusive_down hx d hd)).1
      have htcc := hs.effect.tcc_self
      have hx₁ : ((w₁.cache q).tcc i).isExclusive = false := by
        simp only [htcc, invEntry, hx, if_true]
        exact Bool.and_false _
      exact ⟨hx₁, hgrant r w₁ hs.cycle ((Prepared.refl h).send hi hbit (fun _ => hown) hs)
        ((h.send hi hs).edges q a) hx₁⟩
    case isFalse hx =>
      have hx := Bool.eq_false_of_not_eq_true hx
      rw [wp_pure]
      exact ⟨hx, hgrant (cycle, false) w le_rfl (.refl h) (h.edges q a) hx⟩

/-- The entry a GETX finds once the requester has been taken out of it. -/
structure Dropped (e : Entry) (c n : ℕ) (e' : Entry) : Prop where
  bit : e'.sharers c = false
  others : ∀ d, d ≠ c → e'.sharers d = e.sharers d
  count : e'.numSharers = sharerCount n e'.sharers

/-- An upgrade leaves the sharer set before the others are invalidated. -/
theorem getx_drop_spec (h : Coherent t F w) (hi : t.array.lookup (w.cache q).array a = some i)
    (hv : (w.cache q).bcc i ≠ .I)
    (hchild : stateAt t w (c :: q) a = .I ∨ stateAt t w (c :: q) a = .S) :
    wp (if ((w.cache q).tcc i).sharers c = true then do
        ensure (((w.cache q).tcc i).isExclusive = false) .spuriousGetx
        setEntry q i (((w.cache q).tcc i).dropSharer c)
      else pure ())
      (fun _ w₀ => Prepared t F q c a false w w₀ ∧ (∀ p, stateAt t w₀ p a = stateAt t w p a) ∧
        Dropped ((w.cache q).tcc i) c (t.numChildren q) ((w₀.cache q).tcc i)) w := by
  have hag := h.edges q a
  have he : entryAt t w q a = (w.cache q).tcc i := heldEntry_of_lookup hi
  rw [EdgeOk, he] at hag
  rw [wp_ite]
  split
  case isFalse hs =>
    rw [wp_pure]
    exact ⟨.refl h, fun _ => rfl, Bool.eq_false_of_not_eq_true hs, fun _ _ => rfl, hag.count⟩
  case isTrue hs =>
    simp only [wp_bind, wp_ensure, wp_setEntry]
    have hx : ((w.cache q).tcc i).isExclusive = false := by
      by_contra hx
      have hcx := hag.exclusive_down (Bool.eq_true_of_not_eq_false hx) c hs
      rcases hchild with hs | hs <;> rw [hs] at hcx <;> cases hcx
    have hst := fun p b => stateAt_setEntry (t:=t) w q i (((w.cache q).tcc i).dropSharer c) p b
    refine ⟨hx, ⟨⟨linesOk_setEntry h.lines hv _, fun p b hpb => ?_⟩, rfl, fun b hb => ?_,
      by simp, fun p => setEntry_array w q i _ p, fun p b _ => hst p b, hst q a,
      fun p _ => hst p a⟩, fun p => hst p a, ?_, fun d hd => ?_, ?_⟩
    · refine edgeOk_congr (h.edges p b) (hst p b) ?_ fun d => hst _ b
      rw [entryAt_setEntry (h.lines q) hi, if_neg fun hn => hpb hn.1 hn.2]
    · exact .inl ((dirty_congr hst b).mpr hb)
    · simp [Entry.dropSharer]
    · simp [Entry.dropSharer, Function.update_of_ne hd]
    · have hdrop := sharerCount_drop (hag.sharers_lt c hs) hs
      have hcount := hag.count
      simp only [setEntry_self, Function.update_self, Entry.dropSharer]
      omega

/-- Everything a GETX invalidates can be sent. -/
theorem Prepared.sendable (h : Prepared t F q c a false w w₀) (hw : Coherent t F w)
    (hi : t.array.lookup (w.cache q).array a = some i) (hv : stateAt t w q a ≠ .I)
    (hd : Dropped ((w.cache q).tcc i) c (t.numChildren q) ((w₀.cache q).tcc i))
    (hst : ∀ p, stateAt t w₀ p a = stateAt t w p a) : Sendable t F q i a .INV w₀ := by
  have hag := hw.edges q a
  have he : entryAt t w q a = (w.cache q).tcc i := heldEntry_of_lookup hi
  rw [EdgeOk, he] at hag
  have hi₀ : t.array.lookup (w₀.cache q).array a = some i := by rwa [h.array]
  have hbit : ∀ d, ((w₀.cache q).tcc i).sharers d = true → ((w.cache q).tcc i).sharers d = true := by
    intro d hs
    by_cases hdc : d = c
    · rw [hdc, hd.bit] at hs
      cases hs
    · rwa [hd.others d hdc] at hs
  refine ⟨h.but.lines, hi₀, ?_, fun d hs => hag.sharers_lt d (hbit d hs), hd.count, fun d hs => ?_,
    fun p hp => ?_, by decide, by simp⟩
  · rwa [← heldState_of_lookup (A:=t.array) hi₀, ← stateAt, hst]
  · rw [hst]
    exact (hag.sharers_iff d).mp (hbit d hs)
  · refine h.but.edges p a fun hpq => ?_
    subst hpq
    exact absurd hp reached_ne_self

/-- GETX: every other copy goes and the requester gets M. -/
theorem top_processAccess_getx (hinv : ∀ d, d < t.numChildren q →
      InvalidateSpec t F (d :: q) (inval (d :: q)))
    (h : Coherent t F w) (hi : t.array.lookup (w.cache q).array a = some i)
    (hx : (stateAt t w q a).exclusive = true) (hc : c < t.numChildren q)
    (hj : t.array.lookup (w.cache (c :: q)).array a = some j)
    (hchild : stateAt t w (c :: q) a = .I ∨ stateAt t w (c :: q) a = .S) :
    wp (MESITopCC.processAccess t q inval a i .GETX c ((w.cache q).bcc i).exclusive
      (some (c :: q, j)) cycle flags) (TopPost t F q c a .GETX cycle w) w := by
  have hag := h.edges q a
  have he : entryAt t w q a = (w.cache q).tcc i := heldEntry_of_lookup hi
  rw [EdgeOk, he] at hag
  have hbcc : stateAt t w q a = (w.cache q).bcc i := heldState_of_lookup hi
  have hv := ne_I_of_exclusive hx
  simp only [MESITopCC.processAccess, writeState]
  rw [wp_bind, wp_entryOf, wp_bind, wp_ensure, wp_bind]
  refine ⟨hbcc ▸ hx, ?_⟩
  refine wp_mono (getx_drop_spec h hi (hbcc ▸ hv) hchild) fun _ w₀ hends => ?_
  obtain ⟨hp, hst, hd⟩ := hends
  rw [wp_bind]
  refine wp_mono (sendInvalidates_spec (hp.sendable h hi hv hd hst) hinv) fun r w₁ hs => ?_
  simp only [wp_bind, wp_entryOf, wp_setEntry, wp_ensure, wp_setState, wp_pure]
  have hi₀ : t.array.lookup (w₀.cache q).array a = some i := by rwa [hp.array]
  have hvac : ((w₁.cache q).tcc i).Vacant := by
    rw [hs.effect.tcc_self]
    exact dropAll_vacant _
  have hothers : ∀ d, d ≠ c → stateAt t w₁ (d :: q) a = .I := by
    intro d hdc
    refine sendPost_children hs ?_
    cases hb : ((w.cache q).tcc i).sharers d with
    | true => exact .inl (by rw [hd.others d hdc, hb])
    | false =>
      refine .inr ((hst _).trans ?_)
      by_contra hne
      rw [(hag.sharers_iff d).mpr hne] at hb
      cases hb
  have hp₁ := hp.send hi₀ hd.bit (fun _ => hx) hs
  refine ⟨by rw [hvac.1], ?_⟩
  have hown : (stateAt t w₁ q a).exclusive = true := by rwa [hp₁.own]
  have hgranted : Granted .GETX .M := rfl
  exact hp₁.grant hi hv hj (.getx hvac hown hc hothers) (.inr ⟨by decide, fun _ => rfl⟩)
    (fun _ => .inl rfl) hgranted hs.cycle

/-- The states the two controllers need for each request of child `c`. -/
theorem serves_of_requestable (h : Coherent t F w) (hreq : Requestable t w (c :: q) a type) :
    Serves (stateAt t w q a) type := by
  cases type with
  | GETS => trivial
  | GETX => trivial
  | PUTS =>
    refine (h.edges q a).valid c fun hI => ?_
    rcases hreq.1 with hs | hs <;> rw [hI] at hs <;> cases hs
  | PUTX =>
    refine ((h.edges q a).exclusive_up c ?_).1
    rw [hreq.1]
    rfl

/-- The top controller serves every request once the bottom one has. -/
theorem top_processAccess_spec (hinv : ∀ d, d < t.numChildren q →
      InvalidateSpec t F (d :: q) (inval (d :: q)))
    (h : Coherent t F w) (hi : t.array.lookup (w.cache q).array a = some i)
    (hserved : Served type (stateAt t w q a)) (hc : c < t.numChildren q)
    (hj : t.array.lookup (w.cache (c :: q)).array a = some j)
    (hreq : Requestable t w (c :: q) a type) (hkeep : flags.putxKeepExcl = false) :
    wp (MESITopCC.processAccess t q inval a i type c ((w.cache q).bcc i).exclusive
      (some (c :: q, j)) cycle flags) (TopPost t F q c a type cycle w) w := by
  cases type with
  | GETS => exact top_processAccess_gets hinv h hi hserved hc hj hreq
  | GETX =>
    refine top_processAccess_getx hinv h hi ?_ hc hj hreq
    rw [show stateAt t w q a = .M from hserved]
    rfl
  | PUTS =>
    have hne : stateAt t w (c :: q) a ≠ .I ∧ stateAt t w (c :: q) a ≠ .M := by
      rcases hreq.1 with hs | hs <;> rw [hs] <;> decide
    simp only [MESITopCC.processAccess, wp_bind, wp_entryOf, wp_pure]
    exact removeSharer_spec h hi hj hne.1 hreq.2 (fun hm => absurd hm hne.2) (.inl rfl)
  | PUTX =>
    have hne : stateAt t w (c :: q) a ≠ .I := by
      rw [hreq.1]
      decide
    have hx := ((h.edges q a).exclusive_up c (by rw [hreq.1]; rfl)).2
    rw [entryAt, heldEntry_of_lookup hi] at hx
    simp only [MESITopCC.processAccess, hkeep, Bool.false_eq_true, if_false, wp_bind, wp_entryOf,
      wp_ensure, wp_pure]
    exact ⟨hx, removeSharer_spec h hi hj hne hreq.2 (fun _ => hserved) (.inr rfl)⟩

end Top

section Serving

variable {t : Hierarchy σ} {F : Faithful t.array} {q : CachePath} {w w₀ w₁ : World σ} {a : Address}
  {i j : LineId} {c : ℕ} {type : AccessType} {up : MemReq → Act σ ℕ}
  {inval : CachePath → InvReq → Bool → Act σ (ℕ × Bool)} {cycle : ℕ} {flags : Flags}

/-- What is unchanged below a cache that has only been served stays requestable. -/
theorem requestable_kept (h₀ : Coherent t F w) (h₁ : Coherent t F w₁) {n : CachePath}
    (hsame : ∀ p, n <:+ p → stateAt t w₁ p a = stateAt t w p a)
    (hreq : Requestable t w n a type) : Requestable t w₁ n a type := by
  have hself := hsame n List.suffix_rfl
  -- children that have let go of the line have still let go of it
  have hvac : (entryAt t w n a).Vacant → (entryAt t w₁ n a).Vacant := by
    intro hv
    have hch : ∀ d, stateAt t w₁ (d :: n) a = .I := fun d => by
      rw [hsame (d :: n) (List.suffix_cons d n), (h₀.edges n a).child_I_of_vacant hv d]
    have hbits : (entryAt t w₁ n a).sharers = fun _ => false := by
      funext d
      by_contra hs
      exact ((h₁.edges n a).sharers_iff d).mp (Bool.eq_true_of_not_eq_false hs) (hch d)
    refine ⟨?_, fun d => congrFun hbits d⟩
    rw [(h₁.edges n a).count, hbits, sharerCount_none]
  cases type with
  | GETS => exact hself.trans hreq
  | GETX => exact hreq.imp hself.trans hself.trans
  | PUTS => exact ⟨hreq.1.imp hself.trans hself.trans, hvac hreq.2⟩
  | PUTX => exact ⟨hself.trans hreq.1, hvac hreq.2⟩

/-- A writeback reported by the children is recorded in the own state. -/
theorem writeback_spec {wb : Bool} (h : Coherent t F w)
    (hi : t.array.lookup (w.cache q).array a = some i)
    (hx : wb = true → (stateAt t w q a).exclusive = true) :
    wp (if wb = true then MESIBottomCC.processWritebackOnAccess q i else pure ()) (fun _ w' =>
      Coherent t F w' ∧ w'.log = w.log ∧ (∀ p, (w'.cache p).array = (w.cache p).array) ∧
      (∀ p b, (p = q → b ≠ a) → stateAt t w' p b = stateAt t w p b) ∧
      ∀ b, Dirty t w b ∨ (b = a ∧ wb = true) → Dirty t w' b) w := by
  have hbcc : stateAt t w q a = (w.cache q).bcc i := heldState_of_lookup hi
  have hst := stateAt_setState (h.lines q) hi .M
  rw [wp_ite]
  split
  case isFalse hwb =>
    rw [wp_pure]
    exact ⟨h, rfl, fun _ => rfl, fun _ _ _ => rfl, fun b hb => hb.resolve_right fun hn => hwb hn.2⟩
  case isTrue hwb =>
    simp only [MESIBottomCC.processWritebackOnAccess, wp_bind, wp_stateOf, wp_ensure]
    rw [wp_ite]
    refine ⟨hbcc ▸ hx hwb, ?_⟩
    split
    case isTrue =>
      rw [wp_setState]
      refine ⟨h.toM hi (hx hwb), rfl, setState_array w q i _, fun p b hpb => ?_, fun b hb => ?_⟩
      · rw [hst, if_neg fun hn => hpb hn.1 hn.2]
      · rcases hb with ⟨p, hp⟩ | ⟨rfl, -⟩
        · refine ⟨p, (hst p b).trans ?_⟩
          split
          · rfl
          · exact hp
        · exact ⟨q, (hst q b).trans (if_pos ⟨rfl, rfl⟩)⟩
    case isFalse hE =>
      have hM : stateAt t w q a = .M :=
        ((exclusive_iff _).mp (hx hwb)).resolve_right fun hs => hE (hbcc.symm.trans hs)
      rw [wp_pure]
      refine ⟨h, rfl, fun _ => rfl, fun _ _ _ => rfl, fun b hb => ?_⟩
      rcases hb with hd | ⟨rfl, -⟩
      · exact hd
      · exact ⟨q, hM⟩

/-- An access that has passed the race check and has its line. -/
theorem mesicc_processAccess_spec (hup : UpSpec t F q up)
    (hinv : ∀ d, d < t.numChildren q → InvalidateSpec t F (d :: q) (inval (d :: q)))
    (h : Coherent t F w) (hi : t.array.lookup (w.cache q).array a = some i)
    (hc : c < t.numChildren q) (hj : t.array.lookup (w.cache (c :: q)).array a = some j)
    (hreq : Requestable t w (c :: q) a type) (hpre : flags.prefetch = false)
    (hkeep : flags.putxKeepExcl = false) (hacc : IsPut type ∨ F.Accepts a)
    {init : MESIState} {reqCycle : ℕ} :
    wp ((MESICC t q up inval).processAccess
      ⟨a, type, c, some (c :: q, j), reqCycle, init, flags⟩ (some i) cycle)
      (UpPost t F (c :: q) a type cycle w) w := by
  have hbcc : stateAt t w q a = (w.cache q).bcc i := heldState_of_lookup hi
  have hserves := serves_of_requestable h hreq
  have hvalid : ¬ ((type = .PUTS ∨ type = .PUTX) ∧ ((w.cache q).bcc i != .I) = false) := by
    rintro ⟨hput, hI⟩
    rw [← hbcc, bne_eq_false_iff_eq] at hI
    rw [hI] at hserves
    rcases hput with rfl | rfl
    · exact hserves rfl
    · cases hserves
  have hsub : ∀ p, (c :: q) <:+ p → q <:+ p ∧ p ≠ q := fun p hp =>
    ⟨suffix_of_child hp, ne_of_child_suffix hp⟩
  simp only [MESICC, wp_bind, wp_stateOf, wp_pure, if_neg hvalid, wp_ensure, hpre, true_or,
    true_and, Bool.false_eq_true, if_false]
  refine wp_mono (bottom_processAccess_spec hup h rfl hkeep hacc hi hserves) fun r w₀ hb => ?_
  have hi₀ : t.array.lookup (w₀.cache q).array a = some i := by rwa [hb.array q List.suffix_rfl]
  have hj₀ : t.array.lookup (w₀.cache (c :: q)).array a = some j := by
    rwa [hb.array _ (hsub _ List.suffix_rfl).1]
  have hreq₀ : Requestable t w₀ (c :: q) a type :=
    requestable_kept h hb.coherent (fun p hp => hb.below p (hsub p hp).1 (hsub p hp).2) hreq
  refine wp_mono (top_processAccess_spec hinv hb.coherent hi₀ hb.served hc hj₀ hreq₀ hkeep)
    fun r' w₁ ht => ?_
  have hi₁ : t.array.lookup (w₁.cache q).array a = some i := by rwa [ht.array]
  refine wp_mono (writeback_spec ht.coherent hi₁ fun hwb => ht.own ▸ ht.writeback hwb) ?_
  rintro _ w' ⟨hcoh, hlog, harr, hsame, hdirty⟩
  refine ⟨hb.cycle.trans ht.cycle, hcoh, hb.dirty.trans ?_, fun p hp => ?_, fun p hp hne => ?_, ?_,
    fun hput p => ?_, fun hput p b hne => ?_⟩
  · exact .of_log (hlog.trans ht.log) fun b hd => hdirty b (ht.dirty b hd)
  · rw [harr, ht.array, hb.array p (hsub p hp).1]
  · rw [hsame p a fun hpq => absurd hpq (hsub p hp).2, ht.below p hp hne,
      hb.below p (hsub p hp).1 (hsub p hp).2]
  · rw [hsame _ a fun hcq => absurd hcq (List.cons_ne_self c q)]
    exact ht.granted
  · rw [harr, ht.array, hb.putArray hput]
  · rw [hsame p b fun _ => hne, ht.others p b hne, hb.putOthers hput p b hne]

/-- A request that has met no race passes the check unchanged. -/
theorem raceCheck_spec {n : CachePath} {Q : Bool × MemReq → World σ → Prop} :
    wp (raceCheck ⟨a, type, c, some (n, j), cycle, (w.cache n).bcc j, flags⟩) Q w ↔
      Q (false, ⟨a, type, c, some (n, j), cycle, (w.cache n).bcc j, flags⟩) w := by
  have hcheck : checkForMESIRace type ((w.cache n).bcc j) ((w.cache n).bcc j) =
      .ok (false, type) := if_pos rfl
  simp only [raceCheck, readState, MESIControllers.liftExcept, wp_bind, wp_stateOf, hcheck, wp_pure]

/-- A cache serves its children as the memory serves the root. -/
theorem access_spec (hup : UpSpec t F q up)
    (hinv : ∀ d, d < t.numChildren q → InvalidateSpec t F (d :: q) (inval (d :: q)))
    (hincl : t.nonInclusiveHack q = false) (hc : c < t.numChildren q) :
    UpSpec t F (c :: q) (Cache.access t (MESICC t q up inval) q) := by
  intro j a type cycle flags w hpre hkeep hacc h hj hreq
  have hstart : (MESICC t q up inval).startAccess = raceCheck := rfl
  simp only [Cache.access, hstart, wp_bind, raceCheck_spec, Bool.false_eq_true, if_false,
    Cache.lookup, wp_observe, wp_pure, wp_ensure]
  cases hlook : t.array.lookup (w.cache q).array a with
  | some i =>
    rw [wp_pure]
    refine wp_mono (mesicc_processAccess_spec hup hinv h hlook hc hj hreq hpre hkeep hacc)
      fun r w' hp => ?_
    have hcyc := (Nat.le_add_right cycle (t.accLat q)).trans hp.cycle
    exact ⟨hcyc, hcyc, hp.coherent, hp.dirty, hp.array, hp.below, hp.granted, hp.putArray,
      hp.putOthers⟩
  | none =>
    -- the child lacks the line as well, so this is a miss of a GETS or a GETX
    have hI : stateAt t w (c :: q) a = .I := h.childI (heldState_of_missing hlook) c
    have hget : ¬ IsPut type := by
      rintro (rfl | rfl)
      · rcases hreq.1 with hs | hs <;> rw [hI] at hs <;> cases hs
      · have hM := hreq.1
        rw [hI] at hM
        cases hM
    have hshould : ∀ w₀, wp ((MESICC t q up inval).shouldAllocate
        ⟨a, type, selfId (c :: q), some (c :: q, j), cycle, (w.cache (c :: q)).bcc j, flags⟩)
        (fun r w' => r = true ∧ w' = w₀) w₀ := by
      intro w₀
      cases type with
      | GETS => exact (wp_pure ..).mpr ⟨rfl, rfl⟩
      | GETX => exact (wp_pure ..).mpr ⟨rfl, rfl⟩
      | PUTS => exact absurd (.inl rfl) hget
      | PUTX => exact absurd (.inr rfl) hget
    refine wp_mono (allocate_spec rfl (hacc.resolve_left hget) hshould
      (fun w b v hw hline => processEviction_spec hup hinv hincl hw hline) h hlook) fun r w₀ hal => ?_
    obtain ⟨i, rfl, hi⟩ := hal.found
    have hj₀ : t.array.lookup (w₀.cache (c :: q)).array a = some j := by
      rwa [hal.array _ (List.cons_ne_self c q)]
    have hreq₀ := requestable_kept h hal.coherent (fun p _ => hal.state p) hreq
    refine wp_mono (mesicc_processAccess_spec hup hinv hal.coherent hi hc hj₀ hreq₀ hpre hkeep hacc)
      fun r w' hp => ?_
    have hcyc := (Nat.le_add_right cycle (t.accLat q)).trans hp.cycle
    refine ⟨hcyc, hcyc, hp.coherent, hal.dirty.trans hp.dirty, fun p hpc => ?_, fun p hpc hne => ?_,
      hp.granted, fun hput => absurd hput hget, fun hput => absurd hput hget⟩
    · rw [hp.array p hpc, hal.array p (ne_of_child_suffix hpc)]
    · rw [hp.below p hpc hne, hal.state]

/-- The parent of every cache of the tree serves it. -/
theorem parentAccess_spec (hincl : ∀ p, t.nonInclusiveHack p = false) (n : CachePath)
    (hn : HasNode t n) : UpSpec t F n (parentAccess t n) := by
  induction n with
  | nil => exact simpleMemory_spec
  | cons c q ih =>
    refine access_spec (ih hn.2) (fun d hd => ?_) (hincl q) hn.1
    have hq : q.length < t.height := by
      by_contra hge
      rw [t.no_children q (not_lt.mp hge)] at hd
      exact Nat.not_lt_zero d hd
    exact invalidate_spec t.height (d :: q) (by simpa [Nat.succ_le_iff] using hq) (by simp)

end Serving

end Zsim.MESIAccess
