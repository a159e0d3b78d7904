import Zsim.ZCache

/-!
# The fixed buffers of a zcache walk

The walk writes its candidates into a buffer of `cands + ways` elements, also
those that the next one overwrites, and the path to the chosen line into one of
`cands/ways + 2`. Here both are written cell by cell, and a write past the end
fails, as does a read of a candidate that has not been written.

Since the swaps only permute `lookupArray`, a fringe line maps back to itself in
at most one way. So the fringe stays `ways` candidates behind the end of the
buffer, every parent is `ways` candidates before its child, and a path from
below `cands` has at most `cands/ways + 1` positions.
-/

namespace Zsim.ZCacheBuffers

open MemoryHierarchy GuardedRuns ZCache

/-- The accesses outside the buffers, and the assertions of `preinsert`. -/
inductive BufferFailure where
  /-- A write past the end of `candidates`. -/
  | candidatesOverrun
  /-- A read of a candidate at `numCandidates` or later. -/
  | unwrittenCandidate
  /-- A write past the end of `swapArray`. -/
  | swapsOverrun
  /-- The walk takes more rounds than it has candidates to find. -/
  | endlessWalk
  /-- `assert(fringeAddr)` -/
  | fringeAddr
  /-- `assert(!all_valid || numCandidates >= cands)` -/
  | fewCandidates
  /-- `assert(bestCandidate < numLines)` -/
  | badCandidate
  /-- `assert(swapArrayLen > 0)` -/
  | noSwaps
  deriving DecidableEq, Repr

/-- The local variables of the walk, with the cells of `candidates`. -/
structure Buffer where
  candidates : ℕ → Option ZWalkInfo
  numCandidates : ℕ
  allValid : Bool
  fringeStart : ℕ

section Walk

variable (s : ZArray)

/-- `candidates[idx].set(..)`. -/
def set (b : Buffer) (idx : ℕ) (c : ZWalkInfo) : Except BufferFailure Buffer :=
  if idx < s.cands + s.ways then .ok { b with candidates := Function.update b.candidates idx (some c) }
  else .error .candidatesOverrun

/-- `candidates[idx]`. -/
def read (b : Buffer) (idx : ℕ) : Except BufferFailure ZWalkInfo :=
  match if idx < b.numCandidates then b.candidates idx else none with
  | some c => .ok c
  | none => .error .unwrittenCandidate

/-- The seed of one way. -/
def seedWay (lineAddr : Address) (b : Buffer) (w : ℕ) : Except BufferFailure Buffer :=
  let pos := s.position w lineAddr
  let lineId := s.lookupArray pos
  (set s b w ⟨pos, lineId, none⟩).map fun b => { b with allValid := b.allValid && s.array lineId != 0 }

/-- The seeds. -/
def seeds (lineAddr : Address) : Except BufferFailure Buffer :=
  (List.range s.ways).foldlM (seedWay s lineAddr) ⟨fun _ => none, s.ways, true, 0⟩

/-- One way of the expansion of a fringe line. The candidate is written in any
case, and `numCandidates` moves on unless it is the line itself. -/
def expandWay (fringeId : LineId) (fringeAddr : Address) (b : Buffer) (w : ℕ) : Except BufferFailure Buffer :=
  let pos := s.position w fringeAddr
  let lineId := s.lookupArray pos
  (set s b b.numCandidates ⟨pos, lineId, some b.fringeStart⟩).map fun b =>
    { b with
      allValid := b.allValid && s.array lineId != 0
      numCandidates := b.numCandidates + if lineId ≠ fringeId then 1 else 0 }

/-- The loop that expands the fringe, with the rounds it may still take. -/
def expand : ℕ → Buffer → Except BufferFailure Buffer
  | fuel, b =>
    if b.numCandidates < s.cands ∧ b.allValid = true then
      match fuel with
      | 0 => .error .endlessWalk
      | fuel + 1 =>
        match read b b.fringeStart with
        | .error e => .error e
        | .ok fringe =>
          let fringeAddr := s.array fringe.lineId
          if fringeAddr = 0 then .error .fringeAddr
          else
            match (List.range s.ways).foldlM (expandWay s fringe.lineId fringeAddr) b with
            | .error e => .error e
            | .ok b => expand fuel { b with fringeStart := b.fringeStart + 1 }
    else .ok b

/-- The loop that fills the swap array, with the elements it has left. -/
def fillSwaps (b : Buffer) : ℕ → Option ℕ → Except BufferFailure (List ℕ)
  | _, none => .ok []
  | 0, some _ => .error .swapsOverrun
  | room + 1, some idx =>
    match read b idx with
    | .error e => .error e
    | .ok c => (fillSwaps b room c.parentIdx).map (c.pos :: ·)

/-- The line of a candidate. -/
def lineAt (b : Buffer) (idx : ℕ) : Option LineId := (b.candidates idx).map ZWalkInfo.lineId

/-- `ZArray::preinsert` from the ranking on; the chosen line and the swap array. -/
def choose (b : Buffer) (rankCands : List LineId → LineId) : Except BufferFailure (LineId × List ℕ) :=
  if b.allValid = true ∧ b.numCandidates < s.cands then .error .fewCandidates
  else
    let b := { b with numCandidates := if s.cands < b.numCandidates then s.cands else b.numCandidates }
    let bestCandidate := rankCands ((List.range b.numCandidates).filterMap (lineAt b))
    if ¬ bestCandidate < s.numLines then .error .badCandidate
    else
      let minIdx := (List.range b.numCandidates).find? fun idx => lineAt b idx == some bestCandidate
      match fillSwaps b (s.cands / s.ways + 2) minIdx with
      | .error e => .error e
      | .ok [] => .error .noSwaps
      | .ok swaps => .ok (bestCandidate, swaps)

/-- `ZArray::preinsert` under any ranking of the candidates' lines. -/
def preinsert (lineAddr : Address) (rankCands : List LineId → LineId) :
    Except BufferFailure (LineId × List ℕ) :=
  match seeds s lineAddr with
  | .error e => .error e
  | .ok b =>
    match expand s s.cands b with
    | .error e => .error e
    | .ok b => choose s b rankCands

end Walk

/-- The buffer holds the candidates of a walk. -/
structure Holds (b : Buffer) (k : Walk) : Prop where
  count : b.numCandidates = k.candidates.length
  cell : ∀ idx < k.candidates.length, b.candidates idx = k.candidates[idx]?
  valid : b.allValid = k.allValid
  fringe : b.fringeStart = k.fringeStart

section Refinement

variable {s : ZArray} {a : Address} {b : Buffer} {k : Walk}

/-- The seeds fill the first `ways` elements. -/
theorem seeds_holds (s : ZArray) (a : Address) :
    ∃ b, seeds s a = .ok b ∧ Holds b (s.seeds a) := by
  have hfill : ∀ n ≤ s.ways, ∃ b, (List.range n).foldlM (seedWay s a) ⟨fun _ => none, s.ways, true, 0⟩ = .ok b ∧
      b.numCandidates = s.ways ∧ b.fringeStart = 0 ∧
      b.allValid = ((List.range n).all fun w => s.array (s.lookupArray (s.position w a)) != 0) ∧
      ∀ w < n, b.candidates w = some ⟨s.position w a, s.lookupArray (s.position w a), none⟩ := by
    intro n hn
    induction n with
    | zero => exact ⟨_, rfl, rfl, rfl, rfl, nofun⟩
    | succ n ih =>
      obtain ⟨b, hb, hcount, hfringe, hvalid, hcell⟩ := ih (by omega)
      have hroom : n < s.cands + s.ways := by omega
      refine ⟨{ b with
        candidates := Function.update b.candidates n
          (some ⟨s.position n a, s.lookupArray (s.position n a), none⟩)
        allValid := b.allValid && s.array (s.lookupArray (s.position n a)) != 0 }, ?_, hcount, hfringe, ?_,
        fun w hw => ?_⟩
      · rw [List.range_succ, List.foldlM_append, hb]
        change (seedWay s a b n >>= pure) = _
        rw [bind_pure, seedWay, set, if_pos hroom]
        rfl
      · rw [List.range_succ, List.all_append, hvalid, List.all_cons, List.all_nil, Bool.and_true]
      · by_cases hwn : w = n
        · subst hwn
          exact Function.update_self ..
        · exact (Function.update_of_ne hwn _ _).trans (hcell w (by omega))
  obtain ⟨b, hb, hcount, hfringe, hvalid, hcell⟩ := hfill s.ways le_rfl
  refine ⟨b, hb, ?_, fun w hw => ?_, hvalid, hfringe⟩
  · simpa [ZArray.seeds] using hcount
  · have hw : w < s.ways := by simpa [ZArray.seeds] using hw
    rw [hcell w hw]
    simp [ZArray.seeds, hw]

/-- Writing past the last candidate leaves the candidates as they are. -/
theorem Holds.expandWay (hb : Holds b k) (hroom : k.candidates.length < s.cands + s.ways) (fringeId : LineId)
    (fringeAddr : Address) (w : ℕ) : ∃ b', ZCacheBuffers.expandWay s fringeId fringeAddr b w = .ok b' ∧
      Holds b' (s.expandWay fringeId fringeAddr k w) := by
  have hset : b.numCandidates < s.cands + s.ways := hb.count ▸ hroom
  refine ⟨_, by rw [ZCacheBuffers.expandWay, set, if_pos hset]; rfl, ?_⟩
  have hcell : ∀ idx < k.candidates.length, ∀ c,
      Function.update b.candidates b.numCandidates c idx = k.candidates[idx]? := by
    intro idx hidx c
    rw [Function.update_of_ne (by rw [hb.count]; omega)]
    exact hb.cell idx hidx
  by_cases hself : s.lookupArray (s.position w fringeAddr) ≠ fringeId
  · refine ⟨?_, fun idx hidx => ?_, ?_, hb.fringe⟩
    · simp only [ZArray.expandWay, if_pos hself, List.length_append, List.length_singleton, hb.count]
    · simp only [ZArray.expandWay, if_pos hself, List.length_append, List.length_singleton] at hidx ⊢
      by_cases hlast : idx = k.candidates.length
      · subst hlast
        simp [hb.count, hb.fringe]
      · rw [List.getElem?_append_left (by omega)]
        exact hcell idx (by omega) _
    · simp only [ZArray.expandWay, hb.valid]
  · refine ⟨?_, fun idx hidx => ?_, ?_, hb.fringe⟩
    · simp only [ZArray.expandWay, if_neg hself, hb.count, Nat.add_zero]
    · simp only [ZArray.expandWay, if_neg hself] at hidx ⊢
      exact hcell idx hidx _
    · simp only [ZArray.expandWay, hb.valid]

/-- A round writes at most one candidate for each way. -/
theorem Holds.expandWays (hb : Holds b k) (fringeId : LineId) (fringeAddr : Address) (ws : List ℕ)
    (hroom : k.candidates.length + ws.length ≤ s.cands + s.ways) :
    ∃ b', ws.foldlM (ZCacheBuffers.expandWay s fringeId fringeAddr) b = .ok b' ∧
      Holds b' (ws.foldl (s.expandWay fringeId fringeAddr) k) := by
  induction ws generalizing b k with
  | nil => exact ⟨b, rfl, hb⟩
  | cons w ws ih =>
    rw [List.length_cons] at hroom
    obtain ⟨b', hstep, hb'⟩ := hb.expandWay (s:=s) (by omega) fringeId fringeAddr w
    have hlen : (s.expandWay fringeId fringeAddr k w).candidates.length ≤ k.candidates.length + 1 := by
      simp only [ZArray.expandWay]
      split
      · rw [List.length_append, List.length_singleton]
      · exact Nat.le_succ _
    obtain ⟨b'', hrest, hb''⟩ := ih hb' (by omega)
    exact ⟨b'', by rw [List.foldlM_cons, hstep]; exact hrest, hb''⟩

theorem Holds.read (hb : Holds b k) {idx : ℕ} {c : ZWalkInfo} (hc : k.candidates[idx]? = some c) :
    ZCacheBuffers.read b idx = .ok c := by
  have hlt : idx < k.candidates.length := (List.getElem?_eq_some_iff.mp hc).1
  rw [ZCacheBuffers.read, if_pos (hb.count ▸ hlt), hb.cell idx hlt, hc]

/-- A parent is a whole set of ways before its children. -/
def Spread (s : ZArray) (k : Walk) : Prop :=
  ∀ (j : ℕ) (c : ZWalkInfo), k.candidates[j]? = some c → ∀ f, c.parentIdx = some f → f + s.ways ≤ j

theorem spread_seeds (s : ZArray) (a : Address) : Spread s (s.seeds a) := by
  intro j c hc f hf
  obtain ⟨w, -, rfl⟩ := List.mem_map.mp (List.mem_of_getElem? hc)
  cases hf

/-- The children of the fringe line come after all candidates. -/
theorem Spread.round (hs : Spread s k) (hk : Walking s a k) (fringeId : LineId) (fringeAddr : Address)
    (valid : Bool) : Spread s
      { candidates := k.candidates ++ children s fringeId fringeAddr k.fringeStart
        allValid := valid
        fringeStart := k.fringeStart + 1 } := by
  intro j c hc f hf
  by_cases hj : j < k.candidates.length
  · exact hs j c (List.getElem?_append_left hj ▸ hc) f hf
  · change (k.candidates ++ children s fringeId fringeAddr k.fringeStart)[j]? = some c at hc
    rw [List.getElem?_append_right (not_lt.mp hj)] at hc
    obtain ⟨w, -, -, rfl⟩ := mem_children.mp (List.mem_of_getElem? hc)
    cases hf
    exact hk.room.trans (not_lt.mp hj)

/-- The loop on the buffer is the loop of the walk. -/
theorem Holds.expand (h : Permuted s) (fuel : ℕ) (hb : Holds b k) (hk : Walking s a k) (hs : Spread s k)
    (hfuel : s.cands ≤ k.candidates.length + fuel) :
    ∃ b' k', ZCacheBuffers.expand s fuel b = .ok b' ∧ s.expand fuel k = .ok k' ∧ Holds b' k' ∧
      Walking s a k' ∧ Spread s k' := by
  induction fuel generalizing b k with
  | zero =>
    have hdone : ¬ (k.candidates.length < s.cands ∧ k.allValid = true) := by omega
    have hdone' : ¬ (b.numCandidates < s.cands ∧ b.allValid = true) := by rwa [hb.count, hb.valid]
    exact ⟨b, k, by rw [ZCacheBuffers.expand, if_neg hdone'], by rw [ZArray.expand, if_neg hdone], hb, hk, hs⟩
  | succ fuel ih =>
    by_cases hgo : k.candidates.length < s.cands ∧ k.allValid = true
    · have hgo' : b.numCandidates < s.cands ∧ b.allValid = true := by rwa [hb.count, hb.valid]
      have hways := h.ways
      have hroom := hk.room
      -- the fringe is behind the candidates, so there is a line to expand
      obtain ⟨fringe, hf⟩ : ∃ c, k.candidates[k.fringeStart]? = some c :=
        ⟨_, List.getElem?_eq_getElem (by omega)⟩
      have hne := hk.valid hgo.2 fringe (List.mem_of_getElem? hf)
      have hchildren := h.length_children fringe.lineId (s.array fringe.lineId) k.fringeStart
      obtain ⟨b', hways', hb'⟩ := hb.expandWays (s:=s) fringe.lineId (s.array fringe.lineId) (List.range s.ways)
        (by rw [List.length_range]; omega)
      have hread := hb.read hf
      rw [expandWay_foldl] at hb'
      have hnext : Holds { b' with fringeStart := b'.fringeStart + 1 }
          { candidates := k.candidates ++ children s fringe.lineId (s.array fringe.lineId) k.fringeStart
            allValid := k.allValid && (List.range s.ways).all fun w =>
              s.array (s.lookupArray (s.position w (s.array fringe.lineId))) != 0
            fringeStart := k.fringeStart + 1 } :=
        ⟨hb'.count, hb'.cell, hb'.valid, congrArg (· + 1) hb'.fringe⟩
      obtain ⟨b'', k', hbuffer, hwalk, hrest⟩ := ih hnext (hk.round h hf hne)
        (hs.round hk fringe.lineId (s.array fringe.lineId) _) (by simp only [List.length_append]; omega)
      refine ⟨b'', k', ?_, ?_, hrest⟩
      · rw [ZCacheBuffers.expand, if_pos hgo', hb.fringe, hread]
        simp only [if_neg hne, hways']
        exact hbuffer
      · rw [ZArray.expand, if_pos hgo]
        simp only [hf, if_neg hne, expandWay_foldl]
        exact hwalk
    · have hgo' : ¬ (b.numCandidates < s.cands ∧ b.allValid = true) := by rwa [hb.count, hb.valid]
      exact ⟨b, k, by rw [ZCacheBuffers.expand, if_neg hgo'], by rw [ZArray.expand, if_neg hgo], hb, hk, hs⟩

/-- The walk on the buffer succeeds, and is the walk of the array. -/
theorem walk_holds (h : Permuted s) (a : Address) : ∃ b₀ b, seeds s a = .ok b₀ ∧ expand s s.cands b₀ = .ok b ∧
    Holds b (s.walkOf a) ∧ Spread s (s.walkOf a) := by
  obtain ⟨b₀, hseeds, hb₀⟩ := seeds_holds s a
  obtain ⟨b, k, hexpand, hwalk, hb, -, hs⟩ :=
    hb₀.expand h s.cands (h.walking_seeds a) (spread_seeds s a) (Nat.le_add_left _ _)
  have hwalk' : s.walk a = .ok k := hwalk
  have hof : s.walkOf a = k := by rw [ZArray.walkOf, hwalk']
  exact ⟨b₀, b, hseeds, hexpand, hof ▸ hb, hof ▸ hs⟩

/-- The path from a candidate has room where there is one element for each whole
set of ways before it. -/
theorem Holds.fillSwaps {n : ℕ} (hb : Holds b k) (hs : Spread s k) (hways : 0 < s.ways)
    (hn : n ≤ k.candidates.length) (fuel : ℕ) {idx room : ℕ} (hidx : idx < n) (hfuel : idx < fuel)
    (hroom : idx / s.ways < room) :
    ZCacheBuffers.fillSwaps { b with numCandidates := n } room (some idx) =
        .ok (ZArray.swaps k.candidates fuel (some idx)) ∧
      (ZArray.swaps k.candidates fuel (some idx)).length ≤ idx / s.ways + 1 := by
  induction fuel generalizing idx room with
  | zero => omega
  | succ fuel ih =>
    obtain ⟨room, rfl⟩ := Nat.exists_eq_succ_of_ne_zero (Nat.ne_zero_of_lt hroom)
    rw [Nat.succ_eq_add_one] at hroom ⊢
    have hc : k.candidates[idx]? = some k.candidates[idx] := List.getElem?_eq_getElem (by omega)
    have hread : ZCacheBuffers.read { b with numCandidates := n } idx = .ok k.candidates[idx] := by
      simp only [ZCacheBuffers.read, if_pos hidx, hb.cell idx (by omega), hc]
    simp only [ZCacheBuffers.fillSwaps, ZArray.swaps, hread, hc]
    cases hparent : k.candidates[idx].parentIdx with
    | none =>
      have hnil : ZArray.swaps k.candidates fuel none = [] := by
        cases fuel <;> rfl
      have hdone : ZCacheBuffers.fillSwaps { b with numCandidates := n } room none = .ok [] := by
        cases room <;> rfl
      rw [hnil, hdone]
      exact ⟨rfl, Nat.le_add_left _ _⟩
    | some f =>
      have hspread := hs idx _ hc f hparent
      have hquotient : f / s.ways + 1 ≤ idx / s.ways := by
        rw [← Nat.add_div_right f hways]
        exact Nat.div_le_div_right hspread
      obtain ⟨hfill, hlength⟩ := ih (show f < n by omega) (by omega) (show f / s.ways < room by omega)
      rw [hfill]
      exact ⟨rfl, by rw [List.length_cons]; omega⟩

/-- The candidates the ranking sees are those the walk offers. -/
theorem Holds.offered (hb : Holds b k) {n : ℕ} (hn : n ≤ k.candidates.length) :
    (List.range n).filterMap (lineAt b) = (k.candidates.take n).map ZWalkInfo.lineId := by
  induction n with
  | zero => rfl
  | succ n ih =>
    have hc : k.candidates[n]? = some k.candidates[n] := List.getElem?_eq_getElem (by omega)
    have hline : lineAt b n = some k.candidates[n].lineId := by
      rw [lineAt, hb.cell n (by omega), hc, Option.map_some]
    rw [List.range_succ, List.filterMap_append, ih (by omega), List.take_add_one, hc, List.map_append]
    simp only [List.filterMap_cons, List.filterMap_nil, hline, Option.toList_some, List.map_cons, List.map_nil]

/-- The minimum index is that of the first candidate with the line. -/
theorem Holds.minIdx (hb : Holds b k) {n : ℕ} (hn : n ≤ k.candidates.length) (i : LineId) :
    (List.range n).find? (fun idx => lineAt b idx == some i) =
      (k.candidates.take n).findIdx? fun c => c.lineId == i := by
  have hline : ∀ idx (hidx : idx < k.candidates.length), lineAt b idx = some k.candidates[idx].lineId := by
    intro idx hidx
    rw [lineAt, hb.cell idx hidx, List.getElem?_eq_getElem hidx, Option.map_some]
  cases hfind : (k.candidates.take n).findIdx? fun c => c.lineId == i with
  | none =>
    refine List.find?_eq_none.mpr fun idx hidx => ?_
    rw [List.mem_range] at hidx
    have hmem : k.candidates[idx] ∈ k.candidates.take n :=
      List.mem_take_iff_getElem.mpr ⟨idx, by omega, rfl⟩
    have hnot := List.findIdx?_eq_none_iff.mp hfind _ hmem
    rw [hline idx (by omega)]
    simpa using hnot
  | some idx =>
    obtain ⟨hlt, hhere, hbefore⟩ := List.findIdx?_eq_some_iff_getElem.mp hfind
    have hlt' := hlt
    rw [List.length_take] at hlt'
    rw [List.getElem_take] at hhere
    refine List.find?_range_eq_some.mpr ⟨?_, List.mem_range.mpr (by omega), fun j hj => ?_⟩
    · rw [hline idx (by omega)]
      simpa using hhere
    · have hnot := hbefore j hj
      rw [List.getElem_take] at hnot
      rw [hline j (by omega)]
      simpa using hnot

end Refinement

section Runs

variable {s : ZArray} {a : Address} {rankCands : List LineId → LineId}

/-- `preinsert` never leaves its buffers. A ranking that answers with one of the
candidates gets the swaps of the walk; any other fails an assertion. -/
theorem preinsert_spec (h : Permuted s) (a : Address) (rankCands : List LineId → LineId) :
    (rankCands (zArray.candidates s a) ∈ zArray.candidates s a →
      preinsert s a rankCands = .ok (rankCands (zArray.candidates s a),
        s.swapsFor (s.walkOf a) (rankCands (zArray.candidates s a))) ∧
      (s.swapsFor (s.walkOf a) (rankCands (zArray.candidates s a))).length ≤ s.cands / s.ways + 1) ∧
    (rankCands (zArray.candidates s a) ∉ zArray.candidates s a →
      preinsert s a rankCands = .error .badCandidate ∨ preinsert s a rankCands = .error .noSwaps) := by
  obtain ⟨b₀, b, hseeds, hexpand, hb, hs⟩ := walk_holds h a
  obtain ⟨-, hk, henough⟩ := h.walk_spec a
  have hways : 0 < s.ways := by
    have htwo := h.ways
    omega
  have hfew : ¬ (b.allValid = true ∧ b.numCandidates < s.cands) := by
    rw [hb.valid, hb.count]
    exact fun hn => absurd hn.2 (not_lt.mpr (henough hn.1))
  set n := if s.cands < b.numCandidates then s.cands else b.numCandidates with hn
  have hnle : n ≤ (s.walkOf a).candidates.length := by
    rw [hn, hb.count]
    split <;> omega
  have htake : (s.walkOf a).candidates.take n = (s.walkOf a).candidates.take s.cands := by
    rw [hn, hb.count]
    split
    · rfl
    · next hle => rw [List.take_length, List.take_of_length_le (not_lt.mp hle)]
  have hoffered : (List.range n).filterMap (lineAt b) = zArray.candidates s a := by
    rw [hb.offered hnle, htake]
    rfl
  have hpre : preinsert s a rankCands = choose s b rankCands := by
    simp only [preinsert, hseeds, hexpand]
  have hlines : (List.range n).filterMap (lineAt { b with numCandidates := n }) = zArray.candidates s a := hoffered
  rw [hpre, choose, if_neg hfew]
  simp only [← hn, hlines]
  generalize rankCands (zArray.candidates s a) = i
  have hmin : (List.range n).find? (fun idx => lineAt { b with numCandidates := n } idx == some i) =
      ((s.walkOf a).candidates.take s.cands).findIdx? fun c => c.lineId == i := by
    rw [← htake]
    exact hb.minIdx hnle i
  rw [hmin]
  constructor
  · intro hi
    rw [if_neg (not_not.mpr (h.candidates_lt i hi))]
    obtain ⟨idx, c, hpath, -, -⟩ := h.exists_path hi
    cases hfind : ((s.walkOf a).candidates.take s.cands).findIdx? fun c => c.lineId == i with
    | none =>
      obtain ⟨c, hc, rfl⟩ := List.mem_map.mp hi
      have hnot := List.findIdx?_eq_none_iff.mp hfind c hc
      simp at hnot
    | some idx =>
      have hidx : idx < n := by
        obtain ⟨hlt, -⟩ := List.findIdx?_eq_some_iff_getElem.mp hfind
        rw [← htake, List.length_take] at hlt
        omega
      have hidxCands : idx < s.cands := by
        obtain ⟨hlt, -⟩ := List.findIdx?_eq_some_iff_getElem.mp hfind
        rw [List.length_take] at hlt
        omega
      have hdepth : idx / s.ways ≤ s.cands / s.ways := Nat.div_le_div_right hidxCands.le
      obtain ⟨hfill, hlength⟩ := hb.fillSwaps hs hways hnle (s.walkOf a).candidates.length hidx
        (by omega) (show idx / s.ways < s.cands / s.ways + 2 by omega)
      have hswaps : s.swapsFor (s.walkOf a) i =
          ZArray.swaps (s.walkOf a).candidates (s.walkOf a).candidates.length (some idx) := by
        rw [ZArray.swapsFor, hfind]
      rw [hswaps] at hpath ⊢
      rw [hfill]
      refine ⟨?_, by omega⟩
      obtain ⟨rest, hrest⟩ := List.head?_eq_some_iff.mp hpath.head
      rw [hrest]
  · intro hi
    by_cases hlt : i < s.numLines
    · rw [if_neg (not_not.mpr hlt)]
      have hnone : ((s.walkOf a).candidates.take s.cands).findIdx? (fun c => c.lineId == i) = none := by
        refine List.findIdx?_eq_none_iff.mpr fun c hc => ?_
        have hne : c.lineId ≠ i := fun hci => hi (hci ▸ List.mem_map_of_mem hc)
        simpa using hne
      rw [hnone]
      exact .inr rfl
    · rw [if_pos hlt]
      exact .inl rfl

/-- What happens to an array between two walks. -/
inductive Change where
  /-- An address is inserted in the place of the line the ranking chooses. -/
  | insert (lineAddr : Address) (rankCands : List LineId → LineId)
  /-- The lines hold other addresses, whichever. -/
  | contents (array : LineId → Address)

/-- `preinsert` and `postinsert`, refused when an assertion or an access fails. -/
def step (s : ZArray) : Change → Option ZArray
  | .insert lineAddr rankCands =>
    match preinsert s lineAddr rankCands with
    | .ok (candidate, swaps) => some ((s.withSwaps swaps).store candidate lineAddr)
    | .error _ => none
  | .contents array => some { s with array := array }

/-- What a run keeps: the sizes, and the permutation. -/
structure Sized (ways cands : ℕ) (s : ZArray) : Prop where
  ways : s.ways = ways
  cands : s.cands = cands
  permuted : Permuted s

/-- The constructor's linear mapping, with anything in the lines. -/
theorem sized_init {ways cands : ℕ} (k : ℕ) (hways : 2 ≤ ways) (hcands : ways ≤ cands)
    (hash : ℕ → Address → ℕ) : Sized ways cands (.init (ways * 2 ^ k) ways cands hash) := by
  have hsets : (ZArray.init (ways * 2 ^ k) ways cands hash).numSets = 2 ^ k :=
    Nat.mul_div_cancel_left _ (by omega)
  refine ⟨rfl, rfl, hways, hcands, ?_, ⟨k, hsets⟩, Set.bijOn_id _⟩
  rw [hsets]
  rfl

theorem Sized.step {ways cands : ℕ} {s s' : ZArray} {x : Change} (h : Sized ways cands s)
    (hstep : step s x = some s') : Sized ways cands s' := by
  cases x with
  | contents array =>
    cases hstep
    exact ⟨h.ways, h.cands, h.permuted.ways, h.permuted.cands, h.permuted.lines, h.permuted.sets, h.permuted.perm⟩
  | insert a rankCands =>
    obtain ⟨hgood, hbad⟩ := preinsert_spec h.permuted a rankCands
    by_cases hi : rankCands (zArray.candidates s a) ∈ zArray.candidates s a
    · obtain ⟨idx, c, hpath, hline, hlt⟩ := h.permuted.exists_path hi
      simp only [ZCacheBuffers.step, (hgood hi).1] at hstep
      cases hstep
      exact ⟨h.ways, h.cands, h.permuted.store hpath hlt hline⟩
    · rcases hbad hi with hpre | hpre
      · simp only [ZCacheBuffers.step, hpre] at hstep
        cases hstep
      · simp only [ZCacheBuffers.step, hpre] at hstep
        cases hstep

/-- The ranking chose one of the candidates, and `preinsert` returns it with a
chain of distinct positions of at most this length; or it chose another line,
and an assertion fails. -/
def StaysWithin (s : ZArray) (lineAddr : Address) (rankCands : List LineId → LineId) (length : ℕ) : Prop :=
  (rankCands (zArray.candidates s lineAddr) ∈ zArray.candidates s lineAddr ∧
    ∃ swaps, preinsert s lineAddr rankCands = .ok (rankCands (zArray.candidates s lineAddr), swaps) ∧
      swaps.length ≤ length ∧ swaps.Nodup) ∨
  (rankCands (zArray.candidates s lineAddr) ∉ zArray.candidates s lineAddr ∧
    (preinsert s lineAddr rankCands = .error .badCandidate ∨ preinsert s lineAddr rankCands = .error .noSwaps))

/-- For all ways, candidates, powers of two of sets and hash families, in every
array that insertions have made and whatever its lines hold, `preinsert` stays
within its buffers. -/
theorem preinsert_within {ways cands : ℕ} (k : ℕ) (hways : 2 ≤ ways) (hcands : ways ≤ cands)
    (hash : ℕ → Address → ℕ) {changes : List Change} {s : ZArray}
    (hrun : run step (.init (ways * 2 ^ k) ways cands hash) changes = some s) (lineAddr : Address)
    (rankCands : List LineId → LineId) : StaysWithin s lineAddr rankCands (cands / ways + 2) := by
  have hs : Sized ways cands s :=
    run_invariant (fun _ _ _ h hstep => h.step hstep) (sized_init k hways hcands hash) hrun
  obtain ⟨hgood, hbad⟩ := preinsert_spec hs.permuted lineAddr rankCands
  by_cases hi : rankCands (zArray.candidates s lineAddr) ∈ zArray.candidates s lineAddr
  · obtain ⟨hpre, hlength⟩ := hgood hi
    obtain ⟨idx, c, hpath, -, -⟩ := hs.permuted.exists_path hi
    rw [hs.cands, hs.ways] at hlength
    exact .inl ⟨hi, _, hpre, by omega, hpath.nodup⟩
  · exact .inr ⟨hi, hbad hi⟩

/-- Two ways of four sets and six candidates, with an address in every line. -/
theorem preinsert_within_full :
    StaysWithin { ZArray.init (2 * 2 ^ 2) 2 6 (fun w a => a + w) with array := fun i => i + 1 } 20
      (fun lines => lines.getLastD 0) (6 / 2 + 2) :=
  preinsert_within 2 (by decide) (by decide) _
    (show run step (.init (2 * 2 ^ 2) 2 6 fun w a => a + w) [.contents fun i => i + 1] = some _ from rfl) 20 _

end Runs

end Zsim.ZCacheBuffers
