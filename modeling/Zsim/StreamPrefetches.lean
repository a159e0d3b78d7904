import Mathlib.Algebra.Order.Ring.Int
import Mathlib.Logic.Function.Basic
import Mathlib.Tactic.Ring
import Zsim.GuardedRuns
import Zsim.MemoryHierarchy

/-!
# Prefetches of streams

The stream prefetcher keeps, for each of sixteen pages, the stride of the last accesses and how far it has
prefetched. Positions are unsigned and strides signed, and the depth is divided as unsigned numbers: of a stride
upwards that the prefetches have fallen behind it comes out as very large, and the next prefetch goes behind the
demand.
-/

namespace Zsim.StreamPrefetches

open MemoryHierarchy GuardedRuns

/-- What an `int32_t` keeps of a number. -/
def i32 (x : ℤ) : ℤ := if x % 2 ^ 32 < 2 ^ 31 then x % 2 ^ 32 else x % 2 ^ 32 - 2 ^ 32

/-- What a `uint32_t` keeps of a number. -/
def u32 (x : ℤ) : ℕ := (x % 2 ^ 32).toNat

/-- `SatCounter<3, 2, 1>`. -/
structure SatCounter where
  count : ℕ := 1

namespace SatCounter

def reset (_ : SatCounter) : SatCounter := ⟨1⟩

def dec (c : SatCounter) : SatCounter := ⟨c.count - 1⟩

def inc (c : SatCounter) : SatCounter := ⟨min (c.count + 1) 3⟩

def pred (c : SatCounter) : Bool := 2 ≤ c.count

end SatCounter

structure AccessTimes where
  startCycle : UInt64
  respCycle : UInt64

/-- `AccessTimes::fill`, which takes the cycle of the start as 32 bits. -/
def AccessTimes.fill (s r : UInt64) : AccessTimes := ⟨s.toUInt32.toUInt64, r⟩

structure Entry where
  stride : ℤ
  conf : SatCounter
  times : ℕ → AccessTimes
  valid : ℕ → Bool
  lastPos : ℕ
  lastLastPos : ℕ
  lastPrefetchPos : ℕ
  lastCycle : UInt64
  ts : UInt64

/-- `MemReq`, with the value that its `state` points to. -/
structure MemReq where
  lineAddr : UInt64
  type : AccessType
  childId : ℕ
  state : MESIState
  cycle : UInt64
  initialState : MESIState
  srcId : ℕ
  flags : Flags

def pageOf (lineAddr : UInt64) : UInt64 := lineAddr >>> 6

def posOf (lineAddr : UInt64) : ℕ := (lineAddr &&& 63).toNat

/-- What an access answers: the cycle, the state it leaves the line in and the next state of the parent. -/
structure Response (σ : Type) where
  respCycle : UInt64
  state : MESIState
  parent : σ

/-- The cache above, by the parts of its access. -/
structure ParentCache (σ : Type) where
  /-- The lookup, the replacement and `bcc->processAccess`. -/
  bottom : σ → MemReq → UInt64 × σ
  /-- `tcc->processAccess`, the part that writes the requester's state. -/
  top : σ → MemReq → UInt64 → Response σ

variable {σ : Type}

/-- `Cache::access` as far as `MESICC::processAccess` goes: prefetches only touch the bottom controller. -/
def ParentCache.access (P : ParentCache σ) (p : σ) (req : MemReq) : Response σ :=
  let b := P.bottom p req
  if req.flags.prefetch then ⟨b.1, req.state, b.2⟩ else P.top b.2 req b.1

/-- A prefetch, and the state it leaves what it passes in. -/
structure Prefetch where
  req : MemReq
  state : MESIState

namespace Entry

def alloc (e : Entry) (curCycle : UInt64) : Entry :=
  { e with
    stride := 1, lastPos := 0, lastLastPos := 0, lastPrefetchPos := 0
    conf := e.conf.reset, valid := fun _ => false, lastCycle := curCycle }

/-- The demand meets a prefetch of its line: the entry, the cycle of the response and `shortPrefetch`. -/
def demand (e : Entry) (pos : ℕ) (respCycle : UInt64) : Entry × UInt64 × Bool :=
  if e.valid pos then
    let pfRespCycle := (e.times pos).respCycle
    let resp := max pfRespCycle respCycle
    ({ e with valid := Function.update e.valid pos false, lastCycle := max resp e.lastCycle }, resp,
      decide (pfRespCycle > respCycle))
  else (e, respCycle, false)

/-- `fetchDepth`, an unsigned quotient; the stride is not zero. -/
def fetchDepth (e : Entry) (stride : ℤ) : ℤ :=
  i32 ((u32 (e.lastPrefetchPos - e.lastPos) / u32 stride : ℕ) : ℤ)

/-- The depth and the position of the next prefetch; none where the division traps. -/
def next (e : Entry) (pos : ℕ) (stride : ℤ) : Option (ℤ × ℕ) :=
  if stride = 0 then none
  else if e.fetchDepth stride < 1 then some (1, u32 (pos + stride))
  else some (e.fetchDepth stride, u32 (e.lastPrefetchPos + stride))

/-- Another stride than the entry's. -/
def mismatch (e : Entry) (pos : ℕ) (stride : ℤ) : Entry :=
  let e := { e with conf := e.conf.dec }
  let lastStride := i32 ((e.lastPos : ℤ) - e.lastLastPos)
  let e := if ¬e.conf.pred ∧ stride ≠ 0 ∧ stride ≠ e.stride ∧ stride = lastStride then
    { e with conf := e.conf.reset, stride := stride } else e
  { e with lastPrefetchPos := pos }

/-- The positions move on to the demand. -/
def advance (e : Entry) (pos : ℕ) : Entry := { e with lastLastPos := e.lastPos, lastPos := pos }

/-- The position is prefetched. -/
def filled (e : Entry) (prefetchPos : ℕ) (times : AccessTimes) : Entry :=
  { e with
    valid := Function.update e.valid prefetchPos true
    times := Function.update e.times prefetchPos times }

theorem valid_filled (e : Entry) (prefetchPos : ℕ) (times : AccessTimes) :
    (e.filled prefetchPos times).valid = Function.update e.valid prefetchPos true := rfl

end Entry

/-- What the prefetches of a demand leave. -/
structure Issue (σ : Type) where
  entry : Entry
  issued : List Prefetch
  parent : σ

/-- The request of the first prefetch of a demand. -/
def pfReq (req : MemReq) (prefetchPos : ℕ) : MemReq where
  lineAddr := req.lineAddr + UInt64.ofNat prefetchPos - UInt64.ofNat (posOf req.lineAddr)
  type := .GETS
  childId := req.childId
  state := .I
  cycle := req.cycle
  initialState := .I
  srcId := req.srcId
  flags := { prefetch := true }

/-- The request of a second prefetch, which finds the state as the first one leaves it. -/
def MemReq.moved (pf : MemReq) (stride : ℤ) (state : MESIState) : MemReq :=
  { pf with lineAddr := pf.lineAddr + UInt64.ofInt stride, state := state }

/-- One prefetch at the position, and two when the last one came late. -/
def issue (P : ParentCache σ) (p : σ) (e : Entry) (req : MemReq) (stride : ℤ) (shortPrefetch : Bool)
    (fetchDepth : ℤ) (prefetchPos : ℕ) : Issue σ :=
  if prefetchPos < 64 ∧ e.valid prefetchPos = false then
    let pf := pfReq req prefetchPos
    let r := P.access p pf
    let e := e.filled prefetchPos (.fill req.cycle r.respCycle)
    let nextPos := u32 (prefetchPos + stride)
    if shortPrefetch = true ∧ fetchDepth < 8 ∧ nextPos < 64 ∧ e.valid nextPos = false then
      let pf' := pf.moved stride r.state
      let r' := P.access r.parent pf'
      let e := e.filled nextPos (.fill req.cycle r'.respCycle)
      ⟨{ e with lastPrefetchPos := nextPos }, [⟨pf, r.state⟩, ⟨pf', r'.state⟩], r'.parent⟩
    else ⟨{ e with lastPrefetchPos := prefetchPos }, [⟨pf, r.state⟩], r.parent⟩
  else ⟨e, [], p⟩

/-- The entry's stride again; none where the division traps or the assertion fails. -/
def follow (P : ParentCache σ) (p : σ) (e : Entry) (req : MemReq) (stride : ℤ) (shortPrefetch : Bool) :
    Option (Issue σ) :=
  let e := { e with conf := e.conf.inc }
  if e.conf.pred then
    (e.next (posOf req.lineAddr) stride).bind fun next =>
      let r := issue P p e req stride shortPrefetch next.1 next.2
      if ∀ pf ∈ r.issued.getLast?, pf.state = .I then some r else none
  else some ⟨e, [], p⟩

structure StreamPrefetcher (σ : Type) where
  timestamp : UInt64
  tag : ℕ → UInt64
  array : ℕ → Entry
  childId : ℕ
  /-- The state of the cache above. -/
  parent : σ

/-- What an access answers, the request as it leaves it, and the prefetches it issues. -/
structure Outcome (σ : Type) where
  respCycle : UInt64
  req : MemReq
  issued : List Prefetch
  next : StreamPrefetcher σ

namespace StreamPrefetcher

/-- The constructor, in memory that is zero. -/
def new (childId : ℕ) (parent : σ) : StreamPrefetcher σ where
  timestamp := 0
  tag := fun _ => 0
  array := fun _ => ⟨0, {}, fun _ => ⟨0, 0⟩, fun _ => false, 0, 0, 0, 0, 0⟩
  childId := childId
  parent := parent

/-- The last entry whose tag matches. -/
def lookup (s : StreamPrefetcher σ) (pageAddr : UInt64) : Option ℕ :=
  (List.range 16).foldl (fun idx i => if pageAddr = s.tag i then some i else idx) none

/-- The least recently used entry, except for those with warm prefetches. -/
def victim (s : StreamPrefetcher σ) (reqCycle : UInt64) : Option ℕ :=
  ((List.range 16).foldl (fun (c : Option ℕ × UInt64) i =>
    if (s.array i).lastCycle > reqCycle + 500 then c
    else if (s.array i).ts < c.2 then (some i, (s.array i).ts)
    else c) (none, -1)).1

/-- The entry miss. -/
def allocate (s : StreamPrefetcher σ) (pageAddr : UInt64) (pos : ℕ) (reqCycle : UInt64) : StreamPrefetcher σ :=
  match s.victim reqCycle with
  | none => s
  | some idx =>
    let e := { (s.array idx).alloc reqCycle with lastPos := pos, ts := s.timestamp }
    { s with
      timestamp := s.timestamp + 1
      array := Function.update s.array idx e
      tag := Function.update s.tag idx pageAddr }

/-- The entry hit, on a demand that the parent has answered. -/
def hit (P : ParentCache σ) (s : StreamPrefetcher σ) (idx : ℕ) (req : MemReq) (respCycle : UInt64) :
    Option (UInt64 × List Prefetch × StreamPrefetcher σ) :=
  let pos := posOf req.lineAddr
  let d := { s.array idx with ts := s.timestamp }.demand pos respCycle
  let stride := i32 ((pos : ℤ) - d.1.lastPos)
  let r := if d.1.stride = stride then follow P s.parent d.1 req stride d.2.2
    else some ⟨d.1.mismatch pos stride, [], s.parent⟩
  r.map fun r => (d.2.1, r.issued, { s with
    timestamp := s.timestamp + 1
    array := Function.update s.array idx (r.entry.advance pos)
    parent := r.parent })

/-- `StreamPrefetcher::access`. -/
def access (P : ParentCache σ) (s : StreamPrefetcher σ) (req : MemReq) : Option (Outcome σ) :=
  let own := { req with childId := s.childId }
  let r := P.access s.parent own
  let own := { own with state := r.state }
  let s := { s with parent := r.parent }
  if req.type ≠ .GETS then some ⟨r.respCycle, own, [], s⟩
  else
    let done := { own with childId := req.childId }
    match s.lookup (pageOf req.lineAddr) with
    | none => some ⟨r.respCycle, done, [], s.allocate (pageOf req.lineAddr) (posOf req.lineAddr) req.cycle⟩
    | some idx => (hit P s idx own r.respCycle).map fun h => ⟨h.1, done, h.2.1, h.2.2⟩

/-- Accesses one after another. -/
def step (P : ParentCache σ) (s : StreamPrefetcher σ) (req : MemReq) : Option (StreamPrefetcher σ) :=
  (access P s req).map (·.next)

end StreamPrefetcher

section Words

variable {x : ℤ} {a b : UInt64} {n : ℕ}

/-- What fits in a page is kept as it is. -/
theorem u32_of_lt (hlow : -2 ^ 31 ≤ x) (hhigh : x < 2 ^ 31) (h : u32 x < 64) : (u32 x : ℤ) = x := by
  unfold u32 at h ⊢
  omega

theorem i32_of_small (hlow : -64 < x) (h : x < 64) : i32 x = x := by
  unfold i32
  split <;> omega

theorem toNat_pageOf (a : UInt64) : (pageOf a).toNat = a.toNat / 64 := by
  rw [pageOf, UInt64.toNat_shiftRight, Nat.shiftRight_eq_div_pow]
  rfl

theorem posOf_eq (a : UInt64) : posOf a = a.toNat % 64 := by
  rw [posOf, UInt64.toNat_and]
  exact Nat.and_two_pow_sub_one_eq_mod a.toNat 6

theorem posOf_lt (a : UInt64) : posOf a < 64 := by
  rw [posOf_eq]
  exact Nat.mod_lt _ (by decide)

/-- A line is found by its page and its position. -/
theorem line_of_toNat (hn : n < 64) (h : b.toNat = a.toNat / 64 * 64 + n) : pageOf b = pageOf a ∧ posOf b = n := by
  constructor
  · apply UInt64.toNat_inj.mp
    rw [toNat_pageOf, toNat_pageOf, h]
    omega
  · rw [posOf_eq, h]
    omega

theorem toNat_pfReq (req : MemReq) (hn : n < 64) :
    (pfReq req n).lineAddr.toNat = req.lineAddr.toNat / 64 * 64 + n := by
  have hlt := req.lineAddr.toNat_lt
  have hpos := posOf_eq req.lineAddr
  simp only [pfReq, UInt64.toNat_sub, UInt64.toNat_add, UInt64.toNat_ofNat']
  omega

/-- The line of the second prefetch is a stride further. -/
theorem toNat_add_ofInt {m : ℕ} (ha : a.toNat = b.toNat / 64 * 64 + n) (hn : n < 64) (hm : m < 64)
    (hx : (m : ℤ) = n + x) : (a + UInt64.ofInt x).toNat = b.toNat / 64 * 64 + m := by
  have hlt := b.toNat_lt
  simp only [UInt64.ofInt, UInt64.toNat_add, UInt64.toNat_ofNat']
  omega

end Words

namespace Entry

variable {e : Entry} {pos : ℕ}

/-- What holds of an entry at all times: its prefetches are a number of strides away from the last position, at
most two when the stride goes down, and two only as long as the second is waiting. -/
structure Aligned (e : Entry) : Prop where
  lastPos : e.lastPos < 64
  lastPrefetchPos : e.lastPrefetchPos < 64
  low : -64 < e.stride
  high : e.stride < 64
  strides : ∃ j : ℤ, (e.lastPrefetchPos : ℤ) = e.lastPos + j * e.stride ∧
    (e.stride < 0 → j ≤ 2 ∧ (j = 2 → e.valid e.lastPrefetchPos = true))

/-- The position of the next prefetch along the entry's stride, before it is kept as unsigned. -/
def nextPos (e : Entry) (pos : ℕ) : ℤ :=
  if e.fetchDepth e.stride < 1 then pos + e.stride else e.lastPrefetchPos + e.stride

variable (pos) in
theorem next_eq (hs : e.stride ≠ 0) : ∃ d, e.next pos e.stride = some (d, u32 (e.nextPos pos)) := by
  by_cases hd : e.fetchDepth e.stride < 1
  · exact ⟨1, by rw [next, nextPos, if_neg hs, if_pos hd, if_pos hd]⟩
  · exact ⟨_, by rw [next, nextPos, if_neg hs, if_neg hd, if_neg hd]⟩

section Depth

variable (hlast : e.lastPos < 64) (hpref : e.lastPrefetchPos < 64)

include hlast hpref

/-- Upwards, the depth is what it should be as long as the prefetches are not behind. -/
theorem fetchDepth_up (hs : 0 < e.stride) (h : e.lastPos ≤ e.lastPrefetchPos) (hhigh : e.stride < 64) :
    e.fetchDepth e.stride = ((e.lastPrefetchPos : ℤ) - e.lastPos) / e.stride := by
  have hn : (u32 (e.lastPrefetchPos - e.lastPos) : ℤ) = e.lastPrefetchPos - e.lastPos := by
    unfold u32
    omega
  have hd : (u32 e.stride : ℤ) = e.stride := by
    unfold u32
    omega
  have hle := Int.ediv_le_self e.stride (by omega : 0 ≤ (e.lastPrefetchPos : ℤ) - e.lastPos)
  have hge := Int.ediv_nonneg (by omega : 0 ≤ (e.lastPrefetchPos : ℤ) - e.lastPos) hs.le
  rw [fetchDepth, Int.natCast_ediv, hn, hd]
  exact i32_of_small (by omega) (by omega)

/-- By single lines upwards, prefetches that are behind give a negative depth. -/
theorem fetchDepth_one (hs : e.stride = 1) (h : e.lastPrefetchPos < e.lastPos) : e.fetchDepth e.stride < 1 := by
  have hd : u32 1 = 1 := by decide
  rw [fetchDepth, hs, hd, Nat.div_one]
  unfold u32 i32
  split <;> omega

/-- By larger strides upwards, prefetches that are behind give a depth that is large. -/
theorem fetchDepth_behind (hs : 2 ≤ e.stride) (hhigh : e.stride < 64) (h : e.lastPrefetchPos < e.lastPos) :
    1 ≤ e.fetchDepth e.stride := by
  have hd : (u32 e.stride : ℤ) = e.stride := by
    unfold u32
    omega
  have hn : 2 ^ 32 - 64 < u32 (e.lastPrefetchPos - e.lastPos) ∧ u32 (e.lastPrefetchPos - e.lastPos) < 2 ^ 32 := by
    unfold u32
    omega
  have hpos : 0 < u32 (e.lastPrefetchPos - e.lastPos) / u32 e.stride := Nat.div_pos (by omega) (by omega)
  have hle : u32 (e.lastPrefetchPos - e.lastPos) / u32 e.stride ≤ u32 (e.lastPrefetchPos - e.lastPos) / 2 :=
    Nat.div_le_div_left (by omega) (by decide)
  rw [fetchDepth, i32, if_pos (by omega)]
  omega

/-- Downwards, the depth is one when the prefetches are at most one stride ahead, and zero otherwise. -/
theorem fetchDepth_down (hs : e.stride < 0) (hlow : -64 < e.stride) : e.fetchDepth e.stride =
    if e.lastPrefetchPos < e.lastPos ∧ e.lastPos + e.stride ≤ e.lastPrefetchPos then 1 else 0 := by
  have hd : (u32 e.stride : ℤ) = 2 ^ 32 + e.stride := by
    unfold u32
    omega
  have hn : (u32 (e.lastPrefetchPos - e.lastPos) : ℤ) =
      if e.lastPrefetchPos < e.lastPos then (2 ^ 32 : ℤ) + (e.lastPrefetchPos - e.lastPos)
      else (e.lastPrefetchPos : ℤ) - e.lastPos := by
    unfold u32
    split <;> omega
  rw [fetchDepth]
  by_cases hone : e.lastPrefetchPos < e.lastPos ∧ e.lastPos + e.stride ≤ e.lastPrefetchPos
  · rw [if_pos hone.1] at hn
    have hq : u32 (e.lastPrefetchPos - e.lastPos) / u32 e.stride = 1 :=
      Nat.div_eq_of_lt_le (by omega) (by omega)
    rw [if_pos hone, hq]
    decide
  · have hq : u32 (e.lastPrefetchPos - e.lastPos) / u32 e.stride = 0 := by
      apply Nat.div_eq_of_lt
      split at hn <;> omega
    rw [if_neg hone, hq]
    decide

end Depth

namespace Aligned

variable (h : e.Aligned)

include h

variable (pos) in
/-- Downwards the next prefetch is always one stride from the demand. -/
theorem nextPos_down (hs : e.stride < 0) : e.nextPos pos = pos + e.stride ∨
    e.nextPos pos = e.lastPrefetchPos + e.stride ∧ (e.lastPrefetchPos : ℤ) = e.lastPos + e.stride := by
  obtain ⟨j, hj, -⟩ := h.strides
  rw [nextPos, fetchDepth_down h.lastPos h.lastPrefetchPos hs h.low]
  split_ifs with hone hlt
  · exact absurd hlt (by decide)
  · have hpos : 0 < j := by
      by_contra hneg
      have := mul_nonneg_of_nonpos_of_nonpos (not_lt.mp hneg) hs.le
      omega
    have hle : j ≤ 1 := by
      by_contra htwo
      have := mul_le_mul_of_nonpos_right (show 2 ≤ j by omega) hs.le
      omega
    have hj1 : j = 1 := by omega
    exact .inr ⟨rfl, by rw [hj, hj1, one_mul]⟩
  · exact .inl rfl
  · exact .inl (by omega)

variable (pos) in
/-- Upwards the next prefetch follows the last one, unless that was the demand before, or a single line behind. -/
theorem nextPos_up (hs : 0 < e.stride) :
    e.nextPos pos = e.lastPrefetchPos + e.stride ∧ e.lastPrefetchPos ≠ e.lastPos ∧
      (2 ≤ e.stride ∨ e.lastPos ≤ e.lastPrefetchPos) ∨
    e.nextPos pos = pos + e.stride ∧
      (e.lastPrefetchPos = e.lastPos ∨ e.stride = 1 ∧ e.lastPrefetchPos < e.lastPos) := by
  obtain ⟨j, hj, -⟩ := h.strides
  by_cases hle : e.lastPos ≤ e.lastPrefetchPos
  · have hdepth := fetchDepth_up h.lastPos h.lastPrefetchPos hs hle h.high
    rw [hj, add_sub_cancel_left, Int.mul_ediv_cancel _ hs.ne'] at hdepth
    rw [nextPos, hdepth]
    by_cases hj1 : j < 1
    · have hj0 : j * e.stride ≤ 0 := mul_nonpos_of_nonpos_of_nonneg (by omega) hs.le
      exact .inr ⟨if_pos hj1, .inl (by omega)⟩
    · have hj0 : 0 < j * e.stride := mul_pos (by omega) hs
      exact .inl ⟨if_neg hj1, by omega, .inr hle⟩
  · rw [not_le] at hle
    by_cases hone : e.stride = 1
    · exact .inr ⟨if_pos (fetchDepth_one h.lastPos h.lastPrefetchPos hone hle), .inr ⟨hone, hle⟩⟩
    · have hdepth := fetchDepth_behind h.lastPos h.lastPrefetchPos (by omega) h.high hle
      exact .inl ⟨if_neg (by omega), hle.ne, .inl (by omega)⟩

/-- The next prefetch is a number of strides from the demand, a positive one unless larger strides upwards have
left the prefetches behind. -/
theorem nextPos_strides (hs : e.stride ≠ 0) (hpos : (pos : ℤ) = e.lastPos + e.stride) :
    ∃ k : ℤ, e.nextPos pos = pos + k * e.stride ∧ (e.stride < 0 → k = 1) ∧
      (1 ≤ k ∨ 2 ≤ e.stride ∧ e.lastPrefetchPos < e.lastPos) := by
  obtain ⟨j, hj, -⟩ := h.strides
  rcases lt_or_gt_of_ne hs with hneg | hup
  · have hnext : e.nextPos pos = pos + e.stride := by
      rcases h.nextPos_down pos hneg with hn | ⟨hn, hf⟩
      · exact hn
      · omega
    exact ⟨1, by rw [hnext, one_mul], fun _ => rfl, .inl le_rfl⟩
  · rcases h.nextPos_up pos hup with ⟨hn, hne, hcase⟩ | ⟨hn, -⟩
    · have hk : e.nextPos pos = pos + j * e.stride := by omega
      refine ⟨j, hk, fun hneg => absurd hneg hup.not_gt, ?_⟩
      by_cases hle : e.lastPos ≤ e.lastPrefetchPos
      · have hjs : 0 < j * e.stride := by omega
        exact .inl ((mul_pos_iff_of_pos_right hup).mp hjs)
      · exact .inr ⟨by omega, not_le.mp hle⟩
    · exact ⟨1, by rw [hn, one_mul], fun _ => rfl, .inl le_rfl⟩

variable (pos) in
/-- Larger strides upwards that have left the prefetches behind lead to the demand's line or behind it. -/
theorem nextPos_behind (hs : 2 ≤ e.stride) (hf : e.lastPrefetchPos < e.lastPos) :
    e.nextPos pos = e.lastPrefetchPos + e.stride ∧ (e.lastPrefetchPos : ℤ) + e.stride ≤ e.lastPos := by
  obtain ⟨j, hj, -⟩ := h.strides
  constructor
  · rcases h.nextPos_up pos (by omega) with hn | hn
    · exact hn.1
    · omega
  · have hj0 : j < 0 := by
      by_contra hneg
      have := mul_nonneg (not_lt.mp hneg) (by omega : 0 ≤ e.stride)
      omega
    have := mul_le_mul_of_nonneg_right (show j ≤ -1 by omega) (by omega : 0 ≤ e.stride)
    omega

/-- Prefetches that are ahead are followed by the next one, unless they are two strides ahead downwards. -/
theorem nextPos_follows (hpos : (pos : ℤ) = e.lastPos + e.stride) {j : ℕ} (hj : 1 ≤ j)
    (hf : (e.lastPrefetchPos : ℤ) = e.lastPos + j * e.stride) :
    e.nextPos pos = e.lastPrefetchPos + e.stride ∨
      e.nextPos pos = e.lastPrefetchPos ∧ e.valid e.lastPrefetchPos = true := by
  rcases lt_trichotomy e.stride 0 with hneg | hzero | hup
  · obtain ⟨i, hi, hdown⟩ := h.strides
    have hij : i = j := mul_right_cancel₀ hneg.ne (by omega)
    rcases h.nextPos_down pos hneg with hn | ⟨hn, -⟩
    · have htwo := (hdown hneg).1
      by_cases hone : j = 1
      · rw [hone, Nat.cast_one, one_mul] at hf
        exact .inl (by omega)
      · have hi2 : i = 2 := by omega
        rw [hij.symm.trans hi2] at hf
        exact .inr ⟨by omega, (hdown hneg).2 hi2⟩
    · exact .inl hn
  · rw [hzero, mul_zero, add_zero] at hf
    rw [nextPos, hzero]
    exact .inl (by split <;> omega)
  · have hjs : 0 < j * e.stride := mul_pos (by omega) hup
    rcases h.nextPos_up pos hup with ⟨hn, -⟩ | ⟨-, hcase⟩
    · exact .inl hn
    · omega

end Aligned

end Entry

/-- A prefetch leaves the state that it passes: only the bottom controller of the parent is touched. -/
theorem ParentCache.access_prefetch (P : ParentCache σ) (p : σ) {req : MemReq} (h : req.flags.prefetch = true) :
    (P.access p req).state = req.state := by
  rw [ParentCache.access, if_pos h]

section Issues

variable {P : ParentCache σ} {p : σ} {e : Entry} {req : MemReq} {stride fetchDepth : ℤ} {shortPrefetch : Bool}
  {prefetchPos : ℕ}

/-- A prefetch of the position in the page of the demand, where the entry has none waiting, that changes no state. -/
structure Sent (e : Entry) (lineAddr : UInt64) (n : ℕ) (pf : Prefetch) : Prop where
  inPage : n < 64
  clear : e.valid n = false
  page : pageOf pf.req.lineAddr = pageOf lineAddr
  pos : posOf pf.req.lineAddr = n
  before : pf.req.state = .I
  after : pf.state = .I

/-- The entry has prefetched up to the position, where a prefetch waits. -/
structure Reached (e e' : Entry) (n : ℕ) : Prop where
  valid : e'.valid n = true
  entry : e' = { e with valid := e'.valid, times := e'.times, lastPrefetchPos := n }

theorem sent_pfReq (h : prefetchPos < 64) (hclear : e.valid prefetchPos = false) :
    Sent e req.lineAddr prefetchPos ⟨pfReq req prefetchPos, (P.access p (pfReq req prefetchPos)).state⟩ :=
  have hline := line_of_toNat h (toNat_pfReq req h)
  ⟨h, hclear, hline.1, hline.2, rfl, P.access_prefetch p rfl⟩

variable (P p req) in
/-- The second prefetch is a stride further, at a position that the first one has not marked. -/
theorem sent_moved (hlow : -64 < stride) (hhigh : stride < 64) (h : prefetchPos < 64)
    (hin : u32 (prefetchPos + stride) < 64) {times : AccessTimes} {state : MESIState} (hstate : state = .I)
    (hclear : (e.filled prefetchPos times).valid (u32 (prefetchPos + stride)) = false) :
    (u32 (prefetchPos + stride) : ℤ) = prefetchPos + stride ∧
      Sent e req.lineAddr (u32 (prefetchPos + stride)) ⟨(pfReq req prefetchPos).moved stride state,
        (P.access p ((pfReq req prefetchPos).moved stride state)).state⟩ := by
  have hnext := u32_of_lt (by omega) (by omega) hin
  have hline := line_of_toNat hin (toNat_add_ofInt (toNat_pfReq req h) h hin hnext)
  have hne : u32 (prefetchPos + stride) ≠ prefetchPos := by
    intro heq
    rw [heq, Entry.valid_filled, Function.update_self] at hclear
    exact absurd hclear (by decide)
  rw [Entry.valid_filled, Function.update_of_ne hne] at hclear
  exact ⟨hnext, hin, hclear, hline.1, hline.2, hstate, (P.access_prefetch p rfl).trans hstate⟩

/-- The prefetches of a demand: none, one at the position, or another one a stride further. -/
theorem issue_cases (hlow : -64 < stride) (hhigh : stride < 64) {r : Issue σ}
    (hr : issue P p e req stride shortPrefetch fetchDepth prefetchPos = r) :
    (¬(prefetchPos < 64 ∧ e.valid prefetchPos = false) ∧ r.issued = [] ∧ r.entry = e) ∨
    (∃ pf, Sent e req.lineAddr prefetchPos pf ∧ r.issued = [pf] ∧ Reached e r.entry prefetchPos) ∨
    ∃ pf pf' n, Sent e req.lineAddr prefetchPos pf ∧ Sent e req.lineAddr n pf' ∧ (n : ℤ) = prefetchPos + stride ∧
      r.issued = [pf, pf'] ∧ Reached e r.entry n := by
  subst hr
  unfold issue
  dsimp only
  split_ifs with hfirst hsecond
  · have hstate := P.access_prefetch p (rfl : (pfReq req prefetchPos).flags.prefetch = true)
    have hsent := sent_moved P (P.access p (pfReq req prefetchPos)).parent req hlow hhigh hfirst.1
      hsecond.2.2.1 hstate hsecond.2.2.2
    exact .inr (.inr ⟨_, _, _, sent_pfReq hfirst.1 hfirst.2, hsent.2, hsent.1, rfl, Function.update_self .., rfl⟩)
  · exact .inr (.inl ⟨_, sent_pfReq hfirst.1 hfirst.2, rfl, Function.update_self .., rfl⟩)
  · exact .inl ⟨hfirst, rfl, rfl⟩

end Issues

/-- What is asked of the prefetches of a demand that finds the entry. -/
structure Ahead (e : Entry) (lineAddr : UInt64) (issued : List Prefetch) : Prop where
  /-- They are for the stride of the last two accesses. -/
  confirmed : issued ≠ [] → (posOf lineAddr : ℤ) = e.lastPos + e.stride
  page : ∀ pf ∈ issued, pageOf pf.req.lineAddr = pageOf lineAddr
  clear : ∀ pf ∈ issued, e.valid (posOf pf.req.lineAddr) = false
  ahead : ∀ pf ∈ issued, ∃ k : ℕ, 1 ≤ k ∧ (posOf pf.req.lineAddr : ℤ) = posOf lineAddr + k * e.stride
  /-- Prefetches that are ahead already go on where they are. -/
  first : ∀ j : ℕ, 1 ≤ j → (e.lastPrefetchPos : ℤ) = e.lastPos + j * e.stride →
    ∀ pf ∈ issued.head?, (posOf pf.req.lineAddr : ℤ) = e.lastPrefetchPos + e.stride
  quiet : ∀ pf ∈ issued, pf.state = pf.req.state

theorem Ahead.nil (e : Entry) (lineAddr : UInt64) : Ahead e lineAddr [] where
  confirmed h := absurd rfl h
  page _ h := absurd h List.not_mem_nil
  clear _ h := absurd h List.not_mem_nil
  ahead _ h := absurd h List.not_mem_nil
  first _ _ _ _ h := nomatch h
  quiet _ h := absurd h List.not_mem_nil

/-- A confirmed stride is not zero, and larger strides upwards have not left the prefetches behind, unless the line
that would be fetched is waiting. -/
def Entry.Guarded (e : Entry) (pos : ℕ) : Prop :=
  (pos : ℤ) = e.lastPos + e.stride → 1 ≤ e.conf.count → e.stride ≠ 0 ∧
    (2 ≤ e.stride → e.lastPos ≤ e.lastPrefetchPos ∨ e.valid (e.lastPrefetchPos + e.stride).toNat = true)

section Follow

variable {P : ParentCache σ} {p : σ} {e : Entry} {req : MemReq} {shortPrefetch : Bool} {r : Issue σ} {pos : ℕ}

theorem Sent.nextPos_eq {lineAddr : UInt64} {pf : Prefetch} (hs : Sent e lineAddr (u32 (e.nextPos pos)) pf)
    (h : e.Aligned) (hlt : pos < 64) : (u32 (e.nextPos pos) : ℤ) = e.nextPos pos := by
  have hf := h.lastPrefetchPos
  have hlow := h.low
  have hhigh := h.high
  have hbound : -256 < e.nextPos pos ∧ e.nextPos pos < 256 := by
    unfold Entry.nextPos
    split <;> omega
  exact u32_of_lt (by omega) (by omega) hs.inPage

/-- Where the next prefetch goes, it is ahead of the demand and goes on from the last one. -/
theorem Sent.ahead {lineAddr : UInt64} {pf : Prefetch} (hs : Sent e lineAddr (u32 (e.nextPos pos)) pf)
    (h : e.Aligned) (hlt : pos < 64) (hne : e.stride ≠ 0) (hpos : (pos : ℤ) = e.lastPos + e.stride)
    (hg : e.stride < 2 ∨ e.lastPos ≤ e.lastPrefetchPos ∨ e.valid (e.lastPrefetchPos + e.stride).toNat = true) :
    (u32 (e.nextPos pos) : ℤ) = e.nextPos pos ∧
    (∃ k : ℕ, 1 ≤ k ∧ e.nextPos pos = pos + k * e.stride ∧ (e.stride < 0 → k = 1)) ∧
    ∀ j : ℕ, 1 ≤ j → (e.lastPrefetchPos : ℤ) = e.lastPos + j * e.stride →
      e.nextPos pos = e.lastPrefetchPos + e.stride := by
  have hnext := hs.nextPos_eq h hlt
  refine ⟨hnext, ?_, ?_⟩
  · obtain ⟨k, hk, hdown, hone | ⟨htwo, hbehind⟩⟩ := h.nextPos_strides hne hpos
    · exact ⟨k.toNat, by omega, by rw [hk, Int.toNat_of_nonneg (by omega)], fun hneg => by rw [hdown hneg]; rfl⟩
    · have hclear := hs.clear
      have hwaits := (hg.resolve_left (by omega)).resolve_left (by omega)
      have hat : (e.lastPrefetchPos + e.stride).toNat = u32 (e.nextPos pos) := by
        have hn := (h.nextPos_behind pos htwo hbehind).1
        omega
      rw [hat, hclear] at hwaits
      exact absurd hwaits (by decide)
  · intro j hj hfj
    rcases h.nextPos_follows hpos hj hfj with hn | ⟨hn, hwaits⟩
    · exact hn
    · have hclear := hs.clear
      have hat : u32 (e.nextPos pos) = e.lastPrefetchPos := by omega
      rw [hat, hwaits] at hclear
      exact absurd hclear (by decide)

/-- The entry with its confidence counted up. -/
abbrev Entry.surer (e : Entry) : Entry := { e with conf := e.conf.inc }

theorem Sent.of_surer {lineAddr : UInt64} {n : ℕ} {pf : Prefetch} (hs : Sent e.surer lineAddr n pf) :
    Sent e lineAddr n pf :=
  ⟨hs.inPage, hs.clear, hs.page, hs.pos, hs.before, hs.after⟩

theorem nextPos_surer : e.surer.nextPos pos = e.nextPos pos := by
  unfold Entry.nextPos Entry.fetchDepth
  rfl

theorem pred_inc (c : SatCounter) : c.inc.pred = true ↔ 1 ≤ c.count := by
  unfold SatCounter.inc SatCounter.pred
  rw [decide_eq_true_iff]
  dsimp only
  omega

/-- The entry's stride again: nothing is issued without confidence, and the next prefetches with it. -/
theorem follow_cases (hr : follow P p e req e.stride shortPrefetch = some r) :
    (e.conf.count = 0 ∧ r = ⟨e.surer, [], p⟩) ∨ (1 ≤ e.conf.count ∧ e.stride ≠ 0 ∧
      ∃ d, issue P p e.surer req e.stride shortPrefetch d (u32 (e.nextPos (posOf req.lineAddr))) = r) := by
  unfold follow at hr
  dsimp only at hr
  by_cases hpred : e.conf.inc.pred = true
  · rw [if_pos hpred] at hr
    obtain ⟨next, hnext, hlast⟩ := Option.bind_eq_some_iff.mp hr
    have hne : e.stride ≠ 0 := by
      intro hzero
      rw [Entry.next, if_pos hzero] at hnext
      exact nomatch hnext
    obtain ⟨d, hd⟩ := e.surer.next_eq (posOf req.lineAddr) hne
    rw [nextPos_surer] at hd
    have hat := Option.some.inj (hnext.symm.trans hd)
    rw [hat] at hlast
    rw [Option.ite_none_right_eq_some] at hlast
    dsimp only at hlast
    exact .inr ⟨(pred_inc _).mp hpred, hne, d, Option.some.inj hlast.2⟩
  · rw [if_neg hpred] at hr
    have hcount := mt (pred_inc _).mpr hpred
    exact .inl ⟨by omega, (Option.some.inj hr).symm⟩

variable (P p req shortPrefetch) in
/-- A confirmed stride that is not zero does not trap, and the assertion holds. -/
theorem follow_isSome (h : e.Aligned) (hne : e.stride ≠ 0) :
    ∃ r, follow P p e req e.stride shortPrefetch = some r := by
  unfold follow
  dsimp only
  split_ifs
  · obtain ⟨d, hd⟩ := e.surer.next_eq (posOf req.lineAddr) hne
    rw [hd, Option.bind_some]
    refine ⟨_, if_pos fun pf hpf => ?_⟩
    rcases issue_cases h.low h.high rfl with ⟨-, hnil, -⟩ | ⟨pf₁, h₁, hone, -⟩ | ⟨pf₁, pf₂, n, -, h₂, -, htwo, -⟩
    · rw [hnil] at hpf
      exact nomatch hpf
    · rw [hone] at hpf
      exact Option.some.inj hpf ▸ h₁.after
    · rw [htwo] at hpf
      exact Option.some.inj hpf ▸ h₂.after
  · exact ⟨_, rfl⟩

/-- Upwards, what runs ahead is past the line of the demand. -/
theorem Ahead.pos_lt {lineAddr : UInt64} {issued : List Prefetch} {pf : Prefetch}
    (ha : Ahead e lineAddr issued) (hmem : pf ∈ issued) (hs : 0 < e.stride) :
    posOf lineAddr < posOf pf.req.lineAddr := by
  obtain ⟨k, hk, hat⟩ := ha.ahead pf hmem
  have hup : 0 < k * e.stride := mul_pos (by omega) hs
  omega

theorem Sent.ahead_singleton {pf : Prefetch}
    (hs : Sent e req.lineAddr (u32 (e.nextPos (posOf req.lineAddr))) pf) (h : e.Aligned) (hne : e.stride ≠ 0)
    (hpos : (posOf req.lineAddr : ℤ) = e.lastPos + e.stride)
    (hg : e.stride < 2 ∨ e.lastPos ≤ e.lastPrefetchPos ∨ e.valid (e.lastPrefetchPos + e.stride).toNat = true) :
    Ahead e req.lineAddr [pf] := by
  obtain ⟨hnext, ⟨k, hk, hat, -⟩, hfirst⟩ := hs.ahead h (posOf_lt _) hne hpos hg
  constructor
  · exact fun _ => hpos
  · exact List.forall_mem_singleton.mpr hs.page
  · exact List.forall_mem_singleton.mpr (hs.pos ▸ hs.clear)
  · exact List.forall_mem_singleton.mpr ⟨k, hk, by rw [hs.pos, hnext, hat]⟩
  · intro j hj hf pf' hmem
    rw [← Option.some.inj hmem, hs.pos, hnext, hfirst j hj hf]
  · exact List.forall_mem_singleton.mpr (hs.after.trans hs.before.symm)

/-- A second prefetch runs ahead with the first. -/
theorem Ahead.cons {pf pf' : Prefetch} {n : ℕ} (ha : Ahead e req.lineAddr [pf]) (hs : Sent e req.lineAddr n pf')
    (hn : (n : ℤ) = posOf pf.req.lineAddr + e.stride) : Ahead e req.lineAddr [pf, pf'] := by
  obtain ⟨k, hk, hat⟩ := ha.ahead pf (List.mem_singleton_self pf)
  constructor
  · exact fun _ => ha.confirmed (List.cons_ne_nil _ _)
  · exact List.forall_mem_cons.mpr ⟨ha.page pf (List.mem_singleton_self pf), List.forall_mem_singleton.mpr hs.page⟩
  · exact List.forall_mem_cons.mpr
      ⟨ha.clear pf (List.mem_singleton_self pf), List.forall_mem_singleton.mpr (hs.pos ▸ hs.clear)⟩
  · refine List.forall_mem_cons.mpr ⟨⟨k, hk, hat⟩, List.forall_mem_singleton.mpr ⟨k + 1, by omega, ?_⟩⟩
    rw [hs.pos, hn, hat]
    push_cast
    ring
  · exact ha.first
  · exact List.forall_mem_cons.mpr
      ⟨ha.quiet pf (List.mem_singleton_self pf), List.forall_mem_singleton.mpr (hs.after.trans hs.before.symm)⟩

/-- The prefetches of a demand are ahead of it just when the stride is not zero and has not left the prefetches
behind. -/
theorem follow_ahead_iff (h : e.Aligned) (hpos : (posOf req.lineAddr : ℤ) = e.lastPos + e.stride) :
    (∃ r, follow P p e req e.stride shortPrefetch = some r ∧ Ahead e req.lineAddr r.issued) ↔
      e.Guarded (posOf req.lineAddr) := by
  have hl := h.lastPos
  constructor
  · intro ⟨r, hr, ha⟩ _ hconf
    rcases follow_cases hr with ⟨hzero, -⟩ | ⟨-, hne, d, hd⟩
    · omega
    · refine ⟨hne, fun htwo => ?_⟩
      by_contra hbad
      rw [not_or, not_le, Bool.not_eq_true] at hbad
      obtain ⟨hn, hle⟩ := h.nextPos_behind (posOf req.lineAddr) htwo hbad.1
      have hat : u32 (e.nextPos (posOf req.lineAddr)) = (e.lastPrefetchPos + e.stride).toNat := by
        unfold u32
        omega
      rcases issue_cases h.low h.high hd with ⟨hfull, -⟩ | ⟨pf, hs, hone, -⟩ | ⟨pf, pf', n, hs, -, -, hboth, -⟩
      · exact hfull ⟨by omega, hat ▸ hbad.2⟩
      · have hlt := ha.pos_lt (hone ▸ List.mem_cons_self) (by omega)
        rw [hs.pos] at hlt
        omega
      · have hlt := ha.pos_lt (hboth ▸ List.mem_cons_self) (by omega)
        rw [hs.pos] at hlt
        omega
  · intro hg
    by_cases hconf : 1 ≤ e.conf.count
    · obtain ⟨hne, hbehind⟩ := hg hpos hconf
      obtain ⟨r, hr⟩ := follow_isSome P p req shortPrefetch h hne
      have hg' := (lt_or_ge e.stride 2).imp_right hbehind
      refine ⟨r, hr, ?_⟩
      rcases follow_cases hr with ⟨hzero, -⟩ | ⟨-, -, d, hd⟩
      · omega
      · rcases issue_cases h.low h.high hd with ⟨-, hnil, -⟩ | ⟨pf, hs, hone, -⟩ | ⟨pf, pf', n, hs, hs', hn, hboth, -⟩
        · exact hnil ▸ Ahead.nil e _
        · exact hone ▸ hs.of_surer.ahead_singleton h hne hpos hg'
        · exact hboth ▸ (hs.of_surer.ahead_singleton h hne hpos hg').cons hs'.of_surer (by rw [hs.pos, hn])
    · refine ⟨⟨e.surer, [], p⟩, ?_, Ahead.nil e _⟩
      exact if_neg (mt (pred_inc _).mp hconf)

/-- The demand comes a stride closer to the prefetches. -/
theorem Entry.Aligned.advance (h : e.Aligned) (hlt : pos < 64) (hpos : (pos : ℤ) = e.lastPos + e.stride) :
    (e.advance pos).Aligned := by
  obtain ⟨j, hj, hdown⟩ := h.strides
  refine ⟨hlt, h.lastPrefetchPos, h.low, h.high, j - 1, ?_, fun hneg => ?_⟩
  · rw [Entry.advance, hj, hpos]
    ring
  · have htwo := (hdown hneg).1
    exact ⟨by omega, fun hthree => by omega⟩

/-- The demand follows the stride, and prefetches are at most two strides ahead of it. -/
theorem Reached.advance {e' : Entry} {n : ℕ} {k : ℤ} (hr : Reached e e' n) (h : e.Aligned) (hlt : pos < 64)
    (hn : n < 64) (hat : (n : ℤ) = pos + k * e.stride) (hk : e.stride < 0 → k ≤ 2) : (e'.advance pos).Aligned := by
  have hvalid := hr.valid
  rw [hr.entry]
  exact ⟨hlt, hn, h.low, h.high, k, hat, fun hneg => ⟨hk hneg, fun _ => hvalid⟩⟩

/-- The entry after a demand that follows the stride. -/
theorem follow_aligned (h : e.Aligned) (hpos : (posOf req.lineAddr : ℤ) = e.lastPos + e.stride)
    (hr : follow P p e req e.stride shortPrefetch = some r) : (r.entry.advance (posOf req.lineAddr)).Aligned := by
  have hs : e.surer.Aligned := ⟨h.lastPos, h.lastPrefetchPos, h.low, h.high, h.strides⟩
  have hlt := posOf_lt req.lineAddr
  rcases follow_cases hr with ⟨-, rfl⟩ | ⟨-, hne, d, hd⟩
  · exact hs.advance hlt hpos
  · obtain ⟨k, hk, hdown, -⟩ := h.nextPos_strides hne hpos
    rcases issue_cases h.low h.high hd with
      ⟨-, -, he⟩ | ⟨pf, hpf, -, hreached⟩ | ⟨pf, pf', n, hpf, hpf', hn, -, hreached⟩
    · exact he ▸ hs.advance hlt hpos
    · have hnext := hpf.of_surer.nextPos_eq h hlt
      exact hreached.advance hs hlt hpf.inPage (hnext.trans hk) fun hneg => by rw [hdown hneg]; decide
    · have hnext := hpf.of_surer.nextPos_eq h hlt
      refine hreached.advance (k := k + 1) hs hlt hpf'.inPage ?_ fun hneg => by rw [hdown hneg]; decide
      rw [hn, hnext, hk]
      ring

end Follow

section Demand

variable {P : ParentCache σ} {s : StreamPrefetcher σ} {e e' : Entry} {req : MemReq} {pos idx : ℕ} {respCycle : UInt64}

/-- The demand for the position only takes a prefetch of it out of those that wait. -/
structure Demanded (e e' : Entry) (pos : ℕ) : Prop where
  valid : ∀ n, e'.valid n = (e.valid n && decide (n ≠ pos))
  entry : e' = { e with valid := e'.valid, lastCycle := e'.lastCycle, ts := e'.ts }

theorem Demanded.valid_of_ne {n : ℕ} (hd : Demanded e e' pos) (hn : n ≠ pos) : e'.valid n = e.valid n := by
  rw [hd.valid, decide_eq_true hn, Bool.and_true]

theorem Demanded.valid_of_clear {n : ℕ} (hd : Demanded e e' pos) (hn : e.valid n = false) : e'.valid n = false := by
  rw [hd.valid, hn, Bool.false_and]

theorem demanded_demand (e : Entry) (ts : UInt64) (pos : ℕ) (respCycle : UInt64) :
    Demanded e ({ e with ts := ts }.demand pos respCycle).1 pos := by
  unfold Entry.demand
  dsimp only
  split_ifs with hv
  · refine ⟨fun n => ?_, rfl⟩
    by_cases hn : n = pos
    · rw [hn, decide_eq_false (not_not.mpr rfl), Bool.and_false]
      exact Function.update_self ..
    · rw [decide_eq_true hn, Bool.and_true]
      exact Function.update_of_ne hn ..
  · refine ⟨fun n => ?_, rfl⟩
    by_cases hn : n = pos
    · rw [hn, Bool.eq_false_of_not_eq_true hv, Bool.false_and]
    · rw [decide_eq_true hn, Bool.and_true]

/-- A demand that follows the stride leaves its entry aligned: what waits two strides ahead is not its line. -/
theorem Demanded.aligned (hd : Demanded e e' pos) (h : e.Aligned) (hpos : (pos : ℤ) = e.lastPos + e.stride) :
    e'.Aligned := by
  obtain ⟨j, hj, hdown⟩ := h.strides
  rw [hd.entry]
  refine ⟨h.lastPos, h.lastPrefetchPos, h.low, h.high, j, hj, fun hneg => ⟨(hdown hneg).1, fun htwo => ?_⟩⟩
  have hneg' : e.stride < 0 := hneg
  have hf : e.lastPrefetchPos ≠ pos := by
    rw [htwo] at hj
    omega
  exact (hd.valid_of_ne hf).trans ((hdown hneg).2 htwo)

/-- Behind the demand, and ahead of it, the same prefetches wait as before. -/
theorem Demanded.guarded_iff (hd : Demanded e e' pos) (h : e.Aligned) : e'.Guarded pos ↔ e.Guarded pos := by
  unfold Entry.Guarded
  rw [hd.entry]
  dsimp only
  refine forall_congr' fun hpos => forall_congr' fun _ => and_congr_right fun _ => forall_congr' fun htwo => ?_
  by_cases hle : e.lastPos ≤ e.lastPrefetchPos
  · exact iff_of_true (.inl hle) (.inl hle)
  · have hbehind := (h.nextPos_behind pos htwo (not_le.mp hle)).2
    rw [hd.valid_of_ne (by omega)]

/-- What is asked of the prefetches is the same before and after the demand meets one. -/
theorem Demanded.ahead_iff (hd : Demanded e e' pos) {issued : List Prefetch} (hpos : posOf req.lineAddr = pos)
    (hne : e.stride ≠ 0 ∨ issued = []) : Ahead e' req.lineAddr issued ↔ Ahead e req.lineAddr issued := by
  constructor
  · intro ha
    rw [hd.entry] at ha
    refine ⟨ha.confirmed, ha.page, fun pf hpf => ?_, ha.ahead, ha.first, ha.quiet⟩
    obtain ⟨k, hk, hat⟩ := ha.ahead pf hpf
    have hne' : e.stride ≠ 0 := hne.resolve_right (List.ne_nil_of_mem hpf)
    have hoff : k * e.stride ≠ 0 := mul_ne_zero (by omega) hne'
    have hn : posOf pf.req.lineAddr ≠ pos := by
      dsimp only at hat
      omega
    exact (hd.valid_of_ne hn).symm.trans (ha.clear pf hpf)
  · intro ha
    rw [hd.entry]
    exact ⟨ha.confirmed, ha.page, fun pf hpf => hd.valid_of_clear (ha.clear pf hpf), ha.ahead, ha.first, ha.quiet⟩

/-- A demand off the stride starts again from its own position. -/
theorem mismatch_aligned (hlast : e.lastPos < 64) (hlow : -64 < e.stride) (hhigh : e.stride < 64) (hlt : pos < 64) :
    ((e.mismatch pos (i32 ((pos : ℤ) - e.lastPos))).advance pos).Aligned := by
  rw [i32_of_small (by omega) (by omega)]
  unfold Entry.mismatch Entry.advance
  dsimp only
  split_ifs
  · have hfar : -64 < (pos : ℤ) - e.lastPos ∧ (pos : ℤ) - e.lastPos < 64 := by omega
    exact ⟨hlt, hlt, hfar.1, hfar.2, 0, by rw [zero_mul, add_zero], fun _ => ⟨by omega, by omega⟩⟩
  · exact ⟨hlt, hlt, hlow, hhigh, 0, by rw [zero_mul, add_zero], fun _ => ⟨by omega, by omega⟩⟩

namespace StreamPrefetcher

/-- The entry of a hit as its demand finds it, and what the demand meets. -/
abbrev demanded (s : StreamPrefetcher σ) (idx : ℕ) (req : MemReq) (respCycle : UInt64) : Entry × UInt64 × Bool :=
  { s.array idx with ts := s.timestamp }.demand (posOf req.lineAddr) respCycle

/-- The entry of a hit moves on to the demand. -/
def moved (s : StreamPrefetcher σ) (idx pos : ℕ) (r : Issue σ) : StreamPrefetcher σ :=
  { s with
    timestamp := s.timestamp + 1
    array := Function.update s.array idx (r.entry.advance pos)
    parent := r.parent }

/-- Every entry is aligned. -/
def Aligned (s : StreamPrefetcher σ) : Prop := ∀ i, (s.array i).Aligned

/-- A hit follows the stride or starts again. -/
theorem hit_eq (h : (s.array idx).Aligned) :
    hit P s idx req respCycle =
      (if (posOf req.lineAddr : ℤ) = (s.array idx).lastPos + (s.array idx).stride then
        follow P s.parent (s.demanded idx req respCycle).1 req (s.demanded idx req respCycle).1.stride
          (s.demanded idx req respCycle).2.2
      else some ⟨(s.demanded idx req respCycle).1.mismatch (posOf req.lineAddr)
        (i32 ((posOf req.lineAddr : ℤ) - (s.demanded idx req respCycle).1.lastPos)), [], s.parent⟩).map
        fun r => ((s.demanded idx req respCycle).2.1, r.issued, s.moved idx (posOf req.lineAddr) r) := by
  have hd := demanded_demand (s.array idx) s.timestamp (posOf req.lineAddr) respCycle
  have hstride : (s.demanded idx req respCycle).1.stride = (s.array idx).stride := by rw [hd.entry]
  have hlast : (s.demanded idx req respCycle).1.lastPos = (s.array idx).lastPos := by rw [hd.entry]
  have hpos := posOf_lt req.lineAddr
  have hl := h.lastPos
  unfold hit
  dsimp only
  congr 1
  by_cases hon : (posOf req.lineAddr : ℤ) = (s.array idx).lastPos + (s.array idx).stride
  · have heq : (s.demanded idx req respCycle).1.stride =
        i32 ((posOf req.lineAddr : ℤ) - (s.demanded idx req respCycle).1.lastPos) := by
      rw [hstride, hlast, i32_of_small (by omega) (by omega)]
      omega
    rw [if_pos hon, if_pos heq, ← heq]
  · have hne : (s.demanded idx req respCycle).1.stride ≠
        i32 ((posOf req.lineAddr : ℤ) - (s.demanded idx req respCycle).1.lastPos) := by
      rw [hstride, hlast, i32_of_small (by omega) (by omega)]
      omega
    rw [if_neg hon, if_neg hne]

variable (P s req respCycle) in
/-- The prefetches of a hit are what is asked of them just when the entry is guarded. -/
theorem hit_ahead_iff (h : (s.array idx).Aligned) :
    (∃ o, hit P s idx req respCycle = some o ∧ Ahead (s.array idx) req.lineAddr o.2.1) ↔
      (s.array idx).Guarded (posOf req.lineAddr) := by
  have hd := demanded_demand (s.array idx) s.timestamp (posOf req.lineAddr) respCycle
  rw [hit_eq h]
  split_ifs with hon
  · have hdemand := hd.aligned h hon
    have hstride : (s.demanded idx req respCycle).1.stride = (s.array idx).stride := by rw [hd.entry]
    have hpos : (posOf req.lineAddr : ℤ) =
        (s.demanded idx req respCycle).1.lastPos + (s.demanded idx req respCycle).1.stride := by
      rw [hd.entry]
      exact hon
    rw [← hd.guarded_iff h, ← follow_ahead_iff (P := P) (p := s.parent) hdemand hpos]
    have hahead {r : Issue σ} (hr : follow P s.parent (s.demanded idx req respCycle).1 req
        (s.demanded idx req respCycle).1.stride (s.demanded idx req respCycle).2.2 = some r) :
        Ahead (s.demanded idx req respCycle).1 req.lineAddr r.issued ↔ Ahead (s.array idx) req.lineAddr r.issued := by
      apply hd.ahead_iff rfl
      rcases follow_cases hr with ⟨-, rfl⟩ | ⟨-, hne, -⟩
      · exact .inr rfl
      · exact .inl (hstride ▸ hne)
    constructor
    · intro ⟨o, ho, ha⟩
      obtain ⟨r, hr, rfl⟩ := Option.map_eq_some_iff.mp ho
      exact ⟨r, hr, (hahead hr).mpr ha⟩
    · intro ⟨r, hr, ha⟩
      exact ⟨_, Option.map_eq_some_iff.mpr ⟨r, hr, rfl⟩, (hahead hr).mp ha⟩
  · exact iff_of_true ⟨_, rfl, Ahead.nil _ _⟩ fun hpos => absurd hpos hon

/-- A hit keeps the entries aligned. -/
theorem hit_aligned (h : s.Aligned) {o : UInt64 × List Prefetch × StreamPrefetcher σ}
    (ho : hit P s idx req respCycle = some o) : o.2.2.Aligned := by
  intro i
  have hd := demanded_demand (s.array idx) s.timestamp (posOf req.lineAddr) respCycle
  rw [hit_eq (h idx)] at ho
  obtain ⟨r, hr, rfl⟩ := Option.map_eq_some_iff.mp ho
  by_cases hi : i = idx
  · rw [hi]
    have hentry : ((s.moved idx (posOf req.lineAddr) r).array idx) = r.entry.advance (posOf req.lineAddr) :=
      Function.update_self ..
    dsimp only
    rw [hentry]
    split_ifs at hr with hon
    · have hpos : (posOf req.lineAddr : ℤ) =
          (s.demanded idx req respCycle).1.lastPos + (s.demanded idx req respCycle).1.stride := by
        rw [hd.entry]
        exact hon
      exact follow_aligned (hd.aligned (h idx) hon) hpos hr
    · rw [← Option.some.inj hr]
      exact mismatch_aligned (by rw [hd.entry]; exact (h idx).lastPos) (by rw [hd.entry]; exact (h idx).low)
        (by rw [hd.entry]; exact (h idx).high) (posOf_lt _)
  · exact (congrArg Entry.Aligned (Function.update_of_ne hi ..)).mpr (h i)

/-- An entry that does not go down is aligned when its prefetches are a number of strides away. -/
theorem aligned_of_nonneg {j : ℤ} (hlast : e.lastPos < 64) (hpref : e.lastPrefetchPos < 64) (hlow : 0 ≤ e.stride)
    (hhigh : e.stride < 64) (hj : (e.lastPrefetchPos : ℤ) = e.lastPos + j * e.stride) : e.Aligned :=
  ⟨hlast, hpref, by omega, hhigh, j, hj, fun h => absurd h hlow.not_gt⟩

/-- Entries in memory that is zero are aligned. -/
theorem new_aligned (childId : ℕ) (parent : σ) : (new childId parent).Aligned := fun _ =>
  aligned_of_nonneg (Nat.zero_lt_succ 63) (Nat.zero_lt_succ 63) le_rfl (by decide : (0 : ℤ) < 64) (j := 0) rfl

theorem allocate_aligned (h : s.Aligned) (pageAddr : UInt64) (hpos : pos < 64) (reqCycle : UInt64) :
    (s.allocate pageAddr pos reqCycle).Aligned := by
  intro i
  unfold allocate
  split
  · exact h i
  · rename_i idx _
    by_cases hi : i = idx
    · rw [hi]
      dsimp only
      rw [Function.update_self]
      exact aligned_of_nonneg hpos (Nat.zero_lt_succ 63) zero_le_one (by decide : (1 : ℤ) < 64) (j := -pos)
        (by simp [Entry.alloc])
    · dsimp only
      rw [Function.update_of_ne hi]
      exact h i

/-- What is asked of an access: it succeeds, and what it issues runs ahead of the stream. -/
def RunsAhead (P : ParentCache σ) (s : StreamPrefetcher σ) (req : MemReq) : Prop :=
  ∃ o, access P s req = some o ∧
    (o.issued = [] ∨ ∃ idx ∈ s.lookup (pageOf req.lineAddr), Ahead (s.array idx) req.lineAddr o.issued)

/-- A load that finds an entry finds one that is guarded. -/
def Guarded (s : StreamPrefetcher σ) (req : MemReq) : Prop :=
  req.type = .GETS → ∀ idx ∈ s.lookup (pageOf req.lineAddr), (s.array idx).Guarded (posOf req.lineAddr)

variable (P s req) in
/-- The answer of the parent to a demand. -/
abbrev answer : Response σ := P.access s.parent { req with childId := s.childId }

variable (P s req) in
/-- The prefetcher once the parent has answered the demand. -/
abbrev answered : StreamPrefetcher σ := { s with parent := (answer P s req).parent }

variable (P s req) in
/-- The request as the parent leaves it. -/
abbrev forwarded : MemReq := { req with childId := s.childId, state := (answer P s req).state }

theorem access_of_ne_gets (htype : req.type ≠ .GETS) :
    access P s req = some ⟨(answer P s req).respCycle, forwarded P s req, [], answered P s req⟩ := if_pos htype

theorem access_miss (htype : req.type = .GETS) (hidx : s.lookup (pageOf req.lineAddr) = none) :
    access P s req = some ⟨(answer P s req).respCycle, { req with state := (answer P s req).state }, [],
      (answered P s req).allocate (pageOf req.lineAddr) (posOf req.lineAddr) req.cycle⟩ := by
  have hmiss : (answered P s req).lookup (pageOf req.lineAddr) = none := hidx
  unfold access
  dsimp only
  rw [if_neg (not_not.mpr htype), hmiss]

theorem access_hit {idx : ℕ} (htype : req.type = .GETS) (hidx : s.lookup (pageOf req.lineAddr) = some idx) :
    access P s req = (hit P (answered P s req) idx (forwarded P s req) (answer P s req).respCycle).map
      fun h => ⟨h.1, { req with state := (answer P s req).state }, h.2.1, h.2.2⟩ := by
  have hhit : (answered P s req).lookup (pageOf req.lineAddr) = some idx := hidx
  unfold access
  dsimp only
  rw [if_neg (not_not.mpr htype), hhit]

/-- An access runs ahead of the stream just when the entry that it finds is guarded. -/
theorem runsAhead_iff_guarded (h : s.Aligned) : RunsAhead P s req ↔ Guarded s req := by
  unfold RunsAhead Guarded
  by_cases htype : req.type = .GETS
  · cases hidx : s.lookup (pageOf req.lineAddr) with
    | none =>
      rw [access_miss htype hidx]
      exact iff_of_true ⟨_, rfl, .inl rfl⟩ fun _ idx hmem => nomatch hmem
    | some idx =>
      have hiff := hit_ahead_iff P (answered P s req) (forwarded P s req) (answer P s req).respCycle (h idx)
      rw [access_hit htype hidx]
      constructor
      · intro ⟨o, ho, hahead⟩ _ idx' hmem
        obtain ⟨o', ho', rfl⟩ := Option.map_eq_some_iff.mp ho
        cases hmem
        refine hiff.mp ⟨o', ho', ?_⟩
        rcases hahead with hnil | ⟨idx', hmem, hahead⟩
        · have hnil' : o'.2.1 = [] := hnil
          exact hnil' ▸ Ahead.nil _ _
        · cases hmem
          exact hahead
      · intro hg
        obtain ⟨o', ho', hahead⟩ := hiff.mpr (hg htype idx rfl)
        exact ⟨_, Option.map_eq_some_iff.mpr ⟨o', ho', rfl⟩, .inr ⟨idx, rfl, hahead⟩⟩
  · rw [access_of_ne_gets htype]
    exact iff_of_true ⟨_, rfl, .inl rfl⟩ fun hgets => absurd hgets htype

/-- An access keeps the entries aligned. -/
theorem access_aligned (h : s.Aligned) {o : Outcome σ} (ho : access P s req = some o) : o.next.Aligned := by
  by_cases htype : req.type = .GETS
  · cases hidx : s.lookup (pageOf req.lineAddr) with
    | none =>
      rw [access_miss htype hidx] at ho
      cases ho
      exact allocate_aligned (s := answered P s req) h _ (posOf_lt _) _
    | some idx =>
      rw [access_hit htype hidx] at ho
      obtain ⟨o', ho', rfl⟩ := Option.map_eq_some_iff.mp ho
      exact hit_aligned (s := answered P s req) h ho'
  · rw [access_of_ne_gets htype] at ho
    cases ho
    exact h

/-- In every sequence of accesses the prefetches run ahead of the stream just when no load finds an entry whose
confirmed stride is zero or has left the prefetches behind. -/
theorem runsAhead_iff (P : ParentCache σ) (childId : ℕ) (parent : σ) (reqs : List MemReq) :
    EveryAttempt (step P) (RunsAhead P) (new childId parent) reqs ↔
      EveryAttempt (step P) Guarded (new childId parent) reqs := by
  apply everyAttempt_iff
  · exact fun s req h => runsAhead_iff_guarded h
  · intro s req s' h hs'
    obtain ⟨o, ho, rfl⟩ := Option.map_eq_some_iff.mp hs'
    exact access_aligned h ho
  · exact new_aligned childId parent

/-- A cache above that grants what is asked for in ten cycles. -/
def hitParent : ParentCache Unit where
  bottom _ req := (req.cycle + 10, ())
  top _ _ respCycle := ⟨respCycle, .E, ()⟩

/-- A load of the line. -/
def load (lineAddr : UInt64) : MemReq := ⟨lineAddr, .GETS, 0, .I, 0, .I, 0, {}⟩

/-- Positions 2, 4, 5, 7 and 9 of a page: the second confirmation of the stride of two prefetches position 7. -/
theorem not_runsAhead_stride_two : ¬EveryAttempt (step hitParent) (RunsAhead hitParent) (new 0 ())
    ([66, 68, 69, 71].map load ++ [load 73]) := by
  intro h
  have hissued : ((run (step hitParent) (new 0 ()) ([66, 68, 69, 71].map load)).bind fun s =>
      (access hitParent s (load 73)).map fun o => o.issued.map fun pf => posOf pf.req.lineAddr) = some [7] := by
    decide +kernel
  have hstride : ((run (step hitParent) (new 0 ()) ([66, 68, 69, 71].map load)).bind fun s =>
      (s.lookup (pageOf 73)).map fun idx => (s.array idx).stride) = some 2 := by
    decide +kernel
  obtain ⟨s, hrun, hs⟩ := Option.bind_eq_some_iff.mp hissued
  obtain ⟨o, ho, hpos⟩ := Option.map_eq_some_iff.mp hs
  rw [hrun, Option.bind_some] at hstride
  obtain ⟨idx, hidx, hat⟩ := Option.map_eq_some_iff.mp hstride
  obtain ⟨pf, hpf, hseven⟩ := List.mem_map.mp (hpos.symm ▸ List.mem_singleton_self 7)
  obtain ⟨o', ho', hahead⟩ := h.at hrun
  cases ho.symm.trans ho'
  rcases hahead with hnil | ⟨idx', hidx', hahead⟩
  · rw [hnil] at hpf
    exact absurd hpf List.not_mem_nil
  · cases hidx.symm.trans hidx'
    have hlt := hahead.pos_lt hpf (by omega)
    rw [hseven] at hlt
    exact absurd hlt (by decide)

end StreamPrefetcher

end Demand

end Zsim.StreamPrefetches
