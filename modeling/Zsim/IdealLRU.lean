import Zsim.WayPart
import Zsim.IntrusiveList
import Zsim.Conformance

/-!
# The ideal LRU array

A hash table finds the line of an address and an intrusive list orders the
lines by their last use. Empty lines hold the address 0, which the table does
not map. The array is compared with a fully associative cache that keeps its
addresses in the order of their last use.
-/

namespace Zsim.IdealLRU

open WeakestPre MemoryHierarchy CheckedTables PartPolicy WayPart IntrusiveList Conformance

/-- `IdealLRUArray`; the line id of an entry is its index. -/
structure IdealLRUArray where
  numLines : ℕ
  /-- The `lineAddr` of each entry. -/
  lineAddrs : Table Address
  nodes : Heap
  lruList : InList
  lineMap : Address → Option LineId

abbrev Act (α : Type) := Prog IdealLRUArray PartFailure α

abbrev lineAddrs : TableRef IdealLRUArray Address :=
  ⟨fun s => s.lineAddrs, fun s t => { s with lineAddrs := t }⟩

/-- A method of `lruList`. -/
def listMethod (f : Heap → InList → Option (Heap × InList)) : Act Unit := do
  let s ← observe fun s => s
  match f s.nodes s.lruList with
  | none => abort .listNode
  | some (h, L) => change fun s => { s with nodes := h, lruList := L }

/-- `lruList.push_front`. -/
def listPushFront (id : LineId) : Act Unit := listMethod fun h L => pushFront h 0 L id

/-- `lruList.remove`. -/
def listRemove (id : LineId) : Act Unit := listMethod fun h L => remove h 0 L id

/-- `remove` and then `push_front`. -/
def moveToFront (id : LineId) : Act Unit := do
  listRemove id
  listPushFront id

/-- The array before its entries are constructed. -/
def allocated (numLines : ℕ) : IdealLRUArray where
  numLines := numLines
  lineAddrs := ⟨numLines, fun _ => 0⟩
  nodes := fun _ => Node.free
  lruList := InList.empty
  lineMap := fun _ => none

/-- The constructor. -/
def construct : Act Unit := do
  let s ← observe fun s => s
  forUpTo (fun i _ => do
    modifyCell lineAddrs i (fun _ => 0) .outside
    listPushFront i) s.numLines ()

/-- `IdealLRUArray::lookup`; the line id is returned as an `int32_t`. -/
def lookup (lineAddr : Address) (updateReplacement : Bool) : Act ℤ := do
  let s ← observe fun s => s
  match s.lineMap lineAddr with
  | none => pure (-1)
  | some lineId => do
    (if updateReplacement = true then moveToFront lineId else pure ())
    pure (int32 lineId)

/-- `IdealLRUArray::preinsert`: the line id and `*wbLineAddr`. -/
def preinsert : Act (LineId × Address) := do
  let s ← observe fun s => s
  match s.lruList.tail with
  | none => abort .badCandidate
  | some e => do
    let lineAddr ← readCell lineAddrs e .outside
    pure (e, lineAddr)

/-- `IdealLRUArray::postinsert`. -/
def postinsert (lineAddr : Address) (lineId : LineId) : Act Unit := do
  let old ← readCell lineAddrs lineId .outside
  change fun s => { s with lineMap := Function.update s.lineMap old none }
  let s ← observe fun s => s
  ensure (s.lineMap lineAddr = none) .mapped
  modifyCell lineAddrs lineId (fun _ => lineAddr) .outside
  change fun s => { s with lineMap := Function.update s.lineMap lineAddr (some lineId) }
  moveToFront lineId

/-- The calls of a cache. -/
inductive Op where
  | lookup (lineAddr : Address) (updateReplacement : Bool)
  | preinsert (lineAddr : Address)
  | postinsert

/-- What a cache learns from a call. -/
inductive Answer where
  | found (hit : Bool)
  | evicted (wbLineAddr : Address)
  | done
  deriving DecidableEq, Repr

/-- The array, and the address and line of the insertion under way. -/
structure Driven where
  array : IdealLRUArray
  pending : Option (Address × LineId)

/-- One call; a line is found unless `lookup` returns -1. -/
def step (s : Driven) : Op → Except PartFailure (Answer × Driven)
  | .lookup lineAddr updateReplacement =>
    (lookup lineAddr updateReplacement s.array).map fun r =>
      (.found (decide (r.1 ≠ -1)), { s with array := r.2 })
  | .preinsert lineAddr =>
    (preinsert s.array).map fun r => (.evicted r.1.2, ⟨r.2, some (lineAddr, r.1.1)⟩)
  | .postinsert =>
    match s.pending with
    | none => .error .noCandidate
    | some (lineAddr, lineId) =>
      (postinsert lineAddr lineId s.array).map fun r => (.done, ⟨r.2, none⟩)

/-- A fully associative cache: its addresses, the most recently used one first,
and the insertion under way with the address it evicts. -/
structure LRUCache where
  resident : List Address
  pending : Option (Address × Address)

/-- The address an insertion evicts, or zero while there are empty lines. -/
def LRUCache.victim (t : LRUCache) (numLines : ℕ) : Address :=
  if t.resident.length < numLines then 0 else t.resident.getLastD 0

/-- One call of the fully associative cache. -/
def LRUCache.next (numLines : ℕ) (t : LRUCache) : Op → Answer × LRUCache
  | .lookup lineAddr updateReplacement =>
    (.found (decide (lineAddr ∈ t.resident)),
      if updateReplacement = true ∧ lineAddr ∈ t.resident then
        { t with resident := lineAddr :: t.resident.erase lineAddr }
      else t)
  | .preinsert lineAddr =>
    (.evicted (t.victim numLines), { t with pending := some (lineAddr, t.victim numLines) })
  | .postinsert =>
    match t.pending with
    | none => (.done, t)
    | some (lineAddr, wbLineAddr) =>
      (.done, ⟨lineAddr :: t.resident.erase wbLineAddr, none⟩)

/-- Non-zero addresses are inserted after a lookup of them has missed, and the
two halves of an insertion alternate. -/
def LRUCache.Allowed (t : LRUCache) : Op → Prop
  | .lookup _ _ => True
  | .preinsert lineAddr => lineAddr ≠ 0 ∧ lineAddr ∉ t.resident ∧ t.pending = none
  | .postinsert => t.pending ≠ none

/-- The fully associative cache with true LRU replacement, as a specification. -/
def LRUCache.spec (numLines : ℕ) : Spec LRUCache Op Answer where
  allowed := LRUCache.Allowed
  next t op o t' := t.next numLines op = (o, t')

end Zsim.IdealLRU
