import Zsim.LinkedStacks
import Zsim.WeakestPre

/-!
# The priority queue of the weave phase

Near events are kept in `B` blocks of 64 cycles, used in rotation, and a bitmap
of each block tells which of its cycles have events. Events of a cycle are
linked through their `next` field. Far events wait in a map that is folded into
the blocks at every half rotation. Cycles are 64-bit.
-/

namespace Zsim.WeaveQueue

open WeakestPre LinkedStacks

variable {α : Type} [DecidableEq α]

/-- `PQBlock`. -/
structure PQBlock (α : Type) where
  array : ℕ → Option α
  /-- Bit `i` is 1 if `array[i]` is populated. -/
  occ : ℕ

/-- `PrioQueue`, and the `next` field of its objects. -/
structure PrioQueue (α : Type) where
  blocks : ℕ → PQBlock α
  /-- Far element map. -/
  feMap : List (ℕ × α)
  curBlock : ℕ
  elems : ℕ
  next : α → Option α

/-- The constructor. -/
def PrioQueue.new : PrioQueue α where
  blocks := fun _ => ⟨fun _ => none, 0⟩
  feMap := []
  curBlock := 0
  elems := 0
  next := fun _ => none

/-- The assertions of the queue. -/
inductive QueueFailure where
  /-- `assert(elems)` -/
  | empty
  /-- `assert(occ)` -/
  | unoccupied
  /-- `assert(res)` -/
  | noObject
  /-- `assert(!obj->next)` -/
  | linked
  /-- `assert(absBlock >= curBlock)` -/
  | past
  /-- `assert(absBlock < curBlock + B)` -/
  | future
  /-- The first far element is read, and there is none. -/
  | noFar
  /-- The search for a populated block passes every cycle there is. -/
  | endless
  deriving DecidableEq, Repr

abbrev Act (α β : Type) := Prog (PrioQueue α) QueueFailure β

/-- Change one block. -/
def PrioQueue.setBlock (q : PrioQueue α) (i : ℕ) (b : PQBlock α) : PrioQueue α :=
  { q with blocks := Function.update q.blocks i b }

/-- `PQBlock::enqueue`. -/
def blockEnqueue (i pos : ℕ) (obj : α) : Act α Unit := do
  let q ← observe fun q => q
  ensure (q.next obj = none) .linked
  let b := q.blocks i
  change fun q => { q.setBlock i ⟨Function.update b.array pos (some obj), b.occ ||| 1 <<< pos⟩ with
    next := Function.update q.next obj (b.array pos) }

/-- `PQBlock::dequeue`: the object and the offset. -/
def blockDequeue (i : ℕ) : Act α (α × ℕ) := do
  let q ← observe fun q => q
  let b := q.blocks i
  match ctz b.occ with
  | none => abort .unoccupied
  | some pos => match b.array pos with
    | none => abort .noObject
    | some res => do
      let occ := if q.next res = none then b.occ ^^^ 1 <<< pos else b.occ
      change fun q => { q.setBlock i ⟨Function.update b.array pos (q.next res), occ⟩ with
        next := Function.update q.next res none }
      pure (res, pos)

/-- `feMap.insert`, behind the elements of the same cycle. -/
def insertFar (cycle : ℕ) (obj : α) : List (ℕ × α) → List (ℕ × α)
  | [] => [(cycle, obj)]
  | e :: l => if e.1 ≤ cycle then e :: insertFar cycle obj l else (cycle, obj) :: e :: l

/-- `PrioQueue::enqueue`. -/
def enqueue (B : ℕ) (obj : α) (cycle : ℕ) : Act α Unit := do
  let q ← observe fun q => q
  let absBlock := cycle / 64
  ensure (q.curBlock ≤ absBlock) .past
  (if absBlock < q.curBlock + B then blockEnqueue (absBlock % B) (cycle % 64) obj
    else change fun q => { q with feMap := insertFar cycle obj q.feMap })
  change fun q => { q with elems := q.elems + 1 }

/-- Move every far element before `topCycle` to the blocks. -/
def foldIn (B topCycle : ℕ) : List (ℕ × α) → Act α Unit
  | [] => change fun q => { q with feMap := [] }
  | (cycle, obj) :: l =>
    if cycle < topCycle then do
      let q ← observe fun q => q
      let absBlock := cycle / 64
      ensure (q.curBlock ≤ absBlock) .past
      ensure (absBlock < q.curBlock + B) .future
      blockEnqueue (absBlock % B) (cycle % 64) obj
      foldIn B topCycle l
    else change fun q => { q with feMap := (cycle, obj) :: l }

/-- One round of the search for a populated block. -/
def nextBlock (B : ℕ) : Act α Unit := do
  change fun q => { q with curBlock := q.curBlock + 1 }
  let q ← observe fun q => q
  if q.curBlock % (B / 2) = 0 ∧ q.feMap ≠ [] then
    foldIn B ((q.curBlock + B) * 64 % 2 ^ 64) q.feMap
  else pure ()

/-- Search for a populated block. -/
def advance (B : ℕ) : ℕ → Act α Unit
  | 0 => abort .endless
  | rounds + 1 => do
    let q ← observe fun q => q
    if (q.blocks (q.curBlock % B)).occ ≠ 0 then pure ()
    else do
      nextBlock B
      advance B rounds

/-- The number of blocks in the 64-bit range of cycles. -/
def maxBlocks : ℕ := 2 ^ 58

/-- `PrioQueue::dequeue`: the object and `deqCycle`. -/
def dequeue (B : ℕ) : Act α (α × ℕ) := do
  let q ← observe fun q => q
  ensure (q.elems ≠ 0) .empty
  advance B maxBlocks
  let q ← observe fun q => q
  let (obj, offset) ← blockDequeue (q.curBlock % B)
  change fun q => { q with elems := q.elems - 1 }
  pure (obj, (q.curBlock * 64 + offset) % 2 ^ 64)

/-- `PrioQueue::size`. -/
def size : Act α ℕ := observe fun q => q.elems

/-- The bitmap `i` blocks after the current one. -/
def PrioQueue.occAt (q : PrioQueue α) (B i : ℕ) : ℕ := (q.blocks ((q.curBlock + i) % B)).occ

/-- The first cycle of a bitmap `i` blocks after the current one. -/
def PrioQueue.cycleAt (q : PrioQueue α) (i pos : ℕ) : ℕ := ((q.curBlock + i) * 64 + pos) % 2 ^ 64

/-- The first populated cycle of `n` blocks, `lo` blocks after the current one. -/
def PrioQueue.firstNear (q : PrioQueue α) (B lo n : ℕ) : Option ℕ :=
  (List.range' lo n).findSome? fun i => (ctz (q.occAt B i)).map (q.cycleAt i)

/-- `PrioQueue::firstCycle`. -/
def firstCycle (B : ℕ) : Act α ℕ := do
  let q ← observe fun q => q
  ensure (q.elems ≠ 0) .empty
  match q.firstNear B 0 (B / 2) with
  | some cycle => pure cycle
  | none =>
    -- beyond B/2 blocks, there may be a far element that comes earlier
    match q.firstNear B (B / 2) (B - B / 2) with
    | some cycle => pure (match q.feMap with
      | [] => cycle
      | e :: _ => min cycle e.1)
    | none => match q.feMap with
      | [] => abort .noFar
      | e :: _ => pure e.1

end Zsim.WeaveQueue
