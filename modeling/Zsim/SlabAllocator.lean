import Mathlib.Algebra.Order.Ring.Int
import Zsim.WeakestPre
import Mathlib.Data.Nat.Notation
import Mathlib.Logic.Function.Basic

/-!
# The slabs of the timing events

Elements are cut off the current slab one after another. A slab without elements is
cleared and may be filled again. Slabs are aligned, so that an element knows its slab,
which counts its elements and tells the allocator when the last of them is freed.
Addresses stand for the pointers, and no address is past the end of memory.
-/

namespace Zsim.SlabAllocator

open WeakestPre

/-- `SLAB_SIZE`. -/
def slabSize : ℕ := 2 ^ 16

/-- The bytes of `allocator`, `liveElems` and `usedBytes`, which stand before `buf`. -/
def headerSize : ℕ := 8 + 4 + 4

/-- `sizeof(buf)`. -/
def bufSize : ℕ := slabSize - 8 - 4 - 4

/-- `((uintptr_t)ptr) & SLAB_MASK`. -/
def slabOf (ptr : ℕ) : ℕ := ptr - ptr % slabSize

/-- What a slab knows of its buffer. -/
structure Slab where
  liveElems : ℕ
  usedBytes : ℕ
  deriving DecidableEq

/-- An allocator with the memory its slabs are in. -/
structure SlabAlloc where
  curSlab : ℕ
  /-- Its back comes first. -/
  freeList : List ℕ
  liveSlabs : ℕ
  slabs : ℕ → Slab
  /-- The slabs the global heap has answered with. -/
  made : List ℕ

/-- The assertions of the allocator, and the panic of the global heap. -/
inductive SlabFailure where
  /-- `sz < SLAB_SIZE` -/
  | oversized
  /-- `ptr` -/
  | noRoom
  /-- `(((uintptr_t)ptr) & SLAB_MASK) == (uintptr_t)curSlab` -/
  | strayElem
  /-- `curSlab` -/
  | nullSlab
  /-- `sizeof(Slab) == SLAB_SIZE` -/
  | badLayout
  /-- `(((uintptr_t)curSlab) & SLAB_MASK) == (uintptr_t)curSlab` -/
  | unaligned
  /-- `liveSlabs` -/
  | noLiveSlabs
  /-- `prevLiveElems && prevLiveElems < usedBytes` -/
  | badLiveElems
  /-- "gm_memalign(): Out of global heap memory, use a larger GM segment" -/
  | outOfMemory
  deriving DecidableEq, Repr

abbrev Act (α : Type) := Prog SlabAlloc SlabFailure α

/-- The sum of two `uint32_t`. -/
def add32 (x y : ℕ) : ℕ := (x + y) % 2 ^ 32

/-- A `uint32_t` less one. -/
def pred32 (x : ℕ) : ℕ := (x + 2 ^ 32 - 1) % 2 ^ 32

def SlabAlloc.setSlab (a : SlabAlloc) (slab : ℕ) (x : Slab) : SlabAlloc :=
  { a with slabs := Function.update a.slabs slab x }

def modifySlab (slab : ℕ) (f : Slab → Slab) : Act Unit :=
  change fun a => a.setSlab slab (f (a.slabs slab))

/-- `Slab::clear`. -/
def clear (slab : ℕ) : Act Unit :=
  modifySlab slab fun _ => { liveElems := 0, usedBytes := 0 }

/-- `Slab::alloc`, with `none` for the null pointer. -/
def Slab.alloc (slab bytes : ℕ) : Act (Option ℕ) := do
  let ptr ← observe fun a => slab + headerSize + (a.slabs slab).usedBytes
  modifySlab slab fun x => { x with usedBytes := add32 x.usedBytes bytes }
  let usedBytes ← observe fun a => (a.slabs slab).usedBytes
  if usedBytes < bufSize then do
    modifySlab slab fun x => { x with liveElems := add32 x.liveElems 1 }
    pure (some ptr)
  else pure none

/-- `gm_memalign<Slab>`; the global heap answers with a block or has run out of memory. -/
def gmMemalign : Option ℕ → Act ℕ
  | none => abort .outOfMemory
  | some slab => do
    change fun a => { a with made := slab :: a.made }
    pure slab

/-- Take the next current slab from the free list, or else from the global heap. -/
def nextSlab (heap : Option ℕ) : List ℕ → Act Unit
  | slab :: freeList => do
    change fun a => { a with curSlab := slab, freeList := freeList }
    ensure (slab ≠ 0) .nullSlab
  | [] => do
    ensure (headerSize + bufSize = slabSize) .badLayout
    let slab ← gmMemalign heap
    change fun a => { a with curSlab := slab }
    ensure (slabOf slab = slab) .unaligned
    -- `init`
    clear slab

/-- `SlabAlloc::allocSlab`. -/
def allocSlab (heap : Option ℕ) : Act Unit := do
  let freeList ← observe SlabAlloc.freeList
  nextSlab heap freeList
  change fun a => { a with liveSlabs := add32 a.liveSlabs 1 }

/-- The second attempt of `alloc`, in a new slab. -/
def retry (sz : ℕ) (heap : Option ℕ) : Option ℕ → Act ℕ
  | some ptr => pure ptr
  | none => do
    allocSlab heap
    let curSlab ← observe SlabAlloc.curSlab
    let ptr ← Slab.alloc curSlab sz
    match ptr with
    | some ptr => pure ptr
    | none => abort .noRoom

/-- `SlabAlloc::alloc`. -/
def alloc (sz : ℕ) (heap : Option ℕ) : Act ℕ := do
  ensure (sz < slabSize) .oversized
  let curSlab ← observe SlabAlloc.curSlab
  let ptr ← Slab.alloc curSlab sz
  let ptr ← retry sz heap ptr
  let curSlab ← observe SlabAlloc.curSlab
  ensure (slabOf ptr = curSlab) .strayElem
  pure ptr

/-- `SlabAlloc::freeSlab`. -/
def freeSlab (slab : ℕ) : Act Unit := do
  clear slab
  let curSlab ← observe SlabAlloc.curSlab
  if slab ≠ curSlab then
    change fun a => { a with freeList := slab :: a.freeList, liveSlabs := pred32 a.liveSlabs }
  else pure ()
  let liveSlabs ← observe SlabAlloc.liveSlabs
  ensure (liveSlabs ≠ 0) .noLiveSlabs

/-- `Slab::freeElem`. -/
def Slab.freeElem (slab : ℕ) : Act Unit := do
  let prevLiveElems ← observe fun a => (a.slabs slab).liveElems
  modifySlab slab fun x => { x with liveElems := pred32 x.liveElems }
  let usedBytes ← observe fun a => (a.slabs slab).usedBytes
  ensure (prevLiveElems ≠ 0 ∧ prevLiveElems < usedBytes) .badLiveElems
  if prevLiveElems = 1 then freeSlab slab else pure ()

/-- `freeElem`. -/
def freeElem (elem : ℕ) : Act Unit := Slab.freeElem (slabOf elem)

/-- The constructor; the memory holds anything. -/
def construct (memory : ℕ → Slab) (heap : Option ℕ) : Except SlabFailure SlabAlloc :=
  (allocSlab heap { curSlab := 0, freeList := [], liveSlabs := 0, slabs := memory, made := [] }).map
    fun r => r.2

/-- What `alloc` has answered, with the size that was asked for. -/
structure Elem where
  ptr : ℕ
  size : ℕ
  deriving DecidableEq

/-- An allocator and the elements that have not been freed. -/
structure Heap where
  alloc : SlabAlloc
  live : List Elem

/-- The calls; `heap` is what the global heap answers if it is asked. -/
inductive Op where
  | alloc (sz : ℕ) (heap : Option ℕ)
  | freeElem (elem : Elem)

/-- A block that `gm_memalign` may answer with: aligned, not null, inside the address space
of a process and none of the blocks in use. -/
structure Answers (made : List ℕ) (slab : ℕ) : Prop where
  ne_zero : slab ≠ 0
  aligned : slab % slabSize = 0
  inside : slab + slabSize ≤ 2 ^ 47
  unused : slab ∉ made

instance (made : List ℕ) (slab : ℕ) : Decidable (Answers made slab) :=
  decidable_of_iff (slab ≠ 0 ∧ slab % slabSize = 0 ∧ slab + slabSize ≤ 2 ^ 47 ∧ slab ∉ made)
    ⟨fun h => ⟨h.1, h.2.1, h.2.2.1, h.2.2.2⟩, fun h => ⟨h.1, h.2, h.3, h.4⟩⟩

/-- One call. Sizes are positive and below that of the buffer, and only live elements are
freed; after a failure there are no calls. -/
def step : Except SlabFailure Heap → Op → Option (Except SlabFailure Heap)
  | .error _, _ => none
  | .ok s, .alloc sz heap =>
    if 0 < sz ∧ sz < bufSize ∧ ∀ slab ∈ heap, Answers s.alloc.made slab then
      some ((alloc sz heap s.alloc).map fun r => ⟨r.2, ⟨r.1, sz⟩ :: s.live⟩)
    else none
  | .ok s, .freeElem elem =>
    if elem ∈ s.live then
      some ((freeElem elem.ptr s.alloc).map fun r => ⟨r.2, s.live.erase elem⟩)
    else none

/-- A new allocator, of which there are no elements. -/
def Heap.start (memory : ℕ → Slab) (heap : Option ℕ) : Except SlabFailure Heap :=
  (construct memory heap).map fun a => ⟨a, []⟩

end Zsim.SlabAllocator
