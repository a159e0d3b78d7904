import Mathlib.Logic.Basic
import Mathlib.Data.Nat.Notation

/-!
# Requests, states and addresses of the memory hierarchy

The types every cache and memory shares. Line addresses and line ids are
natural numbers; a cache is named by its path, the list of child indices read
from the cache up to the root, so that the parent of `c :: q` is `q`.
-/

namespace Zsim.MemoryHierarchy

/-- Line address; 0 marks an array entry that holds no line. -/
abbrev Address := ℕ

/-- Position of a tag in a cache array. -/
abbrev LineId := ℕ

/-- Path of a cache in its tree: own child index first, root last. -/
abbrev CachePath := List ℕ

/-- Requests from lower to upper levels. -/
inductive AccessType where
  /-- Get the line; exclusive permission is not needed. -/
  | GETS
  /-- Get the line with exclusive permission. -/
  | GETX
  /-- Clean writeback. -/
  | PUTS
  /-- Dirty writeback. -/
  | PUTX
  deriving DecidableEq, Repr

/-- Requests from upper to lower levels. -/
inductive InvType where
  /-- Fully invalidate the line. -/
  | INV
  /-- Take away exclusive permission only. -/
  | INVX
  /-- Send up the data of a line in S. -/
  | FWD
  deriving DecidableEq, Repr

/-- Coherence states of a line. -/
inductive MESIState where
  /-- Invalid. -/
  | I
  /-- Shared and clean. -/
  | S
  /-- Exclusive and clean. -/
  | E
  /-- Exclusive and dirty. -/
  | M
  deriving DecidableEq, Repr

/-- Exclusive permission, the test made by `MESIBottomCC::isExclusive`. -/
def MESIState.exclusive : MESIState → Bool
  | .E | .M => true
  | .I | .S => false

/-- The flag bits of a request that the controllers look at. -/
structure Flags where
  /-- Do not answer a GETS with E. -/
  noexcl : Bool := false
  /-- The writeback comes from a level that need not hold the line. -/
  nonInclWb : Bool := false
  /-- A PUTX that keeps the requester's exclusive permission. -/
  putxKeepExcl : Bool := false
  /-- Prefetch, set only at the level that issues it. -/
  prefetch : Bool := false
  deriving DecidableEq, Repr

/-- `MESIState*` of a request: an entry of a cache's state array, or a
variable of the core, which no controller below the core writes. -/
abbrev StatePtr := Option (CachePath × LineId)

/-- Memory request. -/
structure MemReq where
  lineAddr : Address
  type : AccessType
  /-- Index of the requester among its parent's children. -/
  childId : ℕ
  /-- Where the requester keeps the state of this line. -/
  state : StatePtr
  /-- Cycle at which the request arrives. -/
  cycle : ℕ
  /-- State of the line when the request was built. -/
  initialState : MESIState
  flags : Flags

/-- Invalidation or downgrade; its `writeback` flag is passed beside it. -/
structure InvReq where
  lineAddr : Address
  type : InvType
  cycle : ℕ

/-- The assertions and panics of the controllers, the cache and the memory. -/
inductive Failure where
  /-- `startAccess`: the request type is not one the controller accepts. -/
  | badType
  /-- `CheckForMESIRace`: a PUT found its line in a state other than S or I. -/
  | putRace
  /-- `CheckForMESIRace`: a GETX was not built in S or did not end in I. -/
  | getxRace
  /-- "Invalid true race happened (?)" -/
  | trueRace
  /-- "We lost inclusion on this line!" -/
  | lostInclusion
  /-- "Non-inclusive %s on line 0x%lx, this cache should be inclusive" -/
  | nonInclusive
  /-- A lower level wrote back a line that is not held exclusively. -/
  | writebackNeedsExclusive
  /-- "Wrong final state %s on eviction" -/
  | evictionFinalState
  /-- PUTS on an invalid line. -/
  | putsInvalid
  /-- PUTX on a line without exclusive permission. -/
  | putxNotExclusive
  /-- GETS left the line in neither S nor E. -/
  | getsFinalState
  /-- "Wrong final state on GETX" -/
  | getxFinalState
  /-- A response earlier than its request. -/
  | cycleOrder
  /-- Invalidation of a line in state I. -/
  | invalInvalid
  /-- "Invalid state %s" on INVX. -/
  | invxState
  /-- "Invalid state %s on FWD" -/
  | fwdState
  /-- The invalidations sent differ from `numSharers`. -/
  | sentInvs
  /-- A downgrade of an entry that is not exclusive. -/
  | downgradeNotExclusive
  /-- PUTX at an entry that is not exclusive. -/
  | putxEntry
  /-- A PUT from a child outside the sharer set. -/
  | putNotSharer
  /-- GETS from a child that is already a sharer. -/
  | getsSharer
  /-- "Can't have exclusivity here." -/
  | getsExclusive
  /-- GETX at a cache without exclusive permission. -/
  | getxNotExclusive
  /-- "Spurious GETX" -/
  | spuriousGetx
  /-- More than one sharer after a GETX. -/
  | getxSharers
  /-- "Invalidate on non-existing address" -/
  | invalidateMissing
  /-- The levels of the tree are exhausted. -/
  | depth
  deriving DecidableEq, Repr

end Zsim.MemoryHierarchy
