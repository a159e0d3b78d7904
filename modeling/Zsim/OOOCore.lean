import Zsim.IssueWindow
import Zsim.RetireWidth

/-!
# Basic blocks on the out-of-order core

The core simulates a basic block when the next one starts. Its uops are decoded, issued and
dispatched in order; loads and stores take the addresses that the callbacks have recorded
in the meantime, by position. The fetch of the next block, the counters and the caches are not part
of this.
-/

namespace Zsim.OOOCore

open WeakestPre IssueWindow RetireWidth

abbrev Address := BitVec 64

/-- What a predicated access leaves instead of an address when its predicate is false: `-1L`. -/
def predFalse : Address := BitVec.allOnes 64

inductive UopType where
  | general
  | load
  | store
  | storeAddr
  | fence
  deriving DecidableEq, Repr

structure DynUop where
  rs : ℕ × ℕ
  rd : ℕ × ℕ
  lat : ℕ
  decCycle : ℕ
  type : UopType
  portMask : BitVec 8
  extraSlots : ℕ

/-- `CycleQueue`. -/
structure CycleQueue where
  buf : ℕ → ℕ
  idx : ℕ

def CycleQueue.minAllocCycle (q : CycleQueue) : ℕ := q.buf q.idx

/-- `markLeave`, of a queue of `SZ` entries. -/
def CycleQueue.markLeave (SZ : ℕ) (q : CycleQueue) (leaveCycle : ℕ) : CycleQueue where
  buf := Function.update q.buf q.idx leaveCycle
  idx := if q.idx + 1 = SZ then 0 else q.idx + 1

/-- What the core needs to issue, dispatch and retire uops; the first entry is a local variable of `bbl`. -/
structure Pipeline where
  prevDecCycle : ℕ
  insWindow : Window
  regScoreboard : ℕ → ℕ
  rob : ReorderBuffer
  curCycleRFReads : ℕ
  curCycleIssuedUops : ℕ
  decodeCycle : ℕ
  uopQueue : CycleQueue

structure FwdEntry where
  addr : Address
  storeCycle : ℕ

/-- A call of the level-one data cache. -/
structure Access where
  isStore : Bool
  addr : Address
  dispatchCycle : ℕ
  respCycle : ℕ

/-- An entry of the core's recorder. -/
structure Record where
  curCycle : ℕ
  dispatchCycle : ℕ
  respCycle : ℕ

/-- What the core needs to simulate loads and stores, with the calls of the data cache so far; the
first two entries are local variables of `bbl`. -/
structure Lsu (L : Type) where
  loadIdx : ℕ
  storeIdx : ℕ
  l1d : L
  loadAddrs : ℕ → Address
  storeAddrs : ℕ → Address
  loads : ℕ
  stores : ℕ
  lastStoreCommitCycle : ℕ
  lastStoreAddrCommitCycle : ℕ
  loadQueue : ReorderBuffer
  storeQueue : ReorderBuffer
  fwdArray : ℕ → FwdEntry
  cRec : List Record
  calls : List Access

structure Core (L : Type) where
  prevBbl : Option (List DynUop)
  pipe : Pipeline
  lsu : Lsu L

/-- An assertion or an endless loop of the window, an access outside of the arrays of addresses, and the
assertions at the end of a block. -/
inductive CoreFailure where
  | window (e : WindowFailure)
  | outOfBounds
  /-- "loadIdx != loads" -/
  | loads
  /-- "storeIdx != stores" -/
  | stores

section Issue

abbrev PipeAct (α : Type) := Prog Pipeline WindowFailure α

/-- A call of the issue window, which keeps `curCycle`. -/
def onWindow {α : Type} (act : IssueWindow.Act α) : PipeAct α := fun s =>
  (act s.insWindow).map fun r => (r.1, { s with insWindow := r.2 })

def Pipeline.curCycle (s : Pipeline) : ℕ := s.insWindow.curCycle

def Pipeline.resetCounters (s : Pipeline) : Pipeline := { s with curCycleIssuedUops := 0, curCycleRFReads := 0 }

/-- Decode stalls. -/
def decode (uop : DynUop) : PipeAct Unit := do
  change fun s =>
    { s with decodeCycle := max (s.decodeCycle + sub32 uop.decCycle s.prevDecCycle) s.uopQueue.minAllocCycle }
  let s ← observe id
  if s.decodeCycle > s.curCycle then do
    change Pipeline.resetCounters
    onWindow (advances 1024 ((s.decodeCycle - s.curCycle) % 2 ^ 32))
  else pure ()
  change fun s => { s with prevDecCycle := uop.decCycle, uopQueue := s.uopQueue.markLeave 28 s.curCycle }

/-- The limit on the uops that are issued in a cycle. -/
def issue : PipeAct Unit := do
  let s ← observe id
  if s.curCycleIssuedUops ≥ 4 then do
    change Pipeline.resetCounters
    onWindow (advancePos 1024)
  else pure ()
  change fun s => { s with curCycleIssuedUops := s.curCycleIssuedUops + 1 }

/-- The reads of the register file; it answers when the operands are there. -/
def readRegisters (uop : DynUop) : PipeAct ℕ := do
  change fun s => { s with regScoreboard := Function.update s.regScoreboard 0 s.curCycle }
  let s ← observe id
  let c0 := s.regScoreboard uop.rs.1
  let c1 := s.regScoreboard uop.rs.2
  let reads := s.curCycleRFReads + ((if c0 < s.curCycle then 1 else 0) + if c1 < s.curCycle then 1 else 0)
  if reads > 3 then do
    change fun s => { s with curCycleRFReads := reads - 3, curCycleIssuedUops := 0 }
    onWindow (advancePos 1024)
  else change fun s => { s with curCycleRFReads := reads }
  pure (max c0 c1)

/-- A uop on its way to the issue window and out of it; it answers the cycle of its dispatch. -/
def dispatch (uop : DynUop) : PipeAct ℕ := do
  decode uop
  issue
  let cOps ← readRegisters uop
  let s ← observe id
  let b ← onWindow (schedule 1024 36 (max cOps (max (minAllocCycle s.rob) s.curCycle + 6)) uop.portMask uop.extraSlots)
  change fun s' => if s'.curCycle > s.curCycle then s'.resetCounters else s'
  pure b.1.1

/-- A uop that has been executed retires, and its results are ready. -/
def Pipeline.retire (s : Pipeline) (uop : DynUop) (commitCycle : ℕ) : Pipeline :=
  { s with
    rob := markRetire 128 4 s.rob commitCycle
    regScoreboard := Function.update (Function.update s.regScoreboard uop.rd.1 commitCycle) uop.rd.2 commitCycle }

end Issue

section Memory

/-- The data cache: it answers an access, a store or not, with the cycle of its response. -/
structure L1D (L : Type) where
  access : L → Bool → Address → ℕ → ℕ × L

variable {L : Type} (cache : L1D L)

abbrev LsuAct (L α : Type) := Prog (Lsu L) CoreFailure α

/-- Call the data cache; its latency is added. -/
def callL1D (isStore : Bool) (addr : Address) (dispatchCycle : ℕ) : LsuAct L ℕ := fun s =>
  let r := cache.access s.l1d isStore addr dispatchCycle
  .ok (r.1 + 4, { s with l1d := r.2, calls := s.calls ++ [⟨isStore, addr, dispatchCycle, r.1⟩] })

/-- `cRec.record`. -/
def record (curCycle dispatchCycle respCycle : ℕ) : LsuAct L Unit :=
  change fun s => { s with cRec := s.cRec ++ [⟨curCycle, dispatchCycle, respCycle⟩] }

/-- `(addr>>2) & (FWD_ENTRIES-1)` -/
def fwdIdx (addr : Address) : ℕ := ((addr >>> 2) &&& 31#64).toNat

/-- `UOP_LOAD`. -/
def load (curCycle dispatchCycle : ℕ) : LsuAct L ℕ := do
  let s ← observe id
  let dispatchCycle := max (s.lastStoreAddrCommitCycle + 1) (max dispatchCycle (minAllocCycle s.loadQueue))
  ensure (s.loadIdx < 256) .outOfBounds
  let addr := s.loadAddrs s.loadIdx
  change fun s => { s with loadIdx := s.loadIdx + 1 }
  let reqSatisfiedCycle ←
    if addr ≠ predFalse then do
      let reqSatisfiedCycle ← callL1D cache false addr dispatchCycle
      record curCycle dispatchCycle reqSatisfiedCycle
      pure reqSatisfiedCycle
    else pure dispatchCycle
  let fwd := s.fwdArray (fwdIdx addr)
  let commitCycle := if fwd.addr = addr then max reqSatisfiedCycle fwd.storeCycle else reqSatisfiedCycle
  change fun s => { s with loadQueue := markRetire 32 4 s.loadQueue commitCycle }
  pure commitCycle

/-- `UOP_STORE`. -/
def store (curCycle dispatchCycle : ℕ) : LsuAct L ℕ := do
  let s ← observe id
  let dispatchCycle := max (s.lastStoreAddrCommitCycle + 1) (max dispatchCycle (minAllocCycle s.storeQueue))
  ensure (s.storeIdx < 256) .outOfBounds
  let addr := s.storeAddrs s.storeIdx
  change fun s => { s with storeIdx := s.storeIdx + 1 }
  let reqSatisfiedCycle ← callL1D cache true addr dispatchCycle
  record curCycle dispatchCycle reqSatisfiedCycle
  change fun s =>
    { s with
      fwdArray := Function.update s.fwdArray (fwdIdx addr) ⟨addr, reqSatisfiedCycle⟩
      lastStoreCommitCycle := max s.lastStoreCommitCycle reqSatisfiedCycle
      storeQueue := markRetire 32 4 s.storeQueue reqSatisfiedCycle }
  pure reqSatisfiedCycle

/-- The `switch` over the types of a uop; it answers the cycle of its commit. -/
def execute (uop : DynUop) (curCycle dispatchCycle : ℕ) : LsuAct L ℕ :=
  match uop.type with
  | .general => pure (dispatchCycle + uop.lat)
  | .load => load cache curCycle dispatchCycle
  | .store => store cache curCycle dispatchCycle
  | .storeAddr => do
    let commitCycle := dispatchCycle + uop.lat
    change fun s => { s with lastStoreAddrCommitCycle := max s.lastStoreAddrCommitCycle commitCycle }
    pure commitCycle
  | .fence => do
    let commitCycle := dispatchCycle + uop.lat
    change fun s =>
      { s with
        lastStoreAddrCommitCycle :=
          max commitCycle (max s.lastStoreAddrCommitCycle (s.lastStoreCommitCycle + uop.lat)) }
    pure commitCycle

end Memory

section Blocks

variable {L : Type} (cache : L1D L)

abbrev Act (L α : Type) := Prog (Core L) CoreFailure α

def onPipe {α : Type} (act : PipeAct α) : Act L α := fun s =>
  match act s.pipe with
  | .ok (a, pipe) => .ok (a, { s with pipe })
  | .error e => .error (.window e)

def onLsu {α : Type} (act : LsuAct L α) : Act L α := fun s =>
  (act s.lsu).map fun r => (r.1, { s with lsu := r.2 })

/-- A round of the loop over the uops of a block. -/
def simulateUop (uop : DynUop) : Act L Unit := do
  let dispatchCycle ← onPipe (dispatch uop)
  let s ← observe id
  let commitCycle ← onLsu (execute cache uop s.pipe.curCycle dispatchCycle)
  change fun s => { s with pipe := s.pipe.retire uop commitCycle }

/-- The loop over the uops of a block. -/
def simulate : List DynUop → Act L Unit
  | [] => pure ()
  | uop :: uops => do
    simulateUop cache uop
    simulate uops

/-- Kill lingering ops. -/
def Lsu.clear (s : Lsu L) : Lsu L := { s with loads := 0, stores := 0 }

/-- `bbl`, up to the frontend. -/
def bbl (bblInfo : List DynUop) : Act L Unit := do
  let s ← observe id
  match s.prevBbl with
  | none => change fun s => { s with prevBbl := some bblInfo, lsu := s.lsu.clear }
  | some uops => do
    change fun s =>
      { s with
        prevBbl := some bblInfo
        pipe := { s.pipe with prevDecCycle := 0 }
        lsu := { s.lsu with loadIdx := 0, storeIdx := 0 } }
    simulate cache uops
    let s ← observe id
    ensure (s.lsu.loadIdx = s.lsu.loads) .loads
    ensure (s.lsu.storeIdx = s.lsu.stores) .stores
    change fun s => { s with lsu := s.lsu.clear }

end Blocks

section Callbacks

variable {L : Type}

/-- `load` and `predFalseLoad`. -/
def recordLoad (addr : Address) : Act L Unit := do
  let s ← observe id
  ensure (s.lsu.loads < 256) .outOfBounds
  change fun s =>
    { s with lsu := { s.lsu with
        loadAddrs := Function.update s.lsu.loadAddrs s.lsu.loads addr
        loads := s.lsu.loads + 1 } }

/-- `store` and `predFalseStore`. -/
def recordStore (addr : Address) : Act L Unit := do
  let s ← observe id
  ensure (s.lsu.stores < 256) .outOfBounds
  change fun s =>
    { s with lsu := { s.lsu with
        storeAddrs := Function.update s.lsu.storeAddrs s.lsu.stores addr
        stores := s.lsu.stores + 1 } }

/-- `PredLoadFunc`, and `LoadFunc` when there is an address. -/
def predLoad (addr : Option Address) : Act L Unit := recordLoad (addr.getD predFalse)

/-- `PredStoreFunc`, and `StoreFunc` when there is an address. -/
def predStore (addr : Option Address) : Act L Unit := recordStore (addr.getD predFalse)

/-- A uop, with the address it accesses unless its predicate is false. -/
structure Op where
  uop : DynUop
  addr : Option Address

/-- The callback of an operation. -/
def callback (op : Op) : Act L Unit :=
  match op.uop.type with
  | .load => predLoad op.addr
  | .store => predStore op.addr
  | _ => pure ()

/-- The callbacks of a block. -/
def callbacks : List Op → Act L Unit
  | [] => pure ()
  | op :: ops => do
    callback op
    callbacks ops

/-- The constructor. -/
def Core.new (l1d : L) : Core L where
  prevBbl := none
  pipe :=
    { prevDecCycle := 0, insWindow := .new 0, regScoreboard := fun _ => 0, rob := .new, curCycleRFReads := 0,
      curCycleIssuedUops := 0, decodeCycle := 4, uopQueue := ⟨fun _ => 0, 0⟩ }
  lsu :=
    { loadIdx := 0, storeIdx := 0, l1d, loadAddrs := fun _ => 0, storeAddrs := fun _ => 0, loads := 0, stores := 0,
      lastStoreCommitCycle := 0, lastStoreAddrCommitCycle := 0, loadQueue := .new, storeQueue := .new,
      fwdArray := fun _ => ⟨predFalse, 0⟩, cRec := [], calls := [] }

end Callbacks
end Zsim.OOOCore
