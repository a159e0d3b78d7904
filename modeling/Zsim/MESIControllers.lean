import Zsim.WeakestPre
import Zsim.CacheArrays
import Zsim.MESIDirectory

/-!
# MESI coherence controllers, caches and memory

The bottom controller keeps the state of a cache's own lines and calls the
parent; the top controller keeps the directory and calls the children; a cache
ties them to its array. Calls go up along the path to the root and down into
the subtree, one at a time. Locks have no effect on such a sequential run and
profiling counters and timing records are left out. The parameters
`parent` and `invalidate` are the calls to other caches, which
`parentAccess` and `invalidate` at the end of the module tie together.
-/

namespace Zsim.MESIControllers

open WeakestPre MemoryHierarchy CacheArrays MESIDirectory

/-- One cache: its array, `MESIBottomCC::array` and `MESITopCC::array`. -/
structure CacheState (σ : Type) where
  array : σ
  bcc : LineId → MESIState
  tcc : LineId → Entry

/-- What the run leaves behind for the ghost state: a store performed at a
leaf, and a dirty writeback received by the memory. -/
inductive Event where
  | leafM (a : Address)
  | memPutx (a : Address)
  deriving DecidableEq

/-- All caches, the answers the replacement policies will give, and the log. -/
structure World (σ : Type) where
  cache : CachePath → CacheState σ
  /-- The next answers of `rankCands`, as positions in the offered candidates. -/
  picks : List ℕ
  log : List Event

/-- A tree of caches over one memory. -/
structure Hierarchy (σ : Type) where
  array : CacheArray σ
  /-- Number of children; a cache without children is terminal. -/
  numChildren : CachePath → ℕ
  height : ℕ
  no_children : ∀ p : CachePath, height ≤ p.length → numChildren p = 0
  nonInclusiveHack : CachePath → Bool
  accLat : CachePath → ℕ
  invLat : CachePath → ℕ
  parentRTT : CachePath → ℕ
  childrenRTT : CachePath → ℕ → ℕ
  memLatency : ℕ
  memLatency_pos : 0 < memLatency

/-- A controller action. -/
abbrev Act (σ α : Type) := Prog (World σ) Failure α

variable {σ : Type}

/-- Replace the state of one cache. -/
def World.set (w : World σ) (p : CachePath) (c : CacheState σ) : World σ :=
  { w with cache := Function.update w.cache p c }

def World.setState (w : World σ) (p : CachePath) (i : LineId) (s : MESIState) : World σ :=
  w.set p { w.cache p with bcc := Function.update (w.cache p).bcc i s }

def World.setEntry (w : World σ) (p : CachePath) (i : LineId) (e : Entry) : World σ :=
  w.set p { w.cache p with tcc := Function.update (w.cache p).tcc i e }

def World.setArray (w : World σ) (p : CachePath) (s : σ) : World σ :=
  w.set p { w.cache p with array := s }

/-- `array[lineId]` of the bottom controller. -/
def stateOf (p : CachePath) (i : LineId) : Act σ MESIState := observe fun w => (w.cache p).bcc i

def setState (p : CachePath) (i : LineId) (s : MESIState) : Act σ Unit :=
  change fun w => w.setState p i s

/-- `array[lineId]` of the top controller. -/
def entryOf (p : CachePath) (i : LineId) : Act σ Entry := observe fun w => (w.cache p).tcc i

def setEntry (p : CachePath) (i : LineId) (e : Entry) : Act σ Unit :=
  change fun w => w.setEntry p i e

section Rules

variable (p : CachePath) (i : LineId) (w : World σ)

@[simp] theorem wp_stateOf (Q : MESIState → World σ → Prop) :
    wp (stateOf p i) Q w ↔ Q ((w.cache p).bcc i) w := wp_observe ..

@[simp] theorem wp_setState (s : MESIState) (Q : Unit → World σ → Prop) :
    wp (setState p i s) Q w ↔ Q () (w.setState p i s) := wp_change ..

@[simp] theorem wp_entryOf (Q : Entry → World σ → Prop) :
    wp (entryOf p i) Q w ↔ Q ((w.cache p).tcc i) w := wp_observe ..

@[simp] theorem wp_setEntry (e : Entry) (Q : Unit → World σ → Prop) :
    wp (setEntry p i e) Q w ↔ Q () (w.setEntry p i e) := wp_change ..

end Rules

/-- Read through the request's state pointer. -/
def readState : StatePtr → Act σ MESIState
  | none => pure .I
  | some (p, i) => stateOf p i

/-- Write through the request's state pointer. -/
def writeState : StatePtr → MESIState → Act σ Unit
  | none, _ => pure ()
  | some (p, i), s => setState p i s

/-- `CheckForMESIRace`: whether the access is skipped, and its type. -/
def checkForMESIRace (type : AccessType) (state initialState : MESIState) :
    Except Failure (Bool × AccessType) :=
  if state = initialState then .ok (false, type)
  else match type with
    | .PUTS | .PUTX =>
      if state = .I then .ok (true, type)
      else if state = .S then .ok (false, .PUTS)
      else .error .putRace
    | .GETX => if initialState = .S ∧ state = .I then .ok (false, type) else .error .getxRace
    | .GETS => .error .trueRace

/-- Continue with the result or stop with the failure. -/
def liftExcept {α : Type} : Except Failure α → Act σ α
  | .ok a => pure a
  | .error e => abort e

/-- `selfId`, the index the parent knows this cache by. -/
def selfId : CachePath → ℕ
  | [] => 0
  | c :: _ => c

namespace MESIBottomCC

/-- A request of cache `p` for its line `i`; `initialState` is sampled now. -/
def request (p : CachePath) (i : LineId) (lineAddr : Address) (type : AccessType) (cycle : ℕ)
    (flags : Flags) (parent : MemReq → Act σ ℕ) : Act σ ℕ := do
  let s ← stateOf p i
  parent ⟨lineAddr, type, selfId p, some (p, i), cycle, s, flags⟩

/-- `MESIBottomCC::processEviction`. -/
def processEviction (p : CachePath) (parent : MemReq → Act σ ℕ) (wbLineAddr : Address)
    (lineId : LineId) (lowerLevelWriteback : Bool) (cycle : ℕ) : Act σ ℕ := do
  (if lowerLevelWriteback then do
      let s ← stateOf p lineId
      ensure (s.exclusive = true) .writebackNeedsExclusive
      setState p lineId .M
    else pure ())
  let s ← stateOf p lineId
  let respCycle ← (match s with
    | .I => pure cycle
    | .S | .E => request p lineId wbLineAddr .PUTS cycle {} parent
    | .M => request p lineId wbLineAddr .PUTX cycle {} parent)
  let s ← stateOf p lineId
  ensure (s = .I) .evictionFinalState
  pure respCycle

/-- The upward part of a miss: the latency is computed in 32 bits. -/
def fetch (t : Hierarchy σ) (p : CachePath) (parent : MemReq → Act σ ℕ) (lineAddr : Address)
    (lineId : LineId) (type : AccessType) (cycle : ℕ) (flags : Flags) : Act σ ℕ := do
  let resp ← request p lineId lineAddr type cycle flags parent
  let nextLevelLat := (resp - cycle) % 2 ^ 32
  let netLat := t.parentRTT p
  pure (cycle + (nextLevelLat + netLat) % 2 ^ 32)

/-- `MESIBottomCC::processAccess`. -/
def processAccess (t : Hierarchy σ) (p : CachePath) (parent : MemReq → Act σ ℕ)
    (lineAddr : Address) (lineId : LineId) (type : AccessType) (cycle : ℕ) (flags : Flags) :
    Act σ ℕ := do
  let s ← stateOf p lineId
  let respCycle ← (match type with
    | .PUTS => do
      ensure (s ≠ .I) .putsInvalid
      pure cycle
    | .PUTX => do
      ensure (s.exclusive = true) .putxNotExclusive
      (if s = .E then setState p lineId .M else pure ())
      pure cycle
    | .GETS =>
      if s = .I then do
        let resp ← fetch t p parent lineAddr lineId .GETS cycle flags
        let s ← stateOf p lineId
        ensure (s = .S ∨ s = .E) .getsFinalState
        pure resp
      else pure cycle
    | .GETX => do
      let resp ← (if s = .I ∨ s = .S then
          fetch t p parent lineAddr lineId .GETX cycle flags
        else do
          (if s = .E then setState p lineId .M else pure ())
          pure cycle)
      let s ← stateOf p lineId
      ensure (s = .M) .getxFinalState
      pure resp)
  ensure (cycle ≤ respCycle) .cycleOrder
  pure respCycle

/-- `MESIBottomCC::processWritebackOnAccess`. -/
def processWritebackOnAccess (p : CachePath) (lineId : LineId) : Act σ Unit := do
  let s ← stateOf p lineId
  ensure (s.exclusive = true) .writebackNeedsExclusive
  (if s = .E then setState p lineId .M else pure ())

/-- `MESIBottomCC::processInval`; the result is the new `*reqWriteback`. -/
def processInval (p : CachePath) (lineId : LineId) (type : InvType) (reqWriteback : Bool) :
    Act σ Bool := do
  let s ← stateOf p lineId
  ensure (s ≠ .I) .invalInvalid
  match type with
  | .INVX => do
    ensure (s.exclusive = true) .invxState
    setState p lineId .S
    pure (reqWriteback || s == .M)
  | .INV => do
    setState p lineId .I
    pure (reqWriteback || s == .M)
  | .FWD => do
    ensure (s = .S) .fwdState
    pure reqWriteback

/-- `MESIBottomCC::processNonInclusiveWriteback`. -/
def processNonInclusiveWriteback (t : Hierarchy σ) (p : CachePath) (parent : MemReq → Act σ ℕ)
    (lineAddr : Address) (type : AccessType) (cycle : ℕ) (state : StatePtr) (flags : Flags) :
    Act σ ℕ := do
  ensure (t.nonInclusiveHack p = true) .nonInclusive
  let s ← readState state
  parent ⟨lineAddr, type, selfId p, state, cycle, s, { flags with nonInclWb := true }⟩

end MESIBottomCC

namespace MESITopCC

/-- Latest response so far, `*reqWriteback`, and the invalidations sent. -/
structure InvAcc where
  maxCycle : ℕ
  writeback : Bool
  sentInvs : ℕ

/-- The loop body of `sendInvalidates`: child `c`, if its bit is set. -/
def sendInvalidate (t : Hierarchy σ) (p : CachePath)
    (invalidate : CachePath → InvReq → Bool → Act σ (ℕ × Bool)) (lineAddr : Address)
    (lineId : LineId) (type : InvType) (cycle : ℕ) (acc : InvAcc) (c : ℕ) : Act σ InvAcc := do
  let e ← entryOf p lineId
  if e.sharers c = true then do
    let r ← invalidate (c :: p) ⟨lineAddr, type, cycle⟩ acc.writeback
    (if type = .INV then do
        let e ← entryOf p lineId
        setEntry p lineId { e with sharers := Function.update e.sharers c false }
      else pure ())
    pure ⟨max (r.1 + t.childrenRTT p c) acc.maxCycle, r.2, acc.sentInvs + 1⟩
  else pure acc

/-- `MESITopCC::sendInvalidates`: the cycle and the new `*reqWriteback`. -/
def sendInvalidates (t : Hierarchy σ) (p : CachePath)
    (invalidate : CachePath → InvReq → Bool → Act σ (ℕ × Bool)) (lineAddr : Address)
    (lineId : LineId) (type : InvType) (reqWriteback : Bool) (cycle : ℕ) : Act σ (ℕ × Bool) := do
  let e ← entryOf p lineId
  if (type = .INVX ∧ e.isExclusive = false) ∨ e.isEmpty = true then pure (cycle, reqWriteback)
  else do
    let acc ← (List.range (t.numChildren p)).foldlM
      (sendInvalidate t p invalidate lineAddr lineId type cycle) ⟨cycle, reqWriteback, 0⟩
    let e ← entryOf p lineId
    ensure (acc.sentInvs = e.numSharers) .sentInvs
    (if type = .INV then setEntry p lineId { e with numSharers := 0 }
      else do
        ensure (e.exclusive = true ∧ e.numSharers = 1) .downgradeNotExclusive
        setEntry p lineId { e with exclusive := false })
    pure (acc.maxCycle, acc.writeback)

/-- `MESITopCC::processEviction`. -/
def processEviction (t : Hierarchy σ) (p : CachePath)
    (invalidate : CachePath → InvReq → Bool → Act σ (ℕ × Bool)) (wbLineAddr : Address)
    (lineId : LineId) (reqWriteback : Bool) (cycle : ℕ) : Act σ (ℕ × Bool) :=
  if t.nonInclusiveHack p = true then do
    setEntry p lineId .clear
    pure (cycle, reqWriteback)
  else sendInvalidates t p invalidate wbLineAddr lineId .INV reqWriteback cycle

/-- The common end of PUTS and of a PUTX that gives the line up. -/
def removeSharer (p : CachePath) (lineId : LineId) (childId : ℕ) (childState : StatePtr) :
    Act σ Unit := do
  let e ← entryOf p lineId
  ensure (e.sharers childId = true) .putNotSharer
  setEntry p lineId (e.dropSharer childId)
  writeState childState .I

/-- `MESITopCC::processAccess`: the cycle and `*inducedWriteback`. -/
def processAccess (t : Hierarchy σ) (p : CachePath)
    (invalidate : CachePath → InvReq → Bool → Act σ (ℕ × Bool)) (lineAddr : Address)
    (lineId : LineId) (type : AccessType) (childId : ℕ) (haveExclusive : Bool)
    (childState : StatePtr) (cycle : ℕ) (flags : Flags) : Act σ (ℕ × Bool) := do
  let e ← entryOf p lineId
  match type with
  | .PUTX => do
    ensure (e.isExclusive = true) .putxEntry
    if flags.putxKeepExcl = true then do
      ensure (e.sharers childId = true) .putNotSharer
      let s ← readState childState
      ensure (s = .M) .putxEntry
      writeState childState .E
      pure (cycle, false)
    else do
      removeSharer p lineId childId childState
      pure (cycle, false)
  | .PUTS => do
    removeSharer p lineId childId childState
    pure (cycle, false)
  | .GETS =>
    if e.isEmpty = true ∧ haveExclusive = true ∧ flags.noexcl = false then do
      setEntry p lineId ⟨1, Function.update e.sharers childId true, true⟩
      writeState childState .E
      pure (cycle, false)
    else do
      ensure (e.sharers childId = false) .getsSharer
      let r ← (if e.isExclusive = true then
          sendInvalidates t p invalidate lineAddr lineId .INVX false cycle
        else pure (cycle, false))
      let e ← entryOf p lineId
      ensure (e.isExclusive = false) .getsExclusive
      setEntry p lineId { e.addSharer childId with exclusive := false }
      writeState childState .S
      pure r
  | .GETX => do
    ensure (haveExclusive = true) .getxNotExclusive
    (if e.sharers childId = true then do
        ensure (e.isExclusive = false) .spuriousGetx
        setEntry p lineId (e.dropSharer childId)
      else pure ())
    let r ← sendInvalidates t p invalidate lineAddr lineId .INV false cycle
    let e ← entryOf p lineId
    setEntry p lineId { e.addSharer childId with exclusive := true }
    ensure (e.numSharers + 1 = 1) .getxSharers
    writeState childState .M
    pure r

/-- `MESITopCC::processInval`. -/
def processInval (t : Hierarchy σ) (p : CachePath)
    (invalidate : CachePath → InvReq → Bool → Act σ (ℕ × Bool)) (lineAddr : Address)
    (lineId : LineId) (type : InvType) (reqWriteback : Bool) (cycle : ℕ) : Act σ (ℕ × Bool) :=
  if type = .FWD then do
    ensure (t.nonInclusiveHack p = false) .nonInclusive
    pure (cycle, reqWriteback)
  else sendInvalidates t p invalidate lineAddr lineId type reqWriteback cycle

end MESITopCC

/-- The access side of the controller interface `CC`. -/
structure CC (σ : Type) where
  /-- Whether to skip the access, and the request, whose type may change. -/
  startAccess : MemReq → Act σ (Bool × MemReq)
  shouldAllocate : MemReq → Act σ Bool
  processEviction : Address → LineId → ℕ → Act σ ℕ
  processAccess : MemReq → Option LineId → ℕ → Act σ ℕ

/-- The race check shared by both controllers' `startAccess`. -/
def raceCheck (req : MemReq) : Act σ (Bool × MemReq) := do
  let s ← readState req.state
  let r ← liftExcept (checkForMESIRace req.type s req.initialState)
  pure (r.1, { req with type := r.2 })

/-- `MESICC`, the controller of a cache with children. -/
def MESICC (t : Hierarchy σ) (p : CachePath) (parent : MemReq → Act σ ℕ)
    (invalidate : CachePath → InvReq → Bool → Act σ (ℕ × Bool)) : CC σ where
  startAccess := raceCheck
  shouldAllocate req :=
    match req.type with
    | .GETS | .GETX => pure true
    | .PUTS | .PUTX => do
      ensure (t.nonInclusiveHack p = true) .lostInclusion
      pure false
  processEviction wbLineAddr lineId startCycle := do
    let r ← MESITopCC.processEviction t p invalidate wbLineAddr lineId false startCycle
    MESIBottomCC.processEviction p parent wbLineAddr lineId r.2 r.1
  processAccess req lineId startCycle := do
    let valid ← (match lineId with
      | none => pure false
      | some i => do
        let s ← stateOf p i
        pure (s != .I))
    match lineId with
    | none => do
      ensure (t.nonInclusiveHack p = true ∧ (req.type = .PUTS ∨ req.type = .PUTX)) .nonInclusive
      MESIBottomCC.processNonInclusiveWriteback t p parent req.lineAddr req.type startCycle
        req.state req.flags
    | some i =>
      if (req.type = .PUTS ∨ req.type = .PUTX) ∧ valid = false then do
        ensure (t.nonInclusiveHack p = true) .nonInclusive
        MESIBottomCC.processNonInclusiveWriteback t p parent req.lineAddr req.type startCycle
          req.state req.flags
      else do
        ensure (req.flags.prefetch = false ∨ req.type = .GETS) .badType
        let flags := { req.flags with prefetch := false }
        let respCycle ← MESIBottomCC.processAccess t p parent req.lineAddr i req.type startCycle flags
        if req.flags.prefetch = true then pure respCycle
        else do
          let s ← stateOf p i
          let r ← MESITopCC.processAccess t p invalidate req.lineAddr i req.type req.childId
            s.exclusive req.state respCycle flags
          (if r.2 = true then MESIBottomCC.processWritebackOnAccess p i else pure ())
          pure r.1

/-- `MESITerminalCC`, the controller of a cache without children. -/
def MESITerminalCC (t : Hierarchy σ) (p : CachePath) (parent : MemReq → Act σ ℕ) : CC σ where
  startAccess req := do
    ensure (req.type = .GETS ∨ req.type = .GETX) .badType
    raceCheck req
  shouldAllocate _ := pure true
  processEviction wbLineAddr lineId startCycle :=
    MESIBottomCC.processEviction p parent wbLineAddr lineId false startCycle
  processAccess req lineId startCycle :=
    match lineId with
    | none => abort .badType
    | some i => MESIBottomCC.processAccess t p parent req.lineAddr i req.type startCycle req.flags

namespace Cache

/-- `array->lookup`. -/
def lookup (t : Hierarchy σ) (p : CachePath) (a : Address) : Act σ (Option LineId) :=
  observe fun w => t.array.lookup (w.cache p).array a

/-- The policy's answer among the candidates; position 0 once the answers run out. -/
def World.victim (t : Hierarchy σ) (w : World σ) (p : CachePath) (a : Address) : LineId :=
  let cands := t.array.candidates (w.cache p).array a
  cands.getD (w.picks.headD 0 % cands.length) 0

/-- `array->preinsert`: the line to replace and the address it holds. -/
def preinsert (t : Hierarchy σ) (p : CachePath) (a : Address) : Act σ (LineId × Address) := do
  let i ← observe fun w => World.victim t w p a
  change fun w => { w.setArray p (t.array.preinsert (w.cache p).array a i) with
    picks := w.picks.tail }
  let wb ← observe fun w => t.array.line (w.cache p).array i
  pure (i, wb)

/-- `array->postinsert`. -/
def postinsert (t : Hierarchy σ) (p : CachePath) (a : Address) (i : LineId) : Act σ Unit :=
  change fun w => w.setArray p (t.array.postinsert (w.cache p).array a i)

/-- The miss path of `Cache::access`, up to the line the access will use. -/
def allocate (t : Hierarchy σ) (cc : CC σ) (p : CachePath) (req : MemReq) (cycle : ℕ) :
    Act σ (Option LineId) := do
  let alloc ← cc.shouldAllocate req
  if alloc = true then do
    let v ← preinsert t p req.lineAddr
    let _ ← cc.processEviction v.2 v.1 cycle
    postinsert t p req.lineAddr v.1
    pure (some v.1)
  else pure none

/-- `Cache::access`. -/
def access (t : Hierarchy σ) (cc : CC σ) (p : CachePath) (req : MemReq) : Act σ ℕ := do
  let start ← cc.startAccess req
  let respCycle ← (if start.1 = true then pure req.cycle
    else do
      let found ← lookup t p start.2.lineAddr
      let respCycle := req.cycle + t.accLat p
      let lineId ← (match found with
        | some i => pure (some i)
        | none => allocate t cc p start.2 respCycle)
      cc.processAccess start.2 lineId respCycle)
  ensure (req.cycle ≤ respCycle) .cycleOrder
  pure respCycle

/-- `Cache::finishInvalidate` with the controller's `processInv`. -/
def finishInvalidate (t : Hierarchy σ) (p : CachePath)
    (processInv : InvReq → LineId → Bool → ℕ → Act σ (ℕ × Bool)) (req : InvReq)
    (writeback : Bool) : Act σ (ℕ × Bool) := do
  let found ← lookup t p req.lineAddr
  match found with
  | none => abort .invalidateMissing
  | some i => processInv req i writeback (req.cycle + t.invLat p)

end Cache

/-- `MESICC::processInv`. -/
def MESICC.processInv (t : Hierarchy σ) (p : CachePath)
    (invalidate : CachePath → InvReq → Bool → Act σ (ℕ × Bool)) (req : InvReq) (lineId : LineId)
    (writeback : Bool) (startCycle : ℕ) : Act σ (ℕ × Bool) := do
  let r ← MESITopCC.processInval t p invalidate req.lineAddr lineId req.type writeback startCycle
  let wb ← MESIBottomCC.processInval p lineId req.type r.2
  pure (r.1, wb)

/-- `MESITerminalCC::processInv`. -/
def MESITerminalCC.processInv (p : CachePath) (req : InvReq) (lineId : LineId)
    (writeback : Bool) (startCycle : ℕ) : Act σ (ℕ × Bool) := do
  let wb ← MESIBottomCC.processInval p lineId req.type writeback
  pure (startCycle, wb)

/-- `Cache::invalidate` of the cache at a path, with the levels still below. -/
def invalidate (t : Hierarchy σ) : ℕ → CachePath → InvReq → Bool → Act σ (ℕ × Bool)
  | 0, _, _, _ => abort .depth
  | levels + 1, p, req, writeback =>
    Cache.finishInvalidate t p
      (if t.numChildren p = 0 then MESITerminalCC.processInv p
        else MESICC.processInv t p (invalidate t levels))
      req writeback

/-- `SimpleMemory::access`; a dirty writeback is logged. -/
def SimpleMemory.access (t : Hierarchy σ) (req : MemReq) : Act σ ℕ := do
  (match req.type with
    | .PUTS => writeState req.state .I
    | .PUTX => do
      writeState req.state .I
      change fun w => { w with log := w.log ++ [.memPutx req.lineAddr] }
    | .GETS => writeState req.state (if req.flags.noexcl = true then .S else .E)
    | .GETX => writeState req.state .M)
  let respCycle := req.cycle + t.memLatency
  ensure (req.cycle < respCycle) .cycleOrder
  pure respCycle

/-- `parents[...]->access` of the cache at a path: the memory for the root. -/
def parentAccess (t : Hierarchy σ) : CachePath → MemReq → Act σ ℕ
  | [] => SimpleMemory.access t
  | _ :: q => Cache.access t (MESICC t q (parentAccess t q) (invalidate t t.height)) q

/-- A core's access at a terminal cache. The core keeps no state for the
line; a completed store is logged. -/
structure CoreAccess where
  leaf : CachePath
  lineAddr : Address
  /-- GETX rather than GETS. -/
  store : Bool
  noexcl : Bool
  cycle : ℕ

/-- The request type of a core's access. -/
def CoreAccess.type (x : CoreAccess) : AccessType := if x.store = true then .GETX else .GETS

/-- Run one access to completion. -/
def coreAccess (t : Hierarchy σ) (x : CoreAccess) : Act σ ℕ := do
  let resp ← Cache.access t (MESITerminalCC t x.leaf (parentAccess t x.leaf)) x.leaf
    ⟨x.lineAddr, x.type, 0, none, x.cycle, .I, { noexcl := x.noexcl }⟩
  (if x.store = true then change fun w => { w with log := w.log ++ [.leafM x.lineAddr] }
    else pure ())
  pure resp

/-- Run the accesses in order. -/
def runAccesses (t : Hierarchy σ) (xs : List CoreAccess) : Act σ Unit :=
  xs.foldlM (fun _ x => do
    let _ ← coreAccess t x
    pure ()) ()

/-- Every cache empty, with the given arrays and policy answers. -/
def World.init (arrays : CachePath → σ) (picks : List ℕ) : World σ where
  cache p := ⟨arrays p, fun _ => .I, fun _ => .clear⟩
  picks := picks
  log := []

end Zsim.MESIControllers
