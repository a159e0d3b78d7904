import Zsim.WeakestPre
import Zsim.MESIDirectory
import Zsim.AccessTracing

/-!
# The trace driver and its parent

The driver replays a trace of accesses against one MESI cache. Its children
are tables of lines, and the proxies hand the parent's invalidations to them.
A line of the parent is named by its address. What the levels above the parent
do, and which line a miss replaces, is read from lists; an invalidation from
above is performed if the parent's state of its line allows it.
-/

namespace Zsim.TraceDriver

open WeakestPre MemoryHierarchy MESIDirectory AccessTracing

/-- The assertions of the driver, and those of its parent. -/
inductive ReplayFailure where
  | parent (e : Failure)
  /-- `acc.childId < numChildren`, `childId < numChildren` -/
  | noSuchChild
  /-- `it != cStore.end()` -/
  | notHeld
  /-- `it->second == I` -/
  | putFinalState
  /-- `state != I` -/
  | getFinalState
  deriving DecidableEq, Repr

/-- How lines leave the children. -/
inductive Departure where
  /-- A PUT of a child's line, held in this state. -/
  | put (childId : ℕ) (lineAddr : Address) (state : MESIState) (type : AccessType)
  /-- Invalidations or downgrades of all sharers: did one hold the line in M, and
  is `*reqWriteback` set? -/
  | inv (lineAddr : Address) (type : InvType) (dirty writeback : Bool)

/-- What the levels above do during a request of the parent: invalidations they
send it, the permission they give it, and the time they take. -/
structure Upcall where
  invs : List (Address × InvType)
  exclusive : Bool
  latency : ℕ

/-- The settings of the driver and of its parent. -/
structure Setup where
  numChildren : ℕ
  useSkews : Bool
  playPuts : Bool
  playAllGets : Bool
  /-- Is there a trace to write? -/
  retrace : Bool
  nonInclusiveHack : Bool
  accLat : ℕ
  invLat : ℕ
  parentRTT : ℕ
  childrenRTT : ℕ → ℕ

/-- `ChildInfo`, without the counters. -/
structure ChildInfo where
  cStore : Address → Option MESIState
  skew : Int64
  lastReqCycle : UInt64

/-- `cStore[lineAddr] = s`, none to erase it. -/
def ChildInfo.store (i : ChildInfo) (lineAddr : Address) (s : Option MESIState) : ChildInfo :=
  { i with cStore := Function.update i.cStore lineAddr s }

@[simp] theorem ChildInfo.store_self (i : ChildInfo) (a : Address) (s : Option MESIState) :
    (i.store a s).cStore a = s :=
  Function.update_self ..

theorem ChildInfo.store_of_ne (i : ChildInfo) {a b : Address} (hb : b ≠ a) (s : Option MESIState) :
    (i.store a s).cStore b = i.cStore b :=
  Function.update_of_ne hb ..

/-- The children, and the lines of the parent. -/
structure Replay where
  children : ℕ → ChildInfo
  /-- `MESIBottomCC::array`, at the line of an address. -/
  own : Address → MESIState
  /-- `MESITopCC::array`, at the line of an address. -/
  entry : Address → Entry
  upcalls : List Upcall
  /-- The addresses that misses replace, none for a line without one. -/
  victims : List (Option Address)
  /-- What `atw` has been given. -/
  written : List AccessRecord
  departures : List Departure

/-- An action of the driver or of its parent. -/
abbrev Act (α : Type) := Prog Replay ReplayFailure α

namespace Replay

def setOwn (w : Replay) (a : Address) (s : MESIState) : Replay := { w with own := Function.update w.own a s }

def setEntry (w : Replay) (a : Address) (e : Entry) : Replay := { w with entry := Function.update w.entry a e }

def setChild (w : Replay) (c : ℕ) (i : ChildInfo) : Replay :=
  { w with children := Function.update w.children c i }

/-- Store the state of a child's line, none to erase it. -/
def setStore (w : Replay) (c : ℕ) (a : Address) (s : Option MESIState) : Replay :=
  w.setChild c ((w.children c).store a s)

def depart (w : Replay) (d : Departure) : Replay := { w with departures := w.departures ++ [d] }

/-- The state of a child's line. -/
def state (w : Replay) (c : ℕ) (a : Address) : MESIState := ((w.children c).cStore a).getD .I

@[simp] theorem setChild_self (w : Replay) (c : ℕ) (i : ChildInfo) : (w.setChild c i).children c = i :=
  Function.update_self ..

theorem setChild_of_ne (w : Replay) {c c' : ℕ} (hc : c' ≠ c) (i : ChildInfo) :
    (w.setChild c i).children c' = w.children c' :=
  Function.update_of_ne hc ..

@[simp] theorem setOwn_own_self (w : Replay) (a : Address) (s : MESIState) : (w.setOwn a s).own a = s :=
  Function.update_self ..

theorem setOwn_own_of_ne (w : Replay) {a b : Address} (hb : b ≠ a) (s : MESIState) :
    (w.setOwn a s).own b = w.own b :=
  Function.update_of_ne hb ..

@[simp] theorem setEntry_entry_self (w : Replay) (a : Address) (e : Entry) : (w.setEntry a e).entry a = e :=
  Function.update_self ..

theorem setEntry_entry_of_ne (w : Replay) {a b : Address} (hb : b ≠ a) (e : Entry) :
    (w.setEntry a e).entry b = w.entry b :=
  Function.update_of_ne hb ..

@[simp] theorem setEntry_own (w : Replay) (a : Address) (e : Entry) : (w.setEntry a e).own = w.own := rfl

end Replay

/-- An assertion of the parent. -/
def require (c : Prop) [Decidable c] (e : Failure) : Act Unit := ensure c (.parent e)

def ownOf (a : Address) : Act MESIState := observe fun w => w.own a

def setOwn (a : Address) (s : MESIState) : Act Unit := change fun w => w.setOwn a s

def entryOf (a : Address) : Act Entry := observe fun w => w.entry a

def setEntry (a : Address) (e : Entry) : Act Unit := change fun w => w.setEntry a e

/-- `TraceDriver::invalidate`: the new `*reqWriteback`; the cycle it returns is 0. -/
def invalidate (d : Setup) (childId : ℕ) (lineAddr : Address) (type : InvType) : Act Bool := do
  ensure (childId < d.numChildren) .noSuchChild
  let it ← observe fun w => (w.children childId).cStore lineAddr
  match it with
  | none => abort .notHeld
  | some s => do
    change fun w => w.setStore childId lineAddr (if type = .INVX then some .S else none)
    pure (s == .M)

/-- Latest response so far, `*reqWriteback`, and the invalidations sent. -/
structure InvAcc where
  maxCycle : ℕ
  writeback : Bool
  sentInvs : ℕ

namespace MESITopCC

/-- The loop body of `sendInvalidates`. -/
def sendInvalidate (d : Setup) (lineAddr : Address) (type : InvType) (acc : InvAcc) (c : ℕ) : Act InvAcc := do
  let e ← entryOf lineAddr
  if e.sharers c = true then do
    let writeback ← invalidate d c lineAddr type
    (if type = .INV then do
        let e ← entryOf lineAddr
        setEntry lineAddr { e with sharers := Function.update e.sharers c false }
      else pure ())
    pure ⟨max (0 + d.childrenRTT c) acc.maxCycle, writeback, acc.sentInvs + 1⟩
  else pure acc

/-- Does a sharer hold the line in M? -/
def dirtySharer (d : Setup) (w : Replay) (lineAddr : Address) : Bool :=
  (List.range d.numChildren).any fun c => (w.entry lineAddr).sharers c && w.state c lineAddr == .M

/-- `MESITopCC::sendInvalidates`: the cycle and the new `*reqWriteback`. -/
def sendInvalidates (d : Setup) (lineAddr : Address) (type : InvType) (reqWriteback : Bool) (cycle : ℕ) :
    Act (ℕ × Bool) := do
  let e ← entryOf lineAddr
  if (type = .INVX ∧ e.isExclusive = false) ∨ e.isEmpty = true then pure (cycle, reqWriteback)
  else do
    let dirty ← observe fun w => dirtySharer d w lineAddr
    let acc ← (List.range d.numChildren).foldlM (sendInvalidate d lineAddr type) ⟨cycle, reqWriteback, 0⟩
    let e ← entryOf lineAddr
    require (acc.sentInvs = e.numSharers) .sentInvs
    (if type = .INV then setEntry lineAddr { e with numSharers := 0 }
      else do
        require (e.exclusive = true ∧ e.numSharers = 1) .downgradeNotExclusive
        setEntry lineAddr { e with exclusive := false })
    change fun w => w.depart (.inv lineAddr type dirty acc.writeback)
    pure (acc.maxCycle, acc.writeback)

/-- `MESITopCC::processEviction`. -/
def processEviction (d : Setup) (wbLineAddr : Address) (cycle : ℕ) : Act (ℕ × Bool) :=
  if d.nonInclusiveHack = true then do
    setEntry wbLineAddr .clear
    pure (cycle, false)
  else sendInvalidates d wbLineAddr .INV false cycle

/-- The common end of PUTS and PUTX. -/
def removeSharer (lineAddr : Address) (childId : ℕ) : Act Unit := do
  let e ← entryOf lineAddr
  require (e.sharers childId = true) .putNotSharer
  setEntry lineAddr (e.dropSharer childId)

/-- `MESITopCC::processAccess` without flags: the cycle, `*inducedWriteback`
and `*childState`. -/
def processAccess (d : Setup) (lineAddr : Address) (type : AccessType) (childId : ℕ) (haveExclusive : Bool)
    (cycle : ℕ) : Act (ℕ × Bool × MESIState) := do
  let e ← entryOf lineAddr
  match type with
  | .PUTX => do
    require (e.isExclusive = true) .putxEntry
    removeSharer lineAddr childId
    pure (cycle, false, .I)
  | .PUTS => do
    removeSharer lineAddr childId
    pure (cycle, false, .I)
  | .GETS =>
    if e.isEmpty = true ∧ haveExclusive = true then do
      setEntry lineAddr ⟨1, Function.update e.sharers childId true, true⟩
      pure (cycle, false, .E)
    else do
      require (e.sharers childId = false) .getsSharer
      let r ← (if e.isExclusive = true then sendInvalidates d lineAddr .INVX false cycle else pure (cycle, false))
      let e ← entryOf lineAddr
      require (e.isExclusive = false) .getsExclusive
      setEntry lineAddr { e.addSharer childId with exclusive := false }
      pure (r.1, r.2, .S)
  | .GETX => do
    require (haveExclusive = true) .getxNotExclusive
    (if e.sharers childId = true then do
        require (e.isExclusive = false) .spuriousGetx
        setEntry lineAddr (e.dropSharer childId)
      else pure ())
    let r ← sendInvalidates d lineAddr .INV false cycle
    let e ← entryOf lineAddr
    setEntry lineAddr { e.addSharer childId with exclusive := true }
    require (e.numSharers + 1 = 1) .getxSharers
    pure (r.1, r.2, .M)

/-- `MESITopCC::processInval`. -/
def processInval (d : Setup) (lineAddr : Address) (type : InvType) (cycle : ℕ) : Act (ℕ × Bool) :=
  if type = .FWD then do
    require (d.nonInclusiveHack = false) .nonInclusive
    pure (cycle, false)
  else sendInvalidates d lineAddr type false cycle

end MESITopCC

namespace MESIBottomCC

/-- `MESIBottomCC::processInval`; the result is the new `*reqWriteback`. -/
def processInval (lineAddr : Address) (type : InvType) (reqWriteback : Bool) : Act Bool := do
  let s ← ownOf lineAddr
  require (s ≠ .I) .invalInvalid
  match type with
  | .INVX => do
    require (s.exclusive = true) .invxState
    setOwn lineAddr .S
    pure (reqWriteback || s == .M)
  | .INV => do
    setOwn lineAddr .I
    pure (reqWriteback || s == .M)
  | .FWD => do
    require (s = .S) .fwdState
    pure reqWriteback

end MESIBottomCC

/-- May the levels above invalidate a line that the parent holds in this state? -/
def allowed (d : Setup) : InvType → MESIState → Bool
  | .INV, s => s != .I
  | .INVX, s => s.exclusive
  | .FWD, s => s == .S && !d.nonInclusiveHack

/-- The invalidation of a line of the parent, by `MESICC::processInv`. -/
def finishInvalidate (d : Setup) (lineAddr : Address) (type : InvType) : Act Unit := do
  let r ← MESITopCC.processInval d lineAddr type d.invLat
  let _ ← MESIBottomCC.processInval lineAddr type r.2
  pure ()

/-- Invalidations from above. -/
def invalidations (d : Setup) : List (Address × InvType) → Act Unit
  | [] => pure ()
  | (lineAddr, type) :: invs => do
    let s ← ownOf lineAddr
    (if allowed d type s = true then finishInvalidate d lineAddr type else pure ())
    invalidations d invs

/-- The state the parent is given. -/
def grantedState (exclusive : Bool) : AccessType → MESIState
  | .GETS => if exclusive = true then .E else .S
  | .GETX => .M
  | .PUTS | .PUTX => .I

/-- A request of the parent: the levels above invalidate lines, and then change
the state of this one. -/
def request (d : Setup) (lineAddr : Address) (type : AccessType) (cycle : ℕ) : Act ℕ := do
  let u ← observe fun w => w.upcalls.headD ⟨[], false, 0⟩
  change fun w => { w with upcalls := w.upcalls.tail }
  invalidations d u.invs
  setOwn lineAddr (grantedState u.exclusive type)
  pure (cycle + u.latency)

namespace MESIBottomCC

/-- `MESIBottomCC::processEviction`. -/
def processEviction (d : Setup) (wbLineAddr : Address) (lowerLevelWriteback : Bool) (cycle : ℕ) : Act ℕ := do
  (if lowerLevelWriteback = true then do
      let s ← ownOf wbLineAddr
      require (s.exclusive = true) .writebackNeedsExclusive
      setOwn wbLineAddr .M
    else pure ())
  let s ← ownOf wbLineAddr
  let respCycle ← (match s with
    | .I => pure cycle
    | .S | .E => request d wbLineAddr .PUTS cycle
    | .M => request d wbLineAddr .PUTX cycle)
  let s ← ownOf wbLineAddr
  require (s = .I) .evictionFinalState
  pure respCycle

/-- The upward part of a miss: the latency is computed in 32 bits. -/
def fetch (d : Setup) (lineAddr : Address) (type : AccessType) (cycle : ℕ) : Act ℕ := do
  let resp ← request d lineAddr type cycle
  pure (cycle + ((resp - cycle) % 2 ^ 32 + d.parentRTT) % 2 ^ 32)

/-- `MESIBottomCC::processAccess`. -/
def processAccess (d : Setup) (lineAddr : Address) (type : AccessType) (cycle : ℕ) : Act ℕ := do
  let s ← ownOf lineAddr
  let respCycle ← (match type with
    | .PUTS => do
      require (s ≠ .I) .putsInvalid
      pure cycle
    | .PUTX => do
      require (s.exclusive = true) .putxNotExclusive
      (if s = .E then setOwn lineAddr .M else pure ())
      pure cycle
    | .GETS =>
      if s = .I then do
        let resp ← fetch d lineAddr .GETS cycle
        let s ← ownOf lineAddr
        require (s = .S ∨ s = .E) .getsFinalState
        pure resp
      else pure cycle
    | .GETX => do
      let resp ← (if s = .I ∨ s = .S then fetch d lineAddr .GETX cycle
        else do
          (if s = .E then setOwn lineAddr .M else pure ())
          pure cycle)
      let s ← ownOf lineAddr
      require (s = .M) .getxFinalState
      pure resp)
  require (cycle ≤ respCycle) .cycleOrder
  pure respCycle

/-- `MESIBottomCC::processWritebackOnAccess`. -/
def processWritebackOnAccess (lineAddr : Address) : Act Unit := do
  let s ← ownOf lineAddr
  require (s.exclusive = true) .writebackNeedsExclusive
  (if s = .E then setOwn lineAddr .M else pure ())

end MESIBottomCC

/-- The replacement of a line by a miss: `MESICC::processEviction` of its address. -/
def replace (d : Setup) (lineAddr : Address) (cycle : ℕ) : Act Unit := do
  let victim ← observe fun w => w.victims.headD none
  change fun w => { w with victims := w.victims.tail }
  match victim with
  | none => pure ()
  | some wbLineAddr =>
    if wbLineAddr = lineAddr then pure ()
    else do
      let r ← MESITopCC.processEviction d wbLineAddr cycle
      let _ ← MESIBottomCC.processEviction d wbLineAddr r.2 r.1
      pure ()

/-- `Cache::access` of the parent: the cycle, and the child's state. A request is
built from the state it points to, so `CheckForMESIRace` lets it pass. -/
def access (d : Setup) (lineAddr : Address) (type : AccessType) (childId : ℕ) (cycle : ℕ) : Act (ℕ × MESIState) := do
  let s ← ownOf lineAddr
  let startCycle := cycle + d.accLat
  if (type = .PUTS ∨ type = .PUTX) ∧ s = .I then do
    -- only a non-inclusive cache forwards the PUT of a line it does not hold
    require (d.nonInclusiveHack = true) .lostInclusion
    let respCycle ← request d lineAddr type startCycle
    pure (respCycle, .I)
  else do
    (if s = .I then replace d lineAddr startCycle else pure ())
    let respCycle ← MESIBottomCC.processAccess d lineAddr type startCycle
    let s ← ownOf lineAddr
    let r ← MESITopCC.processAccess d lineAddr type childId s.exclusive respCycle
    (if r.2.1 = true then MESIBottomCC.processWritebackOnAccess lineAddr else pure ())
    require (cycle ≤ r.1) .cycleOrder
    pure (r.1, r.2.2)

/-- A PUT of a line that a child holds in this state; the latency. -/
def put (d : Setup) (lineAddr : Address) (type : AccessType) (childId : ℕ) (s : MESIState) (reqCycle : UInt64) :
    Act Int64 := do
  change fun w => w.depart (.put childId lineAddr s type)
  let r ← access d lineAddr type childId reqCycle.toNat
  change fun w => w.setStore childId lineAddr (some r.2)
  ensure (r.2 = .I) .putFinalState
  pure (.ofNat (r.1 - reqCycle.toNat))

/-- A GET; the latency. -/
def get (d : Setup) (lineAddr : Address) (acc : AccessRecord) (childId : ℕ) : Act Int64 := do
  let r ← access d lineAddr acc.type childId acc.reqCycle.toNat
  let lat : Int64 := .ofNat (r.1 - acc.reqCycle.toNat)
  change fun w =>
    let child := w.children childId
    w.setChild childId { child with skew := child.skew + (lat - .ofNat acc.latency.toNat) }
  ensure (r.2 ≠ .I) .getFinalState
  change fun w => w.setStore childId lineAddr (some r.2)
  pure lat

/-- The end of `executeAccess`: the cycle is kept, and the access written. -/
def finish (d : Setup) (acc : AccessRecord) (childId : ℕ) (lat : Int64) : Act Unit := do
  change fun w => w.setChild childId { w.children childId with lastReqCycle := acc.reqCycle }
  if d.retrace = true then
    change fun w => { w with written := w.written ++ [{ acc with
      reqCycle := if d.useSkews = true then acc.reqCycle else acc.reqCycle + (w.children childId).skew.toUInt64
      latency := lat.toUInt64.toUInt32 }] }
  else pure ()

/-- `TraceDriver::executeAccess`. -/
def executeAccess (d : Setup) (acc : AccessRecord) : Act Unit := do
  let childId := acc.childId.toNat
  let lineAddr := acc.lineAddr.toNat
  ensure (childId < d.numChildren) .noSuchChild
  let it ← observe fun w => (w.children childId).cStore lineAddr
  match acc.type with
  | .PUTS | .PUTX =>
    match it with
    | none => pure ()
    | some s =>
      if d.playPuts = false then pure ()
      else do
        let lat ← put d lineAddr acc.type childId s acc.reqCycle
        change fun w => w.setStore childId lineAddr none
        finish d acc childId lat
  | .GETS | .GETX =>
    match it with
    | none => do
      let lat ← get d lineAddr acc childId
      finish d acc childId lat
    | some s =>
      -- an upgrade miss is the only GET of a held line that is replayed as it is
      if s = .S ∧ acc.type = .GETX then do
        let lat ← get d lineAddr acc childId
        finish d acc childId lat
      else if d.playAllGets = true then do
        let _ ← put d lineAddr (if s = .M then .PUTX else .PUTS) childId s acc.reqCycle
        let lat ← get d lineAddr acc childId
        finish d acc childId lat
      else pure ()

/-- Nothing is held. -/
def start (upcalls : List Upcall) (victims : List (Option Address)) : Replay :=
  ⟨fun _ => ⟨fun _ => none, 0, 0⟩, fun _ => .I, fun _ => .clear, upcalls, victims, [], []⟩

end Zsim.TraceDriver
