import Zsim.MESIControllers
import Zsim.GuardedRuns

/-!
# Races at one parent

A parent `MESICC` serves any number of children. A child's request carries the
state its line had when the request was built and then waits without the
child's lock. The parent serves one request at a time under its tcc lock, and
sends its invalidations child by child; its bcc lock is free while it waits for
its own parent, whose invalidations then go through to the children. Every step
below is what one party does between two points at which another one can run.
-/

namespace Zsim.MESIRace

open WeakestPre MemoryHierarchy MESIDirectory GuardedRuns
open MESIControllers (checkForMESIRace)

/-- A child's request on its way to the parent. -/
structure Request where
  type : AccessType
  lineAddr : Address
  /-- State of the line when the request was built. -/
  initialState : MESIState
  noexcl : Bool
  /-- An invalidation has found the line dirty since and set the parent's
  `*reqWriteback`. -/
  signalled : Bool

/-- What the parent sends invalidations for. -/
inductive Purpose where
  /-- Make room for a line of this child. -/
  | evict (c : ℕ)
  /-- Serve a request of this child. -/
  | grant (c : ℕ)
  /-- Pass on an invalidation of the parent's own parent. -/
  | inval

/-- The loop of `sendInvalidates`, before it looks at child `next`. -/
structure Loop where
  purpose : Purpose
  lineAddr : Address
  type : InvType
  next : ℕ
  sentInvs : ℕ
  /-- `*reqWriteback`. -/
  writeback : Bool

/-- Where the access that holds the tcc lock stands. -/
inductive Stage where
  /-- It also holds the bcc lock. -/
  | running
  /-- It waits for the writeback of its victim. -/
  | writingBack (wbLineAddr : Address)
  /-- It waits for its line. -/
  | fetching
  deriving DecidableEq

/-- The parent and its children. -/
structure State where
  /-- The parent's own states; I where it has no line. -/
  own : Address → MESIState
  entry : Address → Entry
  child : ℕ → Address → MESIState
  request : ℕ → Option Request
  serving : Option (ℕ × Stage)
  loop : Option Loop

/-- All caches empty and idle. -/
def State.init : State := ⟨fun _ => .I, fun _ => .clear, fun _ _ => .I, fun _ => none, none, none⟩

/-- Replace a child's request. -/
def State.setRequest (st : State) (c : ℕ) (r : Option Request) : State :=
  { st with request := Function.update st.request c r }

/-- The line of address `b` becomes the line of address `a`. -/
def State.reuseLine (st : State) (a b : Address) : State :=
  { st with entry := Function.update (Function.update st.entry a (st.entry b)) b .clear }

abbrev Act (α : Type) := Prog State Failure α

def setOwn (a : Address) (s : MESIState) : Act Unit :=
  change fun st => { st with own := Function.update st.own a s }

def setEntry (a : Address) (e : Entry) : Act Unit :=
  change fun st => { st with entry := Function.update st.entry a e }

def setChild (c : ℕ) (a : Address) (s : MESIState) : Act Unit :=
  change fun st => { st with child := Function.update st.child c (Function.update (st.child c) a s) }

def setServing (c : ℕ) (stage : Stage) : Act Unit :=
  change fun st => { st with serving := some (c, stage) }

def setLoop (l : Option Loop) : Act Unit := change fun st => { st with loop := l }

/-- `endAccess`, and the child's return. -/
def endAccess (c : ℕ) : Act Unit :=
  change fun st => { st.setRequest c none with serving := none }

section Rules

variable (st : State) (c : ℕ) (a : Address) (Q : Unit → State → Prop)

@[simp] theorem wp_setOwn (s : MESIState) : wp (setOwn a s) Q st ↔
    Q () { st with own := Function.update st.own a s } := wp_change ..

@[simp] theorem wp_setEntry (e : Entry) : wp (setEntry a e) Q st ↔
    Q () { st with entry := Function.update st.entry a e } := wp_change ..

@[simp] theorem wp_setChild (s : MESIState) : wp (setChild c a s) Q st ↔
    Q () { st with child := Function.update st.child c (Function.update (st.child c) a s) } :=
  wp_change ..

@[simp] theorem wp_setServing (stage : Stage) : wp (setServing c stage) Q st ↔
    Q () { st with serving := some (c, stage) } := wp_change ..

@[simp] theorem wp_setLoop (l : Option Loop) : wp (setLoop l) Q st ↔
    Q () { st with loop := l } := wp_change ..

@[simp] theorem wp_endAccess : wp (endAccess c) Q st ↔
    Q () { st.setRequest c none with serving := none } := wp_change ..

end Rules

/-- The start of `sendInvalidates`; without anything to send, the caller goes
on at once. -/
def sendInvalidates (purpose : Purpose) (a : Address) (type : InvType) (next : Bool → Act Unit) :
    Act Unit := do
  let e ← observe fun st => st.entry a
  if (type = .INVX ∧ e.isExclusive = false) ∨ e.isEmpty = true then next false
  else setLoop (some ⟨purpose, a, type, 0, 0, false⟩)

/-- `MESIBottomCC::processWritebackOnAccess`, if the loop induced a writeback. -/
def processWritebackOnAccess (a : Address) (inducedWriteback : Bool) : Act Unit :=
  if inducedWriteback = true then do
    let s ← observe fun st => st.own a
    ensure (s.exclusive = true) .writebackNeedsExclusive
    setOwn a .M
  else pure ()

/-- `MESITopCC::processAccess`, the end of a GETS answered in S. -/
def grantShared (c : ℕ) (a : Address) (inducedWriteback : Bool) : Act Unit := do
  let e ← observe fun st => st.entry a
  ensure (e.isExclusive = false) .getsExclusive
  setEntry a { e.addSharer c with exclusive := false }
  setChild c a .S
  processWritebackOnAccess a inducedWriteback
  endAccess c

/-- `MESITopCC::processAccess`, the end of a GETX. -/
def grantExclusive (c : ℕ) (a : Address) (inducedWriteback : Bool) : Act Unit := do
  let e ← observe fun st => st.entry a
  setEntry a { e.addSharer c with exclusive := true }
  ensure (e.numSharers + 1 = 1) .getxSharers
  setChild c a .M
  processWritebackOnAccess a inducedWriteback
  endAccess c

/-- `MESITopCC::processAccess`, the common end of the PUTs. -/
def removeSharer (c : ℕ) (a : Address) : Act Unit := do
  let e ← observe fun st => st.entry a
  ensure (e.sharers c = true) .putNotSharer
  setEntry a (e.dropSharer c)
  setChild c a .I
  endAccess c

/-- `MESITopCC::processAccess`. -/
def topAccess (c : ℕ) (r : Request) : Act Unit := do
  let e ← observe fun st => st.entry r.lineAddr
  let s ← observe fun st => st.own r.lineAddr
  match r.type with
  | .PUTX => do
    ensure (e.isExclusive = true) .putxEntry
    removeSharer c r.lineAddr
  | .PUTS => removeSharer c r.lineAddr
  | .GETS =>
    if e.isEmpty = true ∧ s.exclusive = true ∧ r.noexcl = false then do
      setEntry r.lineAddr ⟨1, Function.update e.sharers c true, true⟩
      setChild c r.lineAddr .E
      endAccess c
    else do
      ensure (e.sharers c = false) .getsSharer
      if e.isExclusive = true then
        sendInvalidates (.grant c) r.lineAddr .INVX (grantShared c r.lineAddr)
      else grantShared c r.lineAddr false
  | .GETX => do
    ensure (s.exclusive = true) .getxNotExclusive
    (if e.sharers c = true then do
        ensure (e.isExclusive = false) .spuriousGetx
        setEntry r.lineAddr (e.dropSharer c)
      else pure ())
    sendInvalidates (.grant c) r.lineAddr .INV (grantExclusive c r.lineAddr)

/-- `MESICC::processAccess` with `MESIBottomCC::processAccess`, up to the point
where the line is fetched. -/
def processAccess (c : ℕ) (r : Request) : Act Unit := do
  let s ← observe fun st => st.own r.lineAddr
  match r.type with
  | .PUTS => do
    ensure (s ≠ .I) .nonInclusive
    topAccess c r
  | .PUTX => do
    ensure (s ≠ .I) .nonInclusive
    ensure (s.exclusive = true) .putxNotExclusive
    setOwn r.lineAddr .M
    topAccess c r
  | .GETS => if s = .I then setServing c .fetching else topAccess c r
  | .GETX =>
    if s = .I ∨ s = .S then setServing c .fetching
    else do
      setOwn r.lineAddr .M
      topAccess c r

/-- `postinsert` gives the victim's line to the requested address. -/
def insert (c : ℕ) (r : Request) (wbLineAddr : Address) : Act Unit := do
  change fun st => st.reuseLine r.lineAddr wbLineAddr
  processAccess c r

/-- `MESIBottomCC::processEviction`, up to the writeback. -/
def bottomEviction (c : ℕ) (r : Request) (wbLineAddr : Address) (lowerLevelWriteback : Bool) :
    Act Unit := do
  (if lowerLevelWriteback = true then do
      let s ← observe fun st => st.own wbLineAddr
      ensure (s.exclusive = true) .writebackNeedsExclusive
      setOwn wbLineAddr .M
    else pure ())
  let s ← observe fun st => st.own wbLineAddr
  if s = .I then insert c r wbLineAddr else setServing c (.writingBack wbLineAddr)

/-- `startAccess` of a child's request with both locks taken, and what follows
up to the next wait. The lookup has found the line, or missed and chosen the
line of `victim`. -/
def startAccess (c : ℕ) (r : Request) (victim : Option Address) : Act Unit := do
  let s ← observe fun st => st.child c r.lineAddr
  match checkForMESIRace r.type s r.initialState with
  | .error e => abort e
  | .ok (true, _) => endAccess c
  | .ok (false, type) => do
    setServing c .running
    let r := { r with type := type }
    match victim with
    | none => processAccess c r
    | some b => do
      ensure (r.type = .GETS ∨ r.type = .GETX) .lostInclusion
      sendInvalidates (.evict c) b .INV (bottomEviction c r b)

/-- The answer to the request the parent is waiting for: the writeback is done,
or its line is in the given state. -/
def answer (c : ℕ) (r : Request) (stage : Stage) (s : MESIState) : Act Unit :=
  match stage with
  | .running => pure ()
  | .writingBack b => do
    setOwn b .I
    setServing c .running
    insert c r b
  | .fetching => do
    setOwn r.lineAddr s
    setServing c .running
    topAccess c r

/-- `MESIBottomCC::processInval` of the parent. -/
def bottomInval (a : Address) (type : InvType) : Act Unit := do
  let s ← observe fun st => st.own a
  ensure (s ≠ .I) .invalInvalid
  ensure (type = .INVX → s.exclusive = true) .invxState
  setOwn a (invState type s)

/-- Note in a waiting request that its dirty line has been signalled. -/
def Request.signal (r : Request) (a : Address) (dirty : Bool) : Request :=
  if r.lineAddr = a then { r with signalled := r.signalled || dirty } else r

def signal (c : ℕ) (a : Address) (dirty : Bool) : Act Unit :=
  change fun st => st.setRequest c ((st.request c).map fun r => r.signal a dirty)

/-- `children[c]->invalidate`: whether it sets `*reqWriteback`. Dirty data may
also come from the levels below a child with exclusive permission. -/
def invalidateChild (c : ℕ) (a : Address) (type : InvType) (dirtyBelow : Bool) : Act Bool := do
  let s ← observe fun st => st.child c a
  ensure (s ≠ .I) .invalInvalid
  ensure (type = .INVX → s.exclusive = true) .invxState
  let dirty := s == .M || (dirtyBelow && s.exclusive)
  setChild c a (invState type s)
  signal c a dirty
  pure dirty

/-- The caller of `sendInvalidates` goes on. -/
def resume (l : Loop) : Act Unit := do
  match l.purpose with
  | .evict c => do
    let r ← observe fun st => st.request c
    match r with
    | none => pure ()
    | some r => bottomEviction c r l.lineAddr l.writeback
  | .grant c =>
    match l.type with
    | .INV => grantExclusive c l.lineAddr l.writeback
    | _ => grantShared c l.lineAddr l.writeback
  | .inval => bottomInval l.lineAddr l.type

/-- One round of the loop of `sendInvalidates`, or its end. -/
def invalidateNext (n : ℕ) (l : Loop) (dirtyBelow : Bool) : Act Unit := do
  let e ← observe fun st => st.entry l.lineAddr
  if l.next < n then
    if e.sharers l.next = true then do
      let dirty ← invalidateChild l.next l.lineAddr l.type dirtyBelow
      (if l.type = .INV then
          setEntry l.lineAddr { e with sharers := Function.update e.sharers l.next false }
        else pure ())
      setLoop (some { l with
        next := l.next + 1, sentInvs := l.sentInvs + 1, writeback := l.writeback || dirty })
    else setLoop (some { l with next := l.next + 1 })
  else do
    ensure (l.sentInvs = e.numSharers) .sentInvs
    (if l.type = .INV then setEntry l.lineAddr { e with numSharers := 0 }
      else do
        ensure (e.exclusive = true ∧ e.numSharers = 1) .downgradeNotExclusive
        setEntry l.lineAddr { e with exclusive := false })
    setLoop none
    resume l

/-- The steps. -/
inductive Label where
  /-- A child stores to a line it holds in E. -/
  | silent (c : ℕ) (a : Address)
  /-- A child builds a request and releases its lock. -/
  | issue (c : ℕ) (type : AccessType) (a : Address) (noexcl : Bool)
  /-- The parent takes up a waiting request. -/
  | start (c : ℕ) (victim : Option Address)
  /-- The running loop looks at the next child. -/
  | next (dirtyBelow : Bool)
  /-- The parent's own parent answers. -/
  | answer (s : MESIState)
  /-- The parent's own parent sends an invalidation. -/
  | inval (type : InvType) (a : Address)

/-- The states of a line in which a child builds a request of the type. -/
def requestable : AccessType → MESIState → Bool
  | .GETS, s => s == .I
  | .GETX, s => s == .I || s == .S
  | .PUTS, s => s == .S || s == .E
  | .PUTX, s => s == .M

/-- The states a request of the type may be answered with. -/
def answerable : AccessType → MESIState → Bool
  | .GETS, s => s == .S || s == .E
  | .GETX, s => s == .M
  | _, _ => false

/-- The invalidations a line can receive. -/
def invalidatable : InvType → MESIState → Bool
  | .INV, s => s != .I
  | .INVX, s => s.exclusive
  | .FWD, _ => false

/-- The bcc lock is free. -/
def State.bccFree (st : State) : Bool :=
  st.loop.isNone && match st.serving with
    | some (_, .running) => false
    | _ => true

/-- The action of a step that can be taken. The parent's own parent keeps the
protocol; so do the children's own accesses. -/
def action (n : ℕ) (st : State) : Label → Option (Act Unit)
  | .silent c a =>
    if (st.request c).isNone = true ∧ st.child c a = .E then some (setChild c a .M) else none
  | .issue c type a noexcl =>
    if c < n ∧ (st.request c).isNone = true ∧ requestable type (st.child c a) = true then
      some (change fun st => st.setRequest c (some ⟨type, a, st.child c a, noexcl, false⟩))
    else none
  | .start c victim =>
    match st.request c with
    | none => none
    | some r =>
      if st.serving.isNone = true ∧ st.loop.isNone = true ∧
          ∀ b ∈ victim, st.own r.lineAddr = .I ∧ b ≠ r.lineAddr then
        some (startAccess c r victim)
      else none
  | .next dirtyBelow =>
    match st.loop with
    | none => none
    | some l => some (invalidateNext n l dirtyBelow)
  | .answer s =>
    match st.serving with
    | none => none
    | some (c, stage) =>
      match st.request c with
      | none => none
      | some r =>
        if st.bccFree = true ∧ (stage = .fetching → answerable r.type s = true) then
          some (answer c r stage s)
        else none
  | .inval type a =>
    if st.bccFree = true ∧ invalidatable type (st.own a) = true then
      some (sendInvalidates .inval a type fun _ => bottomInval a type)
    else none

/-- One step; a failure ends the run. -/
def step (n : ℕ) : Except Failure State → Label → Option (Except Failure State)
  | .error _, _ => none
  | .ok st, l => (action n st l).map fun act => (act st).map Prod.snd

end Zsim.MESIRace
