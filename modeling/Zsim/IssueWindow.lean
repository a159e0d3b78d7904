import Mathlib.Algebra.Order.Ring.Int
import Zsim.WeakestPre
import Mathlib.Data.Int.Notation
import Mathlib.Data.Nat.Notation
import Mathlib.Logic.Function.Basic

/-!
# The issue window of the out-of-order core

A uop waits for the first cycle in which one of its ports is free. The cycles of the near
future are kept in two windows that take turns, and those beyond them in a map. A uop that
holds its port longer takes further cycles of it, and the load-store unit takes cycles of a
port away, without occupying the window. Cycles are counted without bound.
-/

namespace Zsim.IssueWindow

open WeakestPre

/-- The ports of a cycle that are taken, and the uops among what has taken them. -/
structure WinCycle where
  occUnits : BitVec 8
  count : ℕ
  deriving DecidableEq

/-- A cycle of which nothing is taken. -/
def WinCycle.empty : WinCycle := ⟨0, 0⟩

/-- `WindowStructure`, and the cycle its caller passes. -/
structure Window where
  curCycle : ℕ
  curWin : ℕ → WinCycle
  nextWin : ℕ → WinCycle
  /-- In the order of the cycles. -/
  ubWin : List (ℕ × WinCycle)
  occupancy : ℕ
  curPos : ℕ
  lastPort : ℕ

/-- The assertions of the window, and a loop that does not end. -/
inductive WindowFailure where
  /-- `success` -/
  | noPort
  /-- "WindowStructure: ubWin elem exceeds limit" -/
  | beyondLimit
  /-- `occupancy <= WSZ` -/
  | overfull
  /-- `curCycle <= targetCycle`, `curCycle == targetCycle` -/
  | badTarget
  | endless
  deriving DecidableEq, Repr

abbrev Act (α : Type) := Prog Window WindowFailure α

/-- The difference of two `uint32_t`. -/
def sub32 (x y : ℕ) : ℕ := (x + 2 ^ 32 - y) % 2 ^ 32

/-- `availMask`. -/
def WinCycle.avail (wc : WinCycle) (portMask : BitVec 8) : BitVec 8 := ~~~wc.occUnits &&& portMask

/-- `__builtin_ffs(mask) - 1`. -/
def firstPort (mask : BitVec 8) : ℕ := ((List.range 8).find? fun i => mask.getLsbD i).getD 0

/-- The ports a request takes: one for a uop, and otherwise all of its mask. -/
def ports (touchOccupancy : Bool) (availMask portMask : BitVec 8) : BitVec 8 :=
  if touchOccupancy = true then (1 : BitVec 8) <<< firstPort availMask else portMask

/-- A cycle after `trySchedule` has found a port. -/
def WinCycle.take (wc : WinCycle) (touchOccupancy : Bool) (portMask : BitVec 8) : WinCycle where
  occUnits := wc.occUnits ||| ports touchOccupancy (wc.avail portMask) portMask
  count := if touchOccupancy = true then (wc.count + 1) % 2 ^ 8 else wc.count

/-- Where a request was served, and the mask that was available there. -/
structure Booking where
  cycle : ℕ
  availMask : BitVec 8

/-- The first of `n` positions from `pos` on where a port of the mask is free. -/
def search (win : ℕ → WinCycle) (portMask : BitVec 8) : ℕ → ℕ → Option ℕ
  | 0, _ => none
  | n + 1, pos => if (win pos).avail portMask ≠ 0 then some pos else search win portMask n (pos + 1)

/-- Enter a cycle into the map; its ports must be free. -/
def enter (touchOccupancy : Bool) (portMask : BitVec 8) (cycle : ℕ) (wc : WinCycle)
    (rest : List (ℕ × WinCycle)) : Option (Booking × List (ℕ × WinCycle)) :=
  if wc.avail portMask ≠ 0 then
    some (⟨cycle, wc.avail portMask⟩, (cycle, wc.take touchOccupancy portMask) :: rest)
  else none

/-- The loop from `ubWin.lower_bound(schedCycle)` on. -/
def placeFar (touchOccupancy : Bool) (portMask : BitVec 8) :
    ℕ → List (ℕ × WinCycle) → Option (Booking × List (ℕ × WinCycle))
  | schedCycle, [] => enter touchOccupancy portMask schedCycle .empty []
  | schedCycle, (cycle, wc) :: rest =>
    if cycle < schedCycle then
      (placeFar touchOccupancy portMask schedCycle rest).map fun r => (r.1, (cycle, wc) :: r.2)
    else if cycle ≠ schedCycle then
      enter touchOccupancy portMask schedCycle .empty ((cycle, wc) :: rest)
    else if wc.avail portMask ≠ 0 then
      enter touchOccupancy portMask cycle wc rest
    else
      (placeFar touchOccupancy portMask (schedCycle + 1) rest).map fun r => (r.1, (cycle, wc) :: r.2)

/-- Take a position of the current window. -/
def Window.setCur (w : Window) (pos : ℕ) (wc : WinCycle) : Window :=
  { w with curWin := Function.update w.curWin pos wc }

/-- Take a position of the next window. -/
def Window.setNext (w : Window) (pos : ℕ) (wc : WinCycle) : Window :=
  { w with nextWin := Function.update w.nextWin pos wc }

section Methods

variable (H WSZ : ℕ)

/-- What `scheduleInternal` does in a window that is not full. -/
def Window.book (touchOccupancy : Bool) (w : Window) (schedCycle : ℕ) (portMask : BitVec 8) :
    Option (Booking × Window) :=
  let delay := if schedCycle > w.curCycle then (schedCycle - w.curCycle) % 2 ^ 32 else 0
  let curWinPos := (w.curPos + delay) % 2 ^ 32
  match search w.curWin portMask (H - curWinPos) curWinPos with
  | some pos => some (⟨w.curCycle + sub32 pos w.curPos, (w.curWin pos).avail portMask⟩,
      w.setCur pos ((w.curWin pos).take touchOccupancy portMask))
  | none =>
    let nextWinPos := max curWinPos H - H
    match search w.nextWin portMask (H - nextWinPos) nextWinPos with
    | some pos => some (⟨w.curCycle + sub32 (pos + H) w.curPos, (w.nextWin pos).avail portMask⟩,
        w.setNext pos ((w.nextWin pos).take touchOccupancy portMask))
    | none =>
      let far := w.curCycle + sub32 (max nextWinPos H + H) w.curPos
      (placeFar touchOccupancy portMask far w.ubWin).map fun r => (r.1, { w with ubWin := r.2 })

/-- Move the cycles before the horizon out of the map. -/
def moveFar (curCycle nextWinHorizon : ℕ) :
    List (ℕ × WinCycle) → (ℕ → WinCycle) → Option ((ℕ → WinCycle) × List (ℕ × WinCycle))
  | [], nextWin => some (nextWin, [])
  | (cycle, wc) :: rest, nextWin =>
    if cycle < nextWinHorizon then
      let nextWinPos := (((cycle : ℤ) - H - curCycle) % 2 ^ 32).toNat
      if nextWinPos < H then moveFar curCycle nextWinHorizon rest (Function.update nextWin nextWinPos wc)
      else none
    else some (nextWin, (cycle, wc) :: rest)

/-- The rebase of `advancePos`. -/
def Window.rebase (w : Window) : Option Window :=
  (moveFar H w.curCycle (w.curCycle + 2 * H % 2 ^ 32) w.ubWin w.curWin).map fun r =>
    { w with curWin := w.nextWin, nextWin := r.1, ubWin := r.2, curPos := 0 }

/-- The first lines of `advancePos`. -/
def Window.pass (w : Window) : Window :=
  { w with
    occupancy := sub32 w.occupancy (w.curWin w.curPos).count
    curWin := Function.update w.curWin w.curPos .empty
    curPos := w.curPos + 1
    curCycle := w.curCycle + 1 }

/-- `advancePos`. -/
def advancePos : Act Unit := do
  change Window.pass
  let w ← observe id
  if w.curPos = H then
    match w.rebase H with
    | some w => change fun _ => w
    | none => abort .beyondLimit
  else pure ()

/-- So many calls of `advancePos`. -/
def advances : ℕ → Act Unit
  | 0 => pure ()
  | n + 1 => do
    advancePos H
    advances n

/-- The loop of `longAdvance`. -/
def drain (targetCycle : ℕ) : ℕ → Act Unit
  | 0 => abort .endless
  | rounds + 1 => do
    let w ← observe id
    if w.occupancy ≠ 0 ∧ w.curCycle < targetCycle then do
      advancePos H
      drain targetCycle rounds
    else pure ()

/-- `longAdvance`. -/
def longAdvance (targetCycle : ℕ) : Act Unit := do
  let w ← observe id
  ensure (w.curCycle ≤ targetCycle) .badTarget
  drain H targetCycle (targetCycle - w.curCycle + 1)
  let w ← observe id
  if w.occupancy ≠ 0 then ensure (w.curCycle = targetCycle) .badTarget
  else do
    ensure (w.curCycle ≤ targetCycle) .badTarget
    change fun w => { w with curCycle := targetCycle }

/-- The wait of a uop for room in the window. -/
def stall : ℕ → Act Unit
  | 0 => abort .endless
  | rounds + 1 => do
    let occupancy ← observe Window.occupancy
    if occupancy = WSZ then do
      advancePos H
      stall rounds
    else pure ()

/-- Rounds that are enough to get past all that is booked. -/
def Window.span (w : Window) : ℕ := 2 * H + (w.ubWin.map Prod.fst).foldr max 0 + 2

/-- `scheduleInternal`, with the ports it takes. -/
def scheduleInternal (touchOccupancy recordPort : Bool) (schedCycle : ℕ) (portMask : BitVec 8) :
    Act (ℕ × BitVec 8) := do
  let w ← observe id
  if touchOccupancy = true then stall H WSZ (w.span H) else pure ()
  let w ← observe id
  match w.book H touchOccupancy schedCycle portMask with
  | none => abort .noPort
  | some (b, w) => do
    change fun _ =>
      { w with
        lastPort := if recordPort = true then firstPort b.availMask else w.lastPort
        occupancy := if touchOccupancy = true then (w.occupancy + 1) % 2 ^ 32 else w.occupancy }
    pure (b.cycle, ports touchOccupancy b.availMask portMask)

/-- The extra slots of a uop. -/
def extraSlot (portMask : BitVec 8) : ℕ → ℕ → Act (List (ℕ × BitVec 8))
  | 0, _ => pure []
  | n + 1, extraSlotCycle => do
    let b ← scheduleInternal H WSZ false false extraSlotCycle portMask
    let rest ← extraSlot portMask n (b.1 + 1)
    pure (b :: rest)

/-- `schedule`; it answers where the uop and its extra slots are. -/
def schedule (schedCycle : ℕ) (portMask : BitVec 8) (extraSlots : ℕ) :
    Act ((ℕ × BitVec 8) × List (ℕ × BitVec 8)) := do
  let b ← scheduleInternal H WSZ true (extraSlots ≠ 0) schedCycle portMask
  let lastPort ← observe Window.lastPort
  let extra ← extraSlot H WSZ ((1 : BitVec 8) <<< lastPort) extraSlots (b.1 + 1)
  let occupancy ← observe Window.occupancy
  ensure (occupancy ≤ WSZ) .overfull
  pure (b, extra)

/-- The loop of `poisonRange`; each round takes a cycle before the target, except the last. -/
def poison (targetCycle : ℕ) (portMask : BitVec 8) : ℕ → ℕ → Act (List (ℕ × BitVec 8))
  | 0, _ => abort .endless
  | rounds + 1, poisonCycle =>
    if poisonCycle < targetCycle then do
      let b ← scheduleInternal H WSZ false false poisonCycle portMask
      let rest ← poison targetCycle portMask rounds b.1
      pure (b :: rest)
    else pure []

/-- `poisonRange`. -/
def poisonRange (targetCycle : ℕ) (portMask : BitVec 8) : Act (List (ℕ × BitVec 8)) := do
  let curCycle ← observe Window.curCycle
  poison H WSZ targetCycle portMask (8 * (targetCycle - curCycle) + 2) curCycle

end Methods

/-- The constructor. -/
def Window.new (curCycle : ℕ) : Window where
  curCycle := curCycle
  curWin _ := .empty
  nextWin _ := .empty
  ubWin := []
  occupancy := 0
  curPos := 0
  lastPort := 0

/-- A window with what has been asked of it: where its uops are, with their ports, and which
ports of each cycle have been booked or poisoned. -/
structure Core where
  win : Window
  uops : List (ℕ × ℕ)
  taken : ℕ → BitVec 8

inductive Op where
  | schedule (schedCycle : ℕ) (portMask : BitVec 8) (extraSlots : ℕ)
  | poisonRange (targetCycle : ℕ) (portMask : BitVec 8)
  | advancePos
  | longAdvance (targetCycle : ℕ)

/-- Add a booking. -/
def mark (taken : ℕ → BitVec 8) (b : ℕ × BitVec 8) : ℕ → BitVec 8 :=
  Function.update taken b.1 (taken b.1 ||| b.2)

/-- One call. A uop has a port and asks for a cycle that is at most `2 ^ 31` cycles ahead, and a jump
leads ahead; after a failure there are no calls. -/
def step (H WSZ : ℕ) : Except WindowFailure Core → Op → Option (Except WindowFailure Core)
  | .error _, _ => none
  | .ok s, .schedule schedCycle portMask extraSlots =>
    if portMask ≠ 0 ∧ schedCycle ≤ s.win.curCycle + 2 ^ 31 ∧ extraSlots < 2 ^ 32 then
      some ((schedule H WSZ schedCycle portMask extraSlots s.win).map fun r =>
        { win := r.2
          uops := (r.1.1.1, firstPort r.1.1.2) :: s.uops
          taken := (r.1.1 :: r.1.2).foldl mark s.taken })
    else none
  | .ok s, .poisonRange targetCycle portMask =>
    some ((poisonRange H WSZ targetCycle portMask s.win).map fun r =>
      { s with win := r.2, taken := r.1.foldl mark s.taken })
  | .ok s, .advancePos => some ((advancePos H s.win).map fun r => { s with win := r.2 })
  | .ok s, .longAdvance targetCycle =>
    if s.win.curCycle ≤ targetCycle then
      some ((longAdvance H targetCycle s.win).map fun r => { s with win := r.2 })
    else none

/-- A new window. -/
def Core.start (curCycle : ℕ) : Core := ⟨.new curCycle, [], fun _ => 0⟩

end Zsim.IssueWindow
