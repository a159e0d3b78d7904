import Zsim.SchedRuns

/-!
# Cleaning up a killed process

The watchdog finishes the threads of a process that was killed, whatever they
were about to do. The threads of the other processes keep their places, unless
a thread of the process was a side of a hand-off, was about to sleep, or gave
its context away while the barrier held it.
-/

namespace Zsim.SchedQueues

open Sched GuardedRuns

/-- `getPid`. -/
def getPid (gid : ℕ) : ℕ := gid >>> 16

/-- The thread is in a queue, on a context, or chosen by a live thread. -/
def Placed (s : Sched) (g : ℕ) : Prop :=
  g ∈ s.runQueue ∨ g ∈ s.outQueue ∨ g ∈ s.sleepQueue ∨
    (∃ c < s.numCores, (s.context c).curThread = some g) ∨
    ∃ v ∈ s.live, (s.thread v).state = .running ∧ (s.thread v).handoffThread = some g

instance (s : Sched) (g : ℕ) : Decidable (Placed s g) := inferInstanceAs (Decidable (_ ∨ _))

section Cleanup

variable {s : Sched} {g : ℕ} {avail : List ℕ} {doomed : List (ℕ × List ℕ)}

/-- Only a thread that is outside has no place. -/
theorem Inv.placed_iff (hinv : Inv s none) (hg : g ∈ s.live) :
    Placed s g ↔ (s.thread g).state ≠ .started ∧ (s.thread g).state ≠ .blocked := by
  have hqueued := hinv.queued g
  have hout := hinv.out g
  have hsleeping := hinv.sleeping g
  constructor
  · intro hplaced
    obtain hrun | hrun | hrun | ⟨c, -, hon⟩ | ⟨v, hv, -, hhand⟩ := hplaced
    · grind
    · grind
    · grind
    · have hoccupied := hinv.occupied c g hon
      grind
    · have hhandoff := hinv.handoff v hv g hhand
      grind
  · intro hstate
    have hplaced := hinv.placed g hg
    have hoccupies := hinv.occupies g hg
    have hlt := hinv.cid_lt g hg
    unfold Placed
    cases hst : (s.thread g).state with
    | started => exact absurd hst hstate.1
    | blocked => exact absurd hst hstate.2
    | out => exact .inr (.inl (hout.mpr ⟨hg, hst⟩))
    | sleeping => exact .inr (.inr (.inl (hsleeping.mpr ⟨hg, hst⟩)))
    | running => exact .inr (.inr (.inr (.inl ⟨_, hlt, (hoccupies (.inl hst)).1⟩)))
    | queued =>
      cases hplaced hst with
      | inl hrun => exact .inl hrun
      | inr hvictim =>
        obtain ⟨v, hv, hhand⟩ := hvictim
        exact .inr (.inr (.inr (.inr ⟨v, hv, (hinv.handoff v hv g hhand).1, hhand⟩)))

/-- A thread keeps its place when another thread is finished, but for a sleeper
whose deadline comes. -/
theorem Carries.placed {s' : Sched} {t : ℕ} (hcarries : Carries s s' t) (hinv : Inv s none) (hinv' : Inv s' none)
    (ht : t ∈ s.live) (ht' : t ∈ s'.live) (hplaced : Placed s t) :
    Placed s' t ∨ t ∈ s.sleepQueue ∧ (s'.thread t).state = .blocked := by
  obtain ⟨hstarted, hblocked⟩ := (hinv.placed_iff ht).mp hplaced
  rw [hinv'.placed_iff ht']
  obtain ⟨-, hsame | ⟨-, hrunning⟩ | ⟨hsleeping, hwoken⟩⟩ := hcarries
  · rw [hsame]
    exact .inl ⟨hstarted, hblocked⟩
  · rw [hrunning]
    exact .inl ⟨nofun, nofun⟩
  · exact .inr ⟨(hinv.sleeping t).mpr ⟨ht, hsleeping⟩, hwoken⟩

end Cleanup

end Zsim.SchedQueues
