import Mathlib.Data.List.TakeWhile
import Zsim.OpenPatches

/-!
# What the loop of an open sees

The loop looks at a path as it is given, at each path in which a link has been
replaced, and at the path without links. Between two looks it goes on by names,
takes `.` for one, and goes up by cutting the last name. A faked path is caught
if one of these looks begins with it, and the kernel passes it whenever it gets
there; a passage that begins and ends between two looks is not seen.
-/

namespace Zsim.OpenLooks

open DDRMapping PathNames OpenPatches

/-- Where the names between two looks lead: to their end or to a link, by which way,
and whether it has gone up to the root. -/
inductive Stop where
  | ended (way : List Name) (rooted : Bool)
  | link (way : List Name) (rooted : Bool) (target : Path) (rest : List Name)

/-- The place of a way. -/
def placeOf (way : List Name) : List Name := way.filter (· ≠ dot)

/-- From a look to the next one. -/
def stretch (fs : FileSystem) : List Name → Bool → List Name → Stop
  | way, rooted, [] => .ended way rooted
  | way, rooted, n :: rest =>
    if n = dotdot then stretch fs way.dropLast (rooted || way.length ≤ 1) rest
    else if n = dot then stretch fs (way ++ [n]) rooted rest
    else
      match fs.link (placeOf (way ++ [n])) with
      | none => stretch fs (way ++ [n]) rooted rest
      | some target => .link way rooted target rest

/-- The path in which a link has been replaced. A way over the root is spelled with
more than one slash at the beginning. -/
def replaced (way : List Name) (rooted : Bool) (target : Path) (rest : List Name) : Path :=
  (if isAbsolute target = true then target
    else (if rooted = true then ['/'] else []) ++ spell way ++ '/' :: '/' :: target) ++ spell rest

section Texts

variable {way : List Name} {n : Name}

/-- What stands before a way that has gone up to the root. -/
def Lead (rooted : Bool) (lead : Path) : Prop :=
  match rooted with
  | false => lead = []
  | true => lead = ['/'] ∨ lead = ['/', '/']

/-- The text of a way without slashes at its end. -/
def Reads (rooted : Bool) (p : Path) (way : List Name) : Prop :=
  way = [] ∧ (p = ['/'] ∨ p = ['/', '/']) ∨ way ≠ [] ∧ ∃ lead, Lead rooted lead ∧ p = lead ++ spell way

/-- What the loop of `resolvepath` returns where the names stop. -/
def Returns (result : Path) : Stop → Prop
  | .ended way rooted => Reads rooted result way
  | .link way rooted target rest => ∃ lead, Lead rooted lead ∧
    result = (if isAbsolute target = true then target else lead ++ spell way ++ '/' :: '/' :: target) ++ spell rest

end Texts

section Straight

variable {fs : FileSystem} {way : List Name}

/-- A way along which there is no link and nothing to go up. -/
def Straight (fs : FileSystem) (way : List Name) : Prop :=
  ∀ u n, u ++ [n] <+: way → n ≠ dotdot ∧ (n ≠ dot → fs.link (placeOf (u ++ [n])) = none)

theorem Straight.mono {w : List Name} (h : Straight fs way) (hw : w <+: way) : Straight fs w :=
  fun u n hu => h u n (hu.trans hw)

theorem Straight.further (h : Straight fs way) {n : Name} (hup : n ≠ dotdot)
    (hlink : n ≠ dot → fs.link (placeOf (way ++ [n])) = none) : Straight fs (way ++ [n]) := by
  intro u m hu
  cases List.prefix_concat_iff.mp hu with
  | inl he =>
    obtain ⟨rfl, hm⟩ := List.append_inj' he rfl
    cases hm
    exact ⟨hup, hlink⟩
  | inr hu => exact h u m hu

/-- A straight way is gone to its end. -/
theorem Straight.stretch {u v : List Name} (h : Straight fs (u ++ v)) (rooted : Bool) :
    stretch fs u rooted v = .ended (u ++ v) rooted := by
  induction v generalizing u with
  | nil => rw [List.append_nil]; rfl
  | cons n v ih =>
    have hassoc : u ++ n :: v = (u ++ [n]) ++ v := by simp
    have hn := h u n (by rw [hassoc]; exact List.prefix_append _ _)
    rw [hassoc] at h ⊢
    by_cases hdot : n = dot
    · simp only [OpenLooks.stretch, if_neg hn.1, if_pos hdot]
      exact ih h
    · simp only [OpenLooks.stretch, if_neg hn.1, if_neg hdot, hn.2 hdot]
      exact ih h

end Straight

section Loop

variable {fs : FileSystem} {faked : FakedPaths} {cwd : Path} {way : List Name}

/-- No faked path begins with two slashes. -/
theorem matchesFaked_slashes (faked : FakedPaths) (p : Path) : matchesFaked faked ('/' :: '/' :: p) = false := by
  rw [matchesFaked, List.any_eq_false]
  intro f hf hbegin
  obtain ⟨n, g, hg⟩ := List.exists_cons_of_ne_nil (faked.nonempty f hf)
  have hn := (faked.isName f hf n (by rw [hg]; exact List.mem_cons_self)).1
  obtain ⟨c, m, hm⟩ := List.exists_cons_of_ne_nil hn.1
  rw [hg, spell_cons, hm, List.isPrefixOf_iff_prefix] at hbegin
  have hc := (List.cons_prefix_cons.mp (List.cons_prefix_cons.mp hbegin).2).1
  rw [hm, hc] at hn
  exact hn.2 List.mem_cons_self

/-- Two paths that the loop takes for one: both begin with more than one slash. -/
def Alike (s text : Path) : Prop :=
  s = text ∨ names s = names text ∧ (∃ p, s = '/' :: '/' :: p) ∧ ∃ q, text = '/' :: '/' :: q

theorem Alike.names {s text : Path} (h : Alike s text) : names s = names text := by
  cases h with
  | inl h => rw [h]
  | inr h => exact h.1

theorem Alike.matchesFaked {s text : Path} (h : Alike s text) (faked : FakedPaths) :
    matchesFaked faked s = matchesFaked faked text := by
  cases h with
  | inl h => rw [h]
  | inr h =>
    obtain ⟨-, ⟨p, hp⟩, q, hq⟩ := h
    rw [hp, hq, matchesFaked_slashes, matchesFaked_slashes]

end Loop

section Kernel

variable {fs : FileSystem} {faked : FakedPaths} {way : List Name} {w : Walk}

/-- The walk gets this far. -/
def Reaches (fs : FileSystem) : Walk → Walk → Prop := Relation.ReflTransGen fun w w' => w.step fs = some w'

end Kernel

section Opens

variable {fs : FileSystem} {faked : FakedPaths} {cwd : Directory fs} {dirfd : Option (Directory fs)} {fileName : Path}

end Opens

end Zsim.OpenLooks
