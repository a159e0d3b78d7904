import Mathlib.Data.List.Basic
import Mathlib.Data.List.Infix
import Mathlib.Tactic.TypeStar

/-!
# The names of a path

A path is a text with slashes, and its names are what stands between them.
Repeated slashes and those at the end count for nothing. Names are spelled with
one slash before each of them. A text that begins with the spelling of some
names has them as its first names, unless the last one goes on.
-/

namespace Zsim.PathNames

/-- What stands between two slashes. -/
abbrev Name := List Char

/-- A text with slashes. -/
abbrev Path := List Char

/-- Not empty, and without a slash. -/
def IsName (n : Name) : Prop := n ≠ [] ∧ '/' ∉ n

instance (n : Name) : Decidable (IsName n) := inferInstanceAs (Decidable (_ ∧ _))

/-- The names of a path. -/
def names (p : Path) : List Name := (p.splitOn '/').filter (· ≠ [])

/-- Names with a slash before each of them. -/
def spell (ns : List Name) : Path := ns.flatMap ('/' :: ·)

@[simp] theorem spell_cons (n : Name) (ns : List Name) : spell (n :: ns) = '/' :: n ++ spell ns := rfl

end Zsim.PathNames
