import Zsim.DDRMapping
import Zsim.PathNames

/-!
# Patched opens

An open is redirected below a root of its own if its path leads to a faked one.
The path is resolved one link at a time, and each of the paths in between is
compared with the faked ones as a text. The kernel resolves a path name by name
from where it starts; it is at a place, named from the root, and has names left.
-/

namespace Zsim.OpenPatches

open DDRMapping PathNames

/-- Stays where it is. -/
def dot : Name := ['.']

/-- Goes up. -/
def dotdot : Name := ['.', '.']

/-- The links of a file system: what `readlink` reads, by the names from the root. -/
structure FileSystem where
  link : List Name → Option Path
  nonempty : ∀ place target, link place = some target → target ≠ []

/-- A working directory: a place without links on the way to it. -/
structure Directory (fs : FileSystem) where
  place : List Name
  isName : ∀ n ∈ place, IsName n ∧ n ≠ dot ∧ n ≠ dotdot
  real : ∀ p, p <+: place → fs.link p = none

/-- The paths that are faked, by their names. -/
structure FakedPaths where
  paths : List (List Name)
  nonempty : ∀ f ∈ paths, f ≠ []
  isName : ∀ f ∈ paths, ∀ n ∈ f, IsName n ∧ n ≠ dot ∧ n ≠ dotdot

section Source

def isAbsolute (path : Path) : Bool := path.head? == some '/'

/-- Does the path begin with the text of a faked one? -/
def matchesFaked (faked : FakedPaths) (curPath : Path) : Bool :=
  faked.paths.any fun f => (spell f).isPrefixOf curPath

end Source

/-- A resolution by the kernel. -/
structure Walk where
  place : List Name
  rest : List Name

namespace Walk

/-- One name further. -/
def step (fs : FileSystem) : Walk → Option Walk
  | ⟨_, []⟩ => none
  | ⟨place, n :: rest⟩ =>
    if n = dot then some ⟨place, rest⟩
    else if n = dotdot then some ⟨place.dropLast, rest⟩
    else
      match fs.link (place ++ [n]) with
      | none => some ⟨place ++ [n], rest⟩
      | some target => some ⟨if isAbsolute target = true then [] else place, names target ++ rest⟩

/-- The place of a walk, and that of the name it looks up. -/
def At (w : Walk) (p : List Name) : Prop :=
  p = w.place ∨ ∃ n rest, w.rest = n :: rest ∧ n ≠ dot ∧ n ≠ dotdot ∧ p = w.place ++ [n]

/-- The walk passes through the place, or ends there. -/
def Visits (fs : FileSystem) (w : Walk) (p : List Name) : Prop :=
  ∃ w', Relation.ReflTransGen (fun w w' => step fs w = some w') w w' ∧ w'.At p

end Walk

/-- Where the kernel starts; it resolves no empty path. -/
def kernelWalk {fs : FileSystem} (cwd : Directory fs) (dirfd : Option (Directory fs)) (fileName : Path) : Option Walk :=
  if fileName = [] then none
  else if isAbsolute fileName = true then some ⟨[], names fileName⟩
  else some ⟨(dirfd.getD cwd).place, names fileName⟩

/-- The resolution passes through or ends at a faked path or below it. -/
def Passes {fs : FileSystem} (faked : FakedPaths) (cwd : Directory fs) (dirfd : Option (Directory fs))
    (fileName : Path) : Prop :=
  ∃ w, kernelWalk cwd dirfd fileName = some w ∧ ∃ f ∈ faked.paths, ∃ p, f <+: p ∧ w.Visits fs p

end Zsim.OpenPatches
