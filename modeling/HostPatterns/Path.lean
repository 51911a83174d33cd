/-
  HostPatterns.Path — file paths as given, and the components by which two of them
  are the same path.

  Repeated and trailing slashes do not count, nor does a `.` piece, except where it
  starts a relative path; `..` is kept, since what it leads to is for the file tree
  to say. So `d//h`, `d/./h` and `d/h/` are one path, and `./h` is not `h`.
-/

import HostPatterns.Text

namespace HostPatterns

abbrev Path := Text

namespace Path

inductive Component where
  | root
  | here
  | up
  | name (n : Text)
  deriving DecidableEq, Repr

/-- The texts between slashes, empty ones included. -/
def pieces (p : Path) : List Text := p.splitOn '/'

/-- Whether the path leads from the root. -/
def isRooted (p : Path) : Bool := p.head? == some '/'

def component? : Text → Option Component
  | [] => none
  | ['.'] => none
  | ['.', '.'] => some .up
  | n => some (.name n)

/-- What the first piece counts for at the front of a path. -/
def lead : List Text → List Component
  | [] :: _ :: _ => [.root]
  | ['.'] :: _ => [.here]
  | _ => []

def components (p : Path) : List Component := lead p.pieces ++ p.pieces.filterMap component?

/-- A path has fewer bytes than this. -/
def byteLimit : Nat := 4096

/-- Most bytes of a name. -/
def maxNameBytes : Nat := 255

/-- Whether two paths have the same components. -/
def same (p q : Path) : Bool := p.components == q.components

end Path

end HostPatterns
