/-
  HostPatterns.FileTree — a file system of plain files and directories, without
  links, in which paths are followed.

  A place is the list of names on the way from the root, `[]` being the root itself,
  which is always a directory. A path with a slash in front is followed from the root,
  any other one from the start, the place where the program runs; that is reached by
  its own names, and if it is no directory, nothing is reached from it. A path is
  followed piece by piece, and each step needs a directory to start from; an empty
  piece (from a slash too many or at the end) stays where it is, as `.` does, and
  `..` leads up, at the root back to the root. The last piece may lead to a place
  where nothing stands yet.

  Some paths are refused whatever stands in the tree: the empty one, one with a NUL,
  and one that is too long. A name that is too long is refused where it is met.
-/

import HostPatterns.Files
import Std.Data.ExtTreeMap

namespace HostPatterns

abbrev Place := List Text

inductive Node where
  | file (bytes : ByteArray)
  | directory

namespace Node

def kind : Node → FileKind
  | .file _ => .file
  | .directory => .directory

/-- Its size in bytes, if it is a file. -/
def size? : Node → Option Nat
  | .file bytes => some bytes.size
  | .directory => none

end Node

structure FileTree where
  nodes : Std.ExtTreeMap Place Node
  /-- Where relative paths start. -/
  start : Place := []

namespace FileTree

def empty : FileTree := { nodes := ∅ }

def get? (t : FileTree) (here : Place) : Option Node :=
  if here = [] then some .directory else t.nodes[here]?

def put (t : FileTree) (here : Place) (n : Node) : FileTree := { t with nodes := t.nodes.insert here n }

/-! ## Following paths -/

/-- Where a piece leads from a directory. -/
def goTo (here : Place) (piece : Text) : Place :=
  match piece with
  | [] => here
  | ['.'] => here
  | ['.', '.'] => here.dropLast
  | name => here ++ [name]

def enter (t : FileTree) (here : Place) (piece : Text) : Except Fault Place :=
  match t.get? here with
  | none => .error .missing
  | some (.file _) => .error .notDirectory
  | some .directory => if Path.maxNameBytes < piece.byteLength then .error .tooLong else .ok (goTo here piece)

/-- Follow pieces from the root. -/
def walk (t : FileTree) (pieces : List Text) : Except Fault Place := pieces.foldlM t.enter []

/-- The place a path is followed from. -/
def origin (t : FileTree) (p : Path) : Place := if p.isRooted then [] else t.start

/-- Why no tree has anything at the path, if none has. -/
def refusal? (p : Path) : Option Fault :=
  if '\x00' ∈ p then some .holdsNul
  else if p = [] then some .missing
  else if Path.byteLimit ≤ p.byteLength then some .tooLong
  else none

def locate (t : FileTree) (p : Path) : Except Fault Place :=
  match refusal? p with
  | some fault => .error fault
  | none => t.walk (t.origin p ++ p.pieces)

/-- The place a new file at the path would have: the last piece must be a name, with no slash behind
    it, and no directory may stand there. -/
def locateNew (t : FileTree) (p : Path) : Except Fault Place :=
  match refusal? p, p.pieces.reverse.dropWhile (· == []) with
  | some fault, _ => .error fault
  | none, [] => .error .isDirectory
  | none, last :: above => do
    let up ← t.enter (← t.walk (t.origin p ++ above.reverse)) []
    if p.getLast? = some '/' then .error .isDirectory
    else
      let here ← t.enter up last
      if here ≠ up ++ [last] then .error .isDirectory
      else match t.get? here with
        | some .directory => .error .isDirectory
        | _ => .ok here

/-! ## Requests -/

def node? (t : FileTree) (p : Path) : Option Node := (t.locate p).toOption.bind t.get?

def read (t : FileTree) (p : Path) : Except Fault ByteArray := do
  match t.get? (← t.locate p) with
  | none => .error .missing
  | some .directory => .error .isDirectory
  | some (.file bytes) => .ok bytes

def create (t : FileTree) (p : Path) (bytes : ByteArray) : Except Fault FileTree := do
  return t.put (← t.locateNew p) (.file bytes)

instance : Files (StateM FileTree) where
  read p := fun t => (t.read p, t)
  create p bytes := fun t =>
    match t.create p bytes with
    | .ok t' => (.ok (), t')
    | .error fault => (.error fault, t)
  kind? p := fun t => ((t.node? p).map Node.kind, t)

/-- Carry out an action on the tree: its result, and the tree as it leaves it. -/
def perform {ε α : Type} (t : FileTree) (action : ExceptT ε (StateM FileTree) α) : Except ε α × FileTree := action.run t

/-! ## Building a tree -/

/-- Follow pieces from the root, and make a directory wherever nothing stands. -/
def makeAlong (t : FileTree) (pieces : List Text) : Except Fault FileTree :=
  let step := fun (st : FileTree × Place) piece => do
    let here ← st.1.enter st.2 piece
    match st.1.get? here with
    | none => .ok (st.1.put here .directory, here)
    | some _ => .ok (st.1, here)
  (pieces.foldlM step (t, [])).map (·.1)

def makeDirectory (t : FileTree) (p : Path) : Except Fault FileTree := t.makeAlong (t.origin p ++ p.pieces)

/-- Write a file, making the directories above it. -/
def plant (t : FileTree) (p : Path) (bytes : ByteArray) : Except Fault FileTree := do
  (← t.makeAlong (t.origin p ++ p.pieces.dropLast)).create p bytes

/-- Everything below the root, each under its names joined by slashes. -/
def toList (t : FileTree) : List (Path × Node) := t.nodes.toList.map fun x => (['/'].intercalate x.1, x.2)

end FileTree

end HostPatterns
