/-
  HostPatterns.Files — what the tool asks of a file system: read a file, write one
  anew, tell what stands at a path. Each request that fails has a cause.
-/

import HostPatterns.Path

namespace HostPatterns

/-- Why a file could not be read or written. -/
inductive Fault where
  | missing
  | isDirectory
  | notDirectory
  /-- A path, or a name on it, has more bytes than a file system takes. -/
  | tooLong
  /-- A path holds the character NUL, which ends a path for the system. -/
  | holdsNul
  /-- The content is not the UTF-8 form of a text. -/
  | notText
  /-- The place written to took only a part. -/
  | noRoom
  | other (description : String)
  deriving DecidableEq, Repr

def Fault.message : Fault → String
  | .missing => "No such file or directory (os error 2)"
  | .isDirectory => "Is a directory (os error 21)"
  | .notDirectory => "Not a directory (os error 20)"
  | .tooLong => "File name too long (os error 36)"
  | .holdsNul => "file name contained an unexpected NUL byte"
  | .notText => "stream did not contain valid UTF-8"
  | .noRoom => "failed to write whole buffer"
  | .other description => description

inductive FileKind where
  | file
  | directory
  deriving DecidableEq, Repr

class Files (m : Type → Type) where
  read : Path → m (Except Fault ByteArray)
  /-- Write a file, replacing what it held. -/
  create : Path → ByteArray → m (Except Fault Unit)
  /-- What stands at a path, if anything. -/
  kind? : Path → m (Option FileKind)

/-- The text of a file. -/
def Files.readText {m : Type → Type} [Monad m] [Files m] (p : Path) : m (Except Fault Text) := do
  match ← Files.read p with
  | .error fault => return .error fault
  | .ok bytes => return (Text.ofBytes? bytes).elim (.error .notText) .ok

end HostPatterns
