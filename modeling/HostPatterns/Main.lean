/-
  HostPatterns.Main — the program: arguments and environment in, files on the disk,
  output, message and exit code out.
-/

import HostPatterns.CommandLine

namespace HostPatterns

/-- The system numbers its errors from 1, or downwards from -1. -/
def errorNumber (code : UInt32) : Nat := if code < 0x80000000 then code.toNat else (0 - code).toNat

def Fault.ofDisk : IO.Error → Fault
  | .noFileOrDirectory .. => .missing
  | .inappropriateType _ code details =>
    match errorNumber code with
    | 20 => .notDirectory
    | 21 => .isDirectory
    | _ => .other details
  | .invalidArgument _ code details => if errorNumber code = 36 then .tooLong else .other details
  | e => .other (toString e)

instance : Files IO where
  read p := do
    match ← (IO.FS.readBinFile p.string).toBaseIO with
    | .ok bytes => return .ok bytes
    | .error e => return .error (.ofDisk e)
  create p bytes := do
    match ← (IO.FS.writeBinFile p.string bytes).toBaseIO with
    | .ok () => return .ok ()
    | .error e => return .error (.ofDisk e)
  kind? p := do
    let entry : IO.FS.DirEntry := ⟨p.string, ""⟩
    match ← entry.root.metadata.toBaseIO with
    | .ok found => return some (if found.type == .file then .file else .directory)
    | .error _ => return none

def defaultAt (name : String) : IO (Option Path) := return (← IO.getEnv name).map String.toList

end HostPatterns

open HostPatterns in
def main (args : List String) : IO UInt32 := do
  let defaults : CommandLine.Defaults :=
    ⟨← defaultAt "HOSTS_WILDCARD_INPUT", ← defaultAt "HOSTS_WILDCARD_OUTPUT"⟩
  let result ← CommandLine.call defaults (args.map String.toList)
  IO.print result.output
  match result.message with
  | some message => IO.eprintln message
  | none => if result.exitCode ≠ 0 then IO.eprint CommandLine.usage
  return result.exitCode.toUInt32
