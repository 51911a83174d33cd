/-
  HostPatterns.Conversion — from a hosts file to a pattern file, and the check of a
  pattern file against a hosts file.

  A conversion refuses an output that is its input, path for path, before it touches
  any file; it then reads, compacts, writes, and, unless told not to, reads the
  written file again and validates the kept records against that. A fault stops it
  where it is: what was written stays.
-/

import HostPatterns.Compaction
import HostPatterns.PatternSet.Reading
import HostPatterns.Report

namespace HostPatterns

structure Conversion where
  input : Path := "hosts.txt".toList
  /-- Where to write, unless next to the input. -/
  output : Option Path := none
  comparison : Comparison := .labelBoundary
  validates : Bool := true
  deriving DecidableEq, Repr

/-- The output, by default the input's path with an extension put behind it. -/
def Conversion.target (c : Conversion) : Path := c.output.getD (c.input ++ ".vhosts".toList)

structure Summary where
  output : Path
  /-- Records read, with those that were dropped as duplicates. -/
  records : Nat
  skipped : Nat
  duplicates : Nat
  groups : Nat
  patterns : Nat
  validation : Option Report
  deriving DecidableEq, Repr

section

variable {m : Type → Type} [Monad m] [Files m]

/-- A file access whose fault is an error about the file. -/
def access {α : Type} (p : Path) (request : m (Except Fault α)) : ExceptT Error m α := do
  match ← request with
  | .ok x => pure x
  | .error fault => throw (.inaccessible p fault)

def Hosts.load (p : Path) : ExceptT Error m Hosts := return .ofText (← access p (Files.readText p))

def PatternSet.load (p : Path) : ExceptT Error m PatternSet := do
  match PatternSet.parse (← access p (Files.readText p)) with
  | .ok s => pure s
  | .error e => throw e

def PatternSet.save (s : PatternSet) (p : Path) : ExceptT Error m Unit := access p (Files.create p s.render.bytes)

def Conversion.run (c : Conversion) : ExceptT Error m Summary := do
  let output := c.target
  if output.same c.input then throw (.overwritesInput output)
  let hosts ← Hosts.load c.input
  let grouping := Grouping.ofRecords hosts.records
  let patterns := compact c.comparison grouping.groups
  patterns.save output
  let validation ← if c.validates then
      let written ← PatternSet.load output
      pure (some (written.validate grouping.records))
    else pure none
  return {
    output
    records := hosts.records.length
    skipped := hosts.skipped
    duplicates := grouping.duplicates
    groups := grouping.groups.length
    patterns := patterns.size
    validation }

/-- Validate the kept records of a hosts file against a pattern file. -/
def validateFiles (hosts patterns : Path) : ExceptT Error m Report := do
  let grouping := Grouping.ofRecords (← Hosts.load hosts).records
  let s ← PatternSet.load patterns
  return s.validate grouping.records

end

end HostPatterns
