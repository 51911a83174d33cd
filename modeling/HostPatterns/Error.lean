/-
  HostPatterns.Error — everything that can stop a run, and the wording of each.
-/

import HostPatterns.Files
import HostPatterns.Pattern

namespace HostPatterns

inductive Error where
  /-- A line of a pattern file without a tab. -/
  | noTab (line : Nat) (content : Text)
  | badAddress (line : Nat) (field : Text)
  | emptyDomain (line : Nat)
  /-- A pattern bound to one address on an earlier line and to another here. -/
  | rebound (line : Nat) (pattern : Pattern) (first second : Ipv4)
  | overwritesInput (output : Path)
  | inaccessible (path : Path) (fault : Fault)
  | interrupted (fault : Fault)
  deriving DecidableEq, Repr

def Error.message : Error → String
  | .noTab line content => s!"Parse error at line {line}: expected <ip>\\t<pattern>, got: {content.string}"
  | .badAddress line field => s!"Parse error at line {line}: invalid IPv4 address: {field.string}"
  | .emptyDomain line => s!"Invalid pattern: line {line}: empty pattern domain"
  | .rebound line pattern first second =>
    s!"Invalid pattern: line {line}: {pattern.render.string} bound to both {first} and {second}"
  | .overwritesInput output => s!"Config error: output would overwrite input: {output.string}"
  | .inaccessible path fault => s!"Failed to access '{path.string}': {fault.message}"
  | .interrupted fault => s!"IO error: {fault.message}"

end HostPatterns
