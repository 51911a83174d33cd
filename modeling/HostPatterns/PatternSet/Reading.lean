/-
  HostPatterns.PatternSet.Reading — the pattern file read line by line.

  A line that is not blank has an address and a pattern on the two sides of its first
  tab, each trimmed of blanks; the pattern's domain is normalized and must then have
  a character. A line may repeat an earlier binding, but not give its pattern another
  address. The first line that breaks a rule is the error, whatever follows it.
-/

import HostPatterns.Error
import HostPatterns.PatternSet

namespace HostPatterns

/-- The binding on line `n`, given without the blanks around it. -/
def Binding.ofLine (n : Nat) (t : Text) : Except Error Binding :=
  match t.cut? '\t' with
  | none => .error (.noTab n t)
  | some (address, written) =>
    match Ipv4.parse? address.trim with
    | none => .error (.badAddress n address.trim)
    | some ip =>
      let p := (Pattern.ofText written.trim).normalize
      if p.domain = [] then .error (.emptyDomain n) else .ok ⟨p, ip⟩

namespace PatternSet

/-- Add a binding read on line `n`. -/
def bind (s : PatternSet) (n : Nat) (b : Binding) : Except Error PatternSet :=
  match s.get? b.pattern with
  | some old => if old.ip = b.ip then .ok s else .error (.rebound n b.pattern old.ip b.ip)
  | none => .ok (s.insert b)

/-- Read one line, numbered from 1 with blank lines counted. -/
def readLine (s : PatternSet) (line : Text × Nat) : Except Error PatternSet :=
  let t := line.1.trim
  if t = [] then .ok s else do s.bind line.2 (← Binding.ofLine line.2 t)

def parse (t : Text) : Except Error PatternSet := (t.lines.zipIdx 1).foldlM readLine ∅

end PatternSet

end HostPatterns
