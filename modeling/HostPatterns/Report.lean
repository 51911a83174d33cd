/-
  HostPatterns.Report — records checked against a pattern set: how many resolve to
  their own address, and a finding for each that does not.
-/

import HostPatterns.PatternSet

namespace HostPatterns

inductive Finding where
  | notFound (domain : Domain)
  | mismatch (domain : Domain) (expected actual : Ipv4)
  deriving DecidableEq, Repr

namespace Finding

def isNotFound : Finding → Bool
  | .notFound _ => true
  | .mismatch .. => false

def text : Finding → String
  | .notFound d => s!"{d.string} not found"
  | .mismatch d expected actual => s!"{d.string} {expected} {actual}"

end Finding

structure Report where
  matched : Nat
  total : Nat
  /-- In the order of the records. -/
  findings : Array Finding
  deriving DecidableEq, Repr

namespace Report

def empty : Report := ⟨0, 0, #[]⟩

def check (s : PatternSet) (rep : Report) (r : Record) : Report :=
  match s.resolve? r.domain with
  | none => { rep with total := rep.total + 1, findings := rep.findings.push (.notFound r.domain) }
  | some ip =>
    if ip = r.ip then { rep with total := rep.total + 1, matched := rep.matched + 1 }
    else { rep with total := rep.total + 1, findings := rep.findings.push (.mismatch r.domain r.ip ip) }

def isComplete (rep : Report) : Bool := rep.matched == rep.total

def notFound (rep : Report) : Nat := rep.findings.countP Finding.isNotFound

def mismatches (rep : Report) : Nat := rep.findings.size - rep.notFound

/-- A line for each finding, then the two counts. -/
def text (rep : Report) : String :=
  "".intercalate (rep.findings.toList.map (·.text ++ "\n")) ++ s!"{rep.matched} {rep.total}"

end Report

/-- Look up the domain of every record. -/
def PatternSet.validate (s : PatternSet) (rs : List Record) : Report := rs.foldl (Report.check s) .empty

end HostPatterns
