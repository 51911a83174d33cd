/-
  HostPatterns.Hosts — the hosts text: one address and one domain a line.

  Trimmed of blanks, a line is a comment (empty, or starting with `#`), a record, or
  neither, in which case it is skipped. A record's line starts with an address, then
  a field that does not start with `#` and still has a character when normalized;
  fields after these two are ignored.
-/

import HostPatterns.Domain
import HostPatterns.Ipv4

namespace HostPatterns

/-- A domain and the address it resolves to. -/
structure Record where
  ip : Ipv4
  domain : Domain
  deriving DecidableEq, Repr

namespace Record

def normalized (ip : Ipv4) (domain : Domain) : Record := ⟨ip, domain.normalize⟩

def ofLine? (t : Text) : Option Record :=
  match t.fields with
  | address :: name :: _ => do
    let ip ← Ipv4.parse? address
    let r := normalized ip name
    if name.head? = some '#' ∨ r.domain = [] then none else some r
  | _ => none

end Record

inductive HostLine where
  | comment
  | record (r : Record)
  | skipped
  deriving DecidableEq, Repr

namespace HostLine

def ofText (line : Text) : HostLine :=
  let t := line.trim
  if t = [] ∨ t.head? = some '#' then .comment
  else match Record.ofLine? t with
    | some r => .record r
    | none => .skipped

def record? : HostLine → Option Record
  | .record r => some r
  | _ => none

end HostLine

/-- What a hosts text holds: its records in line order, and how many lines were something else. -/
structure Hosts where
  records : List Record
  skipped : Nat
  comments : Nat
  deriving DecidableEq, Repr

def Hosts.ofText (t : Text) : Hosts :=
  let lines := t.lines.map HostLine.ofText
  ⟨lines.filterMap HostLine.record?, lines.count .skipped, lines.count .comment⟩

end HostPatterns
