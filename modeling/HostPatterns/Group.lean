/-
  HostPatterns.Group — the domains that resolve to one address, and the grouping of
  records by address.

  A domain belongs to the address of its first record; later records of it are
  dropped and counted. Groups stand in the order in which their addresses appear
  among the records that are kept, and so do the domains inside a group.
-/

import HostPatterns.Hosts
import Std.Data.ExtTreeMap
import Std.Data.ExtTreeSet

namespace HostPatterns

structure Group where
  ip : Ipv4
  /-- Written patterns: a domain, or a domain behind a dot for it and everything below it. -/
  domains : List Text
  deriving DecidableEq, Repr

section

variable {α κ : Type} [Ord κ] [Std.TransOrd κ] (key : α → κ)

/-- Put `x` in front of what was kept, unless its key was seen. -/
def keepUnseen (st : Std.ExtTreeSet κ × List α) (x : α) : Std.ExtTreeSet κ × List α :=
  if st.1.contains (key x) then st else (st.1.insert (key x), x :: st.2)

/-- The first element of each key, in order. -/
def firstOfEach (xs : List α) : List α := (xs.foldl (keepUnseen key) (∅, [])).2.reverse

end

structure Grouping where
  groups : List Group
  /-- The records that were kept. -/
  records : List Record
  duplicates : Nat
  deriving DecidableEq, Repr

namespace Grouping

/-- The domains of each address, under the address as a number. -/
def members (rs : List Record) : Std.ExtTreeMap Nat (Array Domain) :=
  rs.foldl (fun m r => m.alter r.ip.toNat fun ds => some ((ds.getD #[]).push r.domain)) ∅

def ofRecords (rs : List Record) : Grouping :=
  let kept := firstOfEach Record.domain rs
  let domains := members kept
  let leaders := firstOfEach (·.ip.toNat) kept
  { groups := leaders.map fun r => ⟨r.ip, (domains[r.ip.toNat]?.getD #[]).toList⟩
    records := kept
    duplicates := rs.length - kept.length }

end Grouping

end HostPatterns
