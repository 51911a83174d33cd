/-
  HostPatterns.Owners — which addresses have a name where, over all groups.

  For each name two questions are asked during compaction: does another address have
  a name at or below this one, and does another address have a name strictly above
  it. Both need only tell one address from several, so the summary keeps an address
  or `many`, and nothing else about who is there.

  A member counts by its domain: a wildcard member counts where its domain is.
-/

import HostPatterns.Pattern

namespace HostPatterns

inductive Owner where
  | one (ip : Ipv4)
  | many
  deriving DecidableEq, Repr

namespace Owner

def join : Owner → Ipv4 → Owner
  | .one o, ip => if o = ip then .one o else .many
  | .many, _ => .many

def isOther (ip : Ipv4) : Owner → Bool
  | .one o => o != ip
  | .many => true

end Owner

/-! ## Owners by name -/

/-- A name behind its length. In this order names of different lengths, such as those of one
    ancestry, are told apart without a look at their characters. -/
abbrev SizedName := Nat × Domain

instance : Ord SizedName := lexOrd

def Domain.sized (d : Domain) : SizedName := (d.length, d)

@[simp] theorem Domain.sized_inj {d e : Domain} : d.sized = e.sized ↔ d = e := by
  simp only [sized, Prod.mk.injEq]
  exact ⟨And.right, fun h => ⟨congrArg List.length h, h⟩⟩

abbrev OwnerMap := Std.ExtTreeMap SizedName Owner

namespace OwnerMap

def get? (m : OwnerMap) (d : Domain) : Option Owner := m[d.sized]?

/-- The owner of a name after a claim of `ip` to it. -/
def joined (ip : Ipv4) : Option Owner → Owner
  | none => .one ip
  | some o => o.join ip

def claim (m : OwnerMap) (ip : Ipv4) (d : Domain) : OwnerMap := m.alter d.sized fun o => some (joined ip o)

/-- Whether an address other than `ip` has claimed the name. -/
def heldByOther (m : OwnerMap) (ip : Ipv4) (d : Domain) : Bool := (m.get? d).any (·.isOther ip)

@[simp] theorem get?_empty (d : Domain) : (∅ : OwnerMap).get? d = none := by simp [get?]

theorem get?_claim (m : OwnerMap) (ip : Ipv4) (d e : Domain) :
    (m.claim ip d).get? e = if d = e then some (joined ip (m.get? d)) else m.get? e := by
  simp [get?, claim, Std.ExtTreeMap.getElem?_alter]

end OwnerMap

/-! ## Owners above and below -/

structure Owners where
  /-- Who has a member at or below a name. -/
  reach : OwnerMap
  /-- Who has a member at a name. -/
  names : OwnerMap

namespace Owners

def addMember (ip : Ipv4) (o : Owners) (member : Text) : Owners :=
  let d := (Pattern.ofText member).domain
  ⟨d.ancestry.foldl (·.claim ip) o.reach, o.names.claim ip d⟩

def addGroup (o : Owners) (g : Group) : Owners := g.domains.foldl (addMember g.ip) o

def ofGroups (gs : List Group) : Owners := gs.foldl addGroup ⟨∅, ∅⟩

/-- Some address other than `ip` has a member at or below `d`. -/
def claimedByOther (o : Owners) (ip : Ipv4) (d : Domain) : Bool := o.reach.heldByOther ip d

/-- Some address other than `ip` has a member strictly above `d`. -/
def otherAbove (o : Owners) (ip : Ipv4) (d : Domain) : Bool := d.ancestry.tail.any (o.names.heldByOther ip)

end Owners

end HostPatterns
