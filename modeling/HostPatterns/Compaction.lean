/-
  HostPatterns.Compaction — groups compacted into a set of few patterns.

  The members of a group are walked in the order of their names read backwards, which
  puts everything below a name right behind it. A run starts at a member and goes on
  as long as its name so far shares a suffix with the next member that is not blocked;
  the shared suffix is then its name. A run ends as one pattern: exact if its name is
  still its last member, a wildcard otherwise.

  A suffix is blocked for an address if a wildcard there could meet another address:
  a pattern of another address is bound at the suffix or above it, or another address
  has a member at, below or above it. Groups are taken largest first, those of one
  size in their own order, so that broad suffixes go to the addresses with the most
  domains.
-/

import HostPatterns.Domain.Shared
import HostPatterns.Owners
import HostPatterns.PatternSet

namespace HostPatterns

/-- Sort by a key that is computed once for each element; equal keys stay in order. -/
def sortOn {α κ : Type} (key : α → κ) (le : κ → κ → Bool) (xs : List α) : List α :=
  ((xs.map fun x => (key x, x)).mergeSort fun a b => le a.1 b.1).map (·.2)

theorem sortOn_eq {α κ : Type} (key : α → κ) (le : κ → κ → Bool) (xs : List α) :
    sortOn key le xs = xs.mergeSort fun a b => le (key a) (key b) := by
  have h : ∀ a ∈ xs.map (fun x => (key x, x)), ∀ b ∈ xs.map (fun x => (key x, x)),
      le a.1 b.1 = le (key a.2) (key b.2) := by
    intro a ha b hb
    obtain ⟨x, _, rfl⟩ := List.mem_map.mp ha
    obtain ⟨y, _, rfl⟩ := List.mem_map.mp hb
    rfl
  rw [sortOn, List.map_mergeSort (f := Prod.snd) (s := fun x y => le (key x) (key y)) h, List.map_map]
  congr 1
  exact List.map_id xs

/-- The bytes of a name's UTF-8 form from the last to the first. -/
def Domain.backwards (d : Domain) : List Nat := (d.flatMap String.utf8EncodeChar).reverse.map UInt8.toNat

/-- The members of a group as patterns, without those of the empty name, in walking order. -/
def Group.seeds (g : Group) : List Pattern :=
  sortOn (·.domain.backwards) (fun a b => !b.lex a) ((g.domains.map Pattern.ofText).filter (·.domain != []))

/-- Consecutive members of a group under one name. -/
structure Run where
  name : Domain
  last : Pattern
  deriving DecidableEq, Repr

namespace Run

def start (p : Pattern) : Run := ⟨p.domain, p⟩

/-- The run with one more member, if its name shares an unblocked suffix with it. -/
def extend? (m : Comparison) (blocked : Domain → Bool) (r : Run) (p : Pattern) : Option Run :=
  match Domain.shared? m r.name p.domain with
  | none => none
  | some d => if blocked d then none else some ⟨d, p⟩

def pattern (r : Run) : Pattern := if r.last = .exact r.name then r.last else .wildcard r.name

/-- The closed runs, newest in front, and the open one, after one more member. -/
def step (m : Comparison) (blocked : Domain → Bool) (st : List Run × Run) (p : Pattern) : List Run × Run :=
  match st.2.extend? m blocked p with
  | some r => (st.1, r)
  | none => (st.2 :: st.1, start p)

/-- The runs of members in walking order. -/
def ofSeeds (m : Comparison) (blocked : Domain → Bool) : List Pattern → List Run
  | [] => []
  | p :: ps =>
    let st := ps.foldl (step m blocked) ([], start p)
    (st.2 :: st.1).reverse

end Run

/-- Whether a wildcard of `ip` at `d` could meet another address. -/
def blocked (o : Owners) (s : PatternSet) (ip : Ipv4) (d : Domain) : Bool :=
  d.ancestry.any (fun a => (s.bindingsAt a).any (·.ip != ip)) || o.claimedByOther ip d || o.otherAbove ip d

/-- Add the patterns of one group. -/
def PatternSet.addGroup (o : Owners) (m : Comparison) (s : PatternSet) (g : Group) : PatternSet :=
  (Run.ofSeeds m (blocked o s g.ip) g.seeds).foldl (fun s r => s.insert ⟨r.pattern, g.ip⟩) s

/-- Largest group first. -/
def processingOrder (gs : List Group) : List Group := sortOn (·.domains.length) (fun a b => b ≤ a) gs

def compact (m : Comparison) (gs : List Group) : PatternSet :=
  (processingOrder gs).foldl (PatternSet.addGroup (Owners.ofGroups gs) m) ∅

end HostPatterns
