/-
  HostPatterns.Domain — domain names as the tool handles them: any text, cut into
  labels by dots, most specific label first.

  The ancestry of a name is the name itself and what follows each of its dots, so
  `a.b.com` has `a.b.com`, `b.com`, `com`. Nothing is required of a label: it may be
  empty, hence `a.` has the ancestor "", and the empty name has no ancestry at all.
  `below d p` reads the same order at the other end of the name: `d` ends in `.p`.
-/

import HostPatterns.Text

namespace HostPatterns

abbrev Domain := Text

namespace Domain

/-- Without one dot at the end (the DNS root), and in lower case; only ASCII letters have a case. -/
def normalize (d : Domain) : Domain :=
  (if d.getLast? = some '.' then d.dropLast else d).map Char.toLower

def labelCount (d : Domain) : Nat := if d = [] then 0 else d.count '.' + 1

/-- What follows each dot, the longest rest first. -/
def parents : Domain → List Domain
  | [] => []
  | c :: d => if c = '.' then d :: parents d else parents d

/-- The name and everything above it, most specific first. -/
def ancestry (d : Domain) : List Domain := if d = [] then [] else d :: parents d

/-- `d` lies strictly below `p`. -/
def below (d p : Domain) : Bool := p != [] && ('.' :: p).isSuffixOf d

theorem below_iff {d p : Domain} : below d p = true ↔ p ≠ [] ∧ '.' :: p <:+ d := by
  simp [below]

theorem length_parents (d : Domain) : (parents d).length = d.count '.' := by
  induction d with
  | nil => rfl
  | cons c d ih => by_cases h : c = '.' <;> simp [parents, h, ih]

theorem mem_parents {d p : Domain} : p ∈ parents d ↔ '.' :: p <:+ d := by
  induction d with
  | nil => simp [parents]
  | cons c d ih =>
    by_cases h : c = '.'
    · subst h; simp [parents, ih, List.suffix_cons_iff]
    · have : ¬ '.' = c := fun e => h e.symm
      simp [parents, h, ih, List.suffix_cons_iff, this]

end Domain

end HostPatterns
