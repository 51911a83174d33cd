/-
  HostPatterns.Pattern — a pattern names one domain, or a domain and everything
  below it; a binding gives a pattern its address.

  A pattern is written as its domain, behind a dot if it is a wildcard. Reading a
  written pattern takes one dot away, so a wildcard may be written of any domain,
  but an exact pattern's domain cannot start with a dot.
-/

import HostPatterns.Group

namespace HostPatterns

inductive Pattern where
  /-- The domain alone. -/
  | exact (d : Domain)
  /-- The domain and everything below it. -/
  | wildcard (d : Domain)
  deriving DecidableEq, Repr

namespace Pattern

def domain : Pattern → Domain
  | .exact d => d
  | .wildcard d => d

def isWildcard : Pattern → Bool
  | .exact _ => false
  | .wildcard _ => true

def kindName : Pattern → String
  | .exact _ => "exact"
  | .wildcard _ => "wildcard"

def render : Pattern → Text
  | .exact d => d
  | .wildcard d => '.' :: d

def ofText : Text → Pattern
  | '.' :: d => .wildcard d
  | d => .exact d

def normalize : Pattern → Pattern
  | .exact d => .exact d.normalize
  | .wildcard d => .wildcard d.normalize

@[simp] theorem ofText_render_wildcard (d : Domain) : ofText (wildcard d).render = .wildcard d := rfl

@[simp] theorem render_ofText (t : Text) : (ofText t).render = t := by
  unfold ofText; split <;> rfl

theorem ofText_eq_exact_iff {t : Text} {d : Domain} : ofText t = .exact d ↔ t = d ∧ d.head? ≠ some '.' := by
  unfold ofText
  split
  · exact iff_of_false nofun fun h => h.2 (h.1 ▸ rfl)
  · rename_i hdot
    constructor
    · intro h
      cases h
      refine ⟨rfl, fun hd => ?_⟩
      obtain ⟨rest, rfl⟩ := List.head?_eq_some_iff.mp hd
      exact hdot rest rfl
    · intro h
      rw [h.1]

end Pattern

structure Binding where
  pattern : Pattern
  ip : Ipv4
  deriving DecidableEq, Repr

namespace Binding

def render (b : Binding) : Text := b.ip.render ++ '\t' :: b.pattern.render

/-- The group whose only member is the binding's pattern. -/
def toGroup (b : Binding) : Group := ⟨b.ip, [b.pattern.render]⟩

end Binding

end HostPatterns
