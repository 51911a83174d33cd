/-
  HostPatterns.PatternSet — bindings in the order they were added, with an index
  from each pattern to its place.

  No pattern is bound twice: the first binding of a pattern stays. A domain resolves
  through its exact binding, else through the wildcard at the most specific name of
  its ancestry.
-/

import HostPatterns.Pattern

namespace HostPatterns

/-- For one kind of pattern, the place of each bound domain among the bindings. -/
abbrev PatternIndex := Std.ExtTreeMap Domain Nat

structure PatternSet where
  bindings : Array Binding
  exacts : PatternIndex
  wildcards : PatternIndex

namespace PatternSet

instance : EmptyCollection PatternSet := ⟨⟨#[], ∅, ∅⟩⟩

def size (s : PatternSet) : Nat := s.bindings.size

def toList (s : PatternSet) : List Binding := s.bindings.toList

def place? (s : PatternSet) : Pattern → Option Nat
  | .exact d => s.exacts[d]?
  | .wildcard d => s.wildcards[d]?

def get? (s : PatternSet) (p : Pattern) : Option Binding := do s.bindings[← s.place? p]?

/-- Add a binding whose pattern is not bound. -/
def push : PatternSet → Binding → PatternSet
  | ⟨bindings, exacts, wildcards⟩, b =>
    let place := bindings.size
    match b.pattern with
    | .exact d => ⟨bindings.push b, exacts.insert d place, wildcards⟩
    | .wildcard d => ⟨bindings.push b, exacts, wildcards.insert d place⟩

/-- Add a binding, unless its pattern is bound already. -/
def insert (s : PatternSet) (b : Binding) : PatternSet :=
  if (s.place? b.pattern).isSome then s else s.push b

/-- The bindings of a domain itself, the exact one in front. -/
def bindingsAt (s : PatternSet) (d : Domain) : List Binding :=
  [Pattern.exact d, .wildcard d].filterMap s.get?

/-- The binding of the most specific pattern that a domain matches. -/
def lookup? (s : PatternSet) (d : Domain) : Option Binding :=
  (s.get? (.exact d)).or (d.ancestry.findSome? fun a => s.get? (.wildcard a))

def resolve? (s : PatternSet) (d : Domain) : Option Ipv4 := (s.lookup? d).map Binding.ip

/-- One line a binding, in order. -/
def render (s : PatternSet) : Text := s.toList.flatMap fun b => b.render ++ ['\n']

end PatternSet

end HostPatterns
