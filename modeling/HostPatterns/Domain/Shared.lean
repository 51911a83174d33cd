/-
  HostPatterns.Domain.Shared — the suffix of a name under which another name falls
  too: `www.example.com` and `api.example.com` share `example.com`.

  A shared suffix must have two labels, or one wildcard would claim a whole
  top-level domain. It is looked for among `a` and its ancestors, most specific
  first. What "falls under" means is a `Comparison`: on label boundaries, or as
  plain text anywhere in the other name.

  Either way the ancestors that take in the other name are the short ones, so one
  length decides for all of them (`length_le_reach_iff`), and the suffix found is the
  first ancestor that takes it in (`shared?_eq`).
-/

import HostPatterns.Domain
import HostPatterns.Text.Overlap

namespace HostPatterns

inductive Comparison where
  /-- The other name is the suffix or lies below it. -/
  | labelBoundary
  /-- The suffix occurs in the other name, even inside a label. -/
  | substring
  deriving DecidableEq, Repr

namespace Domain

/-- Fewest labels of a shared suffix. -/
def minSharedLabels : Nat := 2

/-- Whether the whole of `a` may serve as the suffix shared with a different name `b`. As plain text
    it need only stand behind a dot somewhere in `b`, whatever its number of labels. -/
def encloses (m : Comparison) (a b : Domain) : Bool :=
  match m with
  | .labelBoundary => minSharedLabels ≤ labelCount a && below b a
  | .substring => Text.occursIn ('.' :: a) b

/-- Whether an ancestor `s` of one name takes in another name `b`. -/
def takesIn (m : Comparison) (s b : Domain) : Bool :=
  match m with
  | .labelBoundary => b == s || below b s
  | .substring => Text.occursIn s b

/-- The most characters an ancestor of `a` may have that takes in `b`. -/
def reach (m : Comparison) (a b : Domain) : Nat :=
  match m with
  | .labelBoundary =>
    let n := Text.sharedEnd a b
    if b.length = n then n else n - 1
  | .substring => Text.endIn a b

/-- What may be shared of `a` without its first label: the names above it, as long as they have enough labels. -/
def candidates (a : Domain) : List Domain := (parents a).takeWhile (minSharedLabels ≤ labelCount ·)

/-- The most specific suffix of `a` that `b` shares, if both names have any character at all. -/
def shared? (m : Comparison) (a b : Domain) : Option Domain :=
  if a = [] ∨ b = [] then none
  else if a = b ∨ encloses m a b then some a
  else
    let n := reach m a b
    (candidates a).find? (·.length ≤ n)

theorem length_le_reach_iff {m : Comparison} {a b s : Domain} (h : s ∈ parents a) (hs : s ≠ []) :
    s.length ≤ reach m a b ↔ takesIn m s b = true := by
  have dotted : '.' :: s <:+ a := mem_parents.mp h
  have ends : s <:+ a := (List.suffix_cons '.' s).trans dotted
  cases m with
  | substring => rw [reach, takesIn, Text.length_le_endIn_iff ends, Text.occursIn_iff]
  | labelBoundary =>
    have whole := Text.length_le_sharedEnd_iff (t := b) ends
    have behind := Text.length_le_sharedEnd_iff (t := b) dotted
    have equal : b = s → s.length ≤ Text.sharedEnd a b ∧ s.length = b.length := by
      rintro rfl
      exact ⟨whole.mpr List.suffix_rfl, rfl⟩
    have same : s.length ≤ Text.sharedEnd a b → s.length = b.length → b = s := fun h1 h2 =>
      ((whole.mp h1).eq_of_length h2).symm
    have : 0 < s.length := List.length_pos_iff.mpr hs
    simp only [reach, takesIn, Bool.or_eq_true, beq_iff_eq, below_iff, ne_eq, hs, not_false_eq_true, true_and,
      ← behind, List.length_cons]
    by_cases hbs : b = s
    · have := equal hbs
      refine iff_of_true ?_ (Or.inl hbs)
      split <;> omega
    · simp only [hbs, false_or]
      have : s.length ≤ Text.sharedEnd a b → s.length ≠ b.length := fun h1 h2 => hbs (same h1 h2)
      split <;> omega

theorem ne_nil_of_mem_candidates {a s : Domain} (h : s ∈ candidates a) : s ≠ [] := by
  have := List.all_eq_true.mp List.all_takeWhile s h
  rintro rfl
  simp [minSharedLabels, labelCount] at this

theorem shared?_eq (m : Comparison) (a b : Domain) :
    shared? m a b =
      if a = [] ∨ b = [] then none
      else if a = b ∨ encloses m a b then some a
      else (candidates a).find? (takesIn m · b) := by
  have agree : ∀ s ∈ candidates a, decide (s.length ≤ reach m a b) = takesIn m s b := fun s hs => by
    rw [Bool.eq_iff_iff, decide_eq_true_iff]
    exact length_le_reach_iff (List.takeWhile_subset _ hs) (ne_nil_of_mem_candidates hs)
  have found : (candidates a).find? (·.length ≤ reach m a b) = (candidates a).find? (takesIn m · b) := by
    rw [← List.head?_filter, ← List.head?_filter, List.filter_congr agree]
  simp only [shared?, found]

end Domain

end HostPatterns
