/-
  HostPatterns.Text.Overlap — how much of the end of one text stands at the end of
  another, or anywhere in it.

  Both are lengths, and settle the question for every end of the text at once: an end
  of `s` is an end of `t` exactly if it is no longer than `sharedEnd s t`
  (`length_le_sharedEnd_iff`), and occurs in `t` exactly if it is no longer than
  `endIn s t` (`length_le_endIn_iff`).
-/

import HostPatterns.Text

namespace HostPatterns.Text

/-- `n`, and one more for each character that two texts share at the front. -/
def sharedFront (n : Nat) : Text → Text → Nat
  | c :: s, d :: t => if c = d then sharedFront (n + 1) s t else n
  | _, _ => n

/-- The length of the longest front of `s` that occurs in `t`, or `n` if that is more. -/
def longestFront (s : Text) (n : Nat) : Text → Nat
  | [] => n
  | c :: t => longestFront s (max n (sharedFront 0 s (c :: t))) t

def sharedEnd (s t : Text) : Nat := sharedFront 0 s.reverse t.reverse

def endIn (s t : Text) : Nat := longestFront s.reverse 0 t.reverse

theorem add_le_sharedFront_iff {n k : Nat} {s t : Text} (h : k ≤ s.length) :
    n + k ≤ sharedFront n s t ↔ s.take k <+: t := by
  induction s generalizing n k t with
  | nil =>
    have : k = 0 := by simpa using h
    simp [sharedFront, this]
  | cons c s ih =>
    cases t with
    | nil => cases k <;> simp [sharedFront]
    | cons d t =>
      by_cases hcd : c = d
      · cases k with
        | zero =>
          have := (ih (n := n + 1) (k := 0) (t := t) (by omega)).mpr (by simp)
          simp only [sharedFront, hcd, if_true, List.take_zero, List.nil_prefix, iff_true]
          omega
        | succ k =>
          rw [sharedFront, if_pos hcd, List.take_succ_cons, List.cons_prefix_cons, ← ih (n := n + 1) (by simpa using h)]
          simp only [hcd, true_and]
          omega
      · cases k <;> simp [sharedFront, hcd]

theorem le_longestFront_iff {n k : Nat} {s t : Text} (h : k ≤ s.length) :
    k ≤ longestFront s n t ↔ k ≤ n ∨ s.take k <:+: t := by
  induction t generalizing n with
  | nil =>
    have : s.take k = [] ↔ k = 0 := by
      rw [List.take_eq_nil_iff]
      refine ⟨fun hk => hk.elim id ?_, Or.inl⟩
      rintro rfl
      simpa using h
    rw [longestFront, List.infix_nil, this]
    omega
  | cons c t ih =>
    have front := add_le_sharedFront_iff (n := 0) (t := c :: t) h
    rw [Nat.zero_add] at front
    rw [longestFront, ih, List.infix_cons_iff, ← front, ← or_assoc]
    have : k ≤ max n (sharedFront 0 s (c :: t)) ↔ k ≤ n ∨ k ≤ sharedFront 0 s (c :: t) := by omega
    rw [this]

theorem take_reverse_of_suffix {e s : Text} (h : e <:+ s) : s.reverse.take e.length = e.reverse := by
  obtain ⟨u, rfl⟩ := h
  simp

theorem length_le_sharedEnd_iff {e s t : Text} (h : e <:+ s) : e.length ≤ sharedEnd s t ↔ e <:+ t := by
  have := add_le_sharedFront_iff (n := 0) (t := t.reverse) (s := s.reverse) (k := e.length) (by simpa using h.length_le)
  rw [Nat.zero_add] at this
  rw [sharedEnd, this, take_reverse_of_suffix h, List.reverse_prefix]

theorem length_le_endIn_iff {e s t : Text} (h : e <:+ s) : e.length ≤ endIn s t ↔ e <:+: t := by
  rw [endIn, le_longestFront_iff (by simpa using h.length_le), take_reverse_of_suffix h, List.reverse_infix]
  constructor
  · rintro (he | he)
    · rw [List.eq_nil_of_length_eq_zero (by omega : e.length = 0)]
      exact List.nil_infix
    · exact he
  · exact Or.inr

end HostPatterns.Text
