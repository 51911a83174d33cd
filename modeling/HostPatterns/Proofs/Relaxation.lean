/-
  HostPatterns.Proofs.Relaxation — what two names share as plain text, beside what they share
  on label boundaries.

  Either search tries the whole of the first name, by a rule of its own, and then the names
  above it that have labels enough, the longest first. So what it finds is the longest that
  `Serves`, whatever the comparison (`shared?_eq_some_iff_serves`), and two searches compare
  as what serves in them does. What serves on label boundaries serves as plain text too, as
  it stands at the end of the second name (`Serves.relax`); the rest that serves as plain
  text stands in the second name elsewhere.
  - `substring_relaxes`: of any two names. As plain text no less is shared, and more only
    where the first name is cut off later, at a name that the second one is not at or below.
-/

import HostPatterns.Proofs.Ancestry

namespace HostPatterns.Domain

/-- What may be shared of `a` with `b`: the whole of `a`, or a name above it with labels enough that takes in `b`. -/
def Serves (m : Comparison) (a b s : Domain) : Prop :=
  s = a ∧ (a = b ∨ encloses m a b = true) ∨ s ∈ candidates a ∧ takesIn m s b = true

instance (m : Comparison) (a b s : Domain) : Decidable (Serves m a b s) := inferInstanceAs (Decidable (_ ∨ _))

variable {m : Comparison} {a b s t : Domain}

theorem exists_shared?_of_serves (ha : a ≠ []) (hb : b ≠ []) (h : Serves m a b s) :
    ∃ t, shared? m a b = some t ∧ s ∈ t.ancestry := by
  rcases h with ⟨rfl, hw⟩ | ⟨hc, ht⟩
  · exact ⟨s, shared?_whole ha hb hw, self_mem_ancestry ha⟩
  · exact exists_shared?_of_candidate hb hc ht

theorem shared?_eq_some_iff_serves (ha : a ≠ []) (hb : b ≠ []) :
    shared? m a b = some s ↔ Serves m a b s ∧ ∀ t, Serves m a b t → t.length ≤ s.length := by
  constructor
  · intro h
    refine ⟨(shared?_cases h).2.2, fun t ht => ?_⟩
    obtain ⟨u, hu, htu⟩ := exists_shared?_of_serves ha hb ht
    rw [h] at hu
    cases hu
    exact (suffix_of_mem_ancestry htu).length_le
  · intro h
    obtain ⟨hs, hlongest⟩ := h
    obtain ⟨t, ht, hst⟩ := exists_shared?_of_serves ha hb hs
    have hle : t.length ≤ s.length := hlongest t (shared?_cases ht).2.2
    rw [ht, (suffix_of_mem_ancestry hst).eq_of_length_le hle]

/-- What serves stands in the second name. -/
theorem Serves.occurs (h : Serves m a b s) : s <:+: b := by
  rcases h with ⟨rfl, rfl | he⟩ | ⟨-, ht⟩
  · exact List.infix_rfl
  · have hdot : '.' :: s <:+: b := by
      cases m with
      | labelBoundary =>
        simp only [encloses, Bool.and_eq_true] at he
        exact (below_iff.mp he.2).2.isInfix
      | substring => exact Text.occursIn_iff.mp he
    exact (List.suffix_cons '.' s).isInfix.trans hdot
  · cases m with
    | labelBoundary =>
      simp only [takesIn, Bool.or_eq_true, beq_iff_eq] at ht
      rcases ht with rfl | hlt
      · exact List.infix_rfl
      · exact ((List.suffix_cons '.' s).trans (below_iff.mp hlt).2).isInfix
    | substring => exact Text.occursIn_iff.mp ht

/-- What serves on label boundaries serves as plain text. -/
theorem Serves.relax (h : Serves .labelBoundary a b s) : Serves .substring a b s := by
  have hin := h.occurs
  rcases h with ⟨rfl, heq | he⟩ | ⟨hc, -⟩
  · exact Or.inl ⟨rfl, Or.inl heq⟩
  · simp only [encloses, Bool.and_eq_true] at he
    exact Or.inl ⟨rfl, Or.inr (Text.occursIn_iff.mpr (below_iff.mp he.2).2.isInfix)⟩
  · exact Or.inr ⟨hc, Text.occursIn_iff.mpr hin⟩

/-- What two names share, by either comparison, is the longest of what serves: the first name or one it is below, that
    stands in the second one. What is shared on label boundaries is shared as plain text, or else something below it is,
    and the second name is neither that nor below it. -/
theorem substring_relaxes (a b : Domain) :
    (a ≠ [] → b ≠ [] → ∀ m s, shared? m a b = some s ↔ Serves m a b s ∧ ∀ t, Serves m a b t → t.length ≤ s.length) ∧
    (∀ m s, shared? m a b = some s → (s = a ∨ below a s = true) ∧ s <:+: b) ∧
    ∀ s, shared? .labelBoundary a b = some s → ∃ t, shared? .substring a b = some t ∧
      (t = s ∨ below t s = true ∧ ¬ (b = t ∨ below b t = true)) := by
  refine ⟨fun ha hb m s => shared?_eq_some_iff_serves ha hb, fun m s hs => ?_, fun s hs => ?_⟩
  · have hup := (mem_ancestry_iff_below (ne_nil_of_shared? hs)).mp (mem_ancestry_of_shared? hs)
    exact ⟨hup, Serves.occurs (shared?_cases hs).2.2⟩
  · obtain ⟨ha, hb, hserves⟩ := shared?_cases hs
    obtain ⟨t, ht, hst⟩ := exists_shared?_of_serves ha hb (Serves.relax hserves)
    have hsne := ne_nil_of_shared? hs
    refine ⟨t, ht, ?_⟩
    by_cases hts : t = s
    · exact Or.inl hts
    · right
      refine ⟨((mem_ancestry_iff_below hsne).mp hst).resolve_left (Ne.symm hts), fun hbt => ?_⟩
      -- a name at or above both would have been found on label boundaries
      have htb : t ∈ b.ancestry := (mem_ancestry_iff_below (ne_nil_of_shared? ht)).mpr (hbt.imp_left Eq.symm)
      exact hts (ancestry_antisymm (mem_ancestry_of_mem_both hs (mem_ancestry_of_shared? ht) htb) hst)

/-- An end of the first name that stands within a label of the second one is shared as plain text, and what is above it on
    label boundaries; the whole of a name that the other has behind a dot, but not at its end, as plain text only. -/
theorem partial_label_is_shared :
    let a : Domain := "x.ab.example.com".toList
    let b : Domain := "b.cab.example.com".toList
    let s : Domain := "example.com".toList
    let t : Domain := "ab.example.com".toList
    let c : Domain := "x.com.cn".toList
    shared? .labelBoundary a b = some s ∧ shared? .substring a b = some t ∧ (below t s = true ∧ ¬ below b t = true) ∧
      (below a t = true ∧ t <:+: b) ∧ (∀ u, Serves .labelBoundary a b u → u.length ≤ s.length) ∧
      shared? .labelBoundary "com".toList c = none ∧ shared? .substring "com".toList c = some "com".toList := by
  intro a b s t c
  have bounded : shared? .labelBoundary a b = some s := by unfold a b s; cbv
  have plain : shared? .substring a b = some t := by unfold a b t; cbv
  obtain ⟨longest, stands, relaxed⟩ := substring_relaxes a b
  obtain ⟨up, within⟩ := stands _ _ plain
  obtain ⟨u, hu, heq | ⟨hlt, hoff⟩⟩ := relaxed s bounded
  · rw [plain] at hu
    cases hu
    exact absurd heq (by decide)
  · rw [plain] at hu
    cases hu
    refine ⟨bounded, plain, ⟨hlt, fun h => hoff (Or.inr h)⟩, ⟨up.resolve_left (by decide), within⟩, ?_, ?_, ?_⟩
    · exact ((longest (by decide) (by decide) _ _).mp bounded).2
    · unfold c; cbv
    · unfold c; cbv

end HostPatterns.Domain
