/-
  HostPatterns.Proofs.GreatestShared — on label boundaries, what two names share is the
  greatest name above both.

  The search takes the two names unlike: only the first one is shortened, it is taken whole
  where the second lies below it, and the search ends at the first parent with too few
  labels. A name `IsShared` says nothing of this: it has labels enough, and each of the two
  is that name or lies below it.

  What the search finds for different names is shared, and what is shared stands above what
  it finds (`IsShared.exists_below`); two such finds stand above each other. So the result
  is the longest shared name (`shared?_eq_some_iff`), and the same from either side
  (`shared?_comm`).
  - `shared?_greatest`: all of it, of any two texts.
-/

import HostPatterns.Proofs.Ancestry

namespace HostPatterns.Domain

/-- A name with labels enough that each of two others is or lies below. -/
def IsShared (a b s : Domain) : Prop :=
  minSharedLabels ≤ labelCount s ∧ (s = a ∨ below a s = true) ∧ (s = b ∨ below b s = true)

theorem isShared_iff {a b s : Domain} :
    IsShared a b s ↔ minSharedLabels ≤ labelCount s ∧ s ∈ a.ancestry ∧ s ∈ b.ancestry := by
  refine and_congr_right fun hl => ?_
  have hs := ne_nil_of_minSharedLabels_le hl
  rw [mem_ancestry_iff_below hs, mem_ancestry_iff_below hs]

theorem IsShared.symm {a b s : Domain} (h : IsShared a b s) : IsShared b a s := ⟨h.1, h.2.2, h.2.1⟩

theorem isShared_comm {a b s : Domain} : IsShared a b s ↔ IsShared b a s := ⟨IsShared.symm, IsShared.symm⟩

theorem isShared_of_shared? {a b s : Domain} (hab : a ≠ b) (h : shared? .labelBoundary a b = some s) : IsShared a b s := by
  have hl : minSharedLabels ≤ labelCount s := (labels_of_shared? h).resolve_left fun heq => hab (heq.1.symm.trans heq.2)
  exact isShared_iff.mpr ⟨hl, mem_ancestry_of_shared? h, mem_ancestry_of_shared?_labelBoundary h⟩

/-- The search finds something at or below each shared name. -/
theorem IsShared.exists_below {a b s : Domain} (h : IsShared a b s) :
    ∃ t, shared? .labelBoundary a b = some t ∧ s ∈ t.ancestry := by
  obtain ⟨hl, ha, hb⟩ := isShared_iff.mp h
  exact exists_shared? ha hb hl

theorem shared?_eq_some_iff {a b s : Domain} (hab : a ≠ b) :
    shared? .labelBoundary a b = some s ↔ IsShared a b s ∧ ∀ t, IsShared a b t → t.length ≤ s.length := by
  constructor
  · intro h
    refine ⟨isShared_of_shared? hab h, fun t ht => ?_⟩
    obtain ⟨u, hu, htu⟩ := ht.exists_below
    rw [h] at hu
    cases hu
    exact (suffix_of_mem_ancestry htu).length_le
  · intro h
    obtain ⟨hs, hlongest⟩ := h
    obtain ⟨t, ht, hst⟩ := hs.exists_below
    have hle : t.length ≤ s.length := hlongest t (isShared_of_shared? hab ht)
    rw [ht, (suffix_of_mem_ancestry hst).eq_of_length_le hle]

theorem shared?_eq_none_iff {a b : Domain} (hab : a ≠ b) :
    shared? .labelBoundary a b = none ↔ ∀ s, ¬ IsShared a b s := by
  constructor
  · intro hnone s hs
    obtain ⟨t, ht, -⟩ := hs.exists_below
    rw [hnone] at ht
    cases ht
  · intro hno
    rw [Option.eq_none_iff_forall_ne_some]
    exact fun s hs => hno s (isShared_of_shared? hab hs)

theorem shared?_comm (a b : Domain) : shared? .labelBoundary a b = shared? .labelBoundary b a := by
  by_cases hab : a = b
  · rw [hab]
  · ext s
    rw [shared?_eq_some_iff hab, shared?_eq_some_iff (Ne.symm hab)]
    simp only [isShared_comm (a := a)]

theorem shared?_self {m : Comparison} {a : Domain} (ha : a ≠ []) : shared? m a a = some a := by
  simp [shared?, ha]

/-- On label boundaries two different names share the longest name with labels enough that stands at or above both, if
    there is one, whichever is given first; a name shares the whole of itself, and the empty name nothing. -/
theorem shared?_greatest (a b : Domain) :
    (a = [] ∨ b = [] → shared? .labelBoundary a b = none) ∧
    (a ≠ [] → a = b → shared? .labelBoundary a b = some a) ∧
    (a ≠ b →
      (∀ s, shared? .labelBoundary a b = some s ↔ IsShared a b s ∧ ∀ t, IsShared a b t → t.length ≤ s.length) ∧
      (shared? .labelBoundary a b = none ↔ ∀ s, ¬ IsShared a b s)) ∧
    (∀ s t, shared? .labelBoundary a b = some s → IsShared a b t → t = s ∨ below s t = true) ∧
    shared? .labelBoundary a b = shared? .labelBoundary b a := by
  refine ⟨fun hempty => if_pos hempty, ?_, fun hab => ⟨fun s => shared?_eq_some_iff hab, shared?_eq_none_iff hab⟩, ?_,
    shared?_comm a b⟩
  · rintro ha rfl
    exact shared?_self ha
  · intro s t hs ht
    obtain ⟨u, hu, htu⟩ := ht.exists_below
    rw [hs] at hu
    cases hu
    exact (mem_ancestry_iff_below (ne_nil_of_minSharedLabels_le ht.1)).mp htu

/-- Names with empty labels and a dot at the end share one that starts and ends with a dot; a name of one label is shared
    by itself, and not by what is below it; a dot at the end of both is nothing shared. -/
theorem dotted_names_share :
    let a : Domain := "x..a.com.".toList
    let b : Domain := "y..a.com.".toList
    let s : Domain := ".a.com.".toList
    let com : Domain := "com".toList
    (a ≠ b ∧ IsShared a b s ∧ IsShared a b "a.com.".toList ∧ IsShared a b "com.".toList) ∧
      shared? .labelBoundary a b = some s ∧ shared? .labelBoundary b a = some s ∧
      ("com.".toList = s ∨ below s "com.".toList = true) ∧ shared? .labelBoundary com com = some com ∧
      shared? .labelBoundary com "a.com".toList = none ∧ shared? .labelBoundary "a.".toList "b.".toList = none ∧
      shared? .labelBoundary com [] = none := by
  intro a b s com
  have unlike : a ≠ b := by decide
  have shared : IsShared a b s := isShared_iff.mpr (by decide)
  have higher : IsShared a b "a.com.".toList := isShared_iff.mpr (by decide)
  have highest : IsShared a b "com.".toList := isShared_iff.mpr (by decide)
  obtain ⟨-, -, found, above, comm⟩ := shared?_greatest a b
  have longest : ∀ t ∈ a.ancestry, t ∈ b.ancestry → t.length ≤ s.length := by decide
  have both : shared? .labelBoundary a b = some s :=
    ((found unlike).1 s).mpr ⟨shared, fun t ht => longest t (isShared_iff.mp ht).2.1 (isShared_iff.mp ht).2.2⟩
  have none_of : ∀ {c d : Domain}, c ≠ d →
      (∀ t ∈ c.ancestry, t ∈ d.ancestry → ¬ minSharedLabels ≤ labelCount t) → shared? .labelBoundary c d = none := by
    intro c d hcd hfew
    refine ((shared?_greatest c d).2.2.1 hcd).2.mpr fun t ht => ?_
    obtain ⟨hl, hc, hd⟩ := isShared_iff.mp ht
    exact hfew t hc hd hl
  refine ⟨⟨unlike, shared, higher, highest⟩, both, comm ▸ both, above s _ both highest, ?_, ?_, ?_, ?_⟩
  · exact (shared?_greatest com com).2.1 (by decide) rfl
  · exact none_of (by decide) (by decide)
  · exact none_of (by decide) (by decide)
  · exact (shared?_greatest com []).1 (Or.inr rfl)

end HostPatterns.Domain
