/-
  HostPatterns.Proofs.Evidence — what each pattern of a compaction of records rests on.

  The name of a run was found step by step, each time between the name so far and the
  next member. Yet two of the members alone share just as much (`Run.Through.exists_pair`):
  a step that keeps the name leaves the two from before, or has the first member and the
  next one; a step to a higher name has the first member and the next one too, since a
  member shares with others what the name above it does (`Domain.shared?_of_shared?_above`).
  - `patterns_evidenced`: an exact pattern is a kept domain of its address; a wildcard is
    the lowest name above two of them, and has labels enough.
-/

import HostPatterns.Proofs.Neighbours
import Mathlib

namespace HostPatterns

namespace Run

variable {blocked : Domain → Bool}

/-- A run of more than one member has its name from two of them. -/
theorem Through.exists_pair {p : Pattern} {qs : List Pattern} {r : Run} (h : Through .labelBoundary blocked p qs r)
    (hrow : HostRow (p :: qs)) :
    r = Run.start p ∨ ∃ a ∈ p :: qs, ∃ b ∈ p :: qs, a.domain ≠ b.domain ∧
      Domain.shared? .labelBoundary a.domain b.domain = some r.name := by
  induction h with
  | start => exact Or.inl rfl
  | @extend qs q r r' h he ih =>
    obtain ⟨d, hd, -, rfl⟩ := extend?_eq_some_iff.mp he
    rw [← List.cons_append] at hrow ⊢
    have hbefore : HostRow (p :: qs) := hrow.part (List.prefix_append _ _).isInfix
    have hfirst : p ∈ p :: qs ++ [q] := List.mem_append_left _ List.mem_cons_self
    have hnext : q ∈ p :: qs ++ [q] := List.mem_append_right _ (List.mem_singleton_self _)
    have hne : p.domain ≠ q.domain := ((List.pairwise_cons.mp hrow.precede).1 q (by simp)).2
    right
    by_cases hkept : d = r.name
    · -- the two from before, or these two if there were none
      rcases ih hbefore with rfl | ⟨a, ha, b, hb, hab, hshared⟩
      · exact ⟨p, hfirst, q, hnext, hne, hd⟩
      · exact ⟨a, List.mem_append_left _ ha, b, List.mem_append_left _ hb, hab, hkept ▸ hshared⟩
    · have habove : r.name ∈ p.domain.ancestry := h.name_mem_ancestry_head (hbefore.named p List.mem_cons_self)
      exact ⟨p, hfirst, q, hnext, hne, (Domain.shared?_of_shared?_above habove hd hkept).1⟩

end Run

/-- A wildcard committed for records is what two members of its address share. -/
theorem Committed.exists_pair {rs : List Record} (h : ∀ r ∈ rs, r.domain.Plain) {b : Binding}
    (hb : Committed .labelBoundary (Grouping.ofRecords rs).groups b) {w : Domain} (hw : b.pattern = .wildcard w) :
    ∃ d e, d ≠ e ∧ ⟨b.ip, d⟩ ∈ (Grouping.ofRecords rs).records ∧ ⟨b.ip, e⟩ ∈ (Grouping.ofRecords rs).records ∧
      Domain.shared? .labelBoundary d e = some w := by
  obtain ⟨g, hg, hip, r, hr, hpat⟩ := hb
  obtain ⟨p, qs, ht, hpart⟩ := (Run.cut_ofSeeds g.seeds).exists_through r hr
  have hrow : HostRow (p :: qs) := (Grouping.hostRow_seeds h hg).part hpart
  obtain ⟨hname, -, -, hmoved⟩ := ht.of_wildcard hrow (hpat.trans hw)
  have hkept : ∀ a ∈ p :: qs, ⟨b.ip, a.domain⟩ ∈ (Grouping.ofRecords rs).records := by
    intro a ha
    rw [← hip]
    exact Grouping.mem_records_of_member h (Group.member_of_mem_seeds hg (hpart.subset ha))
  rcases ht.exists_pair hrow with rfl | ⟨a, ha, c, hc, hne, hshared⟩
  · exact absurd rfl hmoved.2
  · exact ⟨a.domain, c.domain, hne, hkept a ha, hkept c hc, hname ▸ hshared⟩

/-- On label boundaries, each pattern is a kept record's, or the most that two kept records of its address share. -/
theorem patterns_evidenced {rs : List Record} (h : ∀ r ∈ rs, r.domain.Plain) :
    let g := Grouping.ofRecords rs
    ∀ b ∈ (compact .labelBoundary g.groups).toList,
      (∀ d, b.pattern = .exact d → ⟨b.ip, d⟩ ∈ g.records) ∧
      ∀ w, b.pattern = .wildcard w →
        Domain.minSharedLabels ≤ Domain.labelCount w ∧
        ∃ d e, d ≠ e ∧ ⟨b.ip, d⟩ ∈ g.records ∧ ⟨b.ip, e⟩ ∈ g.records ∧
          Domain.shared? .labelBoundary d e = some w ∧ ∀ s ∈ d.ancestry, s ∈ e.ancestry → s ∈ w.ancestry := by
  intro g b hb
  have hb := (mem_compact_iff (hostGroups_ofRecords h)).mp hb
  constructor
  · intro d hd
    exact Grouping.mem_records_of_member h (hb.member_of_exact hd)
  · intro w hw
    obtain ⟨d, e, hne, hd, he, hshared⟩ := hb.exists_pair h hw
    have hlabels : Domain.minSharedLabels ≤ Domain.labelCount w :=
      (Domain.labels_of_shared? hshared).resolve_left fun heq => hne (heq.1.symm.trans heq.2)
    exact ⟨hlabels, d, e, hne, hd, he, hshared, fun s hsd hse => Domain.mem_ancestry_of_mem_both hshared hsd hse⟩

/-- A wildcard that the walk came to by way of a lower name, and the pattern of a lone record of another address. -/
theorem widened_twice_evidenced :
    let rs : List Record := [⟨⟨1, 1, 1, 1⟩, "x.a.example.com".toList⟩, ⟨⟨2, 2, 2, 2⟩, "example.org".toList⟩,
      ⟨⟨1, 1, 1, 1⟩, "y.a.example.com".toList⟩, ⟨⟨1, 1, 1, 1⟩, "b.example.com".toList⟩]
    let g := Grouping.ofRecords rs
    let s := compact .labelBoundary g.groups
    let w : Domain := "example.com".toList
    ((∀ r ∈ rs, r.domain.Plain) ∧ ⟨.wildcard w, ⟨1, 1, 1, 1⟩⟩ ∈ s.toList ∧
      ⟨.exact "example.org".toList, ⟨2, 2, 2, 2⟩⟩ ∈ s.toList) ∧
    ⟨⟨2, 2, 2, 2⟩, "example.org".toList⟩ ∈ g.records ∧ Domain.minSharedLabels ≤ Domain.labelCount w ∧
    ∃ d e, d ≠ e ∧ ⟨⟨1, 1, 1, 1⟩, d⟩ ∈ g.records ∧ ⟨⟨1, 1, 1, 1⟩, e⟩ ∈ g.records ∧
      Domain.shared? .labelBoundary d e = some w ∧ ∀ s ∈ d.ancestry, s ∈ e.ancestry → s ∈ w.ancestry := by
  intro rs g s w
  have plain : ∀ r ∈ rs, r.domain.Plain := by decide
  have list : s.toList = [⟨.wildcard w, ⟨1, 1, 1, 1⟩⟩, ⟨.exact "example.org".toList, ⟨2, 2, 2, 2⟩⟩] := by unfold s; cbv
  have hw : ⟨.wildcard w, ⟨1, 1, 1, 1⟩⟩ ∈ s.toList := by rw [list]; exact List.mem_cons_self
  have he : ⟨.exact "example.org".toList, ⟨2, 2, 2, 2⟩⟩ ∈ s.toList := by
    rw [list]
    exact List.mem_cons_of_mem _ List.mem_cons_self
  obtain ⟨labels, pair⟩ := (patterns_evidenced plain _ hw).2 w rfl
  exact ⟨⟨plain, hw, he⟩, (patterns_evidenced plain _ he).1 _ rfl, labels, pair⟩

end HostPatterns
