/-
  HostPatterns.Proofs.OrderIndependence — a compaction does not depend on the order
  of what it is made from.

  A `Reordering` has the same groups in another order, each with its domains in
  another order. What a group commits is told without the groups taken before it
  (`Committed`), from its seeds, which are sorted, and from the members of all groups,
  which have no order. So a reordering commits the same bindings (`committed_iff`).
  Records of distinct domains are all kept, and reordering them reorders their groups
  (`reordering_of_perm`):
  - `compact_of_perm`: the two compactions have the same bindings, and look up the
    same binding for every domain.
-/

import HostPatterns.Proofs.Committed
import Mathlib

namespace HostPatterns

/-- The same groups, up to their order and that of the domains in each. -/
structure Reordering (gs gs' : List Group) : Prop where
  forth : ∀ g ∈ gs, ∃ g' ∈ gs', g'.ip = g.ip ∧ g.domains.Perm g'.domains
  back : ∀ g' ∈ gs', ∃ g ∈ gs, g.ip = g'.ip ∧ g'.domains.Perm g.domains

namespace Reordering

variable {m : Comparison} {gs gs' : List Group}

theorem symm (h : Reordering gs gs') : Reordering gs' gs := ⟨h.back, h.forth⟩

theorem member (h : Reordering gs gs') {ip : Ipv4} {p : Pattern} (hp : Member gs ip p) : Member gs' ip p := by
  obtain ⟨g, hg, hip, t, ht, he⟩ := hp
  obtain ⟨g', hg', hip', hperm⟩ := h.forth g hg
  exact ⟨g', hg', hip'.trans hip, t, hperm.mem_iff.mp ht, he⟩

theorem contests (h : Reordering gs gs') {ip : Ipv4} {d : Domain} (hd : Contested gs ip d) : Contested gs' ip d := by
  obtain ⟨o, p, ho, hp, hpd⟩ := hd
  exact ⟨o, p, ho, h.member hp, hpd⟩

theorem contested_eq (h : Reordering gs gs') (ip : Ipv4) :
    (Owners.ofGroups gs).contested ip = (Owners.ofGroups gs').contested ip := by
  funext d
  rw [Bool.eq_iff_iff, Owners.contested_iff, Owners.contested_iff]
  exact ⟨h.contests, h.symm.contests⟩

theorem hostGroups (h : Reordering gs gs') (hgs : HostGroups gs) : HostGroups gs' := by
  constructor
  · intro g' hg' t ht
    obtain ⟨g, hg, -, hperm⟩ := h.back g' hg'
    exact hgs.plain g hg t (hperm.mem_iff.mp ht)
  · intro ip ip' p hp hp'
    exact hgs.owned ip ip' p (h.symm.member hp) (h.symm.member hp')

theorem runs_eq (h : Reordering gs gs') (hgs : HostGroups gs) {g g' : Group} (hg : g ∈ gs) (hip : g'.ip = g.ip)
    (hperm : g.domains.Perm g'.domains) : g'.runs m gs' = g.runs m gs := by
  have hseeds : g.seeds = g'.seeds := Group.seeds_eq_of_perm hperm fun t ht => ⟨t, (hgs.plain g hg t ht).ofText⟩
  unfold Group.runs
  rw [hip, ← hseeds, h.contested_eq]

theorem committed (h : Reordering gs gs') (hgs : HostGroups gs) {b : Binding} (hb : Committed m gs b) :
    Committed m gs' b := by
  obtain ⟨g, hg, hip, r, hr, hp⟩ := hb
  obtain ⟨g', hg', hip', hperm⟩ := h.forth g hg
  refine ⟨g', hg', hip'.trans hip, r, ?_, hp⟩
  rw [h.runs_eq hgs hg hip' hperm]
  exact hr

theorem committed_iff (h : Reordering gs gs') (hgs : HostGroups gs) {b : Binding} :
    Committed m gs b ↔ Committed m gs' b :=
  ⟨h.committed hgs, h.symm.committed (h.hostGroups hgs)⟩

theorem mem_compact_iff (h : Reordering gs gs') (hgs : HostGroups gs) (b : Binding) :
    b ∈ (compact m gs).toList ↔ b ∈ (compact m gs').toList := by
  rw [HostPatterns.mem_compact_iff hgs, HostPatterns.mem_compact_iff (h.hostGroups hgs)]
  exact h.committed_iff hgs

end Reordering

theorem Grouping.reordering_of_perm {rs rs' : List Record} (hp : rs.Perm rs') (hd : (rs.map Record.domain).Nodup) :
    Reordering (ofRecords rs).groups (ofRecords rs').groups := by
  have hd' : (rs'.map Record.domain).Nodup := (hp.map _).nodup_iff.mp hd
  exact ⟨fun _ hg => exists_group_of_perm hp hd hg, fun _ hg => exists_group_of_perm hp.symm hd' hg⟩

/-- Reordered records of distinct names are compacted to the same bindings. -/
theorem compact_of_perm (m : Comparison) {rs rs' : List Record} (hp : rs.Perm rs')
    (hd : (rs.map Record.domain).Nodup) (h : ∀ r ∈ rs, r.domain.Plain) :
    let s := compact m (Grouping.ofRecords rs).groups
    let s' := compact m (Grouping.ofRecords rs').groups
    s.toList.Perm s'.toList ∧ ∀ d, s.lookup? d = s'.lookup? d := by
  intro s s'
  have hs : s.Indexed := indexed_compact m _
  have hs' : s'.Indexed := indexed_compact m _
  have hmem : ∀ b, b ∈ s.toList ↔ b ∈ s'.toList :=
    (Grouping.reordering_of_perm hp hd).mem_compact_iff (hostGroups_ofRecords h)
  constructor
  · rw [List.perm_ext_iff_of_nodup (PatternSet.nodup_toList hs) (PatternSet.nodup_toList hs')]
    exact hmem
  · intro d
    exact PatternSet.lookup?_congr hs hs' hmem d

/-- Two groups of one size, found in the other order, and then bound in the other order. -/
theorem swapped_groups_compact_alike :
    let rs : List Record := [⟨⟨1, 1, 1, 1⟩, "a.cdn.example.com".toList⟩, ⟨⟨1, 1, 1, 1⟩, "b.cdn.example.com".toList⟩,
      ⟨⟨2, 2, 2, 2⟩, "mail.example.com".toList⟩, ⟨⟨2, 2, 2, 2⟩, "example.org".toList⟩]
    let rs' := rs.reverse
    let s := compact .substring (Grouping.ofRecords rs).groups
    let s' := compact .substring (Grouping.ofRecords rs').groups
    (rs.Perm rs' ∧ (rs.map Record.domain).Nodup ∧ ∀ r ∈ rs, r.domain.Plain) ∧ s.toList ≠ s'.toList ∧
      s.toList.Perm s'.toList ∧ ∀ d, s.lookup? d = s'.lookup? d := by
  intro rs rs' s s'
  have perm : rs.Perm rs' := (List.reverse_perm rs).symm
  have distinct : (rs.map Record.domain).Nodup := by decide
  have plain : ∀ r ∈ rs, r.domain.Plain := by decide
  have moved : s.toList ≠ s'.toList := by
    have first : s.toList.head? = some ⟨.wildcard "cdn.example.com".toList, ⟨1, 1, 1, 1⟩⟩ := by unfold s; cbv
    have first' : s'.toList.head? = some ⟨.exact "example.org".toList, ⟨2, 2, 2, 2⟩⟩ := by unfold s'; cbv
    intro heq
    rw [heq, first'] at first
    revert first
    decide
  exact ⟨⟨perm, distinct, plain⟩, moved, compact_of_perm .substring perm distinct plain⟩

end HostPatterns
