/-
  HostPatterns.Proofs.Losses — what a compaction may lose, whatever the comparison.

  Where suffixes are compared as plain text, the name of a run need not stand above all
  its members, so some of these may resolve to nothing. But the name stands above the
  run's first member, and an exact pattern is a member itself, so each pattern covers a
  member of its own address (`Committed.exists_covered`). And what covers a member is of
  the member's address in either comparison. So (`losses_are_partial`):
  - a record that does not resolve to its address resolves to nothing;
  - each group keeps a domain that resolves to its address.
-/

import HostPatterns.Proofs.Resolution

namespace HostPatterns

variable {m : Comparison} {gs : List Group}

theorem Committed.exists_covered (h : HostGroups gs) {b : Binding} (hb : Committed m gs b) :
    ∃ d, Member gs b.ip (.exact d) ∧ b.pattern.Covers d := by
  cases hp : b.pattern with
  | exact d => exact ⟨d, hb.member_of_exact hp, rfl⟩
  | wildcard w =>
    obtain ⟨p, hmem, hbelow⟩ := hb.exists_member_below
    rw [(h.exact_of_member hmem).1] at hmem
    rw [hp] at hbelow
    exact ⟨p.domain, hmem, hbelow⟩

theorem exists_committed_of_mem (h : HostGroups gs) {g : Group} (hg : g ∈ gs) {t : Text} (ht : t ∈ g.domains) :
    ∃ b, Committed m gs b ∧ b.ip = g.ip := by
  have hplain := h.plain g hg t ht
  have hseed : .exact t ∈ g.seeds := Group.mem_seeds.mpr ⟨⟨t, ht, hplain.ofText⟩, hplain.1⟩
  obtain ⟨r, hr, -⟩ := (Run.cut_ofSeeds g.seeds).exists_run_of_mem _ hseed
  exact ⟨⟨r.pattern, g.ip⟩, ⟨g, hg, rfl, r, hr, rfl⟩, rfl⟩

section

variable {rs : List Record} (h : ∀ r ∈ rs, r.domain.Plain)

include h

/-- A record that resolves at all resolves to its address. -/
theorem ip_eq_of_resolve? {r : Record} (hr : r ∈ (Grouping.ofRecords rs).records) {ip : Ipv4}
    (hres : (compact m (Grouping.ofRecords rs).groups).resolve? r.domain = some ip) : ip = r.ip := by
  have hgs := hostGroups_ofRecords h
  obtain ⟨b, hb, rfl, hcov⟩ := exists_committed_of_resolve? hgs hres
  exact ip_eq_of_covers hgs hb (Grouping.member_of_mem_records h hr) hcov

theorem notFound_of_finding? {r : Record} (hr : r ∈ (Grouping.ofRecords rs).records) {f : Finding}
    (hf : (compact m (Grouping.ofRecords rs).groups).finding? r = some f) : f = .notFound r.domain := by
  unfold PatternSet.finding? at hf
  split at hf
  · cases hf
    rfl
  · rename_i ip hres
    rw [if_pos (ip_eq_of_resolve? h hr hres)] at hf
    cases hf

theorem exists_domain_resolves {g : Group} (hg : g ∈ (Grouping.ofRecords rs).groups) :
    ∃ d ∈ g.domains, (compact m (Grouping.ofRecords rs).groups).resolve? d = some g.ip := by
  have hgs := hostGroups_ofRecords h
  obtain ⟨r, hr, hip⟩ := Grouping.exists_record_of_mem_groups hg
  have hdomain : r.domain ∈ g.domains := by
    rw [Grouping.domains_of_mem_groups hg, Grouping.mem_domainsOf, ← hip]
    exact hr
  obtain ⟨b, hb, hb'⟩ := exists_committed_of_mem (m := m) hgs hg hdomain
  obtain ⟨d, hmem, hcov⟩ := hb.exists_covered hgs
  refine ⟨d, ?_, ?_⟩
  · rw [Grouping.domains_of_mem_groups hg, Grouping.mem_domainsOf, ← hb']
    exact Grouping.mem_records_of_member h hmem
  · rw [← hb']
    exact hb.resolve?_of_covers hgs hcov

/-- Each group has an address of its own, and a record that resolves to it. -/
theorem length_groups_le_resolved :
    (Grouping.ofRecords rs).groups.length ≤
      (compact m (Grouping.ofRecords rs).groups).resolved (Grouping.ofRecords rs).records := by
  unfold PatternSet.resolved
  rw [List.countP_eq_length_filter, ← List.length_map Group.ip, ← List.length_map Record.ip]
  refine (List.subperm_of_subset (Grouping.nodup_ips rs) ?_).length_le
  intro ip hip
  obtain ⟨g, hg, rfl⟩ := List.mem_map.mp hip
  obtain ⟨d, hd, hres⟩ := exists_domain_resolves (m := m) h hg
  rw [Grouping.domains_of_mem_groups hg, Grouping.mem_domainsOf] at hd
  exact List.mem_map.mpr ⟨⟨g.ip, d⟩, List.mem_filter.mpr ⟨hd, by simpa using hres⟩, rfl⟩

end

/-- In either comparison, a compaction may lose records, but it mistakes none and loses no group. -/
theorem losses_are_partial (m : Comparison) {rs : List Record} (h : ∀ r ∈ rs, r.domain.Plain) :
    let g := Grouping.ofRecords rs
    let s := compact m g.groups
    (∀ f ∈ (s.validate g.records).findings, ∃ r ∈ g.records, f = .notFound r.domain) ∧
      (∀ gr ∈ g.groups, ∃ d ∈ gr.domains, s.resolve? d = some gr.ip) ∧
      g.groups.length ≤ (s.validate g.records).matched := by
  intro g s
  refine ⟨?_, fun gr hgr => exists_domain_resolves h hgr, ?_⟩
  · intro f hf
    rw [PatternSet.validate_eq, List.mem_toArray] at hf
    obtain ⟨r, hr, hf⟩ := List.mem_filterMap.mp hf
    exact ⟨r, hr, notFound_of_finding? h hr hf⟩
  · rw [PatternSet.validate_eq]
    exact length_groups_le_resolved h

/-- As plain text `ab.com` stands in `b.cab.com`, so the run goes on to a name that its last member is not below. -/
theorem partial_label_is_lost :
    let rs : List Record := [⟨⟨1, 1, 1, 1⟩, "x.ab.com".toList⟩, ⟨⟨1, 1, 1, 1⟩, "b.cab.com".toList⟩,
      ⟨⟨2, 2, 2, 2⟩, "c.cab.com".toList⟩]
    let g := Grouping.ofRecords rs
    let s := compact .substring g.groups
    (∀ r ∈ rs, r.domain.Plain) ∧ s.validate g.records = ⟨2, 3, #[.notFound "b.cab.com".toList]⟩ ∧
      (∀ f ∈ (s.validate g.records).findings, ∃ r ∈ g.records, f = .notFound r.domain) ∧
      (∀ gr ∈ g.groups, ∃ d ∈ gr.domains, s.resolve? d = some gr.ip) ∧
      g.groups.length ≤ (s.validate g.records).matched := by
  intro rs g s
  have plain : ∀ r ∈ rs, r.domain.Plain := by decide
  have report : s.validate g.records = ⟨2, 3, #[.notFound "b.cab.com".toList]⟩ := by unfold s g; cbv
  exact ⟨plain, report, losses_are_partial .substring plain⟩

end HostPatterns
