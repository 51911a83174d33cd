/-
  HostPatterns.Proofs.Resolution — what a compaction of owned groups resolves, and how
  far the wildcards of one address stay from the patterns of another.

  In either comparison, a binding that covers a member's name is of the member's
  address (`ip_eq_of_covers`): an exact one is the member itself, and a wildcard above
  the name of another address would be contested. Bindings that cover one name are of
  one address (`Committed.ip_eq_of_covers_both`), so any of them tells what the name
  resolves to (`Committed.resolve?_of_covers`). On label boundaries every member is
  covered (`exists_covers_of_member`), since a run's pattern covers the members it goes
  through. So:
  - `kept_records_resolve`: every kept record resolves to its address, and validation
    finds nothing.
  - `wildcards_isolated`: a wildcard is not at, above or below a pattern of another
    address.
-/

import HostPatterns.Proofs.Committed
import HostPatterns.Proofs.Validation
import Mathlib

namespace HostPatterns

variable {m : Comparison} {gs : List Group}

/-! ## What covers a name -/

theorem ip_eq_of_covers (h : OwnedGroups gs) {b : Binding} (hb : Committed m gs b) {ip : Ipv4} {d : Domain}
    (hd : Member gs ip (.exact d)) (hc : b.pattern.Covers d) : b.ip = ip := by
  cases hp : b.pattern with
  | exact e =>
    rw [hp] at hc
    cases (show d = e from hc)
    exact h.owned _ _ _ (hb.member_of_exact hp) hd
  | wildcard w =>
    rw [hp] at hc
    by_contra hne
    exact hb.not_contested_of_wildcard h hp ⟨ip, _, Ne.symm hne, hd, Or.inl hc⟩

theorem Committed.isolated (h : OwnedGroups gs) {b e : Binding} (hb : Committed m gs b) (he : Committed m gs e)
    {w : Domain} (hw : b.pattern = .wildcard w) (hip : e.ip ≠ b.ip) :
    w ∉ e.pattern.domain.ancestry ∧ e.pattern.domain ∉ w.ancestry := by
  have hfree := hb.not_contested_of_wildcard h hw
  constructor
  · -- the member that the other pattern stands over would lie below the wildcard
    intro hbelow
    obtain ⟨p, hp, hd⟩ := he.exists_member_below
    exact hfree ⟨e.ip, p, hip, hp, Or.inl (Domain.ancestry_trans hbelow hd)⟩
  · intro habove
    obtain ⟨p, hp, hd⟩ := hb.exists_member_below
    rw [hw] at hd
    exact hfree (he.contests h hip ⟨p, hp, hd⟩ habove)

theorem Committed.ip_eq_of_wildcard_covers (h : OwnedGroups gs) {b c : Binding} (hb : Committed m gs b)
    (hc : Committed m gs c) {w d : Domain} (hw : b.pattern = .wildcard w) (hwd : w ∈ d.ancestry) (hcd : c.pattern.Covers d) :
    c.ip = b.ip := by
  by_contra hip
  obtain ⟨hbelow, habove⟩ := hb.isolated h hc hw hip
  have hc' : c.pattern.domain ∈ d.ancestry := hcd.mem_ancestry (Domain.mem_ancestry.mp hwd).1
  exact (Domain.ancestry_total hwd hc' hc.domain_ne_nil).elim hbelow habove

/-- All patterns that cover one name are of one address. -/
theorem Committed.ip_eq_of_covers_both (h : OwnedGroups gs) {b c : Binding} (hb : Committed m gs b)
    (hc : Committed m gs c) {d : Domain} (hbd : b.pattern.Covers d) (hcd : c.pattern.Covers d) : c.ip = b.ip := by
  cases hb' : b.pattern with
  | wildcard w =>
    rw [hb'] at hbd
    exact hb.ip_eq_of_wildcard_covers h hc hb' hbd hcd
  | exact e =>
    cases hc' : c.pattern with
    | wildcard w =>
      rw [hc'] at hcd
      exact (hc.ip_eq_of_wildcard_covers h hb hc' hcd hbd).symm
    | exact f =>
      rw [hb'] at hbd
      rw [hc'] at hcd
      cases (show d = e from hbd)
      cases (show d = f from hcd)
      exact h.owned _ _ _ (hc.member_of_exact hc') (hb.member_of_exact hb')

theorem Committed.resolve?_of_covers (h : OwnedGroups gs) {b : Binding} (hb : Committed m gs b) {d : Domain}
    (hd : b.pattern.Covers d) : (compact m gs).resolve? d = some b.ip := by
  apply PatternSet.resolve?_eq_some_of_covers (indexed_compact m gs) ⟨b, (mem_compact_iff h).mpr hb, hd⟩
  intro c hc hcd
  exact hb.ip_eq_of_covers_both h ((mem_compact_iff h).mp hc) hd hcd

theorem exists_committed_of_resolve? (h : OwnedGroups gs) {d : Domain} {ip : Ipv4}
    (hd : (compact m gs).resolve? d = some ip) : ∃ b, Committed m gs b ∧ b.ip = ip ∧ b.pattern.Covers d := by
  obtain ⟨b, hl, hip⟩ := Option.map_eq_some_iff.mp hd
  obtain ⟨hb, hcov⟩ := PatternSet.lookup?_covers (indexed_compact m gs) hl
  exact ⟨b, (mem_compact_iff h).mp hb, hip, hcov⟩

/-! ## Records -/

theorem exists_covers_of_member (h : OwnedGroups gs) {ip : Ipv4} {d : Domain} (hd : Member gs ip (.exact d)) :
    ∃ b, Committed .labelBoundary gs b ∧ b.pattern.Covers d := by
  obtain ⟨g, hg, -, t, ht, he⟩ := id hd
  have hseed : .exact d ∈ g.seeds := Group.mem_seeds.mpr ⟨⟨t, ht, he⟩, h.named _ _ hd⟩
  obtain ⟨r, hr, p, qs, hthrough, hpart, hmem⟩ := (Run.cut_ofSeeds g.seeds).exists_run_of_mem _ hseed
  have hsorted : (p :: qs).Pairwise Pattern.Before := g.seeds_sorted.sublist hpart.sublist
  have hp : p.domain ≠ [] := (Group.mem_seeds.mp (hpart.subset List.mem_cons_self)).2
  exact ⟨⟨r.pattern, g.ip⟩, ⟨g, hg, rfl, r, hr, rfl⟩, hthrough.covers hp hsorted _ hmem⟩

theorem resolve?_of_member (h : OwnedGroups gs) {ip : Ipv4} {d : Domain} (hd : Member gs ip (.exact d)) :
    (compact .labelBoundary gs).resolve? d = some ip := by
  obtain ⟨b, hb, hc⟩ := exists_covers_of_member h hd
  rw [← ip_eq_of_covers h hb hd hc]
  exact hb.resolve?_of_covers h hc

theorem resolve?_of_mem_records {rs : List Record} (h : ∀ r ∈ rs, r.domain.Plain) {r : Record}
    (hr : r ∈ (Grouping.ofRecords rs).records) :
    (compact .labelBoundary (Grouping.ofRecords rs).groups).resolve? r.domain = some r.ip :=
  resolve?_of_member (hostGroups_ofRecords h) (Grouping.member_of_mem_records h hr)

/-- On label boundaries, a compaction loses no record that grouping kept. -/
theorem kept_records_resolve {rs : List Record} (h : ∀ r ∈ rs, r.domain.Plain) :
    let g := Grouping.ofRecords rs
    let s := compact .labelBoundary g.groups
    (∀ r ∈ g.records, s.resolve? r.domain = some r.ip) ∧
      s.validate g.records = ⟨g.records.length, g.records.length, #[]⟩ :=
  ⟨fun _ hr => resolve?_of_mem_records h hr, validate_of_resolves fun _ hr => resolve?_of_mem_records h hr⟩

/-- Two addresses below `example.com`, one of them at it, and names with an empty label and a dot at the end. -/
theorem nested_records_resolve :
    let rs : List Record := [⟨⟨1, 1, 1, 1⟩, "a.cdn.example.com".toList⟩, ⟨⟨1, 1, 1, 1⟩, "b.cdn.example.com".toList⟩,
      ⟨⟨2, 2, 2, 2⟩, "mail.example.com".toList⟩, ⟨⟨1, 1, 1, 1⟩, "example.com".toList⟩, ⟨⟨2, 2, 2, 2⟩, "a..org.".toList⟩]
    let r : Record := ⟨⟨2, 2, 2, 2⟩, "mail.example.com".toList⟩
    let g := Grouping.ofRecords rs
    let s := compact .labelBoundary g.groups
    (∀ r ∈ rs, r.domain.Plain) ∧ r ∈ g.records ∧ s.resolve? r.domain = some r.ip ∧
      s.validate g.records = ⟨g.records.length, g.records.length, #[]⟩ := by
  intro rs r g s
  have plain : ∀ r ∈ rs, r.domain.Plain := by decide
  have kept : r ∈ g.records := by
    have : g.records = rs := by cbv
    rw [this]
    decide
  obtain ⟨resolves, complete⟩ := kept_records_resolve plain
  exact ⟨plain, kept, resolves r kept, complete⟩

/-! ## Isolation -/

/-- No wildcard is at, above or below a pattern of another address. -/
theorem wildcards_isolated (m : Comparison) {rs : List Record} (h : ∀ r ∈ rs, r.domain.Plain) :
    let s := compact m (Grouping.ofRecords rs).groups
    ∀ w ∈ s.toList, w.pattern.isWildcard = true → ∀ e ∈ s.toList, e.ip ≠ w.ip →
      e.pattern.domain ≠ w.pattern.domain ∧ Domain.below e.pattern.domain w.pattern.domain = false ∧
        Domain.below w.pattern.domain e.pattern.domain = false := by
  intro s w hw hkind e he hip
  have hgs := hostGroups_ofRecords h
  have hw := (mem_compact_iff hgs).mp hw
  have he := (mem_compact_iff hgs).mp he
  cases hp : w.pattern with
  | exact d => rw [hp] at hkind; cases hkind
  | wildcard v =>
    have hv : w.pattern.domain = v := by rw [hp]; rfl
    have hvne : v ≠ [] := hv ▸ hw.domain_ne_nil
    obtain ⟨hbelow, habove⟩ := hw.isolated hgs he hp hip
    rw [Domain.mem_ancestry_iff_below hvne] at hbelow
    rw [Domain.mem_ancestry_iff_below he.domain_ne_nil] at habove
    refine ⟨fun heq => hbelow (Or.inl heq.symm), ?_, ?_⟩
    · exact Bool.eq_false_iff.mpr fun hlt => hbelow (Or.inr hlt)
    · exact Bool.eq_false_iff.mpr fun hlt => habove (Or.inr hlt)

/-- A wildcard beside a name of another address, where plain text would find one suffix for three. -/
theorem cdn_wildcard_isolated :
    let rs : List Record := [⟨⟨2, 2, 2, 2⟩, "mail.example.com".toList⟩, ⟨⟨1, 1, 1, 1⟩, "a.cdn.example.com".toList⟩,
      ⟨⟨1, 1, 1, 1⟩, "b.cdn.example.com".toList⟩]
    let s := compact .substring (Grouping.ofRecords rs).groups
    let w : Binding := ⟨.wildcard "cdn.example.com".toList, ⟨1, 1, 1, 1⟩⟩
    let e : Binding := ⟨.exact "mail.example.com".toList, ⟨2, 2, 2, 2⟩⟩
    ((∀ r ∈ rs, r.domain.Plain) ∧ w ∈ s.toList ∧ w.pattern.isWildcard = true ∧ e ∈ s.toList ∧ e.ip ≠ w.ip) ∧
      e.pattern.domain ≠ w.pattern.domain ∧ Domain.below e.pattern.domain w.pattern.domain = false ∧
        Domain.below w.pattern.domain e.pattern.domain = false := by
  intro rs s w e
  have plain : ∀ r ∈ rs, r.domain.Plain := by decide
  have list : s.toList = [w, e] := by unfold s; cbv
  have hw : w ∈ s.toList := by rw [list]; exact List.mem_cons_self
  have he : e ∈ s.toList := by rw [list]; exact List.mem_cons_of_mem _ List.mem_cons_self
  have hip : e.ip ≠ w.ip := by decide
  exact ⟨⟨plain, hw, rfl, he, hip⟩, wildcards_isolated .substring plain w hw rfl e he hip⟩

end HostPatterns
