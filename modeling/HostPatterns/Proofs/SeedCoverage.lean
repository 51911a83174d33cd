/-
  HostPatterns.Proofs.SeedCoverage — what a compaction resolves where members may be
  wildcards, on label boundaries.

  In `SeedGroups` no name of one address is at, above or below a name of another. So
  nothing is contested at a member, and each member's name resolves to its address. A
  wildcard stands for the names below it too, more than any exact patterns could cover,
  so these all resolve to its address exactly if the address has a wildcard there or
  above (`resolve?_below_iff`). It has one where its members call for it (`CallsFor`): the
  last word of a group on a name is a wildcard, or two members met there, uncontested.

  A wildcard member calls for one by itself, unless its group names the domain again,
  plainly.
  - `seeds_covered_iff`: what the members of seed groups cover in their compaction.
  - `plain_word_unsays_wildcard`: `a.com` behind `.a.com` gives up what is below it, and
    in front of it does not.
-/

import HostPatterns.Proofs.LastWord
import HostPatterns.Proofs.Resolution

namespace HostPatterns

/-! ## Below a name -/

/-- Below a name there is one that only a wildcard at or above the name covers. -/
theorem exists_below_uncovered (bs : List Binding) {n : Domain} (hn : n ≠ []) :
    ∃ d, Domain.below d n = true ∧ ∀ b ∈ bs, b.pattern.Covers d → ∃ w ∈ n.ancestry, b.pattern = .wildcard w := by
  let size := (bs.map (·.pattern.domain.length)).sum
  have hlong : ∀ b ∈ bs, b.pattern.domain.length ≤ size :=
    fun b hb => List.le_sum_of_mem (List.mem_map.mpr ⟨b, hb, rfl⟩)
  let d : Domain := List.replicate size 'a' ++ '.' :: n
  have hparents : d.parents = n :: n.parents := Domain.parents_append_dot (by simp [List.mem_replicate]) n
  have hd : d.length = size + 1 + n.length := by simp [d]; omega
  refine ⟨d, Domain.below_iff.mpr ⟨hn, List.suffix_append _ _⟩, ?_⟩
  intro b hb hcov
  have hshort : b.pattern.domain ≠ d := by
    intro heq
    have := hlong b hb
    rw [heq] at this
    omega
  cases hp : b.pattern with
  | exact e =>
    rw [hp] at hcov hshort
    exact absurd (show e = d from Eq.symm hcov) hshort
  | wildcard w =>
    rw [hp] at hcov hshort
    have hw := Domain.parents_of_mem_ancestry hcov hshort
    rw [hparents] at hw
    refine ⟨w, ?_, rfl⟩
    rcases List.mem_cons.mp hw with rfl | hw
    · exact Domain.self_mem_ancestry hn
    · exact Domain.mem_ancestry_of_parents hw

/-- Everything below a name resolves to an address that has a wildcard there or above, and to no other. -/
theorem resolve?_below_iff {m : Comparison} {gs : List Group} (h : OwnedGroups gs) {ip : Ipv4} {n : Domain} (hn : n ≠ []) :
    (∀ d, d = n ∨ Domain.below d n = true → (compact m gs).resolve? d = some ip) ↔
      ∃ w ∈ n.ancestry, Committed m gs ⟨.wildcard w, ip⟩ := by
  constructor
  · intro hall
    obtain ⟨d, hbelow, huncovered⟩ := exists_below_uncovered (compact m gs).toList hn
    obtain ⟨⟨pattern, ip'⟩, hb, hip, hcov⟩ := exists_committed_of_resolve? h (hall d (Or.inr hbelow))
    obtain ⟨w, hw, hp⟩ := huncovered _ ((mem_compact_iff h).mpr hb) hcov
    cases hip
    cases hp
    exact ⟨w, hw, hb⟩
  · intro hex d hd
    obtain ⟨w, hw, hb⟩ := hex
    have hnd : n ∈ d.ancestry := (Domain.mem_ancestry_iff_below hn).mpr (hd.imp_left Eq.symm)
    exact hb.resolve?_of_covers h (Domain.ancestry_trans hw hnd)

/-! ## Seed groups -/

/-- Groups of nonempty names, none of one address at, above or below one of another. -/
structure SeedGroups (gs : List Group) : Prop where
  named : ∀ g ∈ gs, ∀ t ∈ g.domains, (Pattern.ofText t).domain ≠ []
  apart : ∀ g ∈ gs, ∀ g' ∈ gs, g.ip ≠ g'.ip → ∀ t ∈ g.domains, ∀ u ∈ g'.domains,
    (Pattern.ofText t).domain ≠ (Pattern.ofText u).domain ∧
      Domain.below (Pattern.ofText t).domain (Pattern.ofText u).domain = false

namespace SeedGroups

variable {gs : List Group} (h : SeedGroups gs)

include h

theorem domain_ne_nil {ip : Ipv4} {p : Pattern} (hp : Member gs ip p) : p.domain ≠ [] := by
  obtain ⟨g, hg, -, t, ht, rfl⟩ := hp
  exact h.named g hg t ht

theorem not_mem_ancestry {ip ip' : Ipv4} {p q : Pattern} (hp : Member gs ip p) (hq : Member gs ip' q) (hne : ip ≠ ip') :
    q.domain ∉ p.domain.ancestry := by
  rw [Domain.mem_ancestry_iff_below (h.domain_ne_nil hq)]
  obtain ⟨g, hg, rfl, t, ht, rfl⟩ := hp
  obtain ⟨g', hg', rfl, u, hu, rfl⟩ := hq
  obtain ⟨hdiff, hbelow⟩ := h.apart g hg g' hg' hne t ht u hu
  simp [hdiff.symm, hbelow]

theorem not_contested {ip : Ipv4} {p : Pattern} (hp : Member gs ip p) : ¬ Contested gs ip p.domain := by
  intro hc
  obtain ⟨o, q, ho, hq, hat | habove⟩ := hc
  · exact h.not_mem_ancestry hq hp ho hat
  · exact h.not_mem_ancestry hp hq (Ne.symm ho) (Domain.mem_ancestry_of_parents habove)

theorem ownedGroups : OwnedGroups gs := by
  refine ⟨fun ip d hd => h.domain_ne_nil hd, ?_, fun ip w hw => h.not_contested hw⟩
  intro ip ip' d hd hd'
  by_contra hne
  exact h.not_mem_ancestry hd hd' hne (Domain.self_mem_ancestry (h.domain_ne_nil hd'))

theorem freeRow {g : Group} (hg : g ∈ gs) : FreeRow ((Owners.ofGroups gs).contested g.ip) g.seeds := by
  refine ⟨g.seeds_sorted, fun p hp => (Group.mem_seeds.mp hp).2, ?_⟩
  intro p hp
  exact Owners.contested_eq_false_iff.mpr (h.not_contested (Group.member_of_mem_seeds hg hp))

end SeedGroups

/-! ## Calls for a wildcard -/

/-- A group of the address has a wildcard for its last word on the name, or two members that met there, uncontested. -/
def CallsFor (gs : List Group) (ip : Ipv4) (w : Domain) : Prop :=
  ∃ g ∈ gs, g.ip = ip ∧
    (lastWord? (g.domains.map Pattern.ofText) w = some (.wildcard w) ∨ Met g.seeds w ∧ ¬ Contested gs ip w)

section

variable {gs : List Group} (h : SeedGroups gs) {ip : Ipv4} {w : Domain}

include h

theorem callsFor_of_committed (hb : Committed .labelBoundary gs ⟨.wildcard w, ip⟩) : CallsFor gs ip w := by
  have hne : w ≠ [] := hb.domain_ne_nil
  obtain ⟨g, hg, rfl, r, hr, hw⟩ := hb
  refine ⟨g, hg, rfl, ?_⟩
  rcases Run.lastWord?_or_met_of_wildcard (h.freeRow hg) hr hw with hlast | ⟨hmet, hfree⟩
  · left
    rwa [lastWord?, ← g.filter_seeds hne]
  · exact Or.inr ⟨hmet, Owners.contested_eq_false_iff.mp hfree⟩

theorem exists_committed_of_callsFor (hc : CallsFor gs ip w) :
    ∃ v ∈ w.ancestry, Committed .labelBoundary gs ⟨.wildcard v, ip⟩ := by
  obtain ⟨g, hg, rfl, hcall⟩ := hc
  have hrun : ∃ r ∈ g.runs .labelBoundary gs, ∃ v ∈ w.ancestry, r.pattern = .wildcard v := by
    rcases hcall with hlast | ⟨hmet, hfree⟩
    · have hne : w ≠ [] := by
        obtain ⟨t, ht, hp⟩ := List.mem_map.mp (mem_of_lastWord? hlast).1
        have := h.named g hg t ht
        rwa [hp] at this
      rw [lastWord?, ← g.filter_seeds hne] at hlast
      exact Run.exists_wildcard_of_lastWord? (h.freeRow hg) hlast
    · exact Run.exists_wildcard_of_met (closedAbove_contested gs g.ip) (h.freeRow hg) hmet
        (Owners.contested_eq_false_iff.mpr hfree)
  obtain ⟨r, hr, v, hv, hp⟩ := hrun
  exact ⟨v, hv, g, hg, rfl, r, hr, hp⟩

end

/-- On label boundaries, a plain member resolves to its address; so does everything at and below a
    wildcard member exactly if the members of the address call for a wildcard there or above. -/
theorem seeds_covered_iff {gs : List Group} (h : SeedGroups gs) :
    let s := compact .labelBoundary gs
    (∀ ip n, Member gs ip (.exact n) → s.resolve? n = some ip) ∧
      ∀ ip n, Member gs ip (.wildcard n) →
        ((∀ d, d = n ∨ Domain.below d n = true → s.resolve? d = some ip) ↔ ∃ w ∈ n.ancestry, CallsFor gs ip w) := by
  intro s
  refine ⟨fun ip n hn => resolve?_of_member h.ownedGroups hn, ?_⟩
  intro ip n hn
  have hne : n ≠ [] := h.domain_ne_nil hn
  rw [resolve?_below_iff h.ownedGroups hne]
  constructor
  · intro hex
    obtain ⟨w, hw, hb⟩ := hex
    exact ⟨w, hw, callsFor_of_committed h hb⟩
  · intro hex
    obtain ⟨w, hw, hc⟩ := hex
    obtain ⟨v, hv, hb⟩ := exists_committed_of_callsFor h hc
    exact ⟨v, Domain.ancestry_trans hv hw, hb⟩

/-- A wildcard behind the plain name, and one of another address, stand for all that is below them. -/
theorem last_wildcards_cover :
    let i : Ipv4 := ⟨1, 1, 1, 1⟩
    let j : Ipv4 := ⟨2, 2, 2, 2⟩
    let gs : List Group := [⟨i, ["a.com".toList, ".a.com".toList, "b.org".toList]⟩, ⟨j, [".c.net".toList]⟩]
    let s := compact .labelBoundary gs
    SeedGroups gs ∧ s.resolve? "b.org".toList = some i ∧
      (∀ d, d = "a.com".toList ∨ Domain.below d "a.com".toList = true → s.resolve? d = some i) ∧
        ∀ d, d = "c.net".toList ∨ Domain.below d "c.net".toList = true → s.resolve? d = some j := by
  intro i j gs s
  have seeds : SeedGroups gs := ⟨by decide, by decide⟩
  obtain ⟨plain, wild⟩ := seeds_covered_iff seeds
  have ha : CallsFor gs i "a.com".toList := ⟨_, List.mem_cons_self, rfl, Or.inl (by decide)⟩
  have hc : CallsFor gs j "c.net".toList := ⟨_, List.mem_cons_of_mem _ List.mem_cons_self, rfl, Or.inl (by decide)⟩
  refine ⟨seeds, plain i _ ?_, (wild i _ ?_).mpr ⟨_, by decide, ha⟩, (wild j _ ?_).mpr ⟨_, by decide, hc⟩⟩
  · exact ⟨_, List.mem_cons_self, rfl, "b.org".toList, by decide, rfl⟩
  · exact ⟨_, List.mem_cons_self, rfl, ".a.com".toList, by decide, rfl⟩
  · exact ⟨_, List.mem_cons_of_mem _ List.mem_cons_self, rfl, ".c.net".toList, by decide, rfl⟩

/-- The plain name behind the wildcard closes the run, and what is below it is lost. -/
theorem plain_word_unsays_wildcard :
    let i : Ipv4 := ⟨1, 1, 1, 1⟩
    let gs : List Group := [⟨i, [".a.com".toList, "a.com".toList]⟩]
    let gs' : List Group := [⟨i, ["a.com".toList, ".a.com".toList]⟩]
    let d := "x.a.com".toList
    SeedGroups gs ∧ Member gs i (.wildcard "a.com".toList) ∧ Domain.below d "a.com".toList = true ∧
      (compact .labelBoundary gs).resolve? d = none ∧ (compact .labelBoundary gs').resolve? d = some i := by
  intro i gs gs' d
  have seeds : SeedGroups gs := ⟨by decide, by decide⟩
  have member : Member gs i (.wildcard "a.com".toList) :=
    ⟨_, List.mem_cons_self, rfl, ".a.com".toList, List.mem_cons_self, rfl⟩
  have lost : (compact .labelBoundary gs).resolve? d = none := by unfold gs i d; cbv
  have found : (compact .labelBoundary gs').resolve? d = some i := by unfold gs' i d; cbv
  exact ⟨seeds, member, by decide, lost, found⟩

end HostPatterns
