/-
  HostPatterns.Proofs.FileStep — from a hosts text to a pattern file and back.

  A domain read from a hosts text has some character, and none that is a blank or a
  capital letter (`Hosts.tidy_of_mem_records`): fields hold no blanks, and normalizing
  leaves small letters. So do the patterns made of such domains, which are then legible
  (`Committed.legible`). What may still be lost between writing and reading is a dot at
  the end, since the pattern reader normalizes again. A pattern ends as the domains below
  it do, every pattern is above a member, and every member below a pattern
  (`forall_committed_normal_iff`):
  - `reread_compaction_iff`: the written compaction is read as itself exactly when no
    kept domain ends in a dot; validation against what was read is then complete.
-/

import HostPatterns.Proofs.Produced
import HostPatterns.Proofs.Resolution

namespace HostPatterns

/-! ## Tidy domains -/

/-- No blanks and no capital letters. -/
def Domain.Tidy (d : Domain) : Prop := ∀ c ∈ d, Text.isBlank c = false ∧ c.toLower = c

theorem Domain.Tidy.of_mem_ancestry {d p : Domain} (h : d.Tidy) (hp : p ∈ d.ancestry) : p.Tidy :=
  fun c hc => h c ((Domain.suffix_of_mem_ancestry hp).subset hc)

theorem Domain.tidy_normalize {d : Domain} (h : ∀ c ∈ d, Text.isBlank c = false) : d.normalize.Tidy := by
  intro c hc
  obtain ⟨a, ha, rfl⟩ := Domain.mem_of_mem_normalize hc
  exact ⟨isBlank_toLower (h a ha), toLower_toLower a⟩

theorem Domain.Tidy.normalize_eq_self_iff {d : Domain} (h : d.Tidy) : d.normalize = d ↔ d.getLast? ≠ some '.' := by
  have hmap : d.map Char.toLower = d := by
    conv_rhs => rw [← List.map_id d]
    exact List.map_congr_left fun c hc => (h c hc).2
  unfold Domain.normalize
  constructor
  · intro hn hdot
    rw [if_pos hdot] at hn
    have hlen := congrArg List.length hn
    rw [List.length_map, List.length_dropLast] at hlen
    have hpos : 0 < d.length := by
      apply List.length_pos_iff.mpr
      intro hnil
      subst hnil
      cases hdot
    omega
  · intro hdot
    rw [if_neg hdot, hmap]

/-! ## Domains of a hosts text -/

theorem Text.not_isBlank_of_mem_fields {t f : Text} (h : f ∈ t.fields) : ∀ c ∈ f, isBlank c = false :=
  not_of_mem_splitOnPPrepend (List.forall_mem_nil _) (List.mem_filter.mp h).1

theorem Record.tidy_of_ofLine? {t : Text} {r : Record} (h : Record.ofLine? t = some r) :
    r.domain ≠ [] ∧ r.domain.Tidy := by
  unfold Record.ofLine? at h
  split at h
  · rename_i address name rest hf
    obtain ⟨ip, -, h⟩ := Option.bind_eq_some_iff.mp h
    simp only at h
    split at h
    · cases h
    · rename_i hne
      cases h
      have hname : name ∈ t.fields := by rw [hf]; exact List.mem_cons_of_mem _ List.mem_cons_self
      exact ⟨(not_or.mp hne).2, Domain.tidy_normalize (Text.not_isBlank_of_mem_fields hname)⟩
  · cases h

theorem Hosts.tidy_of_mem_records {t : Text} {r : Record} (h : r ∈ (Hosts.ofText t).records) :
    r.domain ≠ [] ∧ r.domain.Tidy := by
  obtain ⟨line, hl, hr⟩ := List.mem_filterMap.mp h
  obtain ⟨l, -, rfl⟩ := List.mem_map.mp hl
  unfold HostLine.ofText at hr
  simp only at hr
  split at hr
  · cases hr
  · split at hr
    · rename_i r' hr'
      cases hr
      exact Record.tidy_of_ofLine? hr'
    · cases hr

/-! ## Writing and reading -/

variable {m : Comparison} {gs : List Group}

/-- The patterns of plain domains without blanks are legible. -/
theorem Committed.legible {b : Binding} (hb : Committed m gs b) (h : HostGroups gs)
    (ht : ∀ ip p, Member gs ip p → p.domain.Tidy) : b.Legible := by
  obtain ⟨p, hp, habove⟩ := hb.exists_member_below
  have htidy : b.pattern.domain.Tidy := (ht _ p hp).of_mem_ancestry habove
  have hblank : ∀ c ∈ b.pattern.render, Text.isBlank c = false := by
    intro c hc
    cases hpat : b.pattern with
    | exact d =>
      rw [hpat] at hc htidy
      exact (htidy c hc).1
    | wildcard w =>
      rw [hpat] at hc htidy
      rcases List.mem_cons.mp hc with rfl | hc
      · decide
      · exact (htidy c hc).1
  refine ⟨?_, Text.trim_eq_self hblank, ?_, hb.domain_ne_nil⟩
  · intro hn
    have := hblank _ hn
    revert this
    decide
  · cases hpat : b.pattern with
    | exact d =>
      obtain ⟨g, hg, -, t, ht, he⟩ := hb.member_of_exact hpat
      have hplain := h.plain g hg t ht
      rw [hplain.ofText] at he
      cases he
      exact hplain.ofText
    | wildcard w => rfl

/-- A pattern ends as the names below it do. -/
theorem Binding.normalize_eq_self_iff_of_below {b : Binding} {d : Domain} (hd : d.Tidy) (hb : b.pattern.domain ≠ [])
    (habove : b.pattern.domain ∈ d.ancestry) : b.normalize = b ↔ d.getLast? ≠ some '.' := by
  rw [normalize_eq_self_iff, (hd.of_mem_ancestry habove).normalize_eq_self_iff,
    Domain.getLast?_of_mem_ancestry habove hb]

/-- What is committed has normal domains exactly when the members end in no dot, as every
    pattern is above a member and every member below a pattern. -/
theorem forall_committed_normal_iff (h : HostGroups gs) (ht : ∀ ip p, Member gs ip p → p.domain.Tidy) :
    (∀ b, Committed .labelBoundary gs b → b.normalize = b) ↔
      ∀ ip p, Member gs ip p → p.domain.getLast? ≠ some '.' := by
  constructor
  · intro hnormal ip p hp
    obtain ⟨hexact, hne⟩ := h.exact_of_member hp
    rw [hexact] at hp
    obtain ⟨b, hb, hcov⟩ := exists_covers_of_member h hp
    exact (Binding.normalize_eq_self_iff_of_below (ht ip _ hp) hb.domain_ne_nil (hcov.mem_ancestry hne)).mp (hnormal b hb)
  · intro hdot b hb
    obtain ⟨p, hp, habove⟩ := hb.exists_member_below
    exact (Binding.normalize_eq_self_iff_of_below (ht _ p hp) hb.domain_ne_nil habove).mpr (hdot _ p hp)

/-- The written compaction of a hosts text is read as itself, and found complete, exactly when
    no kept domain ends in a dot. -/
theorem reread_compaction_iff {t : Text} (h : ∀ r ∈ (Hosts.ofText t).records, r.domain.head? ≠ some '.') :
    let g := Grouping.ofRecords (Hosts.ofText t).records
    let s := compact .labelBoundary g.groups
    (PatternSet.parse s.render = .ok s ↔ ∀ r ∈ g.records, r.domain.getLast? ≠ some '.') ∧
      ((∀ r ∈ g.records, r.domain.getLast? ≠ some '.') →
        ∃ written, PatternSet.parse s.render = .ok written ∧
          written.validate g.records = ⟨g.records.length, g.records.length, #[]⟩) := by
  intro g s
  have hplain : ∀ r ∈ (Hosts.ofText t).records, r.domain.Plain :=
    fun r hr => ⟨(Hosts.tidy_of_mem_records hr).1, h r hr⟩
  have hgs : HostGroups g.groups := hostGroups_ofRecords hplain
  have htidy : ∀ ip p, Member g.groups ip p → p.domain.Tidy := by
    intro ip p hp
    have hr := Grouping.mem_of_mem_records (Grouping.mem_records_of_member hplain hp)
    exact (Hosts.tidy_of_mem_records hr).2
  have hlegible : ∀ b ∈ s.toList, b.Legible := fun b hb => ((mem_compact_iff hgs).mp hb).legible hgs htidy
  have hdots : (∀ r ∈ g.records, r.domain.getLast? ≠ some '.') ↔
      ∀ ip p, Member g.groups ip p → p.domain.getLast? ≠ some '.' := by
    constructor
    · intro hdot ip p hp
      exact hdot _ (Grouping.mem_records_of_member hplain hp)
    · intro hdot r hr
      exact hdot r.ip _ (Grouping.member_of_mem_records hplain hr)
  have reread : PatternSet.parse s.render = .ok s ↔ ∀ r ∈ g.records, r.domain.getLast? ≠ some '.' := by
    rw [PatternSet.parse_render_iff (indexed_compact _ _) hlegible, hdots, ← forall_committed_normal_iff hgs htidy]
    exact forall_congr' fun b => imp_congr_left (mem_compact_iff hgs)
  refine ⟨reread, fun hdot => ⟨s, reread.mpr hdot, ?_⟩⟩
  exact validate_of_resolves fun r hr => resolve?_of_mem_records hplain hr

/-- Capital letters, a comment and a record for an address that has a wildcard beside it. -/
theorem commented_hosts_reread :
    let t := "# edge\n1.1.1.1 a.CDN.example.com\n1.1.1.1 b.cdn.Example.com # second\n\n2.2.2.2 mail.example.com".toList
    let g := Grouping.ofRecords (Hosts.ofText t).records
    let s := compact .labelBoundary g.groups
    (∀ r ∈ (Hosts.ofText t).records, r.domain.head? ≠ some '.') ∧ (∀ r ∈ g.records, r.domain.getLast? ≠ some '.') ∧
      PatternSet.parse s.render = .ok s ∧
        ∃ written, PatternSet.parse s.render = .ok written ∧
          written.validate g.records = ⟨g.records.length, g.records.length, #[]⟩ := by
  intro t g s
  have read : (Hosts.ofText t).records = [⟨⟨1, 1, 1, 1⟩, "a.cdn.example.com".toList⟩,
      ⟨⟨1, 1, 1, 1⟩, "b.cdn.example.com".toList⟩, ⟨⟨2, 2, 2, 2⟩, "mail.example.com".toList⟩] := by
    unfold t
    cbv
  have front : ∀ r ∈ (Hosts.ofText t).records, r.domain.head? ≠ some '.' := by
    rw [read]
    decide
  have back : ∀ r ∈ g.records, r.domain.getLast? ≠ some '.' := by
    have kept : ∀ r ∈ (Hosts.ofText t).records, r.domain.getLast? ≠ some '.' := by
      rw [read]
      decide
    exact fun r hr => kept r (Grouping.mem_of_mem_records hr)
  obtain ⟨reread, complete⟩ := reread_compaction_iff front
  exact ⟨front, back, reread.mpr back, complete back⟩

end HostPatterns
