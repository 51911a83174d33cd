/-
  HostPatterns.Proofs.Narrowing — records of other addresses can only narrow what an
  address resolves.

  Such records block more suffixes, and leave the members of the address as they are.
  The two walks may then cut these members at different places. But neighbours that
  are joined while more is blocked are joined while less is, so a run of the stricter
  walk lies within one run of the freer walk. A wildcard that the first one commits is
  at or below a wildcard that the second one does (`Run.exists_wider`).
  - `resolve?_of_append`: what resolves to an address with the records of others added
    resolves to it without them.
-/

import HostPatterns.Proofs.Neighbours
import HostPatterns.Proofs.Resolution

namespace HostPatterns

namespace Run

variable {blocked blocked' : Domain → Bool}

theorem exists_wider (hb : ClosedAbove blocked) (hle : ∀ s, blocked' s = false → blocked s = false) {ps : List Pattern}
    (hps : HostRow ps) {r : Run} (hr : r ∈ ofSeeds .labelBoundary blocked' ps) {w : Domain} (hw : r.pattern = .wildcard w) :
    ∃ r' ∈ ofSeeds .labelBoundary blocked ps, ∃ w' ∈ w.ancestry, r'.pattern = .wildcard w' := by
  obtain ⟨p, qs, ht, hpart⟩ := (cut_ofSeeds ps).exists_through r hr
  have hrow := hps.part hpart
  have hjoined := (ht.isChain (hrow.named p List.mem_cons_self) hrow.precede).imp fun _ _ hj => hj.imp hle
  obtain ⟨r', hr', p', qs', ht', hpart', hin⟩ :=
    (cut_ofSeeds ps).exists_through_of_isChain hb hps.named hpart (List.cons_ne_nil p qs) hjoined
  have hrow' := hps.part hpart'
  have hp' : p'.domain ≠ [] := hrow'.named p' List.mem_cons_self
  have hcovers := ht'.covers hp' hrow'.sorted
  obtain ⟨hname, -, -, hpast⟩ := ht.of_wildcard hrow hw
  cases hpat : r'.pattern with
  | exact d =>
    -- it would cover the first and the last member of the narrower run, which are two
    have hfirst : p.domain = d := by
      have := hcovers p (hin.subset List.mem_cons_self)
      rwa [hpat] at this
    have hlast : r.last.domain = d := by
      have := hcovers r.last (hin.subset ht.last_mem)
      rwa [hpat] at this
    exact absurd (hfirst.trans hlast.symm) hpast.2
  | wildcard w' =>
    obtain ⟨hname', hlabels, -, -⟩ := ht'.of_wildcard hrow' hpat
    refine ⟨r', hr', w', ?_, hpat⟩
    rw [← hname]
    apply ht.mem_ancestry_name hlabels
    intro q hq
    rw [← hname']
    exact ht'.name_mem_ancestry hp' q (hin.subset hq)

end Run

namespace Grouping

variable {rs xs : List Record} (hd : ((rs ++ xs).map Record.domain).Nodup)

include hd

theorem records_of_nodup_append : (ofRecords rs).records = rs := by
  rw [List.map_append] at hd
  exact records_of_nodup hd.of_append_left

theorem member_append {ip : Ipv4} {p : Pattern} (hp : Member (ofRecords rs).groups ip p) :
    Member (ofRecords (rs ++ xs)).groups ip p := by
  obtain ⟨hr, hx⟩ := member_iff.mp hp
  rw [records_of_nodup_append hd] at hr
  refine member_iff.mpr ⟨?_, hx⟩
  rw [records_of_nodup hd]
  exact List.mem_append_left _ hr

/-- The group of an address stays as it is when records of others are added. -/
theorem mem_groups_of_append {a : Ipv4} (ha : ∀ x ∈ xs, x.ip ≠ a) {g : Group}
    (hg : g ∈ (ofRecords (rs ++ xs)).groups) (hip : g.ip = a) : g ∈ (ofRecords rs).groups := by
  have hnone : xs.filter (·.ip = a) = [] := by
    rw [List.filter_eq_nil_iff]
    intro x hx
    simpa using ha x hx
  have hsame : domainsOf a (rs ++ xs) = domainsOf a rs := by
    unfold domainsOf
    rw [List.filter_append, hnone, List.append_nil]
  obtain ⟨r, hr, hrip⟩ := exists_record_of_mem_groups hg
  have hdomains := domains_of_mem_groups hg
  rw [records_of_nodup hd] at hr hdomains
  have hr' : r ∈ (ofRecords rs).records := by
    rw [records_of_nodup_append hd]
    rcases List.mem_append.mp hr with hr | hr
    · exact hr
    · exact absurd (hrip.trans hip) (ha r hr)
  have hgroup := exists_group_of_mem hr'
  rw [records_of_nodup_append hd, hrip, hip, ← hsame, ← hip, ← hdomains] at hgroup
  exact hgroup

end Grouping

/-- Where records of others are added, an address commits no wildcard but at or below one it commits without them. -/
theorem exists_committed_above {rs xs : List Record} (hd : ((rs ++ xs).map Record.domain).Nodup)
    (h : ∀ r ∈ rs, r.domain.Plain) {a : Ipv4} (ha : ∀ x ∈ xs, x.ip ≠ a) {w : Domain}
    (hb : Committed .labelBoundary (Grouping.ofRecords (rs ++ xs)).groups ⟨.wildcard w, a⟩) :
    ∃ w' ∈ w.ancestry, Committed .labelBoundary (Grouping.ofRecords rs).groups ⟨.wildcard w', a⟩ := by
  obtain ⟨g, hg, hip, r, hr, hpat⟩ := hb
  have hg' := Grouping.mem_groups_of_append hd ha hg hip
  have hfreer : ∀ s, (Owners.ofGroups (Grouping.ofRecords (rs ++ xs)).groups).contested g.ip s = false →
      (Owners.ofGroups (Grouping.ofRecords rs).groups).contested g.ip s = false := by
    intro s
    rw [Owners.contested_eq_false_iff, Owners.contested_eq_false_iff]
    intro hfree hcontested
    obtain ⟨o, p, ho, hp, hd'⟩ := hcontested
    exact hfree ⟨o, p, ho, Grouping.member_append hd hp, hd'⟩
  obtain ⟨r', hr', w', hw', hpat'⟩ :=
    Run.exists_wider (closedAbove_contested _ _) hfreer (Grouping.hostRow_seeds h hg') hr hpat
  exact ⟨w', hw', g, hg', hip, r', hr', hpat'⟩

/-- What resolves to an address while records of others are added resolves to it without them. -/
theorem resolve?_of_append {rs xs : List Record} (hd : ((rs ++ xs).map Record.domain).Nodup)
    (h : ∀ r ∈ rs ++ xs, r.domain.Plain) {a : Ipv4} (ha : ∀ x ∈ xs, x.ip ≠ a) {d : Domain}
    (hres : (compact .labelBoundary (Grouping.ofRecords (rs ++ xs)).groups).resolve? d = some a) :
    (compact .labelBoundary (Grouping.ofRecords rs).groups).resolve? d = some a := by
  have hplain : ∀ r ∈ rs, r.domain.Plain := fun r hr => h r (List.mem_append_left _ hr)
  have hgs := hostGroups_ofRecords hplain
  obtain ⟨⟨pattern, ip⟩, hb, hip, hcov⟩ := exists_committed_of_resolve? (hostGroups_ofRecords h) hres
  cases hip
  cases pattern with
  | exact e =>
    cases (show d = e from hcov)
    obtain ⟨g, hg, hip, hmem⟩ := hb.member_of_exact rfl
    exact resolve?_of_member hgs ⟨g, Grouping.mem_groups_of_append hd ha hg hip, hip, hmem⟩
  | wildcard w =>
    obtain ⟨w', hw', hb'⟩ := exists_committed_above hd hplain ha hb
    exact hb'.resolve?_of_covers hgs (Domain.ancestry_trans hw' hcov)

/-- A name of another address splits a run: what it covered in one piece is then covered in part. -/
theorem split_run_narrows :
    let rs : List Record := [⟨⟨1, 1, 1, 1⟩, "a.cdn.example.com".toList⟩, ⟨⟨1, 1, 1, 1⟩, "b.cdn.example.com".toList⟩,
      ⟨⟨1, 1, 1, 1⟩, "www.example.com".toList⟩]
    let xs : List Record := [⟨⟨2, 2, 2, 2⟩, "mail.example.com".toList⟩]
    let s := compact .labelBoundary (Grouping.ofRecords rs).groups
    let s' := compact .labelBoundary (Grouping.ofRecords (rs ++ xs)).groups
    let a : Ipv4 := ⟨1, 1, 1, 1⟩
    (((rs ++ xs).map Record.domain).Nodup ∧ (∀ r ∈ rs ++ xs, r.domain.Plain) ∧ ∀ x ∈ xs, x.ip ≠ a) ∧
      s'.resolve? "c.cdn.example.com".toList = some a ∧ s.resolve? "c.cdn.example.com".toList = some a ∧
        s'.resolve? "new.example.com".toList ≠ some a ∧ s.resolve? "new.example.com".toList = some a := by
  intro rs xs s s' a
  have distinct : ((rs ++ xs).map Record.domain).Nodup := by decide
  have plain : ∀ r ∈ rs ++ xs, r.domain.Plain := by decide
  have others : ∀ x ∈ xs, x.ip ≠ a := by decide
  have resolved : s'.resolve? "c.cdn.example.com".toList = some a := by unfold s' a; cbv
  have lost : s'.resolve? "new.example.com".toList = none := by unfold s'; cbv
  have before : s.resolve? "new.example.com".toList = some a := by unfold s a; cbv
  refine ⟨⟨distinct, plain, others⟩, resolved, resolve?_of_append distinct plain others resolved, ?_, before⟩
  rw [lost]
  exact (Option.some_ne_none a).symm

end HostPatterns
