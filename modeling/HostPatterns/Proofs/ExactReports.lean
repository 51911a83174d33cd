/-
  HostPatterns.Proofs.ExactReports — a report says of each record what is the case, and
  nothing else.

  A record `Resolves` when the most specific match of its domain is of its address. One
  that does not has exactly one finding, which `Tells` of it (`finding?_eq_some_iff`): no
  pattern matches, or the match is of another address. So the records that are counted and
  those that are listed make up all (`resolved_add_findings`), and the two tallies of a
  report, kept apart, agree.

  The most specific match is read off the bindings of a set (`lookup?_eq_some_iff_mostSpecific`):
  the exact one, or the wildcard that matches and has a longer name than all others that do.
  - `report_exact`: what a report on any records says, against any set.
-/

import HostPatterns.Proofs.LongestMatch
import HostPatterns.Proofs.Validation

namespace HostPatterns

namespace PatternSet

/-! ## The most specific match -/

/-- The binding of some that matches a domain exactly, or under a longer name than each other one that matches. -/
structure MostSpecific (bs : List Binding) (d : Domain) (b : Binding) : Prop where
  mem : b ∈ bs
  covers : b.pattern.Covers d
  most : ∀ c ∈ bs, c ≠ b → c.pattern.Covers d →
    b.pattern = .exact d ∨ c.pattern.domain.length < b.pattern.domain.length

theorem mostSpecific_of_lookup? {s : PatternSet} (h : Indexed s) {d : Domain} {b : Binding} (hb : s.lookup? d = some b) :
    MostSpecific s.toList d b := by
  obtain ⟨hm, hcov⟩ := lookup?_covers h hb
  refine ⟨hm, hcov, fun c hc hne hcov' => ?_⟩
  rcases hcov.exact_or_wildcard with hp | ⟨w, -, hp⟩
  · exact Or.inl hp
  · right
    have hw : b.pattern.isWildcard = true := by rw [hp]; rfl
    exact (shorter_of_lookup? h hb hw).2 c hc hne hcov'

theorem MostSpecific.unique {s : PatternSet} (h : Indexed s) {d : Domain} {b c : Binding}
    (hb : MostSpecific s.toList d b) (hc : MostSpecific s.toList d c) : b = c := by
  by_contra hne
  have hlong : ∀ {x y : Binding}, x.pattern = .exact d → y.pattern.Covers d →
      ¬ x.pattern.domain.length < y.pattern.domain.length := by
    intro x y hx hy hlt
    rw [hx] at hlt
    exact Nat.not_le_of_lt hlt hy.length_le
  rcases hb.most c hc.mem (Ne.symm hne) hc.covers with hbx | hbc
  · rcases hc.most b hb.mem hne hb.covers with hcx | hcb
    · exact hne (eq_of_pattern_eq h hc.mem hb.mem (hbx.trans hcx.symm))
    · exact hlong hbx hc.covers hcb
  · rcases hc.most b hb.mem hne hb.covers with hcx | hcb
    · exact hlong hcx hb.covers hbc
    · omega

theorem lookup?_eq_some_iff_mostSpecific {s : PatternSet} (h : Indexed s) {d : Domain} {b : Binding} :
    s.lookup? d = some b ↔ MostSpecific s.toList d b := by
  refine ⟨mostSpecific_of_lookup? h, fun hb => ?_⟩
  obtain ⟨c, hc⟩ := Option.isSome_iff_exists.mp (lookup?_isSome_of_covers h hb.mem hb.covers)
  rw [hc, (mostSpecific_of_lookup? h hc).unique h hb]

/-! ## Findings -/

/-- A record's domain resolves to its address. -/
def Resolves (s : PatternSet) (r : Record) : Prop := s.resolve? r.domain = some r.ip

instance (s : PatternSet) (r : Record) : Decidable (s.Resolves r) := inferInstanceAs (Decidable (_ = _))

/-- What a finding says of a record: nothing matches its domain, or the most specific match is of another address. -/
inductive Tells (s : PatternSet) (r : Record) : Finding → Prop
  | notFound : s.lookup? r.domain = none → Tells s r (.notFound r.domain)
  | mismatch {b : Binding} : s.lookup? r.domain = some b → b.ip ≠ r.ip → Tells s r (.mismatch r.domain r.ip b.ip)

theorem finding?_eq_some_iff {s : PatternSet} {r : Record} {f : Finding} : s.finding? r = some f ↔ s.Tells r f := by
  unfold finding? resolve?
  constructor
  · intro h
    cases hl : s.lookup? r.domain with
    | none =>
      rw [hl] at h
      cases h
      exact .notFound hl
    | some b =>
      rw [hl] at h
      simp only [Option.map_some] at h
      split at h
      · cases h
      · rename_i hip
        cases h
        exact .mismatch hl hip
  · intro h
    cases h with
    | notFound hl => rw [hl]; rfl
    | mismatch hl hip => rw [hl]; exact if_neg hip

/-- The records that do not resolve have one finding each, in their order. -/
theorem forall₂_findings (s : PatternSet) (rs : List Record) :
    List.Forall₂ s.Tells (rs.filter (¬ s.Resolves ·)) (rs.filterMap s.finding?) := by
  induction rs with
  | nil => exact .nil
  | cons r rs ih =>
    cases hf : s.finding? r with
    | none =>
      have hr : s.Resolves r := finding?_eq_none_iff.mp hf
      rw [List.filter_cons_of_neg (by simpa using hr), List.filterMap_cons_none hf]
      exact ih
    | some f =>
      have hr : ¬ s.Resolves r := by
        intro hr
        rw [finding?_eq_none_iff.mpr hr] at hf
        cases hf
      rw [List.filter_cons_of_pos (by simpa using hr), List.filterMap_cons_some hf]
      exact .cons (finding?_eq_some_iff.mp hf) ih

theorem resolved_add_findings (s : PatternSet) (rs : List Record) :
    s.resolved rs + (rs.filterMap s.finding?).length = rs.length := by
  have hsplit := List.length_eq_countP_add_countP (fun r => decide (s.Resolves r)) (l := rs)
  simp only [decide_eq_true_eq] at hsplit
  rw [← (forall₂_findings s rs).length_eq, ← List.countP_eq_length_filter]
  exact hsplit.symm

theorem resolved_append (s : PatternSet) (rs ts : List Record) :
    s.resolved (rs ++ ts) = s.resolved rs + s.resolved ts :=
  List.countP_append

end PatternSet

theorem Report.notFound_add_mismatches (rep : Report) : rep.notFound + rep.mismatches = rep.findings.size := by
  have : rep.notFound ≤ rep.findings.size := Array.countP_le_size
  unfold mismatches
  omega

/-- A report lists the records that do not resolve, each with what became of it, and counts the others; its tallies make
    up all records. A report on more records is the two reports together. -/
theorem report_exact (s : PatternSet) (rs : List Record) :
    let rep := s.validate rs
    List.Forall₂ s.Tells (rs.filter (¬ s.Resolves ·)) rep.findings.toList ∧
      rep.total = rs.length ∧
      rep.matched + rep.notFound + rep.mismatches = rep.total ∧
      (rep.isComplete = true ↔ ∀ r ∈ rs, s.Resolves r) ∧
      (rep.isComplete = true ↔ rep.findings = #[]) ∧
      (∀ ts, let rep' := s.validate ts
        s.validate (rs ++ ts) = ⟨rep.matched + rep'.matched, rep.total + rep'.total, rep.findings ++ rep'.findings⟩) ∧
      (s.Indexed → ∀ d, (s.lookup? d = none ↔ ∀ b ∈ s.toList, ¬ b.pattern.Covers d) ∧
        ∀ b, s.lookup? d = some b ↔ PatternSet.MostSpecific s.toList d b) := by
  intro rep
  have hrep : rep = ⟨s.resolved rs, rs.length, (rs.filterMap s.finding?).toArray⟩ := s.validate_eq rs
  have hadd := s.resolved_add_findings rs
  have hsize : rep.matched + rep.findings.size = rep.total := by
    rw [hrep]
    simpa using hadd
  have hcomplete : rep.isComplete = true ↔ rep.findings = #[] := by
    unfold Report.isComplete
    rw [beq_iff_eq, ← Array.size_eq_zero_iff]
    omega
  refine ⟨?_, by rw [hrep], ?_, ?_, hcomplete, ?_, ?_⟩
  · rw [hrep]
    exact s.forall₂_findings rs
  · rw [Nat.add_assoc, rep.notFound_add_mismatches, hsize]
  · rw [hcomplete, hrep]
    simp [PatternSet.finding?_eq_none_iff, PatternSet.Resolves]
  · intro ts rep'
    have hrep' : rep' = ⟨s.resolved ts, ts.length, (ts.filterMap s.finding?).toArray⟩ := s.validate_eq ts
    rw [s.validate_eq, hrep, hrep', s.resolved_append]
    simp
  · intro h d
    exact ⟨PatternSet.lookup?_eq_none_iff h, fun b => PatternSet.lookup?_eq_some_iff_mostSpecific h⟩

/-- Records that match an exact pattern and a wildcard of their own, one that matches a lower wildcard of another address,
    and one, given twice, that matches nothing. -/
theorem shadowed_and_missing_told :
    let s := compact .labelBoundary [⟨⟨1, 1, 1, 1⟩, [".example.com".toList]⟩, ⟨⟨2, 2, 2, 2⟩, [".cdn.example.com".toList]⟩,
      ⟨⟨3, 3, 3, 3⟩, ["www.cdn.example.com".toList]⟩]
    let lost : Record := ⟨⟨1, 1, 1, 1⟩, "b.org".toList⟩
    let shadowed : Record := ⟨⟨1, 1, 1, 1⟩, "x.cdn.example.com".toList⟩
    let rs : List Record := [⟨⟨1, 1, 1, 1⟩, "a.example.com".toList⟩, lost, shadowed,
      ⟨⟨3, 3, 3, 3⟩, "www.cdn.example.com".toList⟩]
    let rep := s.validate rs
    rep = ⟨2, 4, #[.notFound "b.org".toList, .mismatch "x.cdn.example.com".toList ⟨1, 1, 1, 1⟩ ⟨2, 2, 2, 2⟩]⟩ ∧
      rep.isComplete = false ∧ ¬ (∀ r ∈ rs, s.Resolves r) ∧
      s.validate (rs ++ [lost]) = ⟨2, 5, rep.findings ++ #[.notFound "b.org".toList]⟩ ∧
      s.Indexed ∧
      PatternSet.MostSpecific s.toList shadowed.domain ⟨.wildcard "cdn.example.com".toList, ⟨2, 2, 2, 2⟩⟩ ∧
      ∀ b ∈ s.toList, ¬ b.pattern.Covers lost.domain := by
  intro s lost shadowed rs rep
  have report : rep = ⟨2, 4, #[.notFound "b.org".toList,
      .mismatch "x.cdn.example.com".toList ⟨1, 1, 1, 1⟩ ⟨2, 2, 2, 2⟩]⟩ := by unfold rep rs lost shadowed s; cbv
  have once : s.validate [lost] = ⟨0, 1, #[.notFound "b.org".toList]⟩ := by unfold lost s; cbv
  have found : s.lookup? shadowed.domain = some ⟨.wildcard "cdn.example.com".toList, ⟨2, 2, 2, 2⟩⟩ := by
    unfold shadowed s; cbv
  have missing : s.lookup? lost.domain = none := by unfold lost s; cbv
  have indexed : s.Indexed := indexed_compact _ _
  obtain ⟨-, -, -, complete, -, more, found_iff⟩ := report_exact s rs
  have incomplete : rep.isComplete = false := by rw [report]; rfl
  refine ⟨report, incomplete, ?_, ?_, indexed, ?_, ?_⟩
  · intro hall
    rw [complete.mpr hall] at incomplete
    cases incomplete
  · have matched : (s.validate rs).matched = 2 := congrArg Report.matched report
    have total : (s.validate rs).total = 4 := congrArg Report.total report
    rw [more [lost], once, matched, total]
    rfl
  · exact ((found_iff indexed shadowed.domain).2 _).mp found
  · exact (found_iff indexed lost.domain).1.mp missing

end HostPatterns
