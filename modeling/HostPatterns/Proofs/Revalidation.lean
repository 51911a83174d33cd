/-
  HostPatterns.Proofs.Revalidation — the check that a conversion ends with, and the same
  check made on its own.

  The one looks at the records it kept from before it wrote, the other reads both files
  again. If the output is not the input, the input is still there, so both go by the same
  records, and by the same text of patterns: they end alike, in a report or in the error
  at which the reading of the patterns stops (`Writes.perform_validateFiles`).
  - `run_agrees_with_validateFiles`: what a validating conversion reports is what
    validating its two files gives, also when it fails after it wrote.
-/

import HostPatterns.Proofs.Effects
import HostPatterns.Proofs.Partition
import HostPatterns.Proofs.Validation
import Mathlib

namespace HostPatterns

namespace Conversion

variable {c : Conversion} {t t' : FileTree} {text : Text}

theorem Writes.perform_validateFiles (h : c.Writes t text t') (hm : ¬ t.Meet c.input c.target) :
    t'.perform (validateFiles c.input c.target) = (c.revalidated text, t') := by
  unfold validateFiles revalidated
  rw [FileTree.perform_bind, FileTree.perform_loadHosts, h.readText_input hm]
  simp only [Except.mapError, Except.map, FileTree.perform_bind, h.perform_load]
  cases PatternSet.parse (c.rewritten text) <;> rfl

theorem total_of_revalidated {report : Report} (h : c.revalidated text = .ok report) :
    report.total + (grouping text).duplicates = (Hosts.ofText text).records.length := by
  obtain ⟨s, -, h⟩ := Except.bind_eq_ok_iff.mp h
  cases h
  rw [PatternSet.validate_eq]
  exact Grouping.length_records_add _

/-- A conversion that succeeds wrote, and what it says is the verdict on what it read. -/
theorem writes_of_run_eq_ok {s : Summary} (h : (t.perform c.run).1 = .ok s) :
    ∃ text, c.Writes t text (t.perform c.run).2 ∧ c.verdict text = .ok s := by
  by_cases hw : ∃ text t', c.Writes t text t'
  · obtain ⟨text, t', hw⟩ := hw
    rw [perform_of_writes hw] at h ⊢
    exact ⟨text, hw, h⟩
  · simp only [not_exists] at hw
    obtain ⟨e, he⟩ := perform_of_not_writes hw
    rw [he] at h
    cases h

theorem revalidated_of_verdict_eq_ok (hv : c.validates = true) {s : Summary} (h : c.verdict text = .ok s) :
    ∃ report, c.revalidated text = .ok report ∧ s = c.summary text (some report) := by
  unfold verdict at h
  rw [if_pos hv] at h
  cases hr : c.revalidated text with
  | error e => rw [hr] at h; cases h
  | ok report => rw [hr] at h; cases h; exact ⟨report, rfl, rfl⟩

theorem revalidated_of_verdict_eq_error (hv : c.validates = true) {e : Error} (h : c.verdict text = .error e) :
    c.revalidated text = .error e := by
  unfold verdict at h
  rw [if_pos hv] at h
  cases hr : c.revalidated text with
  | error e' => rw [hr] at h; cases h; rfl
  | ok report => rw [hr] at h; cases h

/-- Validating the two files of a conversion, once it ran, gives the report that it gave,
    or the error that it stopped with behind its writing. -/
theorem run_agrees_with_validateFiles (hv : c.validates = true) (hm : ¬ t.Meet c.input c.target) :
    let said := (t.perform c.run).1
    let left := (t.perform c.run).2
    (∀ s, said = .ok s →
      ∃ report, s.validation = some report ∧ report.total + s.duplicates = s.records ∧
        left.perform (validateFiles c.input c.target) = (.ok report, left)) ∧
    ∀ text e, c.Writes t text left → said = .error e →
      left.perform (validateFiles c.input c.target) = (.error e, left) := by
  intro said left
  refine ⟨?_, ?_⟩
  · intro s hs
    obtain ⟨text, hw, hverdict⟩ := writes_of_run_eq_ok hs
    obtain ⟨report, hr, rfl⟩ := revalidated_of_verdict_eq_ok hv hverdict
    refine ⟨report, rfl, total_of_revalidated hr, ?_⟩
    rw [hw.perform_validateFiles hm, hr]
  · intro text e hw he
    have hverdict : c.verdict text = .error e := by
      have hrun := congrArg Prod.fst (perform_of_writes hw)
      exact hrun.symm.trans he
    rw [hw.perform_validateFiles hm, revalidated_of_verdict_eq_error hv hverdict]

/-- A record that stands twice is a duplicate; two names that become one when they are read
    again stop both checks at the second line. -/
theorem both_checks_alike :
    let c : Conversion := {}
    let good := FileTree.holding c.input "1.1.1.1 a.com\n2.2.2.2 b.com\n1.1.1.1 a.com\n".toList
    let bad := FileTree.holding c.input "1.1.1.1 a.com..\n2.2.2.2 a.com\n".toList
    let e := Error.rebound 2 (.exact "a.com".toList) ⟨1, 1, 1, 1⟩ ⟨2, 2, 2, 2⟩
    (∃ s, (good.perform c.run).1 = .ok s ∧ s.records = 3 ∧ s.duplicates = 1 ∧ s.validation = some ⟨2, 2, #[]⟩ ∧
      (good.perform c.run).2.perform (validateFiles c.input c.target) = (.ok ⟨2, 2, #[]⟩, (good.perform c.run).2)) ∧
    (bad.perform c.run).1 = .error e ∧
      (bad.perform c.run).2.perform (validateFiles c.input c.target) = (.error e, (bad.perform c.run).2) := by
  intro c good bad e
  have hin : good.locate c.input = .ok [c.input] := by unfold good FileTree.holding; cbv
  have hin' : bad.locate c.input = .ok [c.input] := by unfold bad FileTree.holding; cbv
  have hout : good.locate c.target = .ok [c.target] := by unfold good FileTree.holding; cbv
  have hout' : bad.locate c.target = .ok [c.target] := by unfold bad FileTree.holding; cbv
  have hm := FileTree.not_meet_of_locate hin hout (by decide)
  have hm' := FileTree.not_meet_of_locate hin' hout' (by decide)
  have hfree : good.get? [c.target] ≠ some .directory := by unfold good FileTree.holding; cbv; simp
  have hfree' : bad.get? [c.target] ≠ some .directory := by unfold bad FileTree.holding; cbv; simp
  obtain ⟨t, hw⟩ := exists_writes_iff.mpr ⟨by decide, FileTree.readText_holding hin, _, hout, hfree⟩
  obtain ⟨t', hw'⟩ := exists_writes_iff.mpr ⟨by decide, FileTree.readText_holding hin', _, hout', hfree'⟩
  have hsaid : (good.perform c.run).1 = .ok ⟨c.target, 3, 0, 1, 2, 2, some ⟨2, 2, #[]⟩⟩ := by
    rw [perform_of_writes hw]
    unfold c
    cbv
  have hsaid' : (bad.perform c.run).1 = .error e := by
    rw [perform_of_writes hw']
    unfold c e
    cbv
  refine ⟨⟨_, hsaid, rfl, rfl, rfl, ?_⟩, hsaid', ?_⟩
  · obtain ⟨report, hv, -, h⟩ := (run_agrees_with_validateFiles rfl hm).1 _ hsaid
    cases hv
    exact h
  · have hleft : c.Writes bad "1.1.1.1 a.com..\n2.2.2.2 a.com\n".toList (bad.perform c.run).2 := by
      rw [perform_of_writes hw']
      exact hw'
    exact (run_agrees_with_validateFiles rfl hm').2 _ e hleft hsaid'

end Conversion

end HostPatterns
