/-
  HostPatterns.Proofs.LineOrder — the order of the lines of a pattern file does not
  matter.

  Which row is refused depends on what stands before it, but whether any row is does
  not: rows are read exactly if each that is not empty holds a binding and no two of
  these bind one pattern to different addresses (`consistent_iff`). Of two such rows the
  later one is refused, whichever that is. And what is read has the rows' bindings, all
  of them, in some order.
  - `parse_of_perm`: of two texts with the same lines in different orders, both are read
    or neither; if they are, the two sets have the same bindings, and look up the same
    binding for every domain.
-/

import HostPatterns.Proofs.LineByLine
import Mathlib

namespace HostPatterns.PatternSet

/-- Rows in which nothing is wrong, told without their order. -/
structure Consistent (rows : List Text) : Prop where
  held : ∀ row ∈ rows, row ≠ [] → ∃ b, Binding.ofRow? row = some b
  agree : ∀ b ∈ bindingsOf rows, ∀ c ∈ bindingsOf rows, c.pattern = b.pattern → c.ip = b.ip

theorem bindingsOf_perm {rows rows' : List Text} (h : rows.Perm rows') : (bindingsOf rows).Perm (bindingsOf rows') :=
  h.filterMap _

theorem Consistent.perm {rows rows' : List Text} (hc : Consistent rows) (h : rows.Perm rows') : Consistent rows' := by
  have hb := bindingsOf_perm h
  refine ⟨fun row hrow => hc.held row (h.mem_iff.mpr hrow), ?_⟩
  intro b hbm c hcm
  exact hc.agree b (hb.mem_iff.mpr hbm) c (hb.mem_iff.mpr hcm)

theorem Consistent.not_faultAt {rows : List Text} (hc : Consistent rows) {i : Nat} {e : Error} : ¬ FaultAt rows i e := by
  intro hfault
  obtain ⟨row, hrow, hfault⟩ := hfault
  have hmem : row ∈ rows := List.mem_of_getElem? hrow
  cases hfault with
  | flaw hne hflaw =>
    obtain ⟨b, hb⟩ := hc.held row hmem hne
    exact absurd (hb.symm.trans hflaw.ofRow?_eq_none) nofun
  | @rebound b c hb hearlier hp hip =>
    have hbm : b ∈ bindingsOf rows := List.mem_filterMap.mpr ⟨row, hmem, hb⟩
    have hcm : c ∈ bindingsOf rows := ((List.take_sublist i rows).filterMap _).subset hearlier
    exact hip (hc.agree b hbm c hcm hp)

theorem consistent_of_readRows_eq_ok {rows : List Text} {s : PatternSet} (h : readRows rows = .ok s) :
    Consistent rows := by
  obtain ⟨hs, hgood⟩ := gathered_of_readRows_eq_ok h
  constructor
  · intro row hm hne
    by_contra hnone
    obtain ⟨i, hi⟩ := List.mem_iff_getElem?.mp hm
    have hrow : Binding.ofRow? row = none := by
      rw [Option.eq_none_iff_forall_ne_some]
      exact fun b hb => hnone ⟨b, hb⟩
    obtain ⟨e, hflaw⟩ := Binding.exists_flaw hrow ((rows.take i).length + 1)
    exact hgood i (FaultAt.badAt ⟨row, hi, .flaw hne hflaw⟩)
  · intro b hb c hc hp
    rw [eq_of_pattern_eq hs.indexed ((hs.mem_iff b).mpr hb) ((hs.mem_iff c).mpr hc) hp]

theorem consistent_iff {rows : List Text} : Consistent rows ↔ ∃ s, readRows rows = .ok s := by
  constructor
  · intro hc
    cases hr : readRows rows with
    | ok s => exact ⟨s, rfl⟩
    | error e =>
      obtain ⟨i, hfault, -⟩ := faultAt_of_readRows_eq_error hr
      exact absurd hfault hc.not_faultAt
  · intro hex
    obtain ⟨s, hs⟩ := hex
    exact consistent_of_readRows_eq_ok hs

/-- Texts of the same lines, but for their order and the blanks at their ends, are read alike. -/
theorem parse_of_perm {t u : Text} (h : t.rows.Perm u.rows) :
    ((∃ s, parse t = .ok s) ↔ ∃ s, parse u = .ok s) ∧
      ∀ s s', parse t = .ok s → parse u = .ok s' →
        s.toList.Perm s'.toList ∧ ∀ d, s.lookup? d = s'.lookup? d ∧ s.resolve? d = s'.resolve? d := by
  simp only [parse_eq_readRows]
  constructor
  · rw [← consistent_iff, ← consistent_iff]
    exact ⟨fun hc => hc.perm h, fun hc => hc.perm h.symm⟩
  · intro s s' hs hs'
    obtain ⟨hs, -⟩ := gathered_of_readRows_eq_ok hs
    obtain ⟨hs', -⟩ := gathered_of_readRows_eq_ok hs'
    have hmem : ∀ b, b ∈ s.toList ↔ b ∈ s'.toList := by
      intro b
      rw [hs.mem_iff, hs'.mem_iff, (bindingsOf_perm h).mem_iff]
    refine ⟨(List.perm_ext_iff_of_nodup (nodup_toList hs.indexed) (nodup_toList hs'.indexed)).mpr hmem, ?_⟩
    intro d
    have hlookup : s.lookup? d = s'.lookup? d := lookup?_congr hs.indexed hs'.indexed hmem d
    exact ⟨hlookup, by rw [resolve?, resolve?, hlookup]⟩

/-- A blank line, a repeated binding and a carriage return, in two orders; and a conflict, which either order has. -/
theorem shuffled_lines_read_alike :
    let t : Text := "1.1.1.1\t.a.com\r\n\n2.2.2.2\tx.a.com\n1.1.1.1\t.A.com.".toList
    let u : Text := " 2.2.2.2\tx.a.com\n1.1.1.1\t.A.com.\n1.1.1.1\t.a.com\n\n".toList
    let t' : Text := "1.1.1.1\t.a.com\n3.3.3.3\t.a.com\n".toList
    let u' : Text := "3.3.3.3\t.a.com\n1.1.1.1\t.a.com\n".toList
    (t.rows.Perm u.rows ∧ t'.rows.Perm u'.rows) ∧
      (∃ s s', (parse t = .ok s ∧ parse u = .ok s') ∧ s.toList ≠ s'.toList ∧ s.toList.Perm s'.toList ∧
        ∀ d, s.lookup? d = s'.lookup? d ∧ s.resolve? d = s'.resolve? d) ∧
      (∀ s, parse t' ≠ .ok s) ∧ ∀ s', parse u' ≠ .ok s' := by
  intro t u t' u'
  have perm : t.rows.Perm u.rows := by decide
  have perm' : t'.rows.Perm u'.rows := by decide
  have first : (parse t).map toList =
      .ok [⟨.wildcard "a.com".toList, ⟨1, 1, 1, 1⟩⟩, ⟨.exact "x.a.com".toList, ⟨2, 2, 2, 2⟩⟩] := by unfold t; cbv
  have second : (parse u).map toList =
      .ok [⟨.exact "x.a.com".toList, ⟨2, 2, 2, 2⟩⟩, ⟨.wildcard "a.com".toList, ⟨1, 1, 1, 1⟩⟩] := by unfold u; cbv
  obtain ⟨s, hs, list⟩ := exists_of_map_toList_eq_ok first
  obtain ⟨s', hs', list'⟩ := exists_of_map_toList_eq_ok second
  have moved : s.toList ≠ s'.toList := by
    rw [list, list']
    decide
  have refused : ∀ s, parse t' ≠ .ok s := by
    have conflict : (parse t').map toList = .error (.rebound 2 (.wildcard "a.com".toList) ⟨1, 1, 1, 1⟩ ⟨3, 3, 3, 3⟩) := by
      unfold t'; cbv
    intro s hs
    rw [hs] at conflict
    cases conflict
  have refused' : ∀ s', parse u' ≠ .ok s' := by
    intro s' hs'
    obtain ⟨s, hs⟩ := (parse_of_perm perm').1.mpr ⟨s', hs'⟩
    exact refused s hs
  exact ⟨⟨perm, perm'⟩, ⟨s, s', ⟨hs, hs'⟩, moved, (parse_of_perm perm).2 s s' hs hs'⟩, refused, refused'⟩

end HostPatterns.PatternSet
