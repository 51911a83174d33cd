/-
  HostPatterns.Proofs.RoundTrip — which sets are read from their written form as
  themselves.

  A set that is read from its own lines has each binding from its own line. Reading
  trims a line and its pattern, and normalizes the name; neither makes the pattern
  longer, and here it comes out as long as it was written, so neither took anything
  away (`Binding.ReadFrom.unchanged`). No line holds a line feed, so no pattern that was
  read does. So, of a set that was compacted from groups of any texts or read from any:
  - `parse_render_self_iff`: it is read from its written form as itself exactly when
    each of its names is normal and each of its patterns is written on one line, without
    blanks at the ends.
-/

import HostPatterns.Proofs.Produced
import Mathlib

namespace HostPatterns

namespace Binding

theorem ReadFrom.newline_not_mem {b : Binding} {t : Text} (h : b.ReadFrom t) (ht : '\n' ∉ t) :
    '\n' ∉ b.pattern.render := by
  obtain ⟨-, n, hl⟩ := h
  obtain ⟨address, written, hcut, -, hp, -⟩ := ofLine_eq_ok_iff.mp hl
  have hwritten : written <:+: t := by
    have htrim := (Text.cut?_eq_some_iff.mp hcut).1
    refine List.IsInfix.trans ?_ (Text.trim_isInfix t)
    rw [htrim]
    exact ((List.suffix_cons '\t' written).trans (List.suffix_append _ _)).isInfix
  intro hn
  rw [hp] at hn
  obtain ⟨c, hc, hlower⟩ := Pattern.mem_of_mem_render_normalize hn
  rw [Pattern.render_ofText, eq_newline_of_toLower hlower] at hc
  exact ht (hwritten.subset ((Text.trim_isInfix written).subset hc))

/-- A binding that is read from its own line lost nothing on the way. -/
theorem ReadFrom.unchanged {b : Binding} (h : b.ReadFrom b.render) (hb : Pattern.ofText b.pattern.render = b.pattern) :
    b.pattern.render.trim = b.pattern.render ∧ b.normalize = b := by
  obtain ⟨-, n, hl⟩ := h
  obtain ⟨address, written, hcut, -, hp, -⟩ := ofLine_eq_ok_iff.mp hl
  obtain ⟨htrim, htab⟩ := Text.cut?_eq_some_iff.mp hcut
  have hstart : b.render.trim <+: b.render := by
    have := Text.trim_isPrefix b.render
    rwa [Text.dropWhile_isBlank_eq_self_iff.mpr b.not_blank_of_head?_render] at this
  -- what is cut from the trimmed line is cut from the line, but for what was trimmed from its end
  obtain ⟨rest, hrest⟩ := hstart
  have hsplit : b.render.cut? '\t' = some (address, written ++ rest) := by
    refine Text.cut?_eq_some_iff.mpr ⟨?_, htab⟩
    rw [← hrest, htrim, List.append_assoc, List.cons_append]
  rw [cut?_render, Option.some.injEq, Prod.mk.injEq] at hsplit
  have hlen := congrArg List.length hsplit.2
  rw [List.length_append] at hlen
  have hshort : b.pattern.render.length ≤ written.trim.length := by
    rw [hp]
    refine (Pattern.length_render_normalize_le _).trans ?_
    rw [Pattern.render_ofText]
  have htrimmed := (Text.trim_isInfix written).length_le
  have hrest : rest = [] := List.length_eq_zero_iff.mp (by omega)
  rw [hrest, List.append_nil] at hsplit
  have hwhole : written.trim = written := (Text.trim_isInfix written).eq_of_length (by omega)
  rw [hwhole, ← hsplit.2, hb] at hp
  refine ⟨?_, ?_⟩
  · rw [hsplit.2, hwhole]
  · unfold normalize
    rw [← hp]

end Binding

namespace PatternSet

/-- A set that is made is read from its written form as itself exactly when reading has nothing to change. -/
theorem parse_render_self_iff {s : PatternSet} (h : s.Produced) :
    parse s.render = .ok s ↔
      ∀ b ∈ s.toList, b.pattern.domain.normalize = b.pattern.domain ∧ '\n' ∉ b.pattern.render ∧
        (∀ c ∈ b.pattern.render.head?, Text.isBlank c = false) ∧
        ∀ c ∈ b.pattern.render.getLast?, Text.isBlank c = false := by
  obtain ⟨hi, hnamed, hwritten⟩ := h.sound
  constructor
  · intro hp
    have hline : ∀ b ∈ s.toList, '\n' ∉ b.pattern.render := by
      intro b hb
      obtain ⟨l, hl, hread⟩ := exists_line_of_parse hp hb
      exact hread.newline_not_mem (Text.newline_not_mem_of_mem_lines hl)
    have hread := readFrom_render_of_parse (fun b hb => Binding.newline_not_mem_render (hline b hb)) hp
    intro b hb
    obtain ⟨htrim, hnormal⟩ := (hread b hb).unchanged (hwritten b hb)
    exact ⟨Binding.normalize_eq_self_iff.mp hnormal, hline b hb, Text.trim_eq_self_iff.mp htrim⟩
  · intro hall
    have hlegible : ∀ b ∈ s.toList, b.Legible := by
      intro b hb
      obtain ⟨-, hline, hends⟩ := hall b hb
      exact ⟨hline, Text.trim_eq_self_iff.mpr hends, hwritten b hb, hnamed b hb⟩
    exact (parse_render_iff hi hlegible).mpr fun b hb => Binding.normalize_eq_self_iff.mpr (hall b hb).1

/-- A blank and a tab inside a name are kept; of two dots at the end of a name, reading takes one. -/
theorem inner_blanks_reread :
    let s := compact .labelBoundary
      [⟨⟨1, 1, 1, 1⟩, ["a b.com".toList, ".x\ty.org".toList]⟩, ⟨⟨2, 2, 2, 2⟩, ["c.net".toList]⟩]
    let s' := compact .labelBoundary [⟨⟨1, 1, 1, 1⟩, ["a.com..".toList]⟩]
    s.Produced ∧ parse s.render = .ok s ∧ s'.Produced ∧ parse s'.render ≠ .ok s' := by
  intro s s'
  have made : s.Produced := .compacted _ _
  have made' : s'.Produced := .compacted _ _
  have list : s.toList = [⟨.wildcard "x\ty.org".toList, ⟨1, 1, 1, 1⟩⟩, ⟨.exact "a b.com".toList, ⟨1, 1, 1, 1⟩⟩,
      ⟨.exact "c.net".toList, ⟨2, 2, 2, 2⟩⟩] := by unfold s; cbv
  have list' : s'.toList = [⟨.exact "a.com..".toList, ⟨1, 1, 1, 1⟩⟩] := by unfold s'; cbv
  refine ⟨made, (parse_render_self_iff made).mpr ?_, made', ?_⟩
  · simp only [list, ← Text.trim_eq_self_iff]
    decide
  · simp only [Ne, parse_render_self_iff made', list', ← Text.trim_eq_self_iff]
    decide

end PatternSet

end HostPatterns
