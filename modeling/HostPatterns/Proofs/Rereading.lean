/-
  HostPatterns.Proofs.Rereading — a written set read again.

  Lines ended each by a line feed are the lines of their text (`lines_flatMap`), an
  address is read from its written form (`parse?_render`), and the line of a `Legible`
  binding gives the binding with its domain normalized once more (`ofLine_render`).

  Each binding of a set that is read comes from a line of its own, in their order
  (`toList_of_parse`); if these are the set's own lines, then each binding from its own
  (`readFrom_render_of_parse`). All lines are added when normalizing changes none
  (`readLines_of_normal`). So the written form of a set of legible bindings is read as
  the set itself exactly when their domains are normal (`parse_render_iff`).
-/

import HostPatterns.PatternSet.Reading
import HostPatterns.Proofs.Index
import Mathlib.Data.List.Forall2
import Mathlib.Data.List.TakeWhile

namespace HostPatterns

/-! ## Lines and blanks -/

namespace Text

theorem splitOn_flatMap {ts : List Text} (h : ∀ t ∈ ts, '\n' ∉ t) :
    (ts.flatMap (· ++ ['\n'])).splitOn '\n' = ts ++ [[]] := by
  induction ts with
  | nil => rfl
  | cons t ts ih =>
    have ht : '\n' ∉ t := h t List.mem_cons_self
    rw [List.flatMap_cons, List.append_assoc, List.singleton_append, List.splitOn_append_cons_self_of_not_mem ht,
      ih fun u hu => h u (List.mem_cons_of_mem _ hu), List.cons_append]

theorem lines_flatMap {ts : List Text} (h : ∀ t ∈ ts, '\n' ∉ t) : lines (ts.flatMap (· ++ ['\n'])) = ts := by
  have hlast : (ts ++ [[]]).getLast? = some [] := List.getLast?_concat
  unfold lines
  simp only [splitOn_flatMap h, hlast, if_true, List.dropLast_concat]

theorem dropWhile_isBlank_eq_self_iff {t : Text} :
    t.dropWhile isBlank = t ↔ ∀ c ∈ t.head?, isBlank c = false := by
  cases t with
  | nil => simp
  | cons c t =>
    rw [List.dropWhile_eq_self_iff]
    simp

theorem trim_isPrefix (t : Text) : t.trim <+: t.dropWhile isBlank :=
  List.reverse_suffix.mp (by unfold trim; rw [List.reverse_reverse]; exact List.dropWhile_suffix _)

theorem trim_isInfix (t : Text) : t.trim <:+: t :=
  (trim_isPrefix t).isInfix.trans (List.dropWhile_suffix _).isInfix

theorem trim_eq_self_iff {t : Text} :
    t.trim = t ↔ (∀ c ∈ t.head?, isBlank c = false) ∧ ∀ c ∈ t.getLast?, isBlank c = false := by
  rw [← dropWhile_isBlank_eq_self_iff, ← List.head?_reverse, ← dropWhile_isBlank_eq_self_iff]
  unfold trim
  constructor
  · intro h
    -- neither end can have lost a character, as the whole has not
    have hfront : t.dropWhile isBlank = t := by
      apply (List.dropWhile_suffix _).eq_of_length
      have h1 := congrArg List.length h
      have h2 := ((t.dropWhile isBlank).reverse.dropWhile_suffix isBlank).length_le
      have h3 := (t.dropWhile_suffix isBlank).length_le
      simp only [List.length_reverse] at h1 h2
      omega
    rw [hfront] at h
    exact ⟨hfront, by rw [← List.reverse_inj, List.reverse_reverse]; exact h⟩
  · intro hends
    obtain ⟨hfront, hback⟩ := hends
    rw [hfront, hback, List.reverse_reverse]

theorem trim_eq_self {t : Text} (h : ∀ c ∈ t, isBlank c = false) : t.trim = t :=
  trim_eq_self_iff.mpr ⟨fun c hc => h c (List.mem_of_head? hc), fun c hc => h c (List.mem_of_getLast? hc)⟩

end Text

/-! ## Addresses -/

namespace Ipv4

/-- An octet is written in digits: some character, no blank and no dot. -/
theorem octetText_spec (o : UInt8) : octetText o ≠ [] ∧ ∀ c ∈ octetText o, Text.isBlank c = false ∧ c ≠ '.' := by
  have digit : ∀ n < 58, 48 ≤ n → Text.isBlank (Char.ofNat n) = false ∧ Char.ofNat n ≠ '.' := by decide
  refine ⟨Nat.toDigits_ne_nil, fun c hc => ?_⟩
  have hdigit : c.isDigit = true := Nat.isDigit_of_mem_toDigits (by omega) (by omega) hc
  simp only [Char.isDigit, Bool.and_eq_true, decide_eq_true_eq, ge_iff_le, UInt32.le_iff_toNat_le] at hdigit
  have := digit c.toNat (Nat.lt_succ_of_le hdigit.2) hdigit.1
  rwa [Char.ofNat_toNat] at this

theorem not_blank_of_mem_render {ip : Ipv4} {c : Char} (h : c ∈ ip.render) : Text.isBlank c = false := by
  simp only [render, List.append_assoc, List.mem_append, List.mem_cons, List.cons_append] at h
  rcases h with h | rfl | h | rfl | h | rfl | h
  all_goals first
    | exact ((octetText_spec _).2 c h).1
    | decide

theorem render_ne_nil (ip : Ipv4) : ip.render ≠ [] := by
  unfold render
  exact List.append_ne_nil_of_right_ne_nil _ (List.cons_ne_nil _ _)

theorem parse?_render (ip : Ipv4) : parse? ip.render = some ip := by
  have nodot : ∀ o, '.' ∉ octetText o := fun o h => ((octetText_spec o).2 '.' h).2 rfl
  have hsplit : ip.render.splitOn '.' = [octetText ip.a, octetText ip.b, octetText ip.c, octetText ip.d] := by
    unfold render
    simp only [List.append_assoc, List.cons_append]
    rw [List.splitOn_append_cons_self_of_not_mem (nodot _), List.splitOn_append_cons_self_of_not_mem (nodot _),
      List.splitOn_append_cons_self_of_not_mem (nodot _), List.splitOn_eq_singleton (nodot _)]
  unfold parse?
  rw [hsplit]
  simp only [octet?_octetText]
  rfl

end Ipv4

/-! ## One binding -/

namespace Binding

theorem ofLine_eq_ok_iff {n : Nat} {t : Text} {b : Binding} :
    ofLine n t = .ok b ↔ ∃ address written, t.cut? '\t' = some (address, written) ∧
      Ipv4.parse? address.trim = some b.ip ∧ b.pattern = (Pattern.ofText written.trim).normalize ∧
      b.pattern.domain ≠ [] := by
  unfold ofLine
  constructor
  · intro h
    split at h
    · cases h
    · rename_i address written hcut
      split at h
      · cases h
      · rename_i ip hip
        simp only at h
        split at h
        · cases h
        · rename_i hne
          cases h
          exact ⟨address, written, hcut, hip, rfl, hne⟩
  · intro h
    obtain ⟨address, written, hcut, hip, hp, hne⟩ := h
    rw [hp] at hne
    simp only [hcut, hip, if_neg hne]
    rw [← hp]

/-- The text is a line that the binding is read from. -/
def ReadFrom (b : Binding) (t : Text) : Prop := t.trim ≠ [] ∧ ∃ n, ofLine n t.trim = .ok b

/-- With its domain normalized once more. -/
def normalize (b : Binding) : Binding := ⟨b.pattern.normalize, b.ip⟩

theorem normalize_domain (b : Binding) : b.normalize.pattern.domain = b.pattern.domain.normalize := by
  unfold normalize
  cases b.pattern <;> rfl

theorem normalize_eq_self_iff {b : Binding} : b.normalize = b ↔ b.pattern.domain.normalize = b.pattern.domain := by
  constructor
  · intro h
    rw [← normalize_domain, h]
  · intro h
    obtain ⟨p, ip⟩ := b
    cases p with
    | exact d => exact congrArg (fun d => Binding.mk (.exact d) ip) h
    | wildcard d => exact congrArg (fun d => Binding.mk (.wildcard d) ip) h

theorem newline_not_mem_render {b : Binding} (h : '\n' ∉ b.pattern.render) : '\n' ∉ b.render := by
  unfold render
  intro hm
  rcases List.mem_append.mp hm with hm | hm
  · exact absurd (Ipv4.not_blank_of_mem_render hm) (by decide)
  · rcases List.mem_cons.mp hm with hm | hm
    · exact absurd hm (by decide)
    · exact h hm

theorem cut?_render (b : Binding) : b.render.cut? '\t' = some (b.ip.render, b.pattern.render) := by
  refine Text.cut?_eq_some_iff.mpr ⟨rfl, ?_⟩
  intro hm
  exact absurd (Ipv4.not_blank_of_mem_render hm) (by decide)

theorem not_blank_of_head?_render (b : Binding) : ∀ c ∈ b.render.head?, Text.isBlank c = false := by
  intro c hc
  rw [render, List.head?_append_of_ne_nil _ (Ipv4.render_ne_nil _)] at hc
  exact Ipv4.not_blank_of_mem_render (List.mem_of_head? hc)

/-- The pattern is written on one line, without blanks at its ends, and read as what it is. -/
structure Legible (b : Binding) : Prop where
  oneLine : '\n' ∉ b.pattern.render
  trimmed : b.pattern.render.trim = b.pattern.render
  written : Pattern.ofText b.pattern.render = b.pattern
  nonempty : b.pattern.domain ≠ []

theorem Legible.render_ne_nil {b : Binding} (h : b.Legible) : b.pattern.render ≠ [] := by
  have hne := h.nonempty
  cases hp : b.pattern with
  | exact d => rw [hp] at hne; exact hne
  | wildcard d => exact List.cons_ne_nil _ _

theorem Legible.trim_render {b : Binding} (h : b.Legible) : b.render.trim = b.render := by
  refine Text.trim_eq_self_iff.mpr ⟨b.not_blank_of_head?_render, ?_⟩
  intro c hc
  apply (Text.trim_eq_self_iff.mp h.trimmed).2 c
  rw [render, List.getLast?_append, List.getLast?_cons, List.getLast?_eq_some_getLast h.render_ne_nil] at hc
  rw [List.getLast?_eq_some_getLast h.render_ne_nil]
  simpa using hc

theorem Legible.ofLine_render {b : Binding} (h : b.Legible) (n : Nat) :
    ofLine n b.render = if b.normalize.pattern.domain = [] then .error (.emptyDomain n) else .ok b.normalize := by
  unfold ofLine
  simp only [cut?_render, Text.trim_eq_self fun c hc => Ipv4.not_blank_of_mem_render hc, Ipv4.parse?_render, h.trimmed, h.written]
  rfl

end Binding

/-! ## All bindings -/

namespace PatternSet

theorem get?_eq_none_iff {s : PatternSet} (h : Indexed s) {p : Pattern} :
    s.get? p = none ↔ ∀ b ∈ s.toList, b.pattern ≠ p := by
  rw [Option.eq_none_iff_forall_not_mem]
  constructor
  · intro hn b hb hp
    exact hn b ((get?_eq_some_iff h).mpr ⟨hb, hp⟩)
  · intro hn b hb
    obtain ⟨hm, hp⟩ := (get?_eq_some_iff h).mp hb
    exact hn b hm hp

/-- What reading a binding can do: nothing, or add it at the end. -/
theorem toList_of_bind_eq_ok {s s' : PatternSet} (h : Indexed s) {n : Nat} {b : Binding} (hb : s.bind n b = .ok s') :
    Indexed s' ∧ (s'.toList = s.toList ∨ s'.toList = s.toList ++ [b]) := by
  unfold bind at hb
  split at hb
  · split at hb
    · cases hb
      exact ⟨h, Or.inl rfl⟩
    · cases hb
  · rename_i hn
    cases hb
    exact ⟨indexed_insert h b, Or.inr (toList_insert_of_unbound h ((get?_eq_none_iff h).mp hn))⟩

theorem readLine_render {s : PatternSet} {b : Binding} (h : b.Legible) (n : Nat) :
    s.readLine (b.render, n) =
      if b.normalize.pattern.domain = [] then .error (.emptyDomain n) else s.bind n b.normalize := by
  have hne : b.render ≠ [] := List.append_ne_nil_of_left_ne_nil (Ipv4.render_ne_nil _) _
  unfold readLine
  simp only [h.trim_render, if_neg hne, h.ofLine_render]
  split <;> rfl

/-- What reading a line can do: nothing, or add the binding it holds. -/
theorem toList_of_readLine_eq_ok {s s' : PatternSet} (h : Indexed s) {line : Text × Nat}
    (hs : s.readLine line = .ok s') :
    Indexed s' ∧ (s'.toList = s.toList ∨ ∃ b, b.ReadFrom line.1 ∧ s'.toList = s.toList ++ [b]) := by
  unfold readLine at hs
  simp only at hs
  split at hs
  · cases hs
    exact ⟨h, Or.inl rfl⟩
  · rename_i hne
    cases hb : Binding.ofLine line.2 line.1.trim with
    | error e => rw [hb] at hs; cases hs
    | ok b =>
      rw [hb] at hs
      obtain ⟨hi, hlist⟩ := toList_of_bind_eq_ok h hs
      exact ⟨hi, hlist.imp_right fun hl => ⟨b, ⟨hne, line.2, hb⟩, hl⟩⟩

/-- Each binding that lines add is read from a line of its own, in their order. -/
theorem toList_of_readLines {lines : List (Text × Nat)} {s s' : PatternSet} (h : Indexed s)
    (hs : lines.foldlM readLine s = .ok s') :
    Indexed s' ∧ ∃ cs, s'.toList = s.toList ++ cs ∧ List.SublistForall₂ Binding.ReadFrom cs (lines.map Prod.fst) := by
  induction lines generalizing s with
  | nil =>
    cases hs
    exact ⟨h, [], by simp, .nil⟩
  | cons line lines ih =>
    rw [List.foldlM_cons] at hs
    cases hl : s.readLine line with
    | error e => rw [hl] at hs; cases hs
    | ok t =>
      rw [hl] at hs
      obtain ⟨ht, hlist⟩ := toList_of_readLine_eq_ok h hl
      obtain ⟨hs', cs, hcs, hsub⟩ := ih ht hs
      refine ⟨hs', ?_⟩
      rcases hlist with hlist | ⟨b, hb, hlist⟩
      · exact ⟨cs, by rw [hcs, hlist], .cons_right hsub⟩
      · exact ⟨b :: cs, by rw [hcs, hlist, List.append_assoc, List.singleton_append], .cons hb hsub⟩

theorem toList_of_parse {t : Text} {s : PatternSet} (h : parse t = .ok s) :
    Indexed s ∧ List.SublistForall₂ Binding.ReadFrom s.toList t.lines := by
  obtain ⟨hi, cs, hcs, hsub⟩ := toList_of_readLines indexed_empty h
  rw [toList_empty, List.nil_append] at hcs
  rw [List.zipIdx_map_fst, ← hcs] at hsub
  exact ⟨hi, hsub⟩

theorem exists_line_of_parse {t : Text} {s : PatternSet} (h : parse t = .ok s) {b : Binding} (hb : b ∈ s.toList) :
    ∃ l ∈ t.lines, b.ReadFrom l := by
  have hsub := (toList_of_parse h).2
  generalize s.toList = bs at hsub hb
  generalize t.lines = ls at hsub
  induction hsub with
  | nil => cases hb
  | @cons c l cs ls hread _ ih =>
    rcases List.mem_cons.mp hb with rfl | hb
    · exact ⟨l, List.mem_cons_self, hread⟩
    · obtain ⟨l', hl', hread'⟩ := ih hb
      exact ⟨l', List.mem_cons_of_mem _ hl', hread'⟩
  | @cons_right l cs ls _ ih =>
    obtain ⟨l', hl', hread'⟩ := ih hb
    exact ⟨l', List.mem_cons_of_mem _ hl', hread'⟩

theorem lines_render {s : PatternSet} (h : ∀ b ∈ s.toList, '\n' ∉ b.render) :
    s.render.lines = s.toList.map Binding.render := by
  have hflat : s.render = (s.toList.map Binding.render).flatMap (· ++ ['\n']) := by
    rw [List.flatMap_map]
    rfl
  rw [hflat, Text.lines_flatMap]
  intro t ht
  obtain ⟨b, hb, rfl⟩ := List.mem_map.mp ht
  exact h b hb

/-- As many bindings as lines: in a set read from its own lines, each binding is read from its own. -/
theorem readFrom_render_of_parse {s : PatternSet} (hn : ∀ b ∈ s.toList, '\n' ∉ b.render)
    (h : parse s.render = .ok s) : ∀ b ∈ s.toList, b.ReadFrom b.render := by
  obtain ⟨-, hsub⟩ := toList_of_parse h
  rw [lines_render hn] at hsub
  obtain ⟨ts, hall, hts⟩ := List.sublistForall₂_iff.mp hsub
  rw [hts.eq_of_length (by rw [← hall.length_eq, List.length_map]), List.forall₂_map_right_iff] at hall
  exact List.forall₂_same.mp hall

theorem readLines_of_normal {bs : List Binding} (hl : ∀ b ∈ bs, b.Legible) (hn : ∀ b ∈ bs, b.normalize = b)
    {s : PatternSet} (h : Indexed s) (hd : ((s.toList ++ bs).map Binding.pattern).Nodup) (n : Nat) :
    ∃ s', ((bs.map Binding.render).zipIdx n).foldlM readLine s = .ok s' ∧ Indexed s' ∧ s'.toList = s.toList ++ bs := by
  induction bs generalizing s n with
  | nil => exact ⟨s, rfl, h, (List.append_nil _).symm⟩
  | cons b bs ih =>
    have hb : b.Legible := hl b List.mem_cons_self
    have hnb : b.normalize = b := hn b List.mem_cons_self
    have hread : s.readLine (b.render, n) = .ok (s.insert b) := by
      rw [readLine_render hb, hnb, if_neg hb.nonempty]
      unfold bind
      rw [(get?_eq_none_iff h).mpr (unbound_of_nodup hd)]
    have happend := toList_insert_append h hd
    obtain ⟨s', hs', hi, hsl⟩ := ih (fun c hc => hl c (List.mem_cons_of_mem _ hc))
      (fun c hc => hn c (List.mem_cons_of_mem _ hc)) (indexed_insert h b) (by rw [happend]; exact hd) (n + 1)
    refine ⟨s', ?_, hi, hsl.trans happend⟩
    rw [List.map_cons, List.zipIdx_cons, List.foldlM_cons, hread]
    exact hs'

/-- A set of legible bindings is read from its written form exactly when its domains are normal. -/
theorem parse_render_iff {s : PatternSet} (h : Indexed s) (hl : ∀ b ∈ s.toList, b.Legible) :
    parse s.render = .ok s ↔ ∀ b ∈ s.toList, b.normalize = b := by
  have hn : ∀ b ∈ s.toList, '\n' ∉ b.render := fun b hb => Binding.newline_not_mem_render (hl b hb).oneLine
  constructor
  · intro hp b hb
    obtain ⟨-, n, hread⟩ := readFrom_render_of_parse hn hp b hb
    rw [(hl b hb).trim_render, (hl b hb).ofLine_render] at hread
    split at hread
    · cases hread
    · exact Except.ok.inj hread
  · intro hnormal
    obtain ⟨s', hs', hi, hlist⟩ := readLines_of_normal hl hnormal indexed_empty (by simpa using nodup_patterns h) 1
    unfold parse
    rw [lines_render hn, hs', eq_of_toList_eq hi h (by simpa using hlist)]

end PatternSet

end HostPatterns
