/-
  HostPatterns.Proofs.HostsGrammar — the hosts text by its grammar.

  A line is what its characters say, with no cutting into fields. It is a comment when
  it is blank or has `#` behind blanks. It `Binds` a record when it reads blanks, the
  written address, blanks, a name, and then a blank or nothing; and it is skipped
  otherwise. A text is its lines, each but the last ended by a line feed.
  - `Text.fields_eq_cons_iff`: the first field, and what is behind it.
  - `Ipv4.parse?_eq_some_iff`: an address is read from its written form only.
  - `HostLine.ofText_eq_iff`: what a line is read as is what it is.
  - `Hosts.ofText_append`: a text behind whole lines adds what it holds.
  - `Hosts.ofText_by_grammar`: all of it, of every text.
-/

import HostPatterns.Proofs.FileStep

namespace HostPatterns

namespace Text

/-! ## Fields -/

/-- No character but blanks. -/
def Blank (t : Text) : Prop := ∀ c ∈ t, isBlank c = true

/-- Some character, and no blank. -/
def Word (t : Text) : Prop := t ≠ [] ∧ ∀ c ∈ t, isBlank c = false

/-- What can stand behind a word. -/
def Break (t : Text) : Prop := ∀ c ∈ t.head?, isBlank c = true

theorem fields_cons_of_isBlank {c : Char} (h : isBlank c = true) (t : Text) : fields (c :: t) = fields t := by
  unfold fields
  rw [List.splitOnP_cons_eq_if_modifyHead, if_pos h]
  rfl

theorem fields_blank_append {u : Text} (h : u.Blank) (t : Text) : fields (u ++ t) = fields t := by
  induction u with
  | nil => rfl
  | cons c u ih =>
    rw [List.cons_append, fields_cons_of_isBlank (h c List.mem_cons_self), ih fun d hd => h d (List.mem_cons_of_mem _ hd)]

theorem fields_of_blank {t : Text} (h : t.Blank) : fields t = [] := by
  rw [← List.append_nil t, fields_blank_append h]
  rfl

theorem fields_word_append {w rest : Text} (hw : w.Word) (hr : rest.Break) : fields (w ++ rest) = w :: fields rest := by
  have hne : (!w.isEmpty) = true := by simp [hw.1]
  cases rest with
  | nil =>
    unfold fields
    rw [List.append_nil, List.splitOnP_eq_singleton hw.2, List.filter_cons, if_pos hne]
    rfl
  | cons c rest =>
    have hc : isBlank c = true := hr c rfl
    rw [fields_cons_of_isBlank hc]
    unfold fields
    rw [List.splitOnP_append_cons_of_forall_mem hw.2 c hc, List.filter_cons, if_pos hne]

/-- A text is blank, or blanks, a word and what is behind it. -/
theorem blank_or_exists_word (t : Text) : t.Blank ∨ ∃ indent w rest, t = indent ++ w ++ rest ∧ indent.Blank ∧
    w.Word ∧ rest.Break := by
  have hindent : Blank (t.takeWhile isBlank) := fun c hc => List.mem_takeWhile_imp hc
  have hsplit := List.takeWhile_append_dropWhile (p := isBlank) (l := t)
  cases ht : t.dropWhile isBlank with
  | nil =>
    left
    rw [ht, List.append_nil] at hsplit
    rwa [hsplit] at hindent
  | cons c t' =>
    right
    have hc : isBlank c = false := by simpa [ht] using List.head?_dropWhile_not isBlank t
    have hword : Word ((c :: t').takeWhile (!isBlank ·)) := by
      refine ⟨by simp [hc], ?_⟩
      intro d hd
      simpa using List.mem_takeWhile_imp hd
    have hbreak : Break ((c :: t').dropWhile (!isBlank ·)) := by
      intro d hd
      have := List.head?_dropWhile_not (!isBlank ·) (c :: t')
      rw [hd] at this
      simpa using this
    refine ⟨_, _, _, ?_, hindent, hword, hbreak⟩
    rw [List.append_assoc, List.takeWhile_append_dropWhile, ← ht, hsplit]

theorem fields_eq_cons_iff {t w : Text} {ws : List Text} :
    fields t = w :: ws ↔ ∃ indent rest, t = indent ++ w ++ rest ∧ indent.Blank ∧ w.Word ∧ rest.Break ∧ fields rest = ws := by
  constructor
  · intro h
    rcases blank_or_exists_word t with hb | ⟨indent, w', rest, rfl, hi, hw, hr⟩
    · rw [fields_of_blank hb] at h
      cases h
    · rw [List.append_assoc, fields_blank_append hi, fields_word_append hw hr] at h
      cases h
      exact ⟨indent, rest, rfl, hi, hw, hr, rfl⟩
  · intro h
    obtain ⟨indent, rest, rfl, hi, hw, hr, rfl⟩ := h
    rw [List.append_assoc, fields_blank_append hi, fields_word_append hw hr]

/-! ## Trimming -/

theorem exists_trim (t : Text) : ∃ front back, t = front ++ t.trim ++ back ∧ front.Blank ∧ back.Blank := by
  refine ⟨t.takeWhile isBlank, ((t.dropWhile isBlank).reverse.takeWhile isBlank).reverse, ?_, ?_, ?_⟩
  · unfold trim
    rw [List.append_assoc, ← List.reverse_append, List.takeWhile_append_dropWhile, List.reverse_reverse,
      List.takeWhile_append_dropWhile]
  · exact fun c hc => List.mem_takeWhile_imp hc
  · exact fun c hc => List.mem_takeWhile_imp (List.mem_reverse.mp hc)

theorem fields_append_blank (t : Text) {u : Text} (h : u.Blank) : fields (t ++ u) = fields t := by
  cases u with
  | nil => rw [List.append_nil]
  | cons c u =>
    have hc : isBlank c = true := h c List.mem_cons_self
    have hnone : fields u = [] := fields_of_blank fun d hd => h d (List.mem_cons_of_mem _ hd)
    unfold fields at hnone ⊢
    rw [List.splitOnP_append_cons t u hc, List.filter_append, hnone, List.append_nil]

theorem fields_trim (t : Text) : fields t.trim = fields t := by
  obtain ⟨front, back, ht, hf, hb⟩ := exists_trim t
  conv_rhs => rw [ht, List.append_assoc, fields_blank_append hf, fields_append_blank _ hb]

theorem trim_eq_nil_iff {t : Text} : t.trim = [] ↔ t.Blank := by
  constructor
  · intro h
    obtain ⟨front, back, ht, hf, hb⟩ := exists_trim t
    rw [h, List.append_nil] at ht
    rw [ht]
    intro c hc
    exact (List.mem_append.mp hc).elim (hf c) (hb c)
  · intro h
    have hdrop : t.dropWhile isBlank = [] := List.dropWhile_eq_nil_iff.mpr h
    unfold trim
    rw [hdrop]
    rfl

/-- Trimmed, a text starts with its first character that is no blank. -/
theorem head?_trim_eq_some_iff {t : Text} {c : Char} :
    t.trim.head? = some c ↔ ∃ indent rest, t = indent ++ c :: rest ∧ indent.Blank ∧ isBlank c = false := by
  have hprefix := trim_isPrefix t
  constructor
  · intro h
    obtain ⟨front, back, ht, hf, -⟩ := exists_trim t
    obtain ⟨tail, htail⟩ := List.head?_eq_some_iff.mp h
    have hc : isBlank c = false := by
      obtain ⟨cut, hcut⟩ := hprefix
      have hhead : (t.dropWhile isBlank).head? = some c := by rw [← hcut, htail]; rfl
      simpa [hhead] using List.head?_dropWhile_not isBlank t
    refine ⟨front, tail ++ back, ?_, hf, hc⟩
    rw [ht, htail, List.append_assoc, List.cons_append]
  · intro h
    obtain ⟨indent, rest, rfl, hi, hc⟩ := h
    have hdrop : (indent ++ c :: rest).dropWhile isBlank = c :: rest := by
      rw [List.dropWhile_append_of_pos hi, List.dropWhile_cons_of_neg (by simp [hc])]
    rw [hdrop] at hprefix
    cases htrim : trim (indent ++ c :: rest) with
    | nil =>
      have hblank := trim_eq_nil_iff.mp htrim c (by simp)
      rw [hc] at hblank
      cases hblank
    | cons d t =>
      rw [htrim] at hprefix
      rw [(List.cons_prefix_cons.mp hprefix).1]
      rfl

theorem trim_append_blank (t : Text) {u : Text} (h : u.Blank) : (t ++ u).trim = t.trim := by
  unfold trim
  rw [List.dropWhile_append]
  split
  · rename_i hempty
    have hu : u.dropWhile isBlank = [] := List.dropWhile_eq_nil_iff.mpr h
    rw [hu, List.isEmpty_iff.mp hempty]
  · have hrev : ∀ c ∈ u.reverse, isBlank c = true := fun c hc => h c (List.mem_reverse.mp hc)
    rw [List.reverse_append, List.dropWhile_append_of_pos hrev]

/-! ## Lines -/

theorem lines_of_not_mem {t : Text} (hne : t ≠ []) (h : '\n' ∉ t) : lines t = [t] := by
  unfold lines
  rw [List.splitOn_eq_singleton h]
  simp [hne]

theorem lines_append_cons {line : Text} (h : '\n' ∉ line) (rest : Text) :
    lines (line ++ '\n' :: rest) = line :: lines rest := by
  have hne : rest.splitOn '\n' ≠ [] := List.splitOn_ne_nil _ _
  have hlast : (line :: rest.splitOn '\n').getLast? = (rest.splitOn '\n').getLast? := by
    rw [List.getLast?_cons, List.getLast?_eq_some_getLast hne]
    rfl
  unfold lines
  rw [List.splitOn_append_cons_self_of_not_mem h]
  simp only [hlast, List.dropLast_cons_of_ne_nil hne]
  split <;> rfl

/-- Every text is empty, an open last line, or a line in front of a text. -/
@[elab_as_elim]
theorem lines_induction {motive : Text → Prop} (nil : motive [])
    (last : ∀ line, line ≠ [] → '\n' ∉ line → motive line)
    (cons : ∀ line rest, '\n' ∉ line → motive rest → motive (line ++ '\n' :: rest)) (t : Text) : motive t := by
  by_cases hn : '\n' ∈ t
  · obtain ⟨line, rest, ht, hline⟩ := List.eq_append_cons_of_mem hn
    have hshorter : rest.length < t.length := by
      rw [ht, List.length_append, List.length_cons]
      omega
    rw [ht]
    exact cons line rest hline (lines_induction nil last cons rest)
  · by_cases hne : t = []
    · exact hne ▸ nil
    · exact last t hne hn
termination_by t.length

end Text

/-! ## Addresses -/

namespace Ipv4

theorem digitChar_of_isDigit {c : Char} (h : c.isDigit = true) :
    c.toNat - '0'.toNat < 10 ∧ Nat.digitChar (c.toNat - '0'.toNat) = c := by
  simp only [Char.isDigit, Bool.and_eq_true, decide_eq_true_eq, ge_iff_le, UInt32.le_iff_toNat_le] at h
  have hle : '0'.toNat ≤ c.toNat := h.1
  have hlt : c.toNat - '0'.toNat < 10 := Nat.sub_lt_left_of_lt_add hle (Nat.lt_succ_of_le h.2)
  refine ⟨hlt, Char.toNat_inj.mp ?_⟩
  rw [Nat.toNat_digitChar_of_lt_ten hlt]
  exact Nat.add_sub_of_le hle

/-- Digits without a zero in front are how their number is written. -/
theorem toDigits_foldl {t : Text} (hne : t ≠ []) (hd : ∀ c ∈ t, c.isDigit = true)
    (hlead : t.head? = some '0' → t.length ≤ 1) :
    Nat.toDigits 10 (t.foldl (fun n c => 10 * n + (c.toNat - '0'.toNat)) 0) = t := by
  induction t using List.reverseRecOn with
  | nil => exact absurd rfl hne
  | append_singleton t c ih =>
    obtain ⟨hlt, hchar⟩ := digitChar_of_isDigit (hd c (by simp))
    rw [List.foldl_append, List.foldl_cons, List.foldl_nil]
    by_cases ht : t = []
    · subst ht
      rw [List.foldl_nil, Nat.mul_zero, Nat.zero_add, Nat.toDigits_of_lt_base hlt, hchar, List.nil_append]
    · have hnozero : t.head? ≠ some '0' := by
        intro hzero
        have hlen := hlead (by rw [List.head?_append_of_ne_nil _ ht]; exact hzero)
        rw [List.length_append, List.length_singleton] at hlen
        have hpos := List.length_pos_iff.mpr ht
        omega
      have hfront := ih ht (fun d hdt => hd d (List.mem_append_left _ hdt)) (fun hzero => absurd hzero hnozero)
      have hpos : 0 < t.foldl (fun n c => 10 * n + (c.toNat - '0'.toNat)) 0 := by
        apply Nat.pos_of_ne_zero
        intro hzero
        rw [hzero, Nat.toDigits_zero] at hfront
        exact hnozero (by rw [← hfront]; rfl)
      rw [← Nat.toDigits_append_toDigits (by decide) hpos hlt, hfront, Nat.toDigits_of_lt_base hlt, hchar]

theorem octetText_of_octet? {t : Text} {o : UInt8} (h : octet? t = some o) : octetText o = t := by
  unfold octet? at h
  split at h
  · cases h
  · rename_i hform
    simp only [not_or, not_and, Bool.not_eq_false, List.all_eq_true, not_lt] at hform
    obtain ⟨hne, -, hd, hlead⟩ := hform
    have hdigits := toDigits_foldl hne hd hlead
    simp only at h
    split at h
    · rename_i hlt
      cases h
      unfold octetText Text.ofNat
      rw [Nat.toUInt8_eq, UInt8.toNat_ofNat_of_lt' hlt, hdigits]
    · cases h

theorem parse?_eq_some_iff {t : Text} {ip : Ipv4} : parse? t = some ip ↔ t = ip.render := by
  constructor
  · intro h
    unfold parse? at h
    split at h
    · rename_i a b c d hsplit
      obtain ⟨a', ha, h⟩ := Option.bind_eq_some_iff.mp h
      obtain ⟨b', hb, h⟩ := Option.bind_eq_some_iff.mp h
      obtain ⟨c', hc, h⟩ := Option.bind_eq_some_iff.mp h
      obtain ⟨d', hd, h⟩ := Option.bind_eq_some_iff.mp h
      cases h
      have ht : ['.'].intercalate (t.splitOn '.') = t := List.intercalate_splitOn '.'
      rw [hsplit] at ht
      unfold render
      rw [octetText_of_octet? ha, octetText_of_octet? hb, octetText_of_octet? hc, octetText_of_octet? hd, ← ht]
      simp [List.intercalate]
    · cases h
  · intro h
    rw [h, parse?_render]

theorem word_render (ip : Ipv4) : Text.Word ip.render := ⟨render_ne_nil ip, fun _ hc => not_blank_of_mem_render hc⟩

theorem isDigit_of_head?_render {ip : Ipv4} {c : Char} (h : ip.render.head? = some c) : c.isDigit = true := by
  have hne : octetText ip.a ≠ [] := (octetText_spec ip.a).1
  unfold render at h
  rw [List.append_assoc, List.append_assoc, List.head?_append_of_ne_nil _ hne] at h
  exact Nat.isDigit_of_mem_toDigits (by decide) (by decide) (List.mem_of_head? h)

end Ipv4

/-! ## One line -/

theorem Record.ofLine?_eq_some_iff {t : Text} {r : Record} :
    ofLine? t = some r ↔ ∃ name others, t.fields = r.ip.render :: name :: others ∧ name.head? ≠ some '#' ∧
      r.domain = Domain.normalize name ∧ r.domain ≠ [] := by
  unfold ofLine?
  constructor
  · intro h
    split at h
    · rename_i address name others hfields
      obtain ⟨ip, hip, h⟩ := Option.bind_eq_some_iff.mp h
      simp only at h
      split at h
      · cases h
      · rename_i hname
        cases h
        obtain ⟨hhash, hne⟩ := not_or.mp hname
        exact ⟨name, others, by rw [hfields, Ipv4.parse?_eq_some_iff.mp hip]; rfl, hhash, rfl, hne⟩
    · cases h
  · intro h
    obtain ⟨name, others, hfields, hhash, hdomain, hne⟩ := h
    obtain ⟨ip, domain⟩ := r
    subst hdomain
    simp only [hfields, Ipv4.parse?_render]
    exact if_neg (not_or.mpr ⟨hhash, hne⟩)

namespace HostLine

/-- Blank, or a `#` behind blanks. -/
def IsComment (line : Text) : Prop := line.Blank ∨ ∃ indent rest, line = indent ++ '#' :: rest ∧ indent.Blank

/-- An address as it is written, blanks, and a name that starts with no `#` and keeps a character when normalized. -/
def Binds (line : Text) (r : Record) : Prop :=
  ∃ indent gap name rest : Text, line = indent ++ r.ip.render ++ gap ++ name ++ rest ∧ indent.Blank ∧ gap.Blank ∧ gap ≠ [] ∧
    name.Word ∧ rest.Break ∧ name.head? ≠ some '#' ∧ r.domain = Domain.normalize name ∧ r.domain ≠ []

/-- What a line is. -/
inductive Classed (line : Text) : HostLine → Prop
  | comment : IsComment line → Classed line .comment
  | record {r : Record} : Binds line r → Classed line (.record r)
  | skipped : ¬ IsComment line → (∀ r, ¬ Binds line r) → Classed line .skipped

theorem isComment_iff {line : Text} : IsComment line ↔ line.trim = [] ∨ line.trim.head? = some '#' := by
  have hhash : Text.isBlank '#' = false := by decide
  unfold IsComment
  rw [Text.trim_eq_nil_iff, Text.head?_trim_eq_some_iff]
  simp only [hhash, and_true]

theorem binds_iff {line : Text} {r : Record} : Binds line r ↔ Record.ofLine? line.trim = some r := by
  rw [Record.ofLine?_eq_some_iff, Text.fields_trim]
  constructor
  · intro h
    obtain ⟨indent, gap, name, rest, hline, hindent, hgap, hgne, hname, hrest, hrecord⟩ := h
    refine ⟨name, rest.fields, ?_, hrecord⟩
    have hbreak : Text.Break (gap ++ name ++ rest) := by
      intro c hc
      rw [List.append_assoc, List.head?_append_of_ne_nil _ hgne] at hc
      exact hgap c (List.mem_of_head? hc)
    exact Text.fields_eq_cons_iff.mpr ⟨indent, gap ++ name ++ rest, by simpa using hline, hindent, r.ip.word_render, hbreak,
      Text.fields_eq_cons_iff.mpr ⟨gap, rest, rfl, hgap, hname, hrest, rfl⟩⟩
  · intro h
    obtain ⟨name, others, hfields, hrecord⟩ := h
    obtain ⟨indent, rest', rfl, hindent, -, hbreak, hfields⟩ := Text.fields_eq_cons_iff.mp hfields
    obtain ⟨gap, rest, rfl, hgap, hname, hrest, -⟩ := Text.fields_eq_cons_iff.mp hfields
    refine ⟨indent, gap, name, rest, by simp, hindent, hgap, ?_, hname, hrest, hrecord⟩
    -- else the name goes on where the address ends
    intro hgap
    cases name with
    | nil => exact hname.1 rfl
    | cons c name =>
      have hblank : Text.isBlank c = true := hbreak c (by rw [hgap]; rfl)
      rw [hname.2 c List.mem_cons_self] at hblank
      cases hblank

/-- A line with a record starts with a digit. -/
theorem Binds.not_isComment {line : Text} {r : Record} (h : Binds line r) : ¬ IsComment line := by
  obtain ⟨indent, gap, name, rest, rfl, hindent, -⟩ := h
  have hword := r.ip.word_render
  cases hip : r.ip.render with
  | nil => exact absurd hip hword.1
  | cons c tail =>
    have hdigit : c.isDigit = true := Ipv4.isDigit_of_head?_render (by rw [hip]; rfl)
    have hc : Text.isBlank c = false := hword.2 c (by rw [hip]; exact List.mem_cons_self)
    have hhead : (indent ++ (c :: tail) ++ gap ++ name ++ rest).trim.head? = some c :=
      Text.head?_trim_eq_some_iff.mpr ⟨indent, tail ++ gap ++ name ++ rest, by simp, hindent, hc⟩
    rw [isComment_iff, hhead]
    intro h
    rcases h with hnil | hhash
    · rw [hnil] at hhead
      cases hhead
    · cases hhash
      revert hdigit
      decide

theorem Classed.unique {line : Text} {k k' : HostLine} (h : Classed line k) (h' : Classed line k') : k = k' := by
  cases h with
  | comment hc =>
    cases h' with
    | comment => rfl
    | record hb => exact absurd hc hb.not_isComment
    | skipped hnc => exact absurd hc hnc
  | record hb =>
    cases h' with
    | comment hc => exact absurd hc hb.not_isComment
    | record hb' => exact congrArg HostLine.record (Option.some.inj ((binds_iff.mp hb).symm.trans (binds_iff.mp hb')))
    | skipped _ hnb => exact absurd hb (hnb _)
  | skipped hnc hnb =>
    cases h' with
    | comment hc => exact absurd hc hnc
    | record hb => exact absurd hb (hnb _)
    | skipped => rfl

theorem classed_ofText (line : Text) : Classed line (ofText line) := by
  unfold ofText
  simp only
  split
  · rename_i hc
    exact .comment (isComment_iff.mpr hc)
  · rename_i hc
    split
    · rename_i r hr
      exact .record (binds_iff.mpr hr)
    · rename_i hnone
      refine .skipped (mt isComment_iff.mp hc) ?_
      intro r hb
      rw [binds_iff.mp hb] at hnone
      cases hnone

/-- What a line is read as is what it is. -/
theorem ofText_eq_iff {line : Text} {k : HostLine} : ofText line = k ↔ Classed line k := by
  constructor
  · intro h
    rw [← h]
    exact classed_ofText line
  · exact (classed_ofText line).unique

/-- Blanks at its end, such as a carriage return, make no other line. -/
theorem ofText_append_blank (line : Text) {u : Text} (h : u.Blank) : ofText (line ++ u) = ofText line := by
  unfold ofText
  rw [Text.trim_append_blank line h]

/-- What the line alone holds. -/
def hosts : HostLine → Hosts
  | .comment => ⟨[], 0, 1⟩
  | .record r => ⟨[r], 0, 0⟩
  | .skipped => ⟨[], 1, 0⟩

end HostLine

/-! ## All lines -/

theorem isUpper_eq_false_of_toLower {c : Char} (h : c.toLower = c) : c.isUpper = false := by
  have capital : ∀ n < 91, 65 ≤ n → (Char.ofNat n).toLower ≠ Char.ofNat n := by decide
  rw [Bool.eq_false_iff]
  intro hup
  simp only [Char.isUpper, decide_eq_true_eq, ge_iff_le, UInt32.le_iff_toNat_le] at hup
  have hne := capital c.toNat (Nat.lt_succ_of_le hup.2) hup.1
  rw [Char.ofNat_toNat] at hne
  exact hne h

namespace Hosts

instance : Append Hosts where
  append h h' := ⟨h.records ++ h'.records, h.skipped + h'.skipped, h.comments + h'.comments⟩

@[simp] theorem records_append (h h' : Hosts) : (h ++ h').records = h.records ++ h'.records := rfl
@[simp] theorem skipped_append (h h' : Hosts) : (h ++ h').skipped = h.skipped + h'.skipped := rfl
@[simp] theorem comments_append (h h' : Hosts) : (h ++ h').comments = h.comments + h'.comments := rfl

@[ext] theorem ext {h h' : Hosts} (hr : h.records = h'.records) (hs : h.skipped = h'.skipped)
    (hc : h.comments = h'.comments) : h = h' := by
  obtain ⟨records, skipped, comments⟩ := h
  subst hr hs hc
  rfl

theorem append_assoc (h h' h'' : Hosts) : h ++ h' ++ h'' = h ++ (h' ++ h'') := by
  ext1
  · exact List.append_assoc _ _ _
  · exact Nat.add_assoc _ _ _
  · exact Nat.add_assoc _ _ _

theorem empty_append (h : Hosts) : (⟨[], 0, 0⟩ : Hosts) ++ h = h := by
  ext1
  · rfl
  · exact Nat.zero_add _
  · exact Nat.zero_add _

/-- What ends a line that is not the last. -/
inductive LineEnd : Text → Prop
  | lf : LineEnd ['\n']
  | crlf : LineEnd ['\r', '\n']

/-- What a text holds, line by line. -/
inductive Reads : Text → Hosts → Prop
  | nil : Reads [] ⟨[], 0, 0⟩
  | last {line : Text} {k : HostLine} : line ≠ [] → '\n' ∉ line → HostLine.Classed line k → Reads line k.hosts
  | cons {line e rest : Text} {k : HostLine} {h : Hosts} : '\n' ∉ line → LineEnd e → HostLine.Classed line k →
      Reads rest h → Reads (line ++ e ++ rest) (k.hosts ++ h)

theorem ofText_line {line : Text} (hne : line ≠ []) (h : '\n' ∉ line) : ofText line = (HostLine.ofText line).hosts := by
  unfold ofText
  rw [Text.lines_of_not_mem hne h, List.map_singleton]
  cases HostLine.ofText line <;> rfl

theorem ofText_append_cons {line : Text} (h : '\n' ∉ line) (rest : Text) :
    ofText (line ++ '\n' :: rest) = (HostLine.ofText line).hosts ++ ofText rest := by
  unfold ofText
  rw [Text.lines_append_cons h, List.map_cons]
  cases HostLine.ofText line <;> ext1 <;> simp [HostLine.hosts, List.filterMap_cons, HostLine.record?, Nat.add_comm]

theorem reads_ofText (t : Text) : Reads t (ofText t) := by
  induction t using Text.lines_induction with
  | nil => exact .nil
  | last line hne hn =>
    rw [ofText_line hne hn]
    exact .last hne hn (HostLine.classed_ofText line)
  | cons line rest hn ih =>
    rw [ofText_append_cons hn, ← List.singleton_append, ← List.append_assoc]
    exact .cons hn .lf (HostLine.classed_ofText line) ih

theorem Reads.ofText_eq {t : Text} {h : Hosts} (hr : Reads t h) : ofText t = h := by
  induction hr with
  | nil => rfl
  | last hne hn hk => rw [ofText_line hne hn, HostLine.ofText_eq_iff.mpr hk]
  | @cons line e rest k h hn he hk _ ih =>
    cases he with
    | lf =>
      rw [List.append_assoc, List.singleton_append, ofText_append_cons hn, HostLine.ofText_eq_iff.mpr hk, ih]
    | crlf =>
      have hcr : Text.Blank ['\r'] := by
        intro c hc
        rw [List.mem_singleton.mp hc]
        decide
      have hn' : '\n' ∉ line ++ ['\r'] := by simp [hn]
      rw [show line ++ ['\r', '\n'] ++ rest = line ++ ['\r'] ++ '\n' :: rest by simp, ofText_append_cons hn',
        HostLine.ofText_append_blank line hcr, HostLine.ofText_eq_iff.mpr hk, ih]

/-- A text behind whole lines adds what it holds. -/
theorem ofText_append {t : Text} (h : t = [] ∨ t.getLast? = some '\n') (u : Text) :
    ofText (t ++ u) = ofText t ++ ofText u := by
  induction t using Text.lines_induction with
  | nil => exact (empty_append _).symm
  | last line hne hn =>
    have hend := h.resolve_left hne
    exact absurd (List.mem_of_getLast? hend) hn
  | cons line rest hn ih =>
    have hrest : rest = [] ∨ rest.getLast? = some '\n' := by
      rw [or_iff_not_imp_left]
      intro hne
      have hend := h.resolve_left (by simp)
      rw [List.getLast?_append, List.getLast?_cons, List.getLast?_eq_some_getLast hne] at hend
      rw [List.getLast?_eq_some_getLast hne]
      simpa using hend
    rw [List.append_assoc, List.cons_append, ofText_append_cons hn, ofText_append_cons hn, ih hrest, append_assoc]

/-- Every line is one of the three. -/
theorem length_records_add (t : Text) :
    (ofText t).records.length + (ofText t).skipped + (ofText t).comments = t.lines.length := by
  induction t using Text.lines_induction with
  | nil => rfl
  | last line hne hn =>
    rw [ofText_line hne hn, Text.lines_of_not_mem hne hn]
    cases HostLine.ofText line <;> rfl
  | cons line rest hn ih =>
    rw [ofText_append_cons hn, Text.lines_append_cons hn, List.length_cons, ← ih]
    cases HostLine.ofText line <;> simp [HostLine.hosts] <;> omega

/-- What is read is what the lines are, one by one; every line is counted; domains are some character each, with no blank
    and no capital letter; and a text behind whole lines adds what it holds. -/
theorem ofText_by_grammar (t : Text) :
    (∀ h, ofText t = h ↔ Reads t h) ∧
      (ofText t).records.length + (ofText t).skipped + (ofText t).comments = t.lines.length ∧
      (∀ r ∈ (ofText t).records, r.domain ≠ [] ∧ ∀ c ∈ r.domain, Text.isBlank c = false ∧ c.isUpper = false) ∧
      ∀ u, t = [] ∨ t.getLast? = some '\n' → ofText (t ++ u) = ofText t ++ ofText u := by
  refine ⟨?_, length_records_add t, ?_, fun u h => ofText_append h u⟩
  · intro h
    constructor
    · intro heq
      rw [← heq]
      exact reads_ofText t
    · exact Reads.ofText_eq
  · intro r hr
    obtain ⟨hne, htidy⟩ := tidy_of_mem_records hr
    exact ⟨hne, fun c hc => ⟨(htidy c hc).1, isUpper_eq_false_of_toLower (htidy c hc).2⟩⟩

/-- A comment and a record with a further field. Behind them a zero too many, a name that is commented out and one that is
    the root are skipped, and of two dots one is left. -/
theorem two_parts_read :
    let t : Text := "# hosts\r\n 1.1.1.1\tX.Com. alias\r\n".toList
    let u : Text := "01.1.1.1 x.com\n2.2.2.2 #off\n3.3.3.3 .\n4.4.4.4 a..".toList
    let h : Hosts := ⟨[⟨⟨1, 1, 1, 1⟩, "x.com".toList⟩, ⟨⟨4, 4, 4, 4⟩, "a.".toList⟩], 3, 1⟩
    t.getLast? = some '\n' ∧ ofText (t ++ u) = h ∧ Reads (t ++ u) h := by
  intro t u h
  have ended : t.getLast? = some '\n' := by decide
  have first : ofText t = ⟨[⟨⟨1, 1, 1, 1⟩, "x.com".toList⟩], 0, 1⟩ := by unfold t; cbv
  have second : ofText u = ⟨[⟨⟨4, 4, 4, 4⟩, "a.".toList⟩], 3, 0⟩ := by unfold u; cbv
  have whole : ofText (t ++ u) = h := by
    rw [(ofText_by_grammar t).2.2.2 u (Or.inr ended), first, second]
    rfl
  exact ⟨ended, whole, ((ofText_by_grammar (t ++ u)).1 h).mp whole⟩

end Hosts

end HostPatterns
