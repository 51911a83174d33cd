/-
  HostPatterns.Proofs.LookAlikes — what stands between a name and those below it in
  walking order.

  Read backwards, the names below `d` start with `d` and a dot, so they stand in one
  row (`mem_parents_of_between`). But `d` itself need not stand right before that row.
  A look-alike of `d` ends in `d` behind a character other than the dot, as `a-b.com`
  does for `b.com`; it comes in between when that character is one of those before the
  dot (`before_of_lookAlike`), and nothing else does (`lookAlike_of_gap`).

  The order is one of bytes. An end of a name's bytes that is a name's bytes starts
  where a character does (`suffix_of_bytes_suffix`), so it is an end of the name.
-/

import HostPatterns.Proofs.Walk

namespace HostPatterns

/-! ## Bytes of a name -/

namespace Text

theorem not_isUTF8FirstByte_of_mem_tail {c : Char} {b : UInt8} (h : b ∈ (String.utf8EncodeChar c).tail) :
    ¬ b.IsUTF8FirstByte := by
  obtain ⟨i, hi, rfl⟩ := List.getElem_of_mem h
  rw [List.getElem_tail, UInt8.isUTF8FirstByte_getElem_utf8EncodeChar]
  exact Nat.succ_ne_zero i

theorem isUTF8FirstByte_of_head {c : Char} {t : Text} {b : UInt8} {bs : List UInt8}
    (h : (c :: t).flatMap String.utf8EncodeChar = b :: bs) : b.IsUTF8FirstByte := by
  have hpos : 0 < (String.utf8EncodeChar c).length := List.length_pos_iff.mpr String.utf8EncodeChar_ne_nil
  have hb : (String.utf8EncodeChar c)[0] = b := by
    have := congrArg (·[0]?) h
    simpa [List.getElem?_append_left hpos, List.getElem?_eq_getElem hpos] using this
  rw [← hb, UInt8.isUTF8FirstByte_getElem_utf8EncodeChar]

theorem suffix_of_bytes_suffix {e d : Text} (h : e.flatMap String.utf8EncodeChar <:+ d.flatMap String.utf8EncodeChar) :
    e <:+ d := by
  induction d with
  | nil =>
    cases e with
    | nil => exact List.suffix_rfl
    | cons c e =>
      rw [List.flatMap_nil, List.suffix_nil, List.flatMap_cons, List.append_eq_nil_iff] at h
      exact absurd h.1 String.utf8EncodeChar_ne_nil
  | cons c d ih =>
    obtain ⟨w, hw⟩ := h
    rw [List.flatMap_cons] at hw
    rcases List.append_eq_append_iff.mp hw with ⟨front, hc, he⟩ | ⟨rest, -, hd⟩
    · cases front with
      | nil => exact (ih (by rw [he]; exact List.suffix_rfl)).trans (List.suffix_cons c d)
      | cons b front =>
        -- the end starts within the bytes of `c`, and with a first byte, so it takes all of them
        have hfirst : b.IsUTF8FirstByte := by
          cases e with
          | nil => cases he
          | cons c' e => exact isUTF8FirstByte_of_head he
        cases w with
        | nil =>
          have hwhole : e.flatMap String.utf8EncodeChar = (c :: d).flatMap String.utf8EncodeChar := by
            rw [he, List.flatMap_cons, hc, List.nil_append]
          have heq : e = c :: d := Domain.backwards_injective (by unfold Domain.backwards; rw [hwhole])
          exact heq ▸ List.suffix_rfl
        | cons a w =>
          have htail : b ∈ (String.utf8EncodeChar c).tail := by
            rw [hc]
            simp
          exact absurd hfirst (not_isUTF8FirstByte_of_mem_tail htail)
    · exact (ih ⟨rest, hd.symm⟩).trans (List.suffix_cons c d)

end Text

namespace Domain

theorem suffix_of_backwards_prefix {p d : Domain} (h : backwards p <+: backwards d) : p <:+ d := by
  obtain ⟨l, hl, heq⟩ := List.prefix_map_iff.mp h
  rw [← List.map_injective_iff.mpr (fun _ _ => UInt8.toNat_inj.mp) heq] at hl
  exact Text.suffix_of_bytes_suffix (List.reverse_prefix.mp hl)

theorem backwards_append_cons (u d : Domain) (c : Char) :
    backwards (u ++ c :: d) = backwards d ++ (backwards [c] ++ backwards u) := by
  rw [← List.append_assoc, ← backwards_append, ← backwards_append]
  rfl

/-- The byte of a character that is read first is the character itself, or is past all those of ASCII. -/
theorem backwards_singleton (c : Char) : ∃ n rest, backwards [c] = n :: rest ∧
    (n = c.toNat ∨ 128 ≤ n ∧ 128 ≤ c.toNat) := by
  have hbytes : backwards [c] = (String.utf8EncodeChar c).reverse.map UInt8.toNat := by simp [backwards]
  by_cases hone : c.utf8Size = 1
  · have hsmall : c.toNat ≤ 127 := Char.utf8Size_eq_one_iff.mp hone
    refine ⟨c.toNat, [], ?_, Or.inl rfl⟩
    rw [hbytes, String.utf8EncodeChar_eq_singleton hone, List.reverse_singleton, List.map_singleton,
      UInt32.toNat_toUInt8, Char.toNat_val, Nat.mod_eq_of_lt (by omega)]
  · have hlarge : ¬ c.toNat ≤ 127 := fun h => hone (Char.utf8Size_eq_one_iff.mpr h)
    obtain ⟨a, bs, hcons⟩ := List.exists_cons_of_ne_nil (String.utf8EncodeChar_ne_nil (c := c))
    have hlen := String.length_utf8EncodeChar c
    rcases List.eq_nil_or_concat bs with rfl | ⟨bs, b, rfl⟩
    · rw [hcons, List.length_singleton] at hlen
      exact absurd hlen.symm hone
    · have hb : ¬ b.IsUTF8FirstByte := Text.not_isUTF8FirstByte_of_mem_tail (c := c) (by rw [hcons]; simp)
      have continuation : ∀ n < 256, ¬ (UInt8.ofNat n).IsUTF8FirstByte → 128 ≤ n := by decide +kernel
      refine ⟨b.toNat, (bs.reverse ++ [a]).map UInt8.toNat, ?_, Or.inr ⟨?_, by omega⟩⟩
      · rw [hbytes, hcons]
        simp
      · exact continuation b.toNat b.toNat_lt (by simpa using hb)

end Domain

/-! ## Between two names -/

theorem prefix_of_lex_of_lex {p a b : List Nat} (hpa : a.lex p = false) (hab : b.lex a = false) (hpb : p <+: b) :
    p <+: a := by
  induction p generalizing a b with
  | nil => exact List.nil_prefix
  | cons x p ih =>
    obtain ⟨rest, rfl⟩ := hpb
    cases a with
    | nil => cases hpa
    | cons y a =>
      rw [List.cons_append] at hab
      simp only [List.lex, Bool.or_eq_false_iff, decide_eq_false_iff_not, Bool.and_eq_false_imp, beq_iff_eq] at hpa hab
      obtain rfl : x = y := by omega
      exact List.cons_prefix_cons.mpr ⟨rfl, ih (hpa.2 rfl) (hab.2 rfl) (List.prefix_append _ _)⟩

namespace Domain

theorem suffix_of_between {p x q : Domain} (hpx : p.Before x) (hxq : x.Before q) (hp : p <:+ q) : p <:+ x := by
  have hpq : backwards p <+: backwards q := by
    obtain ⟨u, rfl⟩ := hp
    rw [backwards_append]
    exact List.prefix_append _ _
  exact suffix_of_backwards_prefix (prefix_of_lex_of_lex hpx hxq hpq)

theorem mem_parents_of_between {d l x q : Domain} (hl : d ∈ l.parents) (hlx : l.Before x) (hxq : x.Before q)
    (hq : d ∈ q.parents) : d ∈ x.parents := by
  rw [mem_parents] at hl hq ⊢
  exact suffix_of_between ((before_of_suffix hl).trans hlx) hxq hq

/-- The name behind a character that comes before the dot. -/
def LookAlike (y d : Domain) : Prop := ∃ c ∈ y, c < '.' ∧ c :: d <:+ y

instance (y d : Domain) : Decidable (y.LookAlike d) := List.decidableBEx (fun c => c < '.' ∧ c :: d <:+ y) y

theorem LookAlike.ne {y d : Domain} (h : y.LookAlike d) : d ≠ y := by
  obtain ⟨c, -, -, u, rfl⟩ := h
  intro heq
  have hlen := congrArg List.length heq
  rw [List.length_append, List.length_cons] at hlen
  omega

theorem LookAlike.not_mem_parents {y d : Domain} (h : y.LookAlike d) : d ∉ y.parents := by
  obtain ⟨c, -, hc, u, rfl⟩ := h
  intro hd
  have hsuffix := List.suffix_of_suffix_length_le (mem_parents.mp hd) (List.suffix_append u (c :: d)) (by simp)
  have heq := hsuffix.eq_of_length (by simp)
  cases heq
  exact absurd hc (by decide)

theorem LookAlike.mem_ancestry_of_parents {y d t : Domain} (h : y.LookAlike d) (ht : t ∈ d.parents) : t ∈ y.ancestry := by
  obtain ⟨c, hc, -, hsuffix⟩ := h
  rw [mem_parents] at ht
  exact mem_ancestry.mpr ⟨List.ne_nil_of_mem hc, Or.inr (ht.trans ((List.suffix_cons c d).trans hsuffix))⟩

theorem before_of_lookAlike {d y q : Domain} (h : y.LookAlike d) (hq : d ∈ q.parents) : d.Before y ∧ y.Before q := by
  obtain ⟨c, -, hc, u, rfl⟩ := h
  refine ⟨before_of_suffix ((List.suffix_cons c d).trans (List.suffix_append _ _)), ?_⟩
  obtain ⟨v, rfl⟩ := mem_parents.mp hq
  obtain ⟨n, rest, hn, hsmall⟩ := backwards_singleton c
  have hlt : n < 46 := by
    have : c.toNat < 46 := hc
    omega
  unfold Before
  rw [List.lex_eq_false_iff_ge, backwards_append_cons, backwards_append_cons, hn]
  exact List.append_left_le (List.cons_le_cons_iff.mpr (Or.inl hlt))

theorem lookAlike_of_between {d x q : Domain} (hdx : d.Before x) (hne : d ≠ x) (hxq : x.Before q) (hq : d ∈ q.parents) :
    d ∈ x.parents ∨ x.LookAlike d := by
  obtain ⟨v, rfl⟩ := mem_parents.mp hq
  obtain ⟨u, rfl⟩ := suffix_of_between hdx hxq ((List.suffix_cons '.' d).trans (List.suffix_append _ _))
  rcases List.eq_nil_or_concat u with rfl | ⟨u, c, rfl⟩
  · exact absurd rfl hne
  · rw [List.concat_append]
    by_cases hdot : c = '.'
    · left
      rw [hdot, mem_parents]
      exact List.suffix_append _ _
    · right
      refine ⟨c, List.mem_append_right _ List.mem_cons_self, ?_, List.suffix_append _ _⟩
      by_contra hge
      obtain ⟨n, rest, hn, hlarge⟩ := backwards_singleton c
      have hlt : 46 < n := by
        have hle : 46 ≤ c.toNat := Nat.le_of_not_lt hge
        have hnedot : c.toNat ≠ 46 := fun h => hdot (Char.toNat_inj.mp h)
        omega
      rw [List.concat_append] at hxq
      unfold Before at hxq
      rw [List.lex_eq_false_iff_ge, backwards_append_cons, backwards_append_cons, hn] at hxq
      exact hxq (List.append_left_lt (List.cons_lt_cons_iff.mpr (Or.inl hlt)))

/-- Between a name at or below `d` and one below it there is room for others only behind `d` itself, and only for
    look-alikes of it. -/
theorem lookAlike_of_gap {d l x q : Domain} (hl : d ∈ l.ancestry) (hlx : l.Before x) (hne : l ≠ x) (hxq : x.Before q)
    (hq : d ∈ q.parents) (hx : d ∉ x.ancestry) : d = l ∧ x.LookAlike d := by
  have hdl : d = l := by
    by_contra hdl
    exact hx (mem_ancestry_of_parents (mem_parents_of_between (parents_of_mem_ancestry hl hdl) hlx hxq hq))
  rw [← hdl] at hlx hne
  exact ⟨hdl, (lookAlike_of_between hlx hne hxq hq).resolve_left fun h => hx (mem_ancestry_of_parents h)⟩

end Domain

end HostPatterns
