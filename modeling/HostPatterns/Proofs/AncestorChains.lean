/-
  HostPatterns.Proofs.AncestorChains — ancestry read from the front of a name and from its
  end.

  From the front, a walk starts at a name, unless it is empty, and goes on with what is
  behind the first dot of where it stands (`Walks`). From the end, one name is below another
  if the other stands at its end, behind a dot. On the bytes of the UTF-8 form that is a look
  at one place: the bytes of the other at the end, and the byte of a dot before them
  (`below_iff_bytes`). No byte within a character is taken for a dot or for the start of a
  name, so characters of several bytes change nothing.

  The walk comes to the names of the ancestry and to no others (`walks_ancestry_iff`), each
  strictly above those before it, one for each label. Strictly below is an order, and what
  stands at or above one name is a chain of it (`chain_of_at_or_above`).
  - `ancestry_agrees`: the two readings, of any name. They part at the empty name alone,
    where the walk ends behind a dot at the end, and below which nothing is.
-/

import HostPatterns.Proofs.LookAlikes

namespace HostPatterns

/-! ## From the end -/

namespace Text

/-- The bytes of the UTF-8 form in order. -/
def utf8 (t : Text) : List UInt8 := t.bytes.data.toList

theorem utf8_eq (t : Text) : t.utf8 = t.flatMap String.utf8EncodeChar := by
  simp [utf8, bytes, string, String.toUTF8_eq_toByteArray, List.utf8Encode]

theorem suffix_iff_utf8_suffix {e d : Text} : e <:+ d ↔ e.utf8 <:+ d.utf8 := by
  rw [utf8_eq, utf8_eq]
  refine ⟨fun h => ?_, suffix_of_bytes_suffix⟩
  obtain ⟨u, rfl⟩ := h
  rw [List.flatMap_append]
  exact List.suffix_append _ _

end Text

/-- The bytes `d` are more than the bytes `p` at their end, and the byte right before these is a dot. -/
def EndsBehindDot (d p : List UInt8) : Prop :=
  p.length < d.length ∧ p <:+ d ∧ d[d.length - p.length - 1]? = some '.'.toUInt8

instance (d p : List UInt8) : Decidable (EndsBehindDot d p) := inferInstanceAs (Decidable (_ ∧ _))

theorem dot_cons_suffix_iff {d p : List UInt8} : '.'.toUInt8 :: p <:+ d ↔ EndsBehindDot d p := by
  constructor
  · intro h
    obtain ⟨u, rfl⟩ := h
    have place : (u ++ '.'.toUInt8 :: p).length - p.length - 1 = u.length := by simp; omega
    refine ⟨?_, (List.suffix_cons _ p).trans (List.suffix_append _ _), ?_⟩
    · simp
      omega
    · rw [place]
      simp
  · intro h
    obtain ⟨hlt, ⟨u, rfl⟩, hdot⟩ := h
    rcases List.eq_nil_or_concat u with rfl | ⟨v, b, rfl⟩
    · simp at hlt
    · have place : (v.concat b ++ p).length - p.length - 1 = v.length := by simp; omega
      have hb : b = '.'.toUInt8 := by
        rw [place, List.concat_append] at hdot
        simpa using hdot
      rw [List.concat_append, hb]
      exact List.suffix_append _ _

namespace Domain

theorem dotted_iff_bytes {d p : Domain} : '.' :: p <:+ d ↔ EndsBehindDot (Text.utf8 d) (Text.utf8 p) := by
  have hdot : Text.utf8 ('.' :: p) = '.'.toUInt8 :: Text.utf8 p := by
    rw [Text.utf8_eq, Text.utf8_eq]
    rfl
  rw [Text.suffix_iff_utf8_suffix, hdot, dot_cons_suffix_iff]

theorem below_iff_bytes {d p : Domain} : below d p = true ↔ p ≠ [] ∧ EndsBehindDot (Text.utf8 d) (Text.utf8 p) := by
  rw [below_iff, dotted_iff_bytes]

/-! ## From the front -/

/-- What a walk comes to, from where it stands if it has not ended. -/
inductive Walks : Option Domain → List Domain → Prop
  | ended : Walks none []
  | step {d : Domain} {ds : List Domain} : Walks ((Text.cut? '.' d).map Prod.snd) ds → Walks (some d) (d :: ds)

theorem Walks.unique {at? : Option Domain} {ds es : List Domain} (h : Walks at? ds) (h' : Walks at? es) : ds = es := by
  induction h generalizing es with
  | ended =>
    cases h'
    rfl
  | step _ ih =>
    cases h' with
    | step h' => rw [ih h']

/-- Behind the first dot the walk goes on through the parents. -/
theorem walks_parents (d : Domain) : Walks ((Text.cut? '.' d).map Prod.snd) d.parents := by
  cases hcut : Text.cut? '.' d with
  | none =>
    have hparents : d.parents = [] := by
      rw [← List.length_eq_zero_iff, length_parents, List.count_eq_zero]
      exact Text.cut?_eq_none_iff.mp hcut
    rw [hparents]
    exact .ended
  | some sides =>
    obtain ⟨label, rest⟩ := sides
    obtain ⟨hd, hlabel⟩ := Text.cut?_eq_some_iff.mp hcut
    rw [hd, parents_append_dot hlabel]
    exact .step (walks_parents rest)
termination_by d.length
decreasing_by rw [hd]; simp; omega

theorem walks_ancestry_iff {d : Domain} {ds : List Domain} :
    Walks (if d = [] then none else some d) ds ↔ ds = d.ancestry := by
  have walk : Walks (if d = [] then none else some d) d.ancestry := by
    unfold ancestry
    split
    · exact .ended
    · exact .step (walks_parents d)
  exact ⟨fun h => h.unique walk, fun h => h ▸ walk⟩

theorem length_ancestry (d : Domain) : d.ancestry.length = labelCount d := by
  unfold ancestry labelCount
  split
  · rfl
  · rw [List.length_cons, length_parents]

theorem nil_mem_ancestry_iff {d : Domain} : [] ∈ d.ancestry ↔ d.getLast? = some '.' := by
  rw [mem_ancestry, List.getLast?_eq_some_iff]
  constructor
  · intro h
    obtain ⟨u, hu⟩ := h.2.resolve_left fun hd => h.1 hd.symm
    exact ⟨u, hu.symm⟩
  · intro h
    obtain ⟨u, rfl⟩ := h
    exact ⟨by simp, Or.inr (List.suffix_append _ _)⟩

/-! ## Strictly below -/

theorem below_irrefl (d : Domain) : below d d = false := by
  rw [← Bool.not_eq_true, below_iff]
  intro h
  exact Nat.not_succ_le_self _ h.2.length_le

theorem below_trans {a b c : Domain} (hab : below a b = true) (hbc : below b c = true) : below a c = true := by
  obtain ⟨-, hb⟩ := below_iff.mp hab
  obtain ⟨hc, hcb⟩ := below_iff.mp hbc
  exact below_iff.mpr ⟨hc, hcb.trans ((List.suffix_cons '.' b).trans hb)⟩

theorem chain_of_at_or_above {d p q : Domain} (hp : p = d ∨ below d p = true) (hq : q = d ∨ below d q = true) :
    p = q ∨ below p q = true ∨ below q p = true := by
  rcases hp with rfl | hp
  · rcases hq with rfl | hq
    · exact Or.inl rfl
    · exact Or.inr (Or.inl hq)
  · rcases hq with rfl | hq
    · exact Or.inr (Or.inr hp)
    · have hpne : p ≠ [] := (below_iff.mp hp).1
      have hqne : q ≠ [] := (below_iff.mp hq).1
      have hpd : p ∈ d.ancestry := (mem_ancestry_iff_below hpne).mpr (Or.inr hp)
      have hqd : q ∈ d.ancestry := (mem_ancestry_iff_below hqne).mpr (Or.inr hq)
      rcases ancestry_total hpd hqd hqne with hpq | hqp
      · exact ((mem_ancestry_iff_below hpne).mp hpq).imp_right Or.inr
      · exact ((mem_ancestry_iff_below hqne).mp hqp).imp Eq.symm Or.inl

/-- The names that a walk from dot to dot comes to are the name itself and what it is below, as its last bytes tell,
    and behind a dot at the end the empty name. There is one for each label, each ends in all that come after it behind a
    dot, and so each is shorter. Strictly below is an order, in which what is at or above a name is a chain. -/
theorem ancestry_agrees (d : Domain) :
    (∀ ds, Walks (if d = [] then none else some d) ds ↔ ds = d.ancestry) ∧
    (∀ p, below d p = true ↔ p ≠ [] ∧ EndsBehindDot (Text.utf8 d) (Text.utf8 p)) ∧
    (∀ p, p ≠ [] → (p ∈ d.ancestry ↔ p = d ∨ below d p = true)) ∧
    ([] ∈ d.ancestry ↔ d.getLast? = some '.') ∧
    d.ancestry.Pairwise (fun p q => '.' :: q <:+ p ∧ q.length < p.length ∧ (Text.utf8 q).length < (Text.utf8 p).length) ∧
    d.ancestry.Nodup ∧ d.ancestry.length = labelCount d ∧
    below d d = false ∧ (∀ p q, below d p = true → below p q = true → below d q = true) ∧
    ∀ p q, (p = d ∨ below d p = true) → (q = d ∨ below d q = true) → p = q ∨ below p q = true ∨ below q p = true := by
  have hchain := d.pairwise_ancestry
  refine ⟨fun _ => walks_ancestry_iff, fun _ => below_iff_bytes, fun p hp => mem_ancestry_iff_below hp, nil_mem_ancestry_iff,
    ?_, ?_, length_ancestry d, below_irrefl d, fun _ _ => below_trans, fun _ _ => chain_of_at_or_above⟩
  · refine hchain.imp fun {p q} hq => ⟨mem_parents.mp hq, length_lt_of_mem_parents hq, ?_⟩
    exact (dotted_iff_bytes.mp (mem_parents.mp hq)).1
  · exact hchain.imp fun {p q} hq => Ne.symm (mem_parents_iff.mp hq).2

/-- A name with a dot at each end, an empty label and a character of two bytes. -/
theorem dotted_ancestry_agrees :
    let d : Domain := ".x..ü.".toList
    let p : Domain := "x..ü.".toList
    let q : Domain := "ü.".toList
    Walks (some d) [d, p, ".ü.".toList, q, []] ∧ (q ≠ [] ∧ q ∈ d.ancestry) ∧ [] ∈ d.ancestry ∧ below d [] = false ∧
      below d "x".toList = false ∧ (below d p = true ∧ below p q = true ∧ below d q = true) ∧ labelCount d = 5 ∧
      below d d = false := by
  intro d p q
  obtain ⟨walk, bytes, agree, nil_iff, -, -, -, irrefl, trans, chain⟩ := ancestry_agrees d
  have hp : below d p = true := ((agree p (by decide)).mp (by decide)).resolve_left (by decide)
  have hq : below d q = true := ((agree q (by decide)).mp (by decide)).resolve_left (by decide)
  have hpq : below p q = true := by
    rcases chain p q (Or.inr hp) (Or.inr hq) with heq | hlt | hgt
    · exact absurd heq (by decide)
    · exact hlt
    · exact absurd hgt (by decide)
  refine ⟨(walk _).mpr (by decide), ⟨by decide, (agree q (by decide)).mpr (Or.inr hq)⟩, nil_iff.mpr rfl, ?_, ?_,
    ⟨hp, hpq, trans p q hp hpq⟩, by decide, irrefl⟩
  · rw [← Bool.not_eq_true, bytes, Text.utf8_eq, Text.utf8_eq]
    decide
  · rw [← Bool.not_eq_true, bytes, Text.utf8_eq, Text.utf8_eq]
    decide

end Domain

end HostPatterns
