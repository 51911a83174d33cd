/-
  HostPatterns.Proofs.Ancestry — the order that ancestry makes of names, and where a
  shared suffix stands in it.

  `p ∈ d.ancestry` reads "`p` is `d` or stands above it". It is transitive
  (`ancestry_trans`), every nonempty name stands in its own ancestry, and on nonempty
  names it is the same order as `below` (`mem_ancestry_iff_below`). What stands above one
  name is a chain (`ancestry_total`), the longer below the shorter.

  A shared suffix of `a` and `b` stands in the ancestry of `a` whatever the comparison
  (`mem_ancestry_of_shared?`), and on label boundaries in that of `b` too
  (`mem_ancestry_of_shared?_labelBoundary`). There it is the lowest of what has labels
  enough and stands above both (`exists_shared?`), and nothing that stands above both is
  lower (`mem_ancestry_of_mem_both`).
-/

import HostPatterns.Domain.Shared

namespace HostPatterns.Domain

/-! ## Ancestry -/

theorem mem_ancestry {d p : Domain} : p ∈ d.ancestry ↔ d ≠ [] ∧ (p = d ∨ '.' :: p <:+ d) := by
  unfold ancestry
  by_cases h : d = []
  · simp [h]
  · rw [if_neg h, List.mem_cons, mem_parents]
    exact ⟨fun hp => ⟨h, hp⟩, And.right⟩

theorem ancestry_tail (d : Domain) : d.ancestry.tail = d.parents := by
  unfold ancestry
  split
  · rename_i h; rw [h]; rfl
  · rfl

theorem self_mem_ancestry {d : Domain} (h : d ≠ []) : d ∈ d.ancestry :=
  mem_ancestry.mpr ⟨h, Or.inl rfl⟩

theorem mem_ancestry_of_parents {d p : Domain} (h : p ∈ d.parents) : p ∈ d.ancestry := by
  have dotted := mem_parents.mp h
  refine mem_ancestry.mpr ⟨?_, Or.inr dotted⟩
  intro hnil
  subst hnil
  simp at dotted

theorem suffix_of_mem_ancestry {d p : Domain} (h : p ∈ d.ancestry) : p <:+ d := by
  rcases (mem_ancestry.mp h).2 with rfl | dotted
  · exact List.suffix_rfl
  · exact (List.suffix_cons '.' p).trans dotted

theorem ancestry_trans {p q d : Domain} (hp : p ∈ q.ancestry) (hq : q ∈ d.ancestry) : p ∈ d.ancestry := by
  obtain ⟨hd, hqd⟩ := mem_ancestry.mp hq
  refine mem_ancestry.mpr ⟨hd, ?_⟩
  rcases (mem_ancestry.mp hp).2 with rfl | hpq
  · exact hqd
  · exact Or.inr (hpq.trans (suffix_of_mem_ancestry hq))

theorem mem_ancestry_iff_below {d p : Domain} (hp : p ≠ []) : p ∈ d.ancestry ↔ p = d ∨ below d p = true := by
  rw [mem_ancestry, below_iff]
  constructor
  · intro hp
    rcases hp with ⟨_, h | h⟩
    · exact Or.inl h
    · exact Or.inr ⟨hp, h⟩
  · intro hp
    rcases hp with rfl | ⟨_, h⟩
    · exact ⟨hp, Or.inl rfl⟩
    · refine ⟨?_, Or.inr h⟩
      intro hnil
      subst hnil
      simp at h

theorem mem_ancestry_of_length_le {d p q : Domain} (hp : p ∈ d.ancestry) (hq : q ∈ d.ancestry) (hne : q ≠ [])
    (hle : p.length ≤ q.length) : p ∈ q.ancestry := by
  have hsuffix : p <:+ q := List.suffix_of_suffix_length_le (suffix_of_mem_ancestry hp) (suffix_of_mem_ancestry hq) hle
  refine mem_ancestry.mpr ⟨hne, ?_⟩
  by_cases heq : p = q
  · exact Or.inl heq
  · right
    have hlt : p.length < q.length := Nat.lt_of_le_of_ne hle fun h => heq (hsuffix.eq_of_length h)
    rcases (mem_ancestry.mp hp).2 with rfl | dotted
    · have := (suffix_of_mem_ancestry hq).length_le
      omega
    · exact List.suffix_of_suffix_length_le dotted (suffix_of_mem_ancestry hq) hlt

/-- Of two names above one name, one stands above the other. -/
theorem ancestry_total {d p q : Domain} (hp : p ∈ d.ancestry) (hq : q ∈ d.ancestry) (hne : q ≠ []) :
    p ∈ q.ancestry ∨ q ∈ p.ancestry := by
  by_cases hle : p.length ≤ q.length
  · exact Or.inl (mem_ancestry_of_length_le hp hq hne hle)
  · exact Or.inr (mem_ancestry_of_length_le hq hp (List.ne_nil_of_length_pos (by omega)) (by omega))

theorem ancestry_antisymm {p q : Domain} (hp : p ∈ q.ancestry) (hq : q ∈ p.ancestry) : p = q :=
  (suffix_of_mem_ancestry hp).eq_of_length_le (suffix_of_mem_ancestry hq).length_le

theorem parents_of_mem_ancestry {d p : Domain} (h : p ∈ d.ancestry) (hne : p ≠ d) : p ∈ d.parents :=
  mem_parents.mpr ((mem_ancestry.mp h).2.resolve_left hne)

theorem length_lt_of_mem_parents {d p : Domain} (h : p ∈ d.parents) : p.length < d.length :=
  (mem_parents.mp h).length_le

theorem mem_parents_iff {d p : Domain} : p ∈ d.parents ↔ p ∈ d.ancestry ∧ p ≠ d := by
  refine ⟨fun h => ⟨mem_ancestry_of_parents h, fun heq => ?_⟩, fun h => parents_of_mem_ancestry h.1 h.2⟩
  have hlt := length_lt_of_mem_parents h
  rw [heq] at hlt
  omega

theorem parents_append_dot {u : Text} (h : '.' ∉ u) (n : Domain) : parents (u ++ '.' :: n) = n :: parents n := by
  induction u with
  | nil => simp [parents]
  | cons c u ih =>
    simp only [List.mem_cons, not_or] at h
    rw [List.cons_append, parents, if_neg (Ne.symm h.1), ih h.2]

/-- Each parent stands above those before it. -/
theorem pairwise_parents (d : Domain) : d.parents.Pairwise fun p q => q ∈ p.parents := by
  induction d with
  | nil => exact List.Pairwise.nil
  | cons c d ih =>
    by_cases hc : c = '.'
    · rw [parents, if_pos hc]
      exact List.pairwise_cons.mpr ⟨fun _ hq => hq, ih⟩
    · rw [parents, if_neg hc]
      exact ih

theorem pairwise_ancestry (d : Domain) : d.ancestry.Pairwise fun p q => q ∈ p.parents := by
  unfold ancestry
  split
  · exact List.Pairwise.nil
  · exact List.pairwise_cons.mpr ⟨fun _ hq => hq, pairwise_parents d⟩

/-- The end of a nonempty suffix is the end of the whole. -/
theorem getLast?_of_mem_ancestry {d p : Domain} (h : p ∈ d.ancestry) (hp : p ≠ []) : p.getLast? = d.getLast? := by
  obtain ⟨u, rfl⟩ := suffix_of_mem_ancestry h
  rw [List.getLast?_append, List.getLast?_eq_some_getLast hp]
  rfl

/-! ## Labels -/

theorem labelCount_le_of_mem_ancestry {d p : Domain} (h : p ∈ d.ancestry) : labelCount p ≤ labelCount d := by
  unfold labelCount
  rw [if_neg (mem_ancestry.mp h).1]
  split
  · exact Nat.zero_le _
  · exact Nat.succ_le_succ ((suffix_of_mem_ancestry h).sublist.count_le '.')

theorem ne_nil_of_minSharedLabels_le {s : Domain} (h : minSharedLabels ≤ labelCount s) : s ≠ [] := by
  rintro rfl
  simp [minSharedLabels, labelCount] at h

/-- The candidates are the parents with labels enough, as no parent has fewer than those after it. -/
theorem mem_candidates {a s : Domain} : s ∈ candidates a ↔ s ∈ a.parents ∧ minSharedLabels ≤ labelCount s := by
  unfold candidates
  induction a with
  | nil => simp [parents]
  | cons c d ih =>
    by_cases hc : c = '.'
    · rw [parents, if_pos hc]
      by_cases hd : minSharedLabels ≤ labelCount d
      · rw [List.takeWhile_cons_of_pos (by simpa using hd)]
        simp only [List.mem_cons, ih]
        constructor
        · intro hin
          rcases hin with rfl | ⟨hs, hl⟩
          · exact ⟨Or.inl rfl, hd⟩
          · exact ⟨Or.inr hs, hl⟩
        · intro hin
          obtain ⟨rfl | hs, hl⟩ := hin
          · exact Or.inl rfl
          · exact Or.inr ⟨hs, hl⟩
      · rw [List.takeWhile_cons_of_neg (by simpa using hd)]
        have few : ∀ s ∈ d :: parents d, ¬ minSharedLabels ≤ labelCount s := by
          intro s hs hl
          rcases List.mem_cons.mp hs with rfl | hs
          · exact hd hl
          · exact hd (Nat.le_trans hl (labelCount_le_of_mem_ancestry (mem_ancestry_of_parents hs)))
        exact iff_of_false List.not_mem_nil fun hin => few s hin.1 hin.2
    · rw [parents, if_neg hc]
      exact ih

/-! ## Shared suffixes -/

/-- What a shared suffix can be: the whole of `a`, or one of its candidates that takes in `b`. -/
theorem shared?_cases {m : Comparison} {a b s : Domain} (h : shared? m a b = some s) :
    a ≠ [] ∧ b ≠ [] ∧ (s = a ∧ (a = b ∨ encloses m a b = true) ∨ s ∈ candidates a ∧ takesIn m s b = true) := by
  rw [shared?_eq] at h
  split at h
  · cases h
  rename_i hne
  obtain ⟨ha, hb⟩ := not_or.mp hne
  refine ⟨ha, hb, ?_⟩
  split at h
  · rename_i hw
    cases h
    exact Or.inl ⟨rfl, hw⟩
  · have taken := List.find?_some h
    exact Or.inr ⟨List.mem_of_find?_eq_some h, taken⟩

theorem mem_ancestry_of_shared? {m : Comparison} {a b s : Domain} (h : shared? m a b = some s) : s ∈ a.ancestry := by
  obtain ⟨ha, -, ⟨rfl, -⟩ | ⟨hc, -⟩⟩ := shared?_cases h
  · exact self_mem_ancestry ha
  · exact mem_ancestry_of_parents (List.takeWhile_subset _ hc)

theorem ne_nil_of_shared? {m : Comparison} {a b s : Domain} (h : shared? m a b = some s) : s ≠ [] := by
  obtain ⟨ha, -, ⟨rfl, -⟩ | ⟨hc, -⟩⟩ := shared?_cases h
  · exact ha
  · exact ne_nil_of_mem_candidates hc

theorem mem_ancestry_of_shared?_labelBoundary {a b s : Domain} (h : shared? .labelBoundary a b = some s) :
    s ∈ b.ancestry := by
  have hs := ne_nil_of_shared? h
  obtain ⟨-, -, ⟨rfl, rfl | he⟩ | ⟨-, ht⟩⟩ := shared?_cases h
  · exact self_mem_ancestry hs
  · simp only [encloses, Bool.and_eq_true] at he
    exact (mem_ancestry_iff_below hs).mpr (Or.inr he.2)
  · simp only [takesIn, Bool.or_eq_true, beq_iff_eq] at ht
    exact (mem_ancestry_iff_below hs).mpr (ht.imp_left Eq.symm)

/-- On label boundaries a shared suffix has labels enough, unless it is both names. -/
theorem labels_of_shared? {a b s : Domain} (h : shared? .labelBoundary a b = some s) :
    (s = a ∧ s = b) ∨ minSharedLabels ≤ labelCount s := by
  obtain ⟨-, -, ⟨rfl, heq | he⟩ | ⟨hc, -⟩⟩ := shared?_cases h
  · exact Or.inl ⟨rfl, heq⟩
  · simp only [encloses, Bool.and_eq_true, decide_eq_true_eq] at he
    exact Or.inr he.1
  · exact Or.inr (mem_candidates.mp hc).2

theorem shared?_whole {m : Comparison} {a b : Domain} (ha : a ≠ []) (hb : b ≠ []) (h : a = b ∨ encloses m a b = true) :
    shared? m a b = some a := by
  rw [shared?_eq, if_neg (not_or.mpr ⟨ha, hb⟩), if_pos h]

/-- Of the candidates that take in `b`, what is found is the lowest. -/
theorem exists_shared?_of_candidate {m : Comparison} {a b s : Domain} (hb : b ≠ []) (hs : s ∈ candidates a)
    (ht : takesIn m s b = true) : ∃ t, shared? m a b = some t ∧ s ∈ t.ancestry := by
  have hsa : s ∈ a.ancestry := mem_ancestry_of_parents (mem_candidates.mp hs).1
  have ha : a ≠ [] := (mem_ancestry.mp hsa).1
  by_cases hw : a = b ∨ encloses m a b = true
  · exact ⟨a, shared?_whole ha hb hw, hsa⟩
  · rw [shared?_eq, if_neg (not_or.mpr ⟨ha, hb⟩), if_neg hw]
    have hfound : ((candidates a).find? (takesIn m · b)).isSome = true := List.find?_isSome.mpr ⟨s, hs, ht⟩
    obtain ⟨t, hf⟩ := Option.isSome_iff_exists.mp hfound
    refine ⟨t, hf, ?_⟩
    obtain ⟨-, front, back, hsplit, hfront⟩ := List.find?_eq_some_iff_append.mp hf
    have hchain : (candidates a).Pairwise fun p q => q ∈ p.parents :=
      (pairwise_parents a).sublist (List.takeWhile_sublist _)
    rw [hsplit] at hs hchain
    rcases List.mem_append.mp hs with hm | hm
    · have := hfront s hm
      rw [ht] at this
      cases this
    · have htne : t ≠ [] := ne_nil_of_mem_candidates (List.mem_of_find?_eq_some hf)
      rcases List.mem_cons.mp hm with rfl | hm
      · exact self_mem_ancestry htne
      · exact mem_ancestry_of_parents ((List.pairwise_cons.mp (List.pairwise_append.mp hchain).2.1).1 s hm)

/-- What stands above two names and has labels enough stands above what they share. -/
theorem exists_shared? {a b s : Domain} (ha : s ∈ a.ancestry) (hb : s ∈ b.ancestry)
    (hs : minSharedLabels ≤ labelCount s) : ∃ t, shared? .labelBoundary a b = some t ∧ s ∈ t.ancestry := by
  have hane : a ≠ [] := (mem_ancestry.mp ha).1
  have hbne : b ≠ [] := (mem_ancestry.mp hb).1
  have habove : s = b ∨ below b s = true := (mem_ancestry_iff_below (ne_nil_of_minSharedLabels_le hs)).mp hb
  by_cases hsa : s = a
  · subst hsa
    have hw : s = b ∨ encloses .labelBoundary s b = true := by
      refine habove.imp_right fun hlt => ?_
      simp [encloses, hs, hlt]
    exact ⟨s, shared?_whole hane hbne hw, ha⟩
  · have htakes : takesIn .labelBoundary s b = true := by
      simp only [takesIn, Bool.or_eq_true, beq_iff_eq]
      exact habove.imp_left Eq.symm
    exact exists_shared?_of_candidate hbne (mem_candidates.mpr ⟨parents_of_mem_ancestry ha hsa, hs⟩) htakes

/-- What stands above two names that share a suffix stands above that suffix, however few its labels. -/
theorem mem_ancestry_of_mem_both {a b s t : Domain} (h : shared? .labelBoundary a b = some t) (ha : s ∈ a.ancestry)
    (hb : s ∈ b.ancestry) : s ∈ t.ancestry := by
  rcases labels_of_shared? h with ⟨rfl, -⟩ | hl
  · exact ha
  · have hta : t ∈ a.ancestry := mem_ancestry_of_shared? h
    rcases ancestry_total ha hta (ne_nil_of_shared? h) with hst | hts
    · exact hst
    · -- a name below `t` has labels enough itself
      obtain ⟨u, hu, hsu⟩ := exists_shared? ha hb (Nat.le_trans hl (labelCount_le_of_mem_ancestry hts))
      rw [h] at hu
      cases hu
      exact hsu

/-- A name with labels enough is what it shares with those below it, on either side. -/
theorem shared?_of_mem_ancestry {a b : Domain} (h : a ∈ b.ancestry) (hl : minSharedLabels ≤ labelCount a) :
    shared? .labelBoundary a b = some a ∧ shared? .labelBoundary b a = some a := by
  have hself : a ∈ a.ancestry := self_mem_ancestry (ne_nil_of_minSharedLabels_le hl)
  obtain ⟨t, ht, hat⟩ := exists_shared? hself h hl
  obtain ⟨u, hu, hau⟩ := exists_shared? h hself hl
  have hta : a = t := ancestry_antisymm hat (mem_ancestry_of_shared? ht)
  have hua : a = u := ancestry_antisymm hau (mem_ancestry_of_shared?_labelBoundary hu)
  exact ⟨hta ▸ ht, hua ▸ hu⟩

/-- A name shares with another what the one above it does, unless that is the whole of the one above. -/
theorem shared?_of_shared?_above {a b e s : Domain} (h : a ∈ b.ancestry) (hs : shared? .labelBoundary a e = some s)
    (hne : s ≠ a) : shared? .labelBoundary b e = some s ∧ b ≠ e := by
  have hl : minSharedLabels ≤ labelCount s := (labels_of_shared? hs).resolve_left fun heq => hne heq.1
  have hsa : s ∈ a.ancestry := mem_ancestry_of_shared? hs
  have hse : s ∈ e.ancestry := mem_ancestry_of_shared?_labelBoundary hs
  have hla : minSharedLabels ≤ labelCount a := Nat.le_trans hl (labelCount_le_of_mem_ancestry hsa)
  have haside : a ∉ e.ancestry := by
    intro hae
    rw [(shared?_of_mem_ancestry hae hla).1] at hs
    cases hs
    exact hne rfl
  obtain ⟨t, ht, hst⟩ := exists_shared? (ancestry_trans hsa h) hse hl
  have htb : t ∈ b.ancestry := mem_ancestry_of_shared? ht
  have hte : t ∈ e.ancestry := mem_ancestry_of_shared?_labelBoundary ht
  have hta : t ∈ a.ancestry :=
    (ancestry_total htb h (ne_nil_of_minSharedLabels_le hla)).resolve_right fun hat => haside (ancestry_trans hat hte)
  obtain ⟨u, hu, htu⟩ := exists_shared? hta hte (Nat.le_trans hl (labelCount_le_of_mem_ancestry hst))
  rw [hs] at hu
  cases hu
  refine ⟨ancestry_antisymm htu hst ▸ ht, ?_⟩
  rintro rfl
  exact haside h

end HostPatterns.Domain
