/-
  HostPatterns.Proofs.ShortWildcards — wildcards of fewer labels than a shared suffix
  must have, which claim a whole top-level domain.

  Such a `Short` name has no dot, so nothing stands above it. It is no candidate of
  another name, and a run that ends with it as its name started there
  (`Run.Through.name_eq_or_labels`). On label boundaries a whole name needs two labels to
  be shared. As plain text it does not: a member that has the name behind a dot, anywhere,
  is taken in (`Domain.shared?_of_short`).
  - `Run.Through.of_short_wildcard`, `Run.exists_short_run`: in a row of members a run ends
    as a short wildcard exactly as plain text, at an unblocked short member that the next
    member has behind a dot.
  - `short_wildcard_iff`: a compaction has such a wildcard exactly at an `Overclaimed`
    domain, which the kept records tell.
  - `localhost_is_claimed`: `x.localhost` makes a wildcard of `localhost`.
-/

import HostPatterns.Proofs.Mergeable

namespace HostPatterns

namespace Domain

/-- Of fewer labels than a shared suffix must have. -/
def Short (d : Domain) : Prop := labelCount d < minSharedLabels

instance (d : Domain) : Decidable d.Short := inferInstanceAs (Decidable (_ < _))

instance (d e : Domain) : Decidable (d.Before e) := inferInstanceAs (Decidable (_ = false))

theorem dot_mem_iff {d : Domain} : '.' ∈ d ↔ minSharedLabels ≤ labelCount d := by
  unfold minSharedLabels labelCount
  rw [← List.count_pos_iff]
  by_cases h : d = []
  · simp [h]
  · rw [if_neg h]
    omega

theorem Short.dot_not_mem {d : Domain} (h : d.Short) : '.' ∉ d := fun hd => Nat.not_le.mpr h (dot_mem_iff.mp hd)

/-- Nothing stands above a short name. -/
theorem Short.eq_of_mem_ancestry {d p : Domain} (h : d.Short) (hp : p ∈ d.ancestry) : p = d := by
  rcases (mem_ancestry.mp hp).2 with heq | hdot
  · exact heq
  · exact absurd (hdot.subset List.mem_cons_self) h.dot_not_mem

/-- A name that shares a suffix with another one has a dot, unless it is that one. -/
theorem dot_mem_of_shared? {m : Comparison} {a b s : Domain} (h : shared? m a b = some s) : a = b ∨ '.' ∈ b := by
  obtain ⟨-, -, ⟨-, heq | he⟩ | ⟨hc, ht⟩⟩ := shared?_cases h
  · exact Or.inl heq
  · right
    cases m with
    | labelBoundary =>
      simp only [encloses, Bool.and_eq_true] at he
      exact (below_iff.mp he.2).2.subset List.mem_cons_self
    | substring => exact (Text.occursIn_iff.mp he).subset List.mem_cons_self
  · right
    have hdot : '.' ∈ s := dot_mem_iff.mpr (mem_candidates.mp hc).2
    cases m with
    | labelBoundary =>
      simp only [takesIn, Bool.or_eq_true, beq_iff_eq] at ht
      rcases ht with rfl | hbelow
      · exact hdot
      · exact (below_iff.mp hbelow).2.subset List.mem_cons_self
    | substring => exact (Text.occursIn_iff.mp ht).subset hdot

/-- A short name is shared with another one as plain text only, as a whole, where it stands behind a dot. -/
theorem shared?_of_short {m : Comparison} {a b s : Domain} (ha : a ≠ []) (hshort : a.Short) (hne : a ≠ b) :
    shared? m a b = some s ↔ s = a ∧ m = .substring ∧ '.' :: a <:+: b := by
  constructor
  · intro h
    obtain ⟨-, -, ⟨rfl, heq | he⟩ | ⟨hc, -⟩⟩ := shared?_cases h
    · exact absurd heq hne
    · cases m with
      | labelBoundary =>
        simp only [encloses, Bool.and_eq_true, decide_eq_true_eq] at he
        exact absurd he.1 (Nat.not_le.mpr hshort)
      | substring => exact ⟨rfl, rfl, Text.occursIn_iff.mp he⟩
    · have hup : s ∈ a.parents := (mem_candidates.mp hc).1
      exact absurd ((mem_parents.mp hup).subset List.mem_cons_self) hshort.dot_not_mem
  · intro h
    obtain ⟨rfl, rfl, hin⟩ := h
    have hb : b ≠ [] := by
      rintro rfl
      cases List.infix_nil.mp hin
    have henc : encloses .substring s b = true := Text.occursIn_iff.mpr hin
    exact shared?_whole ha hb (Or.inr henc)

end Domain

/-! ## Runs at a short name -/

/-- Two members stand next to each other when the one precedes the other and nothing stands between. -/
theorem HostRow.pair_infix_iff {ps : List Pattern} (h : HostRow ps) {p q : Pattern} :
    [p, q] <:+: ps ↔ p ∈ ps ∧ q ∈ ps ∧ p.Precedes q ∧ ∀ x ∈ ps, p.Precedes x → q.Before x := by
  constructor
  · intro hpair
    obtain ⟨front, back, rfl⟩ := hpair
    obtain ⟨hfront, -, hback⟩ := List.pairwise_append.mp h.precede
    obtain ⟨-, hpq, hfront⟩ := List.pairwise_append.mp hfront
    have hlt : p.Precedes q := (List.pairwise_cons.mp hpq).1 q (List.mem_singleton_self q)
    refine ⟨by simp, by simp, hlt, ?_⟩
    intro x hx hpx
    rcases List.mem_append.mp hx with hx | hx
    · rcases List.mem_append.mp hx with hx | hx
      · exact absurd (hfront x hx p List.mem_cons_self).1 hpx.asymm
      · rcases List.mem_cons.mp hx with rfl | hx
        · exact absurd rfl hpx.2
        · rw [List.mem_singleton.mp hx]
          exact Domain.Before.refl _
    · exact (hback q (by simp) x hx).1
  · intro hnext
    obtain ⟨hp, hq, hlt, hnone⟩ := hnext
    obtain ⟨front, rest, rfl⟩ := List.append_of_mem hp
    obtain ⟨-, hrest, hfront⟩ := List.pairwise_append.mp h.precede
    have hqrest : q ∈ rest := by
      rcases List.mem_append.mp hq with hq | hq
      · exact absurd (hfront q hq p List.mem_cons_self).1 hlt.asymm
      · exact (List.mem_cons.mp hq).resolve_left fun heq => hlt.2 (congrArg Pattern.domain heq.symm)
    cases rest with
    | nil => cases hqrest
    | cons x back =>
      have hpx : p.Precedes x := (List.pairwise_cons.mp hrest).1 x List.mem_cons_self
      have hqx : q.Before x := hnone x (by simp) hpx
      rcases List.mem_cons.mp hqrest with rfl | hqback
      · exact ⟨front, back, by simp⟩
      · have hxq : x.Precedes q := (List.pairwise_cons.mp (List.pairwise_cons.mp hrest).2).1 q hqback
        exact absurd hqx hxq.asymm

theorem HostRow.head?_of_pair_infix {ps front back : List Pattern} (h : HostRow ps) {p q : Pattern}
    (hsplit : ps = front ++ p :: back) (hpair : [p, q] <:+: ps) : back.head? = some q := by
  obtain ⟨front', back', hpair⟩ := hpair
  have hnodup : (front' ++ p :: q :: back').Nodup := by
    rw [show front' ++ p :: q :: back' = ps by simpa using hpair]
    exact h.precede.imp fun hlt heq => hlt.2 (congrArg Pattern.domain heq)
  obtain ⟨-, hrest, hfront⟩ := List.nodup_append.mp hnodup
  have hnot : p ∉ front' := fun hin => hfront p hin p List.mem_cons_self rfl
  have hnot' : p ∉ q :: back' := (List.nodup_cons.mp hrest).1
  have heq : front' ++ p :: q :: back' = front ++ p :: back := by
    rw [← hsplit, ← hpair]
    simp
  obtain ⟨-, -, rfl⟩ := (List.append_cons_inj_of_notMem hnot hnot').mp heq
  rfl

namespace Run

variable {m : Comparison} {blocked : Domain → Bool}

/-- A name that is not the first member's was a candidate once, so it has labels enough. -/
theorem Through.name_eq_or_labels {p : Pattern} {qs : List Pattern} {r : Run} (h : Through m blocked p qs r) :
    r.name = p.domain ∨ Domain.minSharedLabels ≤ Domain.labelCount r.name := by
  induction h with
  | start => exact Or.inl rfl
  | extend _ he ih =>
    obtain ⟨d, hd, -, rfl⟩ := extend?_eq_some_iff.mp he
    obtain ⟨-, -, ⟨rfl, -⟩ | ⟨hc, -⟩⟩ := Domain.shared?_cases hd
    · exact ih
    · exact Or.inr (Domain.mem_candidates.mp hc).2

/-- A run goes on to members with labels enough only. -/
theorem Through.labels_of_mem_tail {p : Pattern} {qs : List Pattern} {r : Run} (h : Through m blocked p qs r)
    (hrow : HostRow (p :: qs)) : ∀ q ∈ qs, ¬ q.domain.Short := by
  induction h with
  | start => intro q hq; cases hq
  | @extend qs x r r' h he ih =>
    obtain ⟨d, hd, -, rfl⟩ := extend?_eq_some_iff.mp he
    rw [← List.cons_append] at hrow
    intro q hq
    rcases List.mem_append.mp hq with hq | hq
    · exact ih (hrow.part (List.prefix_append _ _).isInfix) q hq
    · rw [List.mem_singleton.mp hq]
      have hpx : p.Precedes x := (List.pairwise_cons.mp hrow.precede).1 x (by simp)
      rcases Domain.dot_mem_of_shared? hd with heq | hdot
      · -- the name stands above the first member, which `x` comes after
        have habove : r.name ∈ p.domain.ancestry := h.name_mem_ancestry_head (hrow.named p (by simp))
        have hxp : x.Before p := by
          unfold Pattern.Before
          rw [← heq]
          exact Domain.before_of_mem_ancestry habove
        exact absurd hxp hpx.asymm
      · exact Nat.not_lt.mpr (Domain.dot_mem_iff.mp hdot)

/-- What a run shares first, with its second member, stands at or below its name. -/
theorem Through.start_or_extended {p : Pattern} {qs : List Pattern} {r : Run} (h : Through m blocked p qs r) :
    (qs = [] ∧ r = Run.start p) ∨ ∃ q rest d, qs = q :: rest ∧ Domain.shared? m p.domain q.domain = some d ∧
      blocked d = false ∧ r.name ∈ d.ancestry := by
  induction h with
  | start => exact Or.inl ⟨rfl, rfl⟩
  | @extend qs x r r' h he ih =>
    obtain ⟨d, hd, hfree, rfl⟩ := extend?_eq_some_iff.mp he
    right
    rcases ih with ⟨rfl, rfl⟩ | ⟨q, rest, d', rfl, hd', hfree', habove⟩
    · exact ⟨x, [], d, rfl, hd, hfree, Domain.self_mem_ancestry (Domain.ne_nil_of_shared? hd)⟩
    · exact ⟨q, rest ++ [x], d', rfl, hd', hfree', Domain.ancestry_trans (Domain.mem_ancestry_of_shared? hd) habove⟩

/-- A run with a short member starts there. -/
theorem Through.head_of_short_mem {p : Pattern} {qs : List Pattern} {r : Run} (h : Through m blocked p qs r)
    (hrow : HostRow (p :: qs)) {w : Domain} (hw : w.Short) (hin : .exact w ∈ p :: qs) : p = .exact w := by
  rcases List.mem_cons.mp hin with heq | hin
  · exact heq.symm
  · exact absurd hw (h.labels_of_mem_tail hrow _ hin)

/-- A run that ends where it starts has no other member. -/
theorem Through.alone_of_last {p : Pattern} {qs : List Pattern} {r : Run} (h : Through m blocked p qs r)
    (hrow : HostRow (p :: qs)) (hlast : r.last = p) : qs = [] := by
  cases qs with
  | nil => rfl
  | cons x rest =>
    have hend := h.getLast?
    rw [hlast, List.getLast?_cons_cons] at hend
    exact absurd rfl ((List.pairwise_cons.mp hrow.precede).1 p (List.mem_of_getLast? hend)).2

section

variable {ps : List Pattern} (hps : HostRow ps) {w : Domain} (hw : w.Short)

include hps hw

/-- A run that ends as a short wildcard started there, and went on to the next member. -/
theorem Through.of_short_wildcard {p : Pattern} {qs : List Pattern} {r : Run} (h : Through m blocked p qs r)
    (hpart : p :: qs <:+: ps) (hpat : r.pattern = .wildcard w) :
    m = .substring ∧ blocked w = false ∧ ∃ e, [.exact w, .exact e] <:+: ps ∧ '.' :: w <:+: e := by
  have hrow := hps.part hpart
  have hp : p = .exact p.domain := hrow.exact p List.mem_cons_self
  obtain ⟨hname, hkind⟩ := pattern_eq_wildcard_iff.mp hpat
  have hpw : p.domain = w := by
    rcases h.name_eq_or_labels with heq | hlabels
    · rw [← heq, hname]
    · rw [hname] at hlabels
      exact absurd hlabels (Nat.not_le.mpr hw)
  rcases h.start_or_extended with ⟨-, rfl⟩ | ⟨q, rest, d, rfl, hd, hfree, habove⟩
  · exact absurd hp hkind
  · have hpq : p.Precedes q := (List.pairwise_cons.mp hrow.precede).1 q List.mem_cons_self
    have hpne : p.domain ≠ [] := hrow.named p List.mem_cons_self
    have hq : q = .exact q.domain := hrow.exact q (by simp)
    have hpair : [p, q] <:+: ps := (List.prefix_append [p, q] rest).isInfix.trans hpart
    rw [hpw] at hd hpne
    obtain ⟨rfl, hm, hin⟩ := (Domain.shared?_of_short hpne hw (hpw ▸ hpq.2)).mp hd
    refine ⟨hm, hfree, q.domain, ?_, hin⟩
    rw [← hq, ← hpw, ← hp]
    exact hpair

/-- A short member that its neighbour has behind a dot becomes a wildcard, as plain text. -/
theorem exists_short_run {e : Domain} (hfree : blocked w = false) (hpair : [.exact w, .exact e] <:+: ps)
    (hin : '.' :: w <:+: e) : ∃ r ∈ ofSeeds .substring blocked ps, r.pattern = .wildcard w := by
  obtain ⟨hmem, hemem, hwe, hnext⟩ := hps.pair_infix_iff.mp hpair
  have hcut : Cut .substring blocked ps (ofSeeds .substring blocked ps) := cut_ofSeeds ps
  obtain ⟨r, hr, p, qs, ht, hpart, hwin⟩ := hcut.exists_run_of_mem _ hmem
  cases ht.head_of_short_mem (hps.part hpart) hw hwin
  have hwne : w ≠ [] := hps.named _ hmem
  have hname : r.name = w := hw.eq_of_mem_ancestry (ht.name_mem_ancestry_head hwne)
  refine ⟨r, hr, pattern_eq_wildcard_iff.mpr ⟨hname, ?_⟩⟩
  intro hlast
  -- else it stopped there, in front of `e`
  obtain ⟨front, p, qs, back, hsplit, ht', hstop, -⟩ := hcut.exists_place r hr
  rw [hname] at hlast
  have hrow := hps.part (hsplit ▸ List.infix_append _ _ _ : p :: qs <:+: ps)
  cases ht'.head_of_short_mem hrow hw (hlast ▸ ht'.last_mem)
  cases ht'.alone_of_last hrow hlast
  have hnext : back.head? = some (.exact e) := hps.head?_of_pair_infix (by simpa using hsplit) hpair
  have hshared : Domain.shared? .substring r.name e = some w := by
    rw [hname]
    exact (Domain.shared?_of_short hwne hw hwe.2).mpr ⟨rfl, rfl, hin⟩
  have hgoes : r.extend? .substring blocked (.exact e) = some ⟨w, .exact e⟩ :=
    extend?_eq_some_iff.mpr ⟨w, hshared, hfree, rfl⟩
  rw [hstop _ hnext] at hgoes
  cases hgoes

end

end Run

/-! ## Compactions -/

namespace Grouping

/-- Of the domains kept for the address, `e` stands next behind `d` in walking order. -/
structure Next (g : Grouping) (ip : Ipv4) (d e : Domain) : Prop where
  kept : ⟨ip, e⟩ ∈ g.records
  behind : d.Before e
  other : d ≠ e
  nearest : ∀ r ∈ g.records, r.ip = ip → d.Before r.domain → d ≠ r.domain → e.Before r.domain

/-- A short domain kept for the address, free of other addresses, that the next one has behind a dot. -/
structure Overclaimed (g : Grouping) (ip : Ipv4) (w : Domain) : Prop where
  kept : ⟨ip, w⟩ ∈ g.records
  short : w.Short
  free : ¬ g.Blocked ip w
  next : ∃ e, g.Next ip w e ∧ '.' :: w <:+: e

theorem next_iff {rs : List Record} (h : ∀ r ∈ rs, r.domain.Plain) {g : Group} (hg : g ∈ (ofRecords rs).groups)
    {d e : Domain} (hd : ⟨g.ip, d⟩ ∈ (ofRecords rs).records) :
    (ofRecords rs).Next g.ip d e ↔ [.exact d, .exact e] <:+: g.seeds := by
  have hrow := hostRow_seeds h hg
  rw [hrow.pair_infix_iff, exact_mem_seeds_iff h hg, exact_mem_seeds_iff h hg]
  constructor
  · intro hn
    refine ⟨hd, hn.kept, ⟨hn.behind, hn.other⟩, ?_⟩
    intro x hx hlt
    have hx' : .exact x.domain ∈ g.seeds := hrow.exact x hx ▸ hx
    exact hn.nearest _ ((exact_mem_seeds_iff h hg).mp hx') rfl hlt.1 hlt.2
  · intro hpair
    obtain ⟨-, he, hlt, hnone⟩ := hpair
    refine ⟨he, hlt.1, hlt.2, ?_⟩
    intro r hr hip hbehind hother
    have hr' : .exact r.domain ∈ g.seeds := (exact_mem_seeds_iff h hg).mpr (hip ▸ hr)
    exact hnone _ hr' ⟨hbehind, hother⟩

end Grouping

/-- A compaction has a wildcard of too few labels exactly, as plain text, at an overclaimed domain. -/
theorem short_wildcard_iff {m : Comparison} {rs : List Record} (h : ∀ r ∈ rs, r.domain.Plain) :
    let g := Grouping.ofRecords rs
    let s := compact m g.groups
    ∀ ip w, (⟨.wildcard w, ip⟩ ∈ s.toList ∧ Domain.labelCount w < Domain.minSharedLabels) ↔
      m = .substring ∧ g.Overclaimed ip w := by
  intro g s ip w
  have hgs := hostGroups_ofRecords h
  rw [mem_compact_iff hgs]
  constructor
  · intro hb
    obtain ⟨⟨grp, hg, rfl, r, hr, hpat⟩, hw⟩ := hb
    have hrow := Grouping.hostRow_seeds h hg
    obtain ⟨p, qs, ht, hpart⟩ := (Run.cut_ofSeeds grp.seeds).exists_through r hr
    obtain ⟨hm, hfree, e, hpair, hin⟩ := ht.of_short_wildcard hrow hw hpart hpat
    have hmem : .exact w ∈ grp.seeds := (hrow.pair_infix_iff.mp hpair).1
    have hkept := (Grouping.exact_mem_seeds_iff h hg).mp hmem
    have hwne : w ≠ [] := hrow.named _ hmem
    have hopen : ¬ g.Blocked grp.ip w :=
      mt (Grouping.blocked_iff_contested h hwne).mp (Owners.contested_eq_false_iff.mp hfree)
    exact ⟨hm, hkept, hw, hopen, e, (Grouping.next_iff h hg hkept).mpr hpair, hin⟩
  · intro hm
    obtain ⟨rfl, hover⟩ := hm
    obtain ⟨e, hnext, hin⟩ := hover.next
    have hg := Grouping.exists_group_of_mem hover.kept
    have hrow := Grouping.hostRow_seeds h hg
    have hpair := (Grouping.next_iff h hg hover.kept).mp hnext
    have hwne : w ≠ [] := hrow.named _ ((Grouping.exact_mem_seeds_iff h hg).mpr hover.kept)
    have hfree := Owners.contested_eq_false_iff.mpr (mt (Grouping.blocked_iff_contested h hwne).mpr hover.free)
    obtain ⟨r, hr, hpat⟩ := Run.exists_short_run hrow hover.short hfree hpair hin
    exact ⟨⟨_, hg, rfl, r, hr, hpat⟩, hover.short⟩

/-- Of two short names the one is overclaimed. Behind the other comes a look-alike of what is below it, and nothing is
    made of them on label boundaries. -/
theorem next_look_alike_saves_lan :
    let rs : List Record := [⟨⟨1, 1, 1, 1⟩, "localhost".toList⟩, ⟨⟨1, 1, 1, 1⟩, "x.localhost".toList⟩,
      ⟨⟨2, 2, 2, 2⟩, "lan".toList⟩, ⟨⟨2, 2, 2, 2⟩, "x.lan".toList⟩, ⟨⟨2, 2, 2, 2⟩, "a-lan".toList⟩]
    let g := Grouping.ofRecords rs
    (∀ r ∈ rs, r.domain.Plain) ∧
      ⟨.wildcard "localhost".toList, ⟨1, 1, 1, 1⟩⟩ ∈ (compact .substring g.groups).toList ∧
      ⟨.wildcard "lan".toList, ⟨2, 2, 2, 2⟩⟩ ∉ (compact .substring g.groups).toList ∧
      ∀ w ip, Domain.labelCount w < Domain.minSharedLabels → ⟨.wildcard w, ip⟩ ∉ (compact .labelBoundary g.groups).toList := by
  intro rs g
  have plain : ∀ r ∈ rs, r.domain.Plain := by decide
  have kept : g.records = rs := by unfold g; cbv
  have next : g.Next ⟨1, 1, 1, 1⟩ "localhost".toList "x.localhost".toList := by
    refine ⟨?_, by decide, by decide, ?_⟩ <;> rw [kept] <;> decide
  have free : ¬ g.Blocked ⟨1, 1, 1, 1⟩ "localhost".toList := by
    unfold Grouping.Blocked
    rw [kept]
    decide
  have claimed : g.Overclaimed ⟨1, 1, 1, 1⟩ "localhost".toList :=
    ⟨by rw [kept]; decide, by decide, free, _, next, by decide⟩
  have only : ∀ r ∈ rs, '.' :: "lan".toList <:+: r.domain → r.domain = "x.lan".toList := by decide
  refine ⟨plain, ((short_wildcard_iff plain _ _).mpr ⟨rfl, claimed⟩).1, ?_, ?_⟩
  · intro hmem
    obtain ⟨e, hnext, hin⟩ := ((short_wildcard_iff plain _ _).mp ⟨hmem, by decide⟩).2.next
    obtain rfl : e = "x.lan".toList := only _ (kept ▸ hnext.kept) hin
    -- but the look-alike is nearer
    have hnear := hnext.nearest ⟨⟨2, 2, 2, 2⟩, "a-lan".toList⟩ (by rw [kept]; decide) rfl (by decide) (by decide)
    revert hnear
    decide
  · intro w ip hw hmem
    cases ((short_wildcard_iff plain _ _).mp ⟨hmem, hw⟩).1

/-- A name below `localhost` makes a wildcard of it, which has one label. -/
theorem localhost_is_claimed :
    let rs : List Record := [⟨⟨1, 1, 1, 1⟩, "localhost".toList⟩, ⟨⟨1, 1, 1, 1⟩, "x.localhost".toList⟩]
    (∀ r ∈ rs, r.domain.Plain) ∧
      ⟨.wildcard "localhost".toList, ⟨1, 1, 1, 1⟩⟩ ∈ (compact .substring (Grouping.ofRecords rs).groups).toList ∧
      Domain.labelCount "localhost".toList < Domain.minSharedLabels := by
  intro rs
  have hlist : (compact .substring (Grouping.ofRecords rs).groups).toList =
      [⟨.wildcard "localhost".toList, ⟨1, 1, 1, 1⟩⟩] := by cbv
  rw [hlist]
  decide

end HostPatterns
