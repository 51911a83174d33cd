/-
  HostPatterns.Proofs.LastWord — which runs end as wildcards, where wildcards are among
  the members.

  A pattern takes its kind from the last member of its run. Members of one name stand
  side by side in walking order, in the order in which the group has them, and a free
  name does not part them. So there are two ways to a wildcard. A run that kept the name
  of its last member took in the members of that name and no other, and its kind is that
  of the last of them, the last word on the name (`lastWord?_of_name_eq`). A run of
  another name took it from two members that `Met`: they stand side by side, and share
  it (`Through.exists_met`).
  - `lastWord?_or_met_of_wildcard`: a run ends as a wildcard for one of these reasons.
  - `exists_wildcard_of_lastWord?`, `exists_wildcard_of_met`: each is reason enough, for a
    wildcard there or above.
-/

import HostPatterns.Proofs.Neighbours

namespace HostPatterns

/-- The last of the members of a name. -/
def lastWord? (ps : List Pattern) (d : Domain) : Option Pattern := (ps.filter (·.domain = d)).getLast?

theorem mem_of_lastWord? {ps : List Pattern} {d : Domain} {p : Pattern} (h : lastWord? ps d = some p) :
    p ∈ ps ∧ p.domain = d := by
  have := List.mem_filter.mp (List.mem_of_getLast? h)
  exact ⟨this.1, of_decide_eq_true this.2⟩

/-- Two members of different names stand side by side and share the name. -/
def Met (ps : List Pattern) (d : Domain) : Prop :=
  ∃ x y, [x, y] <:+: ps ∧ x.domain ≠ y.domain ∧ Domain.shared? .labelBoundary x.domain y.domain = some d

theorem Met.mono {ps qs : List Pattern} (h : ps <:+: qs) {d : Domain} (hm : Met ps d) : Met qs d := by
  obtain ⟨x, y, hin, hrest⟩ := hm
  exact ⟨x, y, hin.trans h, hrest⟩

/-- Members in walking order, each of a name that is not blocked. -/
structure FreeRow (blocked : Domain → Bool) (ps : List Pattern) : Prop where
  sorted : ps.Pairwise Pattern.Before
  named : ∀ p ∈ ps, p.domain ≠ []
  free : ∀ p ∈ ps, blocked p.domain = false

theorem FreeRow.part {blocked : Domain → Bool} {ps row : List Pattern} (h : FreeRow blocked ps) (hrow : row <:+: ps) :
    FreeRow blocked row :=
  ⟨h.sorted.sublist hrow.sublist, fun p hp => h.named p (hrow.subset hp), fun p hp => h.free p (hrow.subset hp)⟩

namespace Run

variable {blocked : Domain → Bool} {ps : List Pattern}

/-! ## The last word -/

/-- No member behind a run that was stopped under its last member's name has this name: the first of
    them would have gone on with it. -/
theorem domain_ne_name_of_stopped {r : Run} (hname : r.name = r.last.domain) {back : List Pattern}
    (hrow : FreeRow blocked (r.last :: back)) (hstop : ∀ x ∈ back.head?, r.extend? .labelBoundary blocked x = none) :
    ∀ x ∈ back, x.domain ≠ r.name := by
  intro x hx heq
  obtain ⟨y, rest, rfl⟩ := List.exists_cons_of_ne_nil (List.ne_nil_of_mem hx)
  have hy : y.domain = r.name := by
    obtain ⟨hlast, hback⟩ := List.pairwise_cons.mp hrow.sorted
    have hly : r.last.domain.Before y.domain := hlast y List.mem_cons_self
    have hyx : y.domain.Before x.domain := by
      rcases List.mem_cons.mp hx with rfl | hx
      · exact Domain.Before.refl _
      · exact (List.pairwise_cons.mp hback).1 x hx
    rw [heq] at hyx
    rw [← hname] at hly
    exact hyx.antisymm hly
  have hmem : y ∈ r.last :: y :: rest := List.mem_cons_of_mem _ List.mem_cons_self
  have hne : r.name ≠ [] := hy ▸ hrow.named y hmem
  have hshared : Domain.shared? .labelBoundary r.name y.domain = some r.name := by
    rw [hy, Domain.shared?_eq]
    simp [hne]
  have hgo : r.extend? .labelBoundary blocked y = some ⟨r.name, y⟩ :=
    extend?_eq_some_iff.mpr ⟨_, hshared, hy ▸ hrow.free y hmem, rfl⟩
  rw [hstop y rfl] at hgo
  cases hgo

/-- A run that is stopped under the name of its last member has the last word on it. -/
theorem lastWord?_of_name_eq (hrow : FreeRow blocked ps) {r : Run} (hr : r ∈ ofSeeds .labelBoundary blocked ps)
    (hname : r.name = r.last.domain) : lastWord? ps r.name = some r.last := by
  obtain ⟨front, p, qs, back, rfl, ht, hstop, -⟩ := (cut_ofSeeds ps).exists_place r hr
  obtain ⟨init, hinit⟩ := List.getLast?_eq_some_iff.mp ht.getLast?
  rw [hinit] at hrow ⊢
  have hback : back.filter (·.domain = r.name) = [] := by
    rw [List.filter_eq_nil_iff]
    intro x hx
    have htail : r.last :: back <:+: front ++ (init ++ [r.last]) ++ back := ⟨front ++ init, [], by simp⟩
    simpa using domain_ne_name_of_stopped hname (hrow.part htail) hstop x hx
  have hlast : [r.last].filter (·.domain = r.name) = [r.last] := by simp [hname]
  unfold lastWord?
  rw [List.filter_append, hback, List.append_nil, ← List.append_assoc, List.filter_append, hlast, List.getLast?_concat]

/-! ## Members that met -/

/-- A run goes on from its last member. -/
theorem Through.beside_last {m : Comparison} {p : Pattern} {qs : List Pattern} {r : Run} (h : Through m blocked p qs r)
    (q : Pattern) : [r.last, q] <:+: p :: (qs ++ [q]) := by
  obtain ⟨init, hinit⟩ := List.getLast?_eq_some_iff.mp h.getLast?
  rw [← List.cons_append, hinit, List.append_assoc]
  exact (List.suffix_append _ _).isInfix

/-- The name of a run that is not its last member's was shared by two of its members. -/
theorem Through.exists_met {p : Pattern} {qs : List Pattern} {r : Run} (h : Through .labelBoundary blocked p qs r)
    (hp : p.domain ≠ []) (hname : r.name ≠ r.last.domain) : Met (p :: qs) r.name := by
  induction h with
  | start => exact absurd rfl hname
  | @extend qs q r r' h he ih =>
    obtain ⟨d, hd, -, rfl⟩ := extend?_eq_some_iff.mp he
    have hdq : d ≠ q.domain := hname
    have hlast : r.name ∈ r.last.domain.ancestry := h.name_mem_ancestry hp _ h.last_mem
    show Met _ d
    by_cases hkept : d = r.name
    · by_cases holder : r.name = r.last.domain
      · refine ⟨r.last, q, h.beside_last q, ?_, holder ▸ hd⟩
        rw [← holder, ← hkept]
        exact hdq
      · rw [hkept]
        exact (ih holder).mono (List.prefix_append _ _).isInfix
    · obtain ⟨hd, hne⟩ := Domain.shared?_of_shared?_above hlast hd hkept
      exact ⟨r.last, q, h.beside_last q, hne, hd⟩

/-! ## Wildcards -/

theorem lastWord?_or_met_of_wildcard (hrow : FreeRow blocked ps) {r : Run} (hr : r ∈ ofSeeds .labelBoundary blocked ps)
    {w : Domain} (hw : r.pattern = .wildcard w) :
    lastWord? ps w = some (.wildcard w) ∨ Met ps w ∧ blocked w = false := by
  obtain ⟨rfl, hkind⟩ := pattern_eq_wildcard_iff.mp hw
  by_cases hname : r.name = r.last.domain
  · left
    have hlast := lastWord?_of_name_eq hrow hr hname
    cases hl : r.last with
    | exact d =>
      rw [hl] at hname hkind
      exact absurd (congrArg Pattern.exact hname.symm) hkind
    | wildcard d =>
      rw [hl] at hname hlast
      rw [hlast, hname]
      rfl
  · right
    obtain ⟨p, qs, ht, hin⟩ := (cut_ofSeeds ps).exists_through r hr
    have hp : p.domain ≠ [] := hrow.named p (hin.subset List.mem_cons_self)
    exact ⟨(ht.exists_met hp hname).mono hin, ht.unblocked_of_name_ne hname⟩

theorem exists_wildcard_of_lastWord? (hrow : FreeRow blocked ps) {w : Domain} (h : lastWord? ps w = some (.wildcard w)) :
    ∃ r ∈ ofSeeds .labelBoundary blocked ps, ∃ v ∈ w.ancestry, r.pattern = .wildcard v := by
  have hcut : Cut .labelBoundary blocked ps _ := cut_ofSeeds ps
  obtain ⟨r, hr, p, qs, ht, hin, hmem⟩ := hcut.exists_run_of_mem _ (mem_of_lastWord? h).1
  have hp : p.domain ≠ [] := hrow.named p (hin.subset List.mem_cons_self)
  have habove : r.name ∈ w.ancestry := ht.name_mem_ancestry hp _ hmem
  refine ⟨r, hr, r.name, habove, pattern_eq_wildcard_iff.mpr ⟨rfl, ?_⟩⟩
  -- an exact pattern would be the last word on the name
  intro hexact
  have hname : r.name = r.last.domain := by rw [hexact]; rfl
  have hw : w = r.name := ht.domain_eq hp (hrow.sorted.sublist hin.sublist) hname _ hmem
  have hlast := lastWord?_of_name_eq hrow hr hname
  rw [← hw, h, hexact] at hlast
  cases hlast

theorem exists_wildcard_of_met (hb : ClosedAbove blocked) (hrow : FreeRow blocked ps) {d : Domain} (h : Met ps d)
    (hd : blocked d = false) : ∃ r ∈ ofSeeds .labelBoundary blocked ps, ∃ v ∈ d.ancestry, r.pattern = .wildcard v := by
  obtain ⟨x, y, hxy, hne, hshared⟩ := h
  have hx : d ∈ x.domain.ancestry := Domain.mem_ancestry_of_shared? hshared
  have hy : d ∈ y.domain.ancestry := Domain.mem_ancestry_of_shared?_labelBoundary hshared
  have hl : Domain.minSharedLabels ≤ Domain.labelCount d :=
    (Domain.labels_of_shared? hshared).resolve_left fun heq => hne (heq.1.symm.trans heq.2)
  have hjoin : [x, y].IsChain fun a b => Joined blocked a.domain b.domain :=
    List.isChain_pair.mpr ⟨d, hx, hy, hl, hd⟩
  obtain ⟨r, hr, p, qs, ht, hin, hxy⟩ :=
    (cut_ofSeeds ps).exists_through_of_isChain hb hrow.named hxy (List.cons_ne_nil _ _) hjoin
  have hp : p.domain ≠ [] := hrow.named p (hin.subset List.mem_cons_self)
  have hxin : x ∈ p :: qs := hxy.subset List.mem_cons_self
  have hyin : y ∈ p :: qs := hxy.subset (List.mem_cons_of_mem _ List.mem_cons_self)
  have hwide : r.name ≠ r.last.domain := by
    intro hname
    have hall := ht.domain_eq hp (hrow.sorted.sublist hin.sublist) hname
    exact hne ((hall x hxin).trans (hall y hyin).symm)
  have hlabels := ht.labels.resolve_left hwide
  obtain ⟨t, ht', habove⟩ := Domain.exists_shared? (ht.name_mem_ancestry hp x hxin) (ht.name_mem_ancestry hp y hyin) hlabels
  rw [hshared] at ht'
  cases ht'
  refine ⟨r, hr, r.name, habove, pattern_eq_wildcard_iff.mpr ⟨rfl, ?_⟩⟩
  intro hexact
  exact hwide (by rw [hexact]; rfl)

end Run

end HostPatterns
