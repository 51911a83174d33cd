/-
  HostPatterns.Proofs.Neighbours — on label boundaries, the walk cuts between two
  members by what these two share.

  Two names are `Joined` when an unblocked name with labels enough stands above both.
  Let what stands above a blocked name be blocked (`ClosedAbove`), and the members
  have distinct names in walking order (`Precedes`). Then a run goes on to the next
  member exactly if it is joined with the run's last one (`exists_extend?_of_joined`,
  `joined_of_extend?`), whatever the run took in before. So:
  - `Through.isChain`: in a run, each member is joined with the next.
  - `Cut.exists_through_of_isChain`: members that stand in a row, each joined with the
    next, are in one run.
  - `Cut.pairwise_apart`: before a later run starts, an earlier one is stopped.

  The name of a run is the lowest of what has labels enough and stands above all its
  members (`Through.mem_ancestry_name`). The members of a group of plain records make a
  `HostRow`: a run through them that ends as a wildcard has more than one member, and its
  name has labels enough (`Through.of_wildcard`).
-/

import HostPatterns.Proofs.Committed
import Mathlib.Data.List.Chain

namespace HostPatterns

/-! ## Joined names -/

/-- What stands above a blocked name is blocked too. -/
def ClosedAbove (blocked : Domain → Bool) : Prop :=
  ∀ s t, t ∈ s.ancestry → t ≠ [] → blocked s = true → blocked t = true

theorem ClosedAbove.unblocked {blocked : Domain → Bool} (h : ClosedAbove blocked) {s t : Domain} (ht : t ∈ s.ancestry)
    (hne : t ≠ []) (hb : blocked t = false) : blocked s = false := by
  by_contra hs
  rw [h s t ht hne (by simpa using hs)] at hb
  cases hb

/-- An unblocked name with labels enough stands above both. -/
def Joined (blocked : Domain → Bool) (d e : Domain) : Prop :=
  ∃ s ∈ d.ancestry, s ∈ e.ancestry ∧ Domain.minSharedLabels ≤ Domain.labelCount s ∧ blocked s = false

theorem Joined.imp {blocked blocked' : Domain → Bool} (h : ∀ s, blocked s = false → blocked' s = false) {d e : Domain}
    (hj : Joined blocked d e) : Joined blocked' d e := by
  obtain ⟨s, hd, he, hl, hb⟩ := hj
  exact ⟨s, hd, he, hl, h s hb⟩

namespace Pattern

/-- In walking order, and of another name. -/
def Precedes (p q : Pattern) : Prop := p.Before q ∧ p.domain ≠ q.domain

theorem Precedes.asymm {p q : Pattern} (h : p.Precedes q) : ¬ q.Before p :=
  fun h' => h.2 (Domain.Before.antisymm h.1 h')

end Pattern

/-- In a row of members, what stands between two of them is one of them. -/
theorem mem_of_precedes_of_precedes {ps row : List Pattern} (hs : ps.Pairwise Pattern.Precedes) (hrow : row <:+: ps)
    {p q x : Pattern} (hp : p ∈ row) (hq : q ∈ row) (hx : x ∈ ps) (hpx : p.Precedes x) (hxq : x.Precedes q) :
    x ∈ row := by
  obtain ⟨front, back, rfl⟩ := hrow
  obtain ⟨hs, -, hback⟩ := List.pairwise_append.mp hs
  obtain ⟨-, -, hfront⟩ := List.pairwise_append.mp hs
  rcases List.mem_append.mp hx with hx | hx
  · rcases List.mem_append.mp hx with hx | hx
    · exact absurd (hfront x hx p hp).1 hpx.asymm
    · exact hx
  · exact absurd (hback q (List.mem_append_right _ hq) x hx).1 hxq.asymm

/-- Members of a group that has no wildcards, in walking order: of nonempty names that are all different. -/
structure HostRow (ps : List Pattern) : Prop where
  precede : ps.Pairwise Pattern.Precedes
  named : ∀ p ∈ ps, p.domain ≠ []
  exact : ∀ p ∈ ps, p = .exact p.domain

theorem HostRow.part {ps row : List Pattern} (h : HostRow ps) (hrow : row <:+: ps) : HostRow row :=
  ⟨h.precede.sublist hrow.sublist, fun p hp => h.named p (hrow.subset hp), fun p hp => h.exact p (hrow.subset hp)⟩

theorem HostRow.sorted {ps : List Pattern} (h : HostRow ps) : ps.Pairwise Pattern.Before := h.precede.imp And.left

namespace Run

variable {m : Comparison} {blocked : Domain → Bool}

/-! ## When a run goes on -/

theorem Through.getLast? {p : Pattern} {qs : List Pattern} {r : Run} (h : Through m blocked p qs r) :
    (p :: qs).getLast? = some r.last := by
  cases h with
  | start => rfl
  | extend _ he =>
    obtain ⟨d, -, -, rfl⟩ := extend?_eq_some_iff.mp he
    rw [← List.cons_append, List.getLast?_concat]

/-- A name that is not the last member's was shared, so it has labels enough. -/
theorem Through.labels {p : Pattern} {qs : List Pattern} {r : Run} (h : Through .labelBoundary blocked p qs r) :
    r.name = r.last.domain ∨ Domain.minSharedLabels ≤ Domain.labelCount r.name := by
  cases h with
  | start => exact Or.inl rfl
  | extend _ he =>
    obtain ⟨d, hd, -, rfl⟩ := extend?_eq_some_iff.mp he
    exact (Domain.labels_of_shared? hd).imp_left And.right

theorem Through.unblocked_of_name_ne {p : Pattern} {qs : List Pattern} {r : Run} (h : Through m blocked p qs r)
    (hname : r.name ≠ r.last.domain) : blocked r.name = false := by
  rcases h.alone_or_unblocked with rfl | hfree
  · exact absurd rfl hname
  · exact hfree

theorem Through.mem_ancestry_name {p : Pattern} {qs : List Pattern} {r : Run}
    (h : Through .labelBoundary blocked p qs r) {s : Domain} (hl : Domain.minSharedLabels ≤ Domain.labelCount s) (hs : ∀ q ∈ p :: qs, s ∈ q.domain.ancestry) :
    s ∈ r.name.ancestry := by
  induction h with
  | start => exact hs p List.mem_cons_self
  | extend _ he ih =>
    obtain ⟨d, hd, -, rfl⟩ := extend?_eq_some_iff.mp he
    rw [← List.cons_append] at hs
    have hname := ih fun q hq => hs q (List.mem_append_left _ hq)
    have hnext := hs _ (List.mem_append_right _ (List.mem_singleton_self _))
    obtain ⟨t, ht, hst⟩ := Domain.exists_shared? hname hnext hl
    rw [hd] at ht
    cases ht
    exact hst

theorem exists_extend?_of_joined (hb : ClosedAbove blocked) {p q : Pattern} {qs : List Pattern} {r : Run}
    (h : Through .labelBoundary blocked p qs r) (hp : p.domain ≠ []) (hj : Joined blocked r.last.domain q.domain) :
    ∃ r', r.extend? .labelBoundary blocked q = some r' := by
  obtain ⟨s, hlast, hnext, hl, hfree⟩ := hj
  have hname : r.name ∈ r.last.domain.ancestry := h.name_mem_ancestry hp _ h.last_mem
  have hne : r.name ≠ [] := h.name_ne_nil hp
  -- of `s` and the run's name, the higher one is unblocked and stands above both the name and `q`
  have hshared : ∃ u ∈ r.name.ancestry, u ∈ q.domain.ancestry ∧
      Domain.minSharedLabels ≤ Domain.labelCount u ∧ blocked u = false := by
    by_cases hwide : r.name = r.last.domain
    · exact ⟨s, hwide ▸ hlast, hnext, hl, hfree⟩
    · rcases Domain.ancestry_total hlast hname hne with hdown | hup
      · exact ⟨s, hdown, hnext, hl, hfree⟩
      · have hfree' : blocked r.name = false := h.unblocked_of_name_ne hwide
        exact ⟨r.name, Domain.self_mem_ancestry hne, Domain.ancestry_trans hup hnext, h.labels.resolve_left hwide, hfree'⟩
  obtain ⟨u, hu, hnext, hl, hfree⟩ := hshared
  obtain ⟨t, ht, hut⟩ := Domain.exists_shared? hu hnext hl
  exact ⟨⟨t, q⟩, extend?_eq_some_iff.mpr ⟨t, ht, hb.unblocked hut (Domain.ne_nil_of_minSharedLabels_le hl) hfree, rfl⟩⟩

theorem not_joined_of_stopped (hb : ClosedAbove blocked) {p q : Pattern} {qs : List Pattern} {r : Run}
    (h : Through .labelBoundary blocked p qs r) (hp : p.domain ≠ []) (hs : r.extend? .labelBoundary blocked q = none) :
    ¬ Joined blocked r.last.domain q.domain := by
  intro hj
  obtain ⟨r', he⟩ := exists_extend?_of_joined hb h hp hj
  rw [hs] at he
  cases he

theorem joined_of_extend? {p q : Pattern} {qs : List Pattern} {r r' : Run} (h : Through .labelBoundary blocked p qs r)
    (hp : p.domain ≠ []) (hq : r.last.Precedes q) (he : r.extend? .labelBoundary blocked q = some r') :
    Joined blocked r.last.domain q.domain := by
  obtain ⟨d, hd, hfree, rfl⟩ := extend?_eq_some_iff.mp he
  have hlast : d ∈ r.last.domain.ancestry :=
    Domain.ancestry_trans (Domain.mem_ancestry_of_shared? hd) (h.name_mem_ancestry hp _ h.last_mem)
  refine ⟨d, hlast, Domain.mem_ancestry_of_shared?_labelBoundary hd, ?_, hfree⟩
  rcases Domain.labels_of_shared? hd with ⟨-, rfl⟩ | hl
  · exact absurd (Domain.eq_of_mem_ancestry_of_before hlast hq.1) hq.2
  · exact hl

theorem Through.isChain {p : Pattern} {qs : List Pattern} {r : Run} (h : Through .labelBoundary blocked p qs r)
    (hp : p.domain ≠ []) (hs : (p :: qs).Pairwise Pattern.Precedes) :
    (p :: qs).IsChain fun a b => Joined blocked a.domain b.domain := by
  induction h with
  | start => exact List.isChain_singleton _
  | extend h he ih =>
    rw [← List.cons_append] at hs ⊢
    obtain ⟨hs, -, hlast⟩ := List.pairwise_append.mp hs
    refine List.isChain_append.mpr ⟨ih hs, List.isChain_singleton _, ?_⟩
    intro a ha b hb
    rw [h.getLast?] at ha
    cases ha
    cases hb
    exact joined_of_extend? h hp (hlast _ h.last_mem _ (List.mem_singleton_self _)) he

/-- A run of exact members that ends as a wildcard went past its first member, to a name it shared. -/
theorem Through.of_wildcard {p : Pattern} {qs : List Pattern} {r : Run} (h : Through .labelBoundary blocked p qs r)
    (hrow : HostRow (p :: qs)) {w : Domain} (hw : r.pattern = .wildcard w) :
    r.name = w ∧ Domain.minSharedLabels ≤ Domain.labelCount w ∧ blocked w = false ∧ p.Precedes r.last := by
  obtain ⟨rfl, hkind⟩ := pattern_eq_wildcard_iff.mp hw
  have hwide : r.name ≠ r.last.domain := by
    intro hname
    rw [hname] at hkind
    exact hkind (hrow.exact _ h.last_mem)
  refine ⟨rfl, h.labels.resolve_left hwide, h.unblocked_of_name_ne hwide, ?_⟩
  cases h with
  | start => exact absurd rfl hwide
  | extend h he =>
    obtain ⟨d, -, -, rfl⟩ := extend?_eq_some_iff.mp he
    exact (List.pairwise_cons.mp hrow.precede).1 _ (List.mem_append_right _ (List.mem_singleton_self _))

/-! ## Where the walk cuts -/

/-- The last run ends at the last member. -/
theorem Cut.getLast? {ps : List Pattern} {rs : List Run} (h : Cut m blocked ps rs) :
    ps.getLast? = rs.getLast?.map Run.last := by
  cases h with
  | nil => rfl
  | snoc _ _ ht =>
    rw [List.getLast?_append, ht.getLast?, List.getLast?_concat]
    rfl

theorem Cut.exists_through_of_isChain (hb : ClosedAbove blocked) {ps : List Pattern} {rs : List Run}
    (h : Cut .labelBoundary blocked ps rs) (hne : ∀ p ∈ ps, p.domain ≠ []) {row : List Pattern} (hrow : row <:+: ps)
    (hrne : row ≠ []) (hj : row.IsChain fun a b => Joined blocked a.domain b.domain) :
    ∃ r ∈ rs, ∃ p qs, Through .labelBoundary blocked p qs r ∧ p :: qs <:+: ps ∧ row <:+: p :: qs := by
  induction h with
  | nil => exact absurd (List.infix_nil.mp hrow) hrne
  | @snoc ps qs p rs r hc hstop ht ih =>
    have hne' : ∀ x ∈ ps, x.domain ≠ [] := fun x hx => hne x (List.mem_append_left _ hx)
    rcases List.infix_append_iff_ne_nil.mp hrow with hin | hin | ⟨front, back, hf, hbk, rfl, hfront, hback⟩
    · obtain ⟨r', hr', p', qs', ht', hi, hin'⟩ := ih hne' hin
      exact ⟨r', List.mem_append_left _ hr', p', qs', ht', List.infix_append_of_infix_left hi, hin'⟩
    · exact ⟨r, List.mem_append_right _ (List.mem_singleton_self _), p, qs, ht, List.infix_append_right, hin⟩
    · -- a row across the cut would join the member before it with the one after it
      obtain ⟨rest, hrest⟩ := hback
      obtain ⟨q, back, rfl⟩ := List.exists_cons_of_ne_nil hbk
      obtain ⟨rfl, -⟩ := List.cons.inj hrest
      have hlast : ps.getLast? = front.getLast? := by
        obtain ⟨u, rfl⟩ := hfront
        rw [List.getLast?_append, List.getLast?_eq_some_getLast hf]
        rfl
      rw [hc.getLast?, List.getLast?_eq_some_getLast hf, Option.map_eq_some_iff] at hlast
      obtain ⟨r', hr', hlast⟩ := hlast
      have hjoin : Joined blocked r'.last.domain q.domain := by
        rw [hlast]
        exact (List.isChain_append.mp hj).2.2 _ (List.getLast?_eq_some_getLast hf) q rfl
      obtain ⟨p', qs', ht', hi⟩ := hc.exists_through r' (List.mem_of_getLast? hr')
      have hp' : p'.domain ≠ [] := hne' p' (hi.subset List.mem_cons_self)
      exact absurd hjoin (not_joined_of_stopped hb ht' hp' (hstop r' hr'))

/-- One run before another: it is stopped at a member `x`, and the other one starts there or later. -/
def Apart (m : Comparison) (blocked : Domain → Bool) (ps : List Pattern) (r r' : Run) : Prop :=
  ∃ p qs x q qs', Through m blocked p qs r ∧ Through m blocked q qs' r' ∧ p :: qs <:+: ps ∧ q :: qs' <:+: ps ∧ x ∈ ps ∧
    r.extend? m blocked x = none ∧ r.last.Precedes x ∧ (x = q ∨ x.Precedes q)

theorem Apart.mono {ps ps' : List Pattern} (hsub : ps <:+: ps') {r r' : Run} (h : Apart m blocked ps r r') :
    Apart m blocked ps' r r' := by
  obtain ⟨p, qs, x, q, qs', ht, ht', hp, hq, hx, hrest⟩ := h
  exact ⟨p, qs, x, q, qs', ht, ht', hp.trans hsub, hq.trans hsub, hsub.subset hx, hrest⟩

theorem Cut.pairwise_apart {ps : List Pattern} {rs : List Run} (h : Cut m blocked ps rs)
    (hs : ps.Pairwise Pattern.Precedes) : rs.Pairwise (Apart m blocked ps) := by
  induction h with
  | nil => exact List.Pairwise.nil
  | @snoc ps qs p rs r hc hstop ht ih =>
    obtain ⟨hps, -, hbefore⟩ := List.pairwise_append.mp hs
    refine List.pairwise_append.mpr ⟨?_, List.pairwise_singleton _ _, ?_⟩
    · exact (ih hps).imp fun ha => ha.mono (List.prefix_append _ _).isInfix
    · intro r' hr' r'' hr''
      cases List.mem_singleton.mp hr''
      obtain ⟨front, p', qs', back, hsplit, ht', hstop', hend⟩ := hc.exists_place r' hr'
      have hin : p' :: qs' <:+: ps := hsplit ▸ List.infix_append _ _ _
      have hsub : p' :: qs' <:+: ps ++ p :: qs := hin.trans (List.prefix_append _ _).isInfix
      have hsub' : p :: qs <:+: ps ++ p :: qs := (List.suffix_append _ _).isInfix
      cases back with
      | nil =>
        exact ⟨p', qs', p, p, qs, ht', ht, hsub, hsub', hsub'.subset List.mem_cons_self, hstop r' (hend rfl),
          hbefore _ (hin.subset ht'.last_mem) p List.mem_cons_self, Or.inl rfl⟩
      | cons x back =>
        have hx : x ∈ ps := by rw [hsplit]; simp
        have hlast : r'.last.Precedes x := by
          rw [hsplit] at hps
          exact (List.pairwise_append.mp hps).2.2 _ (List.mem_append_right _ ht'.last_mem) x List.mem_cons_self
        exact ⟨p', qs', x, p, qs, ht', ht, hsub, hsub', List.mem_append_left _ hx, hstop' x rfl, hlast,
          Or.inr (hbefore x hx p List.mem_cons_self)⟩

end Run

/-! ## The groups of records -/

theorem closedAbove_contested (gs : List Group) (ip : Ipv4) : ClosedAbove ((Owners.ofGroups gs).contested ip) := by
  intro s t ht hne hb
  exact Owners.contested_iff.mpr ((Owners.contested_iff.mp hb).above ht hne)

/-- The domains that grouping keeps are distinct, and so are the names of a group's seeds. -/
theorem Grouping.seeds_precede {rs : List Record} (h : ∀ r ∈ rs, r.domain.Plain) {g : Group}
    (hg : g ∈ (ofRecords rs).groups) : g.seeds.Pairwise Pattern.Precedes := by
  have hperm : g.seeds.Perm ((g.domains.map Pattern.ofText).filter (·.domain != [])) := perm_sortOn _ _ _
  have hnames : (g.domains.map Pattern.ofText).map Pattern.domain = g.domains := by
    rw [List.map_map]
    conv_rhs => rw [← List.map_id g.domains]
    apply List.map_congr_left
    intro t ht
    rw [Function.comp_apply, ((hostGroups_ofRecords h).plain g hg t ht).ofText]
    rfl
  have hnodup : (g.seeds.map Pattern.domain).Nodup := by
    rw [(hperm.map _).nodup_iff]
    apply List.Nodup.sublist (List.filter_sublist.map _)
    rw [hnames, domains_of_mem_groups hg]
    exact (nodup_domains rs).sublist (List.filter_sublist.map _)
  exact g.seeds_sorted.and (List.pairwise_map.mp hnodup)

theorem Grouping.hostRow_seeds {rs : List Record} (h : ∀ r ∈ rs, r.domain.Plain) {g : Group}
    (hg : g ∈ (ofRecords rs).groups) : HostRow g.seeds := by
  refine ⟨seeds_precede h hg, fun p hp => (Group.mem_seeds.mp hp).2, fun p hp => ?_⟩
  exact ((hostGroups_ofRecords h).exact_of_member (Group.member_of_mem_seeds hg hp)).1

end HostPatterns
