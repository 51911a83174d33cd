/-
  HostPatterns.Proofs.Mergeable — where a compaction leaves two patterns of one address
  that one pattern could stand for.

  A set is `Irreducible` when two bindings of one address share no suffix that is free
  of other addresses, and no binding is at or below a wildcard of its own address. A
  compaction need not be: the walk compares a member with the next one only, and the
  members below a name need not stand next to it. A look-alike of the name may stand in
  between, and then the name is committed alone, though what is below it goes on to
  share the name.

  That is all that goes wrong. A member is `Sundered` when it is free of other
  addresses, has labels enough and a member below it, a look-alike of it is a member
  too, and each name above it that has labels enough is blocked, so that nothing higher
  joins the three again.
  - `Run.Apart.sundered`: what the names of two runs share is blocked, or sundered.
  - `Run.exists_exact_of_sundered`, `Run.exists_beside_of_sundered`: a sundered member is
    committed alone, beside a run below it.
  - `irreducible_iff`: a compaction is irreducible exactly if no member is sundered.
  - `hyphen_sunders`: `a-b.com` parts `b.com` from `x.b.com` and `y.b.com`, which end as
    a wildcard at `b.com` beside the exact `b.com`.
-/

import HostPatterns.Proofs.LookAlikes
import HostPatterns.Proofs.Neighbours
import HostPatterns.Proofs.Resolution

namespace HostPatterns

/-- A name that a look-alike parts from a name below it, with nothing free above that joins them. -/
structure Domain.Sundered (names blocked : Domain → Prop) (d : Domain) : Prop where
  named : names d
  labels : minSharedLabels ≤ labelCount d
  free : ¬ blocked d
  closed : ∀ t ∈ d.parents, minSharedLabels ≤ labelCount t → blocked t
  below : ∃ e, names e ∧ Domain.below e d = true
  lookAlike : ∃ y, names y ∧ y.LookAlike d

theorem Domain.Sundered.congr {names names' blocked blocked' : Domain → Prop} (hn : ∀ e, names e ↔ names' e)
    (hb : ∀ t, t ≠ [] → (blocked t ↔ blocked' t)) {d : Domain} (h : Sundered names blocked d) :
    Sundered names' blocked' d := by
  obtain ⟨hnamed, hlabels, hfree, hclosed, ⟨e, he, hbelow⟩, ⟨y, hy, hlook⟩⟩ := h
  refine ⟨(hn d).mp hnamed, hlabels, ?_, ?_, ⟨e, (hn e).mp he, hbelow⟩, ⟨y, (hn y).mp hy, hlook⟩⟩
  · rwa [← hb d (ne_nil_of_minSharedLabels_le hlabels)]
  · intro t ht hl
    exact (hb t (ne_nil_of_minSharedLabels_le hl)).mp (hclosed t ht hl)

/-! ## Two runs -/

namespace Run

variable {blocked : Domain → Bool} {ps : List Pattern}

theorem apart_or_apart {m : Comparison} (hs : ps.Pairwise Pattern.Precedes) {r r' : Run} (hr : r ∈ ofSeeds m blocked ps)
    (hr' : r' ∈ ofSeeds m blocked ps) (hne : r ≠ r') : Apart m blocked ps r r' ∨ Apart m blocked ps r' r := by
  have hpairs : (ofSeeds m blocked ps).Pairwise fun r r' => Apart m blocked ps r r' ∨ Apart m blocked ps r' r :=
    ((cut_ofSeeds ps).pairwise_apart hs).imp Or.inl
  have : Std.Symm fun r r' => Apart m blocked ps r r' ∨ Apart m blocked ps r' r := ⟨fun _ _ => Or.symm⟩
  exact hpairs.forall hr hr' hne

theorem Apart.last_precedes {m : Comparison} (hs : ps.Pairwise Pattern.Precedes) {r r' : Run}
    (ha : Apart m blocked ps r r') : r.last.Precedes r'.last := by
  obtain ⟨p, qs, x, q, qs', -, ht', -, hrow', -, -, hlast, hxq⟩ := ha
  have hq : q.Before r'.last :=
    ht'.before_last ((hs.sublist hrow'.sublist).imp And.left) q List.mem_cons_self
  have hx : x.Before r'.last := by
    rcases hxq with rfl | hxq
    · exact hq
    · exact hxq.1.trans hq
  refine ⟨hlast.1.trans hx, ?_⟩
  intro heq
  apply hlast.asymm
  unfold Pattern.Before
  rw [heq]
  exact hx

/-- What the names of two runs share has labels enough, as the runs end at members of different names. -/
theorem Apart.labels (hs : ps.Pairwise Pattern.Precedes) {r r' : Run} (ha : Apart .labelBoundary blocked ps r r')
    {d : Domain} (hd : (d = r.name ∧ d = r'.name) ∨ Domain.minSharedLabels ≤ Domain.labelCount d) :
    Domain.minSharedLabels ≤ Domain.labelCount d := by
  have hne : r.last.domain ≠ r'.last.domain := (ha.last_precedes hs).2
  obtain ⟨p, qs, x, q, qs', ht, ht', -⟩ := ha
  rcases hd with ⟨hd, hd'⟩ | hl
  · rcases ht.labels with hlast | hl
    · rcases ht'.labels with hlast' | hl
      · rw [← hlast, ← hlast', ← hd, ← hd'] at hne
        exact absurd rfl hne
      · rwa [hd']
    · rwa [hd]
  · exact hl

/-- What the names of two runs share is blocked, or the one run ends at it and a look-alike stands before the other. -/
theorem Apart.sundered (hb : ClosedAbove blocked) (hps : HostRow ps) {r r' : Run}
    (ha : Apart .labelBoundary blocked ps r r') {d : Domain} (hl : Domain.minSharedLabels ≤ Domain.labelCount d)
    (hd : d ∈ r.name.ancestry) (hd' : d ∈ r'.name.ancestry) (hfree : blocked d = false) :
    d.Sundered (.exact · ∈ ps) (blocked · = true) := by
  obtain ⟨p, qs, x, q, qs', ht, ht', hrow, hrow', hxps, hstop, hlx, hxq⟩ := ha
  have hp : p.domain ≠ [] := hps.named p (hrow.subset List.mem_cons_self)
  have hqps : q ∈ ps := hrow'.subset List.mem_cons_self
  have hlast : d ∈ r.last.domain.ancestry := Domain.ancestry_trans hd (ht.name_mem_ancestry hp _ ht.last_mem)
  have hq : d ∈ q.domain.ancestry := Domain.ancestry_trans hd' (ht'.name_mem_ancestry_head (hps.named q hqps))
  -- the one run stopped at `x`, so `x` is not below `d`, and stands between the runs
  have hgap : ¬ Joined blocked r.last.domain x.domain := not_joined_of_stopped hb ht hp hstop
  have hdx : d ∉ x.domain.ancestry := fun hdx => hgap ⟨d, hlast, hdx, hl, hfree⟩
  have hxq : x.Precedes q := by
    rcases hxq with rfl | hxq
    · exact absurd hq hdx
    · exact hxq
  have hqd : d ∈ q.domain.parents := by
    refine Domain.parents_of_mem_ancestry hq ?_
    rintro rfl
    exact hxq.asymm ((Domain.before_of_mem_ancestry hlast).trans hlx.1)
  obtain ⟨hld, hlook⟩ := Domain.lookAlike_of_gap hlast hlx.1 hlx.2 hxq.1 hqd hdx
  have exact_mem : ∀ s ∈ ps, .exact s.domain ∈ ps := fun s hs => hps.exact s hs ▸ hs
  refine ⟨?_, hl, by simp [hfree], ?_, ⟨q.domain, exact_mem q hqps, ?_⟩, ⟨x.domain, exact_mem x hxps, hlook⟩⟩
  · rw [hld]
    exact exact_mem _ (hrow.subset ht.last_mem)
  · intro t htd hl
    by_contra hfree
    exact hgap ⟨t, hld ▸ Domain.mem_ancestry_of_parents htd, hlook.mem_ancestry_of_parents htd, hl, by simpa using hfree⟩
  · exact Domain.below_iff.mpr ⟨Domain.ne_nil_of_minSharedLabels_le hl, Domain.mem_parents.mp hqd⟩

/-! ## The runs about a sundered name -/

section

variable (hps : HostRow ps)

include hps

theorem exists_run_covers (blocked : Domain → Bool) {d : Domain} (hd : .exact d ∈ ps) :
    ∃ r ∈ ofSeeds .labelBoundary blocked ps, r.pattern.Covers d ∧ ∃ p qs, Through .labelBoundary blocked p qs r ∧
      p :: qs <:+: ps ∧ .exact d ∈ p :: qs := by
  obtain ⟨r, hr, p, qs, ht, hpart, hmem⟩ := (cut_ofSeeds ps).exists_run_of_mem _ hd
  have hrow := hps.part hpart
  exact ⟨r, hr, ht.covers (hrow.named p List.mem_cons_self) hrow.sorted _ hmem, p, qs, ht, hpart, hmem⟩

/-- A run from `d` on to names below it would go past a look-alike, which is not below it. -/
theorem Through.not_lookAlike {p : Pattern} {qs : List Pattern} {r : Run} (ht : Through .labelBoundary blocked p qs r)
    (hpart : p :: qs <:+: ps) {d : Domain} (hmem : .exact d ∈ p :: qs) (hpat : r.pattern = .wildcard d) {y : Domain}
    (hy : .exact y ∈ ps) : ¬ y.LookAlike d := by
  intro hlook
  have hrow := hps.part hpart
  obtain ⟨hname, -, -, hmoved⟩ := ht.of_wildcard hrow hpat
  have habove : ∀ q ∈ p :: qs, d ∈ q.domain.ancestry := by
    intro q hq
    rw [← hname]
    exact ht.name_mem_ancestry (hrow.named p List.mem_cons_self) q hq
  have hlast : d ∈ r.last.domain.parents := by
    refine Domain.parents_of_mem_ancestry (habove _ ht.last_mem) ?_
    intro heq
    apply hmoved.asymm
    unfold Pattern.Before
    rw [← heq]
    exact Domain.before_of_mem_ancestry (habove p List.mem_cons_self)
  obtain ⟨hdy, hylast⟩ := Domain.before_of_lookAlike hlook hlast
  have hne : y ≠ r.last.domain := by
    rintro rfl
    exact hlook.not_mem_parents hlast
  have hyrow : .exact y ∈ p :: qs :=
    mem_of_precedes_of_precedes hps.precede hpart hmem ht.last_mem hy ⟨hdy, hlook.ne⟩ ⟨hylast, hne⟩
  exact hlook.not_mem_parents (Domain.parents_of_mem_ancestry (habove _ hyrow) hlook.ne)

theorem exists_exact_of_sundered {d : Domain} (h : d.Sundered (.exact · ∈ ps) (blocked · = true)) :
    ∃ r ∈ ofSeeds .labelBoundary blocked ps, r.pattern = .exact d := by
  obtain ⟨r, hr, hcov, p, qs, ht, hpart, hmem⟩ := exists_run_covers hps blocked h.named
  refine ⟨r, hr, ?_⟩
  cases hpat : r.pattern with
  | exact e =>
    rw [hpat] at hcov
    rw [show d = e from hcov]
  | wildcard w =>
    rw [hpat] at hcov
    by_cases hwd : w = d
    · obtain ⟨y, hy, hlook⟩ := h.lookAlike
      rw [hwd] at hpat
      exact absurd hlook (ht.not_lookAlike hps hpart hmem hpat hy)
    · obtain ⟨-, hlabels, hfree, -⟩ := ht.of_wildcard (hps.part hpart) hpat
      rw [h.closed w (Domain.parents_of_mem_ancestry hcov hwd) hlabels] at hfree
      cases hfree

theorem exists_beside_of_sundered {d : Domain} (h : d.Sundered (.exact · ∈ ps) (blocked · = true)) :
    ∃ r ∈ ofSeeds .labelBoundary blocked ps, r.pattern ≠ .exact d ∧ d ∈ r.name.ancestry := by
  obtain ⟨e, he, hbelow⟩ := h.below
  have hde : d ∈ e.parents := Domain.mem_parents.mpr (Domain.below_iff.mp hbelow).2
  have hlt : d.length < e.length := Domain.length_lt_of_mem_parents hde
  obtain ⟨r, hr, hcov, p, qs, ht, hpart, hmem⟩ := exists_run_covers hps blocked he
  have hrow := hps.part hpart
  have hp : p.domain ≠ [] := hrow.named p List.mem_cons_self
  have hname : r.name ∈ e.ancestry := ht.name_mem_ancestry hp _ hmem
  have long : ∀ f, r.pattern = .exact f → e.length = f.length := by
    intro f hpat
    rw [hpat] at hcov
    rw [show e = f from hcov]
  refine ⟨r, hr, ?_, ?_⟩
  · intro hpat
    have := long d hpat
    omega
  · have hdne := Domain.ne_nil_of_minSharedLabels_le h.labels
    by_cases heq : r.name = d
    · rw [heq]
      exact Domain.self_mem_ancestry hdne
    · refine (Domain.ancestry_total hname (Domain.mem_ancestry_of_parents hde) hdne).resolve_left fun habove => ?_
      -- a name above `d` would be a wildcard's, but all of these are blocked
      have hup : r.name ∈ d.parents := Domain.parents_of_mem_ancestry habove heq
      cases hpat : r.pattern with
      | exact f =>
        have hf : f = r.name := by rw [← pattern_domain, hpat]; rfl
        have hlong := long f hpat
        have hshort := Domain.length_lt_of_mem_parents hup
        rw [hf] at hlong
        omega
      | wildcard w =>
        obtain ⟨hw, hlabels, hfree, -⟩ := ht.of_wildcard hrow hpat
        rw [hw] at hup
        rw [h.closed w hup hlabels] at hfree
        cases hfree

end

end Run

/-! ## Compactions -/

namespace Grouping

/-- A kept record of another address is at, below or above the name. -/
def Blocked (g : Grouping) (ip : Ipv4) (d : Domain) : Prop :=
  ∃ r ∈ g.records, r.ip ≠ ip ∧ (r.domain = d ∨ Domain.below r.domain d = true ∨ Domain.below d r.domain = true)

/-- Among the domains kept for an address. -/
def Sundered (g : Grouping) (ip : Ipv4) (d : Domain) : Prop := d.Sundered (⟨ip, ·⟩ ∈ g.records) (g.Blocked ip)

section

variable {rs : List Record} (h : ∀ r ∈ rs, r.domain.Plain)

include h

theorem blocked_iff_contested {ip : Ipv4} {d : Domain} (hd : d ≠ []) :
    (ofRecords rs).Blocked ip d ↔ Contested (ofRecords rs).groups ip d := by
  constructor
  · intro hblocked
    obtain ⟨r, hr, hip, hat⟩ := hblocked
    refine ⟨r.ip, .exact r.domain, hip, member_of_mem_records h hr, ?_⟩
    rcases hat with heq | hbelow | habove
    · exact Or.inl ((Domain.mem_ancestry_iff_below hd).mpr (Or.inl heq.symm))
    · exact Or.inl ((Domain.mem_ancestry_iff_below hd).mpr (Or.inr hbelow))
    · exact Or.inr (Domain.mem_parents.mpr (Domain.below_iff.mp habove).2)
  · intro hcontested
    obtain ⟨o, p, ho, hp, hat⟩ := hcontested
    refine ⟨⟨o, p.domain⟩, mem_records_of_member h hp, ho, ?_⟩
    rcases hat with hbelow | habove
    · rcases (Domain.mem_ancestry_iff_below hd).mp hbelow with heq | hbelow
      · exact Or.inl heq.symm
      · exact Or.inr (Or.inl hbelow)
    · have hne : p.domain ≠ [] := ((hostGroups_ofRecords h).exact_of_member hp).2
      exact Or.inr (Or.inr (Domain.below_iff.mpr ⟨hne, Domain.mem_parents.mp habove⟩))

theorem exact_mem_seeds_iff {g : Group} (hg : g ∈ (ofRecords rs).groups) {d : Domain} :
    .exact d ∈ g.seeds ↔ ⟨g.ip, d⟩ ∈ (ofRecords rs).records := by
  constructor
  · intro hd
    exact mem_records_of_member h (Group.member_of_mem_seeds hg hd)
  · intro hd
    have hplain := h _ (mem_of_mem_records hd)
    refine Group.mem_seeds.mpr ⟨⟨d, ?_, hplain.ofText⟩, hplain.1⟩
    rw [domains_of_mem_groups hg, mem_domainsOf]
    exact hd

theorem sundered_iff {g : Group} (hg : g ∈ (ofRecords rs).groups) {d : Domain} :
    (ofRecords rs).Sundered g.ip d ↔
      d.Sundered (.exact · ∈ g.seeds) ((Owners.ofGroups (ofRecords rs).groups).contested g.ip · = true) := by
  have hblocked : ∀ t, t ≠ [] →
      ((Owners.ofGroups (ofRecords rs).groups).contested g.ip t = true ↔ (ofRecords rs).Blocked g.ip t) := by
    intro t ht
    rw [Owners.contested_iff, blocked_iff_contested h ht]
  constructor
  · intro hd
    exact hd.congr (fun _ => (exact_mem_seeds_iff h hg).symm) fun t ht => (hblocked t ht).symm
  · intro hd
    exact hd.congr (fun _ => exact_mem_seeds_iff h hg) hblocked

end

end Grouping

/-- Two bindings of one address share nothing but what another address blocks, and no wildcard of an address is at or
    above another pattern of it. -/
structure PatternSet.Irreducible (s : PatternSet) (g : Grouping) : Prop where
  unshared : ∀ b ∈ s.toList, ∀ c ∈ s.toList, b ≠ c → b.ip = c.ip → ∀ d,
    Domain.shared? .labelBoundary b.pattern.domain c.pattern.domain = some d → g.Blocked b.ip d
  uncovered : ∀ b ∈ s.toList, ∀ c ∈ s.toList, b ≠ c → b.ip = c.ip → c.pattern.isWildcard = true →
    b.pattern.domain ≠ c.pattern.domain ∧ Domain.below b.pattern.domain c.pattern.domain = false

section

variable {rs : List Record} (h : ∀ r ∈ rs, r.domain.Plain)

include h

/-- A wildcard stands where two members met. -/
theorem Committed.labels_of_wildcard {b : Binding} (hb : Committed .labelBoundary (Grouping.ofRecords rs).groups b)
    {w : Domain} (hw : b.pattern = .wildcard w) : Domain.minSharedLabels ≤ Domain.labelCount w := by
  obtain ⟨g, hg, -, r, hr, hpat⟩ := hb
  obtain ⟨p, qs, ht, hpart⟩ := (Run.cut_ofSeeds g.seeds).exists_through r hr
  exact (ht.of_wildcard ((Grouping.hostRow_seeds h hg).part hpart) (hpat.trans hw)).2.1

/-- What is at or below a wildcard shares its name, and no other address blocks that. -/
theorem Committed.shared?_of_below {c : Binding} (hc : Committed .labelBoundary (Grouping.ofRecords rs).groups c)
    {w d : Domain} (hw : c.pattern = .wildcard w) (hwd : w ∈ d.ancestry) :
    Domain.shared? .labelBoundary d w = some w ∧ ¬ (Grouping.ofRecords rs).Blocked c.ip w := by
  have hlabels := hc.labels_of_wildcard h hw
  refine ⟨(Domain.shared?_of_mem_ancestry hwd hlabels).2, ?_⟩
  rw [Grouping.blocked_iff_contested h (Domain.ne_nil_of_minSharedLabels_le hlabels)]
  exact hc.not_contested_of_wildcard (hostGroups_ofRecords h) hw

theorem Committed.sundered_of_shared? {b c : Binding} (hb : Committed .labelBoundary (Grouping.ofRecords rs).groups b)
    (hc : Committed .labelBoundary (Grouping.ofRecords rs).groups c) (hne : b ≠ c) (hip : b.ip = c.ip) {d : Domain}
    (hd : Domain.shared? .labelBoundary b.pattern.domain c.pattern.domain = some d)
    (hfree : ¬ (Grouping.ofRecords rs).Blocked b.ip d) : (Grouping.ofRecords rs).Sundered b.ip d := by
  obtain ⟨g, hg, hgb, r, hr, hpat⟩ := hb
  obtain ⟨g', hg', hgc, r', hr', hpat'⟩ := hc
  cases Grouping.eq_of_ip_eq hg hg' (by rw [hgb, hgc, hip])
  have hruns : r ≠ r' := by
    rintro rfl
    obtain ⟨p, ip⟩ := b
    obtain ⟨q, ip'⟩ := c
    cases hip
    exact hne (congrArg (Binding.mk · ip) (hpat.symm.trans hpat'))
  rw [← hpat, ← hpat', Run.pattern_domain, Run.pattern_domain] at hd
  have hrow := Grouping.hostRow_seeds h hg
  have hclosed := closedAbove_contested (Grouping.ofRecords rs).groups g.ip
  have hfree' : (Owners.ofGroups (Grouping.ofRecords rs).groups).contested g.ip d = false := by
    rwa [Owners.contested_eq_false_iff, ← Grouping.blocked_iff_contested h (Domain.ne_nil_of_shared? hd), hgb]
  have habove : d ∈ r.name.ancestry := Domain.mem_ancestry_of_shared? hd
  have habove' : d ∈ r'.name.ancestry := Domain.mem_ancestry_of_shared?_labelBoundary hd
  rw [← hgb, Grouping.sundered_iff h hg]
  rcases Run.apart_or_apart hrow.precede hr hr' hruns with ha | ha
  · exact ha.sundered hclosed hrow (ha.labels hrow.precede (Domain.labels_of_shared? hd)) habove habove' hfree'
  · exact ha.sundered hclosed hrow (ha.labels hrow.precede ((Domain.labels_of_shared? hd).imp_left And.symm)) habove'
      habove hfree'

/-- A sundered name is bound alone, beside a pattern that shares it. -/
theorem Grouping.Sundered.exists_shared? {ip : Ipv4} {d : Domain} (hd : (Grouping.ofRecords rs).Sundered ip d) :
    ∃ p, p ≠ .exact d ∧ Domain.shared? .labelBoundary d p.domain = some d ∧
      Committed .labelBoundary (Grouping.ofRecords rs).groups ⟨.exact d, ip⟩ ∧
      Committed .labelBoundary (Grouping.ofRecords rs).groups ⟨p, ip⟩ := by
  have hg := Grouping.exists_group_of_mem hd.named
  have hrow := Grouping.hostRow_seeds h hg
  have hd' := (Grouping.sundered_iff h hg).mp hd
  obtain ⟨r, hr, hpat⟩ := Run.exists_exact_of_sundered hrow hd'
  obtain ⟨r', hr', hpat', habove⟩ := Run.exists_beside_of_sundered hrow hd'
  refine ⟨r'.pattern, hpat', ?_, ⟨_, hg, rfl, r, hr, hpat⟩, ⟨_, hg, rfl, r', hr', rfl⟩⟩
  rw [Run.pattern_domain]
  exact (Domain.shared?_of_mem_ancestry habove hd.labels).1

end

/-- On label boundaries, a compaction leaves something to merge exactly where a look-alike sunders a name. -/
theorem irreducible_iff {rs : List Record} (h : ∀ r ∈ rs, r.domain.Plain) :
    let g := Grouping.ofRecords rs
    (compact .labelBoundary g.groups).Irreducible g ↔ ∀ ip d, ¬ g.Sundered ip d := by
  intro g
  have hgs := hostGroups_ofRecords h
  constructor
  · intro hirr ip d hd
    obtain ⟨p, hp, hshared, hb, hc⟩ := hd.exists_shared? h
    have hne : (⟨.exact d, ip⟩ : Binding) ≠ ⟨p, ip⟩ := fun heq => hp (congrArg Binding.pattern heq).symm
    exact hd.free (hirr.unshared _ ((mem_compact_iff hgs).mpr hb) _ ((mem_compact_iff hgs).mpr hc) hne rfl d hshared)
  · intro hnone
    have hunshared : ∀ b ∈ (compact .labelBoundary g.groups).toList, ∀ c ∈ (compact .labelBoundary g.groups).toList,
        b ≠ c → b.ip = c.ip → ∀ d, Domain.shared? .labelBoundary b.pattern.domain c.pattern.domain = some d →
          g.Blocked b.ip d := by
      intro b hb c hc hne hip d hd
      by_contra hfree
      exact hnone b.ip d
        (((mem_compact_iff hgs).mp hb).sundered_of_shared? h ((mem_compact_iff hgs).mp hc) hne hip hd hfree)
    refine ⟨hunshared, ?_⟩
    intro b hb c hc hne hip hkind
    have hc' := (mem_compact_iff hgs).mp hc
    cases hw : c.pattern with
    | exact d => rw [hw] at hkind; cases hkind
    | wildcard w =>
      have hnot : w ∉ b.pattern.domain.ancestry := by
        intro hbelow
        obtain ⟨hshared, hfree⟩ := hc'.shared?_of_below h hw hbelow
        rw [← hip] at hfree
        exact hfree (hunshared b hb c hc hne hip w (by rw [hw]; exact hshared))
      have hwne : w ≠ [] := Domain.ne_nil_of_minSharedLabels_le (hc'.labels_of_wildcard h hw)
      rw [Domain.mem_ancestry_iff_below hwne] at hnot
      exact ⟨fun heq => hnot (Or.inl heq.symm), Bool.eq_false_iff.mpr fun hlt => hnot (Or.inr hlt)⟩

/-- A look-alike of another address parts nothing, as it is not in the row. -/
theorem foreign_look_alike_irreducible :
    let rs : List Record := [⟨⟨1, 1, 1, 1⟩, "b.com".toList⟩, ⟨⟨2, 2, 2, 2⟩, "a-b.com".toList⟩,
      ⟨⟨1, 1, 1, 1⟩, "x.b.com".toList⟩, ⟨⟨1, 1, 1, 1⟩, "y.b.com".toList⟩]
    let g := Grouping.ofRecords rs
    (∀ r ∈ rs, r.domain.Plain) ∧ (∀ ip d, ¬ g.Sundered ip d) ∧ (compact .labelBoundary g.groups).Irreducible g := by
  intro rs g
  have plain : ∀ r ∈ rs, r.domain.Plain := by decide
  have kept : g.records = rs := by unfold g; cbv
  have foreign : ∀ r ∈ rs, ∀ r' ∈ rs, r.ip = r'.ip → ¬ r'.domain.LookAlike r.domain := by decide
  have none : ∀ ip d, ¬ g.Sundered ip d := by
    intro ip d hd
    obtain ⟨y, hy, hlook⟩ := hd.lookAlike
    have hd := hd.named
    rw [kept] at hd hy
    exact foreign _ hd _ hy rfl hlook
  exact ⟨plain, none, (irreducible_iff plain).mpr none⟩

/-- A look-alike of one address parts `b.com` from what is below it, and both are bound. -/
theorem hyphen_sunders :
    let rs : List Record := [⟨⟨1, 1, 1, 1⟩, "b.com".toList⟩, ⟨⟨1, 1, 1, 1⟩, "a-b.com".toList⟩,
      ⟨⟨1, 1, 1, 1⟩, "x.b.com".toList⟩, ⟨⟨1, 1, 1, 1⟩, "y.b.com".toList⟩]
    let g := Grouping.ofRecords rs
    let s := compact .labelBoundary g.groups
    let b : Binding := ⟨.exact "b.com".toList, ⟨1, 1, 1, 1⟩⟩
    let c : Binding := ⟨.wildcard "b.com".toList, ⟨1, 1, 1, 1⟩⟩
    (∀ r ∈ rs, r.domain.Plain) ∧ b ∈ s.toList ∧ c ∈ s.toList ∧
      Domain.shared? .labelBoundary b.pattern.domain c.pattern.domain = some "b.com".toList ∧
      (∀ r ∈ g.records, r.ip = b.ip) ∧ ¬ s.Irreducible g := by
  intro rs g s b c
  have plain : ∀ r ∈ rs, r.domain.Plain := by decide
  have list : s.toList = [b, ⟨.exact "a-b.com".toList, ⟨1, 1, 1, 1⟩⟩, c] := by unfold s g; cbv
  have kept : g.records = rs := by unfold g; cbv
  have hb : b ∈ s.toList := by rw [list]; exact List.mem_cons_self
  have hc : c ∈ s.toList := by rw [list]; exact List.mem_cons_of_mem _ (List.mem_cons_of_mem _ List.mem_cons_self)
  have shared : Domain.shared? .labelBoundary b.pattern.domain c.pattern.domain = some "b.com".toList := by decide
  have alone : ∀ r ∈ g.records, r.ip = b.ip := by rw [kept]; decide
  refine ⟨plain, hb, hc, shared, alone, ?_⟩
  intro hirr
  obtain ⟨r, hr, hip, -⟩ := hirr.unshared b hb c hc (by decide) rfl _ shared
  exact hip (alone r hr)

end HostPatterns
