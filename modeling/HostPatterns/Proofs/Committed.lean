/-
  HostPatterns.Proofs.Committed — the bindings that a compaction makes, told without
  the set it makes them in.

  A group commits the patterns of its runs. In the walk a suffix is blocked by what
  earlier groups bound, or by the owners (`blocked_iff`); of owned groups, the first never blocks more
  than the second (`blocked_eq_contested`): a binding of another address at or above a
  suffix is a member there, or a wildcard that was not contested, and then no member
  below it is of this address. So the runs of a group do not depend on the groups
  taken before it, and neither does any other group bind one of their patterns to
  another address (`Committed.eq_of_pattern_eq`): a compaction is the set of what its
  groups commit (`mem_compact_iff`), whatever their order.

  What is committed for `ip` (`Committed`):
  - has a member of `ip` at or below it (`exists_member_below`);
  - is a member of `ip`, if exact (`member_of_exact`);
  - is not contested for `ip`, if a wildcard (`not_contested_of_wildcard`).
-/

import HostPatterns.Proofs.Partition
import HostPatterns.Proofs.Walk

namespace HostPatterns

/-! ## The runs of a group -/

namespace Group

variable {m : Comparison} {blocked : Domain → Bool}

/-- A run of the seeds goes through some of them. -/
theorem through_seeds {g : Group} {r : Run} (hr : r ∈ Run.ofSeeds m blocked g.seeds) :
    ∃ p qs, Run.Through m blocked p qs r ∧ ∀ q ∈ p :: qs, q ∈ g.seeds := by
  obtain ⟨p, qs, ht, hi⟩ := (Run.cut_ofSeeds g.seeds).exists_through r hr
  exact ⟨p, qs, ht, fun q hq => hi.subset hq⟩

theorem exists_seed_below {g : Group} {r : Run} (hr : r ∈ Run.ofSeeds m blocked g.seeds) :
    ∃ p ∈ g.seeds, r.name ∈ p.domain.ancestry := by
  obtain ⟨p, qs, ht, hs⟩ := through_seeds hr
  have hp : p ∈ g.seeds := hs p List.mem_cons_self
  exact ⟨p, hp, ht.name_mem_ancestry_head (mem_seeds.mp hp).2⟩

theorem name_ne_nil {g : Group} {r : Run} (hr : r ∈ Run.ofSeeds m blocked g.seeds) : r.name ≠ [] := by
  obtain ⟨p, qs, ht, hs⟩ := through_seeds hr
  exact ht.name_ne_nil (mem_seeds.mp (hs p List.mem_cons_self)).2

theorem mem_seeds_of_pattern_exact {g : Group} {r : Run} (hr : r ∈ Run.ofSeeds m blocked g.seeds) {d : Domain}
    (hd : r.pattern = .exact d) : .exact d ∈ g.seeds := by
  obtain ⟨p, qs, ht, hs⟩ := through_seeds hr
  rw [← Run.last_of_pattern_exact hd]
  exact hs _ ht.last_mem

theorem mem_seeds_or_unblocked {g : Group} {r : Run} (hr : r ∈ Run.ofSeeds m blocked g.seeds) :
    r.pattern ∈ g.seeds ∨ blocked r.name = false := by
  obtain ⟨p, qs, ht, hs⟩ := through_seeds hr
  rcases ht.alone_or_unblocked with rfl | hb
  · rw [Run.pattern_start]
    exact Or.inl (hs p List.mem_cons_self)
  · exact Or.inr hb

theorem member_of_mem_seeds {gs : List Group} {g : Group} (hg : g ∈ gs) {p : Pattern} (hp : p ∈ g.seeds) :
    Member gs g.ip p :=
  ⟨g, hg, rfl, (mem_seeds.mp hp).1⟩

/-- The runs of a group when nothing but the owners blocks. -/
def runs (m : Comparison) (gs : List Group) (g : Group) : List Run :=
  Run.ofSeeds m ((Owners.ofGroups gs).contested g.ip) g.seeds

/-- A run of the group ends as the binding's pattern. -/
def Commits (m : Comparison) (gs : List Group) (g : Group) (b : Binding) : Prop :=
  g.ip = b.ip ∧ ∃ r ∈ g.runs m gs, r.pattern = b.pattern

end Group

/-- Some group commits the binding. -/
def Committed (m : Comparison) (gs : List Group) (b : Binding) : Prop := ∃ g ∈ gs, g.Commits m gs b

namespace Committed

variable {m : Comparison} {gs : List Group} {b : Binding}

theorem exists_member_below (hb : Committed m gs b) : ∃ p, Member gs b.ip p ∧ b.pattern.domain ∈ p.domain.ancestry := by
  obtain ⟨g, hg, hip, r, hr, hp⟩ := hb
  obtain ⟨p, hps, hn⟩ := Group.exists_seed_below hr
  rw [← hip, ← hp, Run.pattern_domain]
  exact ⟨p, Group.member_of_mem_seeds hg hps, hn⟩

theorem domain_ne_nil (hb : Committed m gs b) : b.pattern.domain ≠ [] := by
  obtain ⟨g, hg, -, r, hr, hp⟩ := hb
  rw [← hp, Run.pattern_domain]
  exact Group.name_ne_nil hr

theorem member_of_exact (hb : Committed m gs b) {d : Domain} (hd : b.pattern = .exact d) :
    Member gs b.ip (.exact d) := by
  obtain ⟨g, hg, hip, r, hr, hp⟩ := hb
  rw [← hip]
  exact Group.member_of_mem_seeds hg (Group.mem_seeds_of_pattern_exact hr (hp.trans hd))

theorem not_contested_of_wildcard (hb : Committed m gs b) (h : OwnedGroups gs) {w : Domain}
    (hw : b.pattern = .wildcard w) : ¬ Contested gs b.ip w := by
  obtain ⟨g, hg, hip, r, hr, hp⟩ := hb
  rw [hw] at hp
  rcases Group.mem_seeds_or_unblocked hr with hs | hu
  · rw [← hip]
    rw [hp] at hs
    exact h.free _ _ (Group.member_of_mem_seeds hg hs)
  · have hname : r.name = w := by rw [← Run.pattern_domain, hp]; rfl
    rw [hname, hip] at hu
    exact Owners.contested_eq_false_iff.mp hu

theorem eq_of_pattern_eq {c : Binding} (hb : Committed m gs b) (hc : Committed m gs c) (h : OwnedGroups gs)
    (hp : c.pattern = b.pattern) : c = b := by
  have hip : c.ip = b.ip := by
    cases hb' : b.pattern with
    | exact d => exact h.owned _ _ _ (hc.member_of_exact (hp.trans hb')) (hb.member_of_exact hb')
    | wildcard w =>
      by_contra hne
      obtain ⟨p, hmp, hbelow⟩ := hc.exists_member_below
      rw [hp, hb'] at hbelow
      exact hb.not_contested_of_wildcard h hb' ⟨c.ip, p, hne, hmp, Or.inl hbelow⟩
  exact Binding.eq_of_parts hp hip

end Committed

/-! ## What blocks a suffix -/

/-- A binding of another address at or above a suffix of a member contests the suffix. -/
theorem Committed.contests {m : Comparison} {gs : List Group} {b : Binding} (hb : Committed m gs b) (h : OwnedGroups gs)
    {ip : Ipv4} (hip : b.ip ≠ ip) {d : Domain} (hd : ∃ p, Member gs ip p ∧ d ∈ p.domain.ancestry)
    (habove : b.pattern.domain ∈ d.ancestry) : Contested gs ip d := by
  cases hb' : b.pattern with
  | exact e =>
    have hm := hb.member_of_exact hb'
    rw [hb'] at habove
    rcases (Domain.mem_ancestry.mp habove).2 with rfl | hdot
    · exact ⟨b.ip, _, hip, hm, Or.inl (Domain.self_mem_ancestry (h.named _ _ hm))⟩
    · exact ⟨b.ip, _, hip, hm, Or.inr (Domain.mem_parents.mpr hdot)⟩
  | wildcard w =>
    obtain ⟨p, hp, hbelow⟩ := hd
    rw [hb'] at habove
    exact absurd ⟨ip, p, hip.symm, hp, Or.inl (Domain.ancestry_trans habove hbelow)⟩
      (hb.not_contested_of_wildcard h hb')

theorem blocked_iff {o : Owners} {s : PatternSet} (hs : s.Indexed) {ip : Ipv4} {d : Domain} :
    blocked o s ip d = true ↔
      (∃ b ∈ s.toList, b.ip ≠ ip ∧ b.pattern.domain ∈ d.ancestry) ∨ o.contested ip d = true := by
  unfold blocked Owners.contested
  rw [Bool.or_assoc, Bool.or_eq_true]
  refine or_congr ?_ Iff.rfl
  simp only [List.any_eq_true, bne_iff_ne, PatternSet.mem_bindingsAt_iff hs]
  constructor
  · intro hat
    obtain ⟨a, ha, b, ⟨hb, rfl⟩, hne⟩ := hat
    exact ⟨b, hb, hne, ha⟩
  · intro hbound
    obtain ⟨b, hb, hne, ha⟩ := hbound
    exact ⟨_, ha, b, ⟨hb, rfl⟩, hne⟩

theorem blocked_eq_contested {m : Comparison} {gs : List Group} (h : OwnedGroups gs) {s : PatternSet}
    (hs : s.Indexed) (hall : ∀ b ∈ s.toList, Committed m gs b) {ip : Ipv4} {d : Domain}
    (hd : ∃ p, Member gs ip p ∧ d ∈ p.domain.ancestry) :
    blocked (Owners.ofGroups gs) s ip d = (Owners.ofGroups gs).contested ip d := by
  rw [Bool.eq_iff_iff, blocked_iff hs]
  refine or_iff_right_of_imp ?_
  intro hbound
  obtain ⟨b, hb, hip, habove⟩ := hbound
  exact Owners.contested_iff.mpr ((hall b hb).contests h hip hd habove)

/-! ## Group by group -/

theorem PatternSet.indexed_addGroup {o : Owners} {m : Comparison} {s : PatternSet} (hs : s.Indexed) (g : Group) :
    (s.addGroup o m g).Indexed := by
  unfold addGroup
  rw [← List.foldl_map]
  exact indexed_foldl_insert hs _

theorem indexed_compact (m : Comparison) (gs : List Group) : (compact m gs).Indexed :=
  List.foldlRecOn _ _ PatternSet.indexed_empty fun _ hs g _ => PatternSet.indexed_addGroup hs g

/-- One more group adds what it commits. -/
theorem PatternSet.mem_addGroup_iff {m : Comparison} {gs : List Group} (h : OwnedGroups gs) {s : PatternSet}
    (hs : s.Indexed) (hall : ∀ b ∈ s.toList, Committed m gs b) {g : Group} (hg : g ∈ gs) {c : Binding} :
    c ∈ (s.addGroup (Owners.ofGroups gs) m g).toList ↔ c ∈ s.toList ∨ g.Commits m gs c := by
  have hruns : Run.ofSeeds m (blocked (Owners.ofGroups gs) s g.ip) g.seeds = g.runs m gs :=
    Run.ofSeeds_congr fun p hp d hd => blocked_eq_contested h hs hall ⟨p, Group.member_of_mem_seeds hg hp, hd⟩
  have hcommits : ∀ c, c ∈ (g.runs m gs).map (fun r => ⟨r.pattern, g.ip⟩) ↔ g.Commits m gs c := by
    intro c
    rw [List.mem_map]
    constructor
    · intro hex
      obtain ⟨r, hr, rfl⟩ := hex
      exact ⟨rfl, r, hr, rfl⟩
    · intro hc
      obtain ⟨hip, r, hr, hp⟩ := hc
      exact ⟨r, hr, by rw [hip, hp]⟩
  unfold addGroup
  rw [hruns, ← List.foldl_map, mem_foldl_insert hs, hcommits]
  intro b hb c hc
  have hb' : Committed m gs b := ⟨g, hg, (hcommits b).mp hb⟩
  have hc' : Committed m gs c := by
    rcases List.mem_append.mp hc with hc | hc
    · exact hall c hc
    · exact ⟨g, hg, (hcommits c).mp hc⟩
  exact hb'.eq_of_pattern_eq hc' h

theorem mem_foldl_addGroup_iff {m : Comparison} {gs : List Group} (h : OwnedGroups gs) {done : List Group}
    (hdone : ∀ g ∈ done, g ∈ gs) :
    let s := done.foldl (PatternSet.addGroup (Owners.ofGroups gs) m) ∅
    s.Indexed ∧ ∀ b, b ∈ s.toList ↔ ∃ g ∈ done, g.Commits m gs b := by
  induction done using List.reverseRecOn with
  | nil => exact ⟨PatternSet.indexed_empty, fun b => by simp⟩
  | append_singleton done g ih =>
    obtain ⟨hs, hmem⟩ := ih fun g' hg' => hdone g' (List.mem_append_left _ hg')
    have hall : ∀ b ∈ (done.foldl (PatternSet.addGroup (Owners.ofGroups gs) m) ∅).toList, Committed m gs b := by
      intro b hb
      obtain ⟨g', hg', hc⟩ := (hmem b).mp hb
      exact ⟨g', hdone g' (List.mem_append_left _ hg'), hc⟩
    have hg : g ∈ gs := hdone g (List.mem_append_right _ (List.mem_singleton_self _))
    simp only [List.foldl_append, List.foldl_cons, List.foldl_nil]
    refine ⟨PatternSet.indexed_addGroup hs g, fun b => ?_⟩
    rw [PatternSet.mem_addGroup_iff h hs hall hg, hmem]
    constructor
    · intro hin
      rcases hin with ⟨g', hg', hc⟩ | hc
      · exact ⟨g', List.mem_append_left _ hg', hc⟩
      · exact ⟨g, List.mem_append_right _ (List.mem_singleton_self _), hc⟩
    · intro hex
      obtain ⟨g', hg', hc⟩ := hex
      rcases List.mem_append.mp hg' with hg' | hg'
      · exact Or.inl ⟨g', hg', hc⟩
      · cases List.mem_singleton.mp hg'
        exact Or.inr hc

theorem mem_processingOrder {gs : List Group} {g : Group} : g ∈ processingOrder gs ↔ g ∈ gs := by
  unfold processingOrder
  rw [(perm_sortOn _ _ _).mem_iff]

/-- A compaction of owned groups is what its groups commit. -/
theorem mem_compact_iff {m : Comparison} {gs : List Group} (h : OwnedGroups gs) {b : Binding} :
    b ∈ (compact m gs).toList ↔ Committed m gs b := by
  unfold compact
  rw [(mem_foldl_addGroup_iff h fun g hg => mem_processingOrder.mp hg).2]
  constructor
  · intro hex
    obtain ⟨g, hg, hc⟩ := hex
    exact ⟨g, mem_processingOrder.mp hg, hc⟩
  · intro hex
    obtain ⟨g, hg, hc⟩ := hex
    exact ⟨g, mem_processingOrder.mpr hg, hc⟩

end HostPatterns
