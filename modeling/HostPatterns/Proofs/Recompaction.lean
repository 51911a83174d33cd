/-
  HostPatterns.Proofs.Recompaction — a set compacted once more, each of its bindings
  as a group of its own.

  Such groups are all of one size, so they are taken in their order. A lone seed is a
  run by itself, whatever is blocked, and a run of one member ends as that member. So
  what is left is to read each pattern as the seed it is written for, and to add the
  bindings one by one (`addGroup_toGroup`): a sound set has no pattern that would
  be read as another or not at all, and none twice.
  - `Produced.recompacts`: a set that is made comes back as itself.
  - `produced_iff_sound`: so what is sound can be made, and nothing else can.
-/

import HostPatterns.Proofs.Produced
import Mathlib

namespace HostPatterns

/-- Groups of one size are taken in their order. -/
theorem processingOrder_eq_self {gs : List Group} {n : Nat} (h : ∀ g ∈ gs, g.domains.length = n) :
    processingOrder gs = gs := by
  unfold processingOrder
  rw [sortOn_eq]
  apply List.mergeSort_of_pairwise
  apply List.pairwise_of_forall_mem_list
  intro g hg g' hg'
  simp [h g hg, h g' hg']

/-- A pattern that is written as itself is the one seed of its own group. -/
theorem Binding.seeds_toGroup {b : Binding} (hw : Pattern.ofText b.pattern.render = b.pattern)
    (hn : b.pattern.domain ≠ []) : b.toGroup.seeds = [b.pattern] := by
  simp [toGroup, Group.seeds, sortOn, hw, hn]

namespace PatternSet

theorem toList_foldl_insert {s : PatternSet} (h : Indexed s) {bs : List Binding}
    (hd : ((s.toList ++ bs).map Binding.pattern).Nodup) : (bs.foldl insert s).toList = s.toList ++ bs := by
  induction bs generalizing s with
  | nil => simp
  | cons b bs ih =>
    have happend := toList_insert_append h hd
    rw [List.foldl_cons, ih (indexed_insert h b) (by rwa [happend]), happend]

/-- A group of one pattern adds its binding, whatever the others are. -/
theorem addGroup_toGroup {b : Binding} (hw : Pattern.ofText b.pattern.render = b.pattern) (hn : b.pattern.domain ≠ [])
    (o : Owners) (m : Comparison) (s : PatternSet) : s.addGroup o m b.toGroup = s.insert b := by
  unfold addGroup
  rw [Binding.seeds_toGroup hw hn]
  show s.insert ⟨(Run.start b.pattern).pattern, b.ip⟩ = s.insert b
  rw [Run.pattern_start]

theorem Sound.compact_toGroups {s : PatternSet} (h : s.Sound) (m : Comparison) :
    compact m (s.toList.map Binding.toGroup) = s := by
  have order : processingOrder (s.toList.map Binding.toGroup) = s.toList.map Binding.toGroup := by
    apply processingOrder_eq_self (n := 1)
    intro g hg
    obtain ⟨b, -, rfl⟩ := List.mem_map.mp hg
    rfl
  have added : compact m (s.toList.map Binding.toGroup) = s.toList.foldl insert ∅ := by
    unfold compact
    rw [order, List.foldl_map]
    apply List.foldl_ext
    intro s' b hb
    exact addGroup_toGroup (h.written b hb) (h.named b hb) _ m s'
  apply eq_of_toList_eq (indexed_compact m _) h.indexed
  rw [added, toList_foldl_insert indexed_empty (by simpa using nodup_patterns h.indexed), toList_empty, List.nil_append]

/-- The sets that are made are the sound ones: each is the compaction of its own bindings. -/
theorem produced_iff_sound {s : PatternSet} : s.Produced ↔ s.Sound :=
  ⟨Produced.sound, fun h => h.compact_toGroups .labelBoundary ▸ .compacted _ _⟩

/-- A set that is made, compacted from its own bindings, is that set again: the same bindings in the same order. -/
theorem Produced.recompacts {s : PatternSet} (h : s.Produced) (m : Comparison) :
    compact m (s.toList.map Binding.toGroup) = s :=
  h.sound.compact_toGroups m

/-- Both kinds at one name, a wildcard at a name with a dot in front, a set read from a text; and a set that nothing
    makes, whose exact pattern is read as a wildcard. -/
theorem two_kinds_recompact :
    let s := compact .labelBoundary [⟨⟨1, 1, 1, 1⟩, ["b.com".toList, "a-b.com".toList, "x.b.com".toList, "y.b.com".toList]⟩,
      ⟨⟨2, 2, 2, 2⟩, ["..x".toList, "".toList, ".".toList]⟩, ⟨⟨1, 1, 1, 1⟩, ["b.com".toList, "q.org".toList]⟩]
    let t := "2.2.2.2\t.A.org.\n\n 1.1.1.1 \t a.org\n2.2.2.2\t.a.org".toList
    let u : PatternSet := (∅ : PatternSet).insert ⟨.exact ".a.com".toList, ⟨1, 1, 1, 1⟩⟩
    s.Produced ∧ s.toList.length = 5 ∧ (∀ m, compact m (s.toList.map Binding.toGroup) = s) ∧
      (∃ s', parse t = .ok s' ∧ s'.Produced ∧ s'.toList.length = 2 ∧ ∀ m, compact m (s'.toList.map Binding.toGroup) = s') ∧
      ∀ m, compact m (u.toList.map Binding.toGroup) ≠ u := by
  intro s t u
  have made : s.Produced := .compacted _ _
  have five : s.toList.length = 5 := by unfold s; cbv
  have two : ∃ s', parse t = .ok s' ∧ s'.toList.length = 2 := by
    have : ((parse t).map fun s' => s'.toList.length) = .ok 2 := by unfold t; cbv
    cases hp : parse t with
    | error e => rw [hp] at this; cases this
    | ok s' => rw [hp] at this; exact ⟨s', rfl, Except.ok.inj this⟩
  obtain ⟨s', read, two⟩ := two
  have unmade : ¬ u.Sound := by
    intro hu
    have list : u.toList = [⟨.exact ".a.com".toList, ⟨1, 1, 1, 1⟩⟩] := by unfold u; cbv
    have := hu.written _ (by rw [list]; exact List.mem_cons_self)
    revert this
    decide
  refine ⟨made, five, made.recompacts, ⟨s', read, .read read, two, (Produced.read read).recompacts⟩, ?_⟩
  intro m heq
  exact unmade (heq ▸ sound_compact m _)

end PatternSet

end HostPatterns
