/-
  HostPatterns.Proofs.Produced — what is true of every pattern set that is made.

  A set is `Produced` when it is compacted from groups, of whatever texts, or read from
  a text. It is then `Sound`:
  - its indexes are those of its bindings;
  - no pattern is of the empty name, as neither a run nor a line gives one;
  - each pattern, written, is read as itself: no exact name starts with a dot, since the
    dot would have made a wildcard of it where it was first read, and small letters are
    no dots.

  A compacted binding is the pattern of some run of a group (`runOf_of_mem_compact`),
  a read one is read from a line (`Binding.ReadFrom`).
-/

import HostPatterns.Proofs.Committed
import HostPatterns.Proofs.Rereading
import Mathlib.Data.List.Infix

namespace HostPatterns

/-! ## Characters -/

/-- A character stays as it is, or it is a capital letter, whose small one is no blank and no dot, and stays. -/
theorem toLower_cases (c : Char) :
    c.toLower = c ∨ Text.isBlank c.toLower = false ∧ c.toLower ≠ '.' ∧ c.toLower.toLower = c.toLower := by
  have capital : ∀ n < 91, 65 ≤ n → Text.isBlank (Char.ofNat n).toLower = false ∧ (Char.ofNat n).toLower ≠ '.' ∧
      (Char.ofNat n).toLower.toLower = (Char.ofNat n).toLower := by
    decide
  by_cases h : c.val ≥ 'A'.val ∧ c.val ≤ 'Z'.val
  · right
    rw [ge_iff_le, UInt32.le_iff_toNat_le, UInt32.le_iff_toNat_le] at h
    have hhigh : c.toNat < 91 := Nat.lt_succ_of_le h.2
    have := capital c.toNat hhigh h.1
    rwa [Char.ofNat_toNat] at this
  · left
    unfold Char.toLower
    rw [dif_neg h]

theorem toLower_toLower (c : Char) : c.toLower.toLower = c.toLower := by
  rcases toLower_cases c with h | ⟨-, -, h⟩
  · rw [h, h]
  · exact h

theorem isBlank_toLower {c : Char} (hc : Text.isBlank c = false) : Text.isBlank c.toLower = false := by
  rcases toLower_cases c with h | ⟨h, -⟩
  · rwa [h]
  · exact h

theorem eq_dot_of_toLower {c : Char} (h : c.toLower = '.') : c = '.' := by
  rcases toLower_cases c with hc | ⟨-, hdot, -⟩
  · rw [← hc, h]
  · exact absurd h hdot

theorem eq_newline_of_toLower {c : Char} (h : c.toLower = '\n') : c = '\n' := by
  rcases toLower_cases c with hc | ⟨hblank, -⟩
  · rw [← hc, h]
  · rw [h] at hblank
    exact absurd hblank (by decide)

/-- The pieces between separators hold none, whatever was read before the first of them. -/
theorem Text.not_of_mem_splitOnPPrepend {p : Char → Bool} {t read f : Text} (hread : ∀ c ∈ read, p c = false)
    (h : f ∈ t.splitOnPPrepend p read) : ∀ c ∈ f, p c = false := by
  induction t generalizing read with
  | nil =>
    rw [List.splitOnPPrepend_nil] at h
    cases List.mem_singleton.mp h
    exact fun c hc => hread c (List.mem_reverse.mp hc)
  | cons x t ih =>
    by_cases hx : p x = true
    · rw [List.splitOnPPrepend_cons_pos hx] at h
      rcases List.mem_cons.mp h with hf | h
      · rw [hf]
        exact fun c hc => hread c (List.mem_reverse.mp hc)
      · exact ih (List.forall_mem_nil _) h
    · rw [Bool.not_eq_true] at hx
      rw [List.splitOnPPrepend_cons_neg hx] at h
      exact ih (List.forall_mem_cons.mpr ⟨hx, hread⟩) h

theorem Text.newline_not_mem_of_mem_lines {t l : Text} (h : l ∈ t.lines) : '\n' ∉ l := by
  have hpiece : l ∈ t.splitOn '\n' := by
    unfold lines at h
    simp only at h
    split at h
    · exact List.mem_of_mem_dropLast h
    · exact h
  intro hn
  have := not_of_mem_splitOnPPrepend (p := (· == '\n')) (List.forall_mem_nil _) hpiece '\n' hn
  simp at this

/-! ## Normalized patterns -/

theorem Domain.head?_of_head?_normalize {d : Domain} (h : d.normalize.head? = some '.') : d.head? = some '.' := by
  unfold normalize at h
  rw [List.head?_map, Option.map_eq_some_iff] at h
  obtain ⟨a, ha, hdot⟩ := h
  rw [eq_dot_of_toLower hdot] at ha
  split at ha
  · obtain ⟨u, hu⟩ := List.dropLast_prefix d
    rw [← hu, List.head?_append, ha]
    rfl
  · exact ha

theorem Domain.mem_of_mem_normalize {d : Domain} {c : Char} (h : c ∈ d.normalize) : ∃ a ∈ d, a.toLower = c := by
  obtain ⟨a, ha, hc⟩ := List.mem_map.mp h
  refine ⟨a, ?_, hc⟩
  split at ha
  · exact List.mem_of_mem_dropLast ha
  · exact ha

theorem Domain.length_normalize_le (d : Domain) : d.normalize.length ≤ d.length := by
  unfold normalize
  rw [List.length_map]
  split
  · exact (List.dropLast_prefix d).length_le
  · exact Nat.le_refl _

namespace Pattern

/-- What normalizing leaves of a pattern that was read is read as itself. -/
theorem ofText_render_normalize (t : Text) : ofText (ofText t).normalize.render = (ofText t).normalize := by
  cases h : ofText t with
  | wildcard d => rfl
  | exact d =>
    have hd : d.head? ≠ some '.' := (ofText_eq_exact_iff.mp h).2
    exact ofText_eq_exact_iff.mpr ⟨rfl, fun hn => hd (Domain.head?_of_head?_normalize hn)⟩

theorem mem_of_mem_render_normalize {p : Pattern} {c : Char} (h : c ∈ p.normalize.render) :
    ∃ a ∈ p.render, a.toLower = c := by
  cases p with
  | exact d => exact Domain.mem_of_mem_normalize h
  | wildcard d =>
    rcases List.mem_cons.mp h with rfl | h
    · exact ⟨'.', List.mem_cons_self, rfl⟩
    · obtain ⟨a, ha, hc⟩ := Domain.mem_of_mem_normalize h
      exact ⟨a, List.mem_cons_of_mem _ ha, hc⟩

theorem length_render_normalize_le (p : Pattern) : p.normalize.render.length ≤ p.render.length := by
  cases p with
  | exact d => exact d.length_normalize_le
  | wildcard d => exact Nat.succ_le_succ d.length_normalize_le

end Pattern

/-! ## Sound sets -/

namespace PatternSet

structure Sound (s : PatternSet) : Prop where
  indexed : s.Indexed
  named : ∀ b ∈ s.toList, b.pattern.domain ≠ []
  written : ∀ b ∈ s.toList, Pattern.ofText b.pattern.render = b.pattern

/-- Compacted from groups of any texts, or read from a text. -/
inductive Produced : PatternSet → Prop
  | compacted (m : Comparison) (gs : List Group) : Produced (compact m gs)
  | read {t : Text} {s : PatternSet} : parse t = .ok s → Produced s

theorem mem_of_mem_addGroup {o : Owners} {m : Comparison} {s : PatternSet} (hs : s.Indexed) {g : Group} {b : Binding}
    (hb : b ∈ (s.addGroup o m g).toList) :
    b ∈ s.toList ∨ ∃ r ∈ Run.ofSeeds m (blocked o s g.ip) g.seeds, b = ⟨r.pattern, g.ip⟩ := by
  unfold addGroup at hb
  rw [← List.foldl_map] at hb
  rcases mem_of_mem_foldl_insert hs hb with hb | hb
  · exact Or.inl hb
  · obtain ⟨r, hr, rfl⟩ := List.mem_map.mp hb
    exact Or.inr ⟨r, hr, rfl⟩

/-- The pattern of a run of some group, whatever was blocked when the group was walked. -/
def RunOf (m : Comparison) (gs : List Group) (b : Binding) : Prop :=
  ∃ g ∈ gs, ∃ blocked, ∃ r ∈ Run.ofSeeds m blocked g.seeds, b = ⟨r.pattern, g.ip⟩

theorem runOf_of_mem_compact {m : Comparison} {gs : List Group} {b : Binding} (hb : b ∈ (compact m gs).toList) :
    RunOf m gs b := by
  have htraced : (compact m gs).Indexed ∧ ∀ b ∈ (compact m gs).toList, RunOf m gs b := by
    unfold compact
    refine List.foldlRecOn (motive := fun s : PatternSet => s.Indexed ∧ ∀ b ∈ s.toList, RunOf m gs b) _ _ ?_ ?_
    · exact ⟨indexed_empty, fun b hb => absurd hb List.not_mem_nil⟩
    · intro s hs g hg
      refine ⟨indexed_addGroup hs.1 g, ?_⟩
      intro b hb
      rcases mem_of_mem_addGroup hs.1 hb with hb | ⟨r, hr, rfl⟩
      · exact hs.2 b hb
      · exact ⟨g, mem_processingOrder.mp hg, _, r, hr, rfl⟩
  exact htraced.2 b hb

theorem sound_compact (m : Comparison) (gs : List Group) : (compact m gs).Sound := by
  refine ⟨indexed_compact m gs, ?_, ?_⟩
  · intro b hb
    obtain ⟨g, -, blocked, r, hr, rfl⟩ := runOf_of_mem_compact hb
    rw [Run.pattern_domain]
    exact Group.name_ne_nil hr
  · intro b hb
    obtain ⟨g, -, blocked, r, hr, rfl⟩ := runOf_of_mem_compact hb
    cases hp : r.pattern with
    | wildcard w => rfl
    | exact d =>
      obtain ⟨⟨t, -, ht⟩, -⟩ := Group.mem_seeds.mp (Group.mem_seeds_of_pattern_exact hr hp)
      obtain ⟨rfl, -⟩ := Pattern.ofText_eq_exact_iff.mp ht
      exact ht

theorem sound_of_parse {t : Text} {s : PatternSet} (h : parse t = .ok s) : s.Sound := by
  have hread : ∀ b ∈ s.toList, b.pattern.domain ≠ [] ∧ Pattern.ofText b.pattern.render = b.pattern := by
    intro b hb
    obtain ⟨l, -, -, n, hl⟩ := exists_line_of_parse h hb
    obtain ⟨address, written, -, -, hp, hne⟩ := Binding.ofLine_eq_ok_iff.mp hl
    refine ⟨hne, ?_⟩
    rw [hp]
    exact Pattern.ofText_render_normalize _
  exact ⟨(toList_of_parse h).1, fun b hb => (hread b hb).1, fun b hb => (hread b hb).2⟩

theorem Produced.sound {s : PatternSet} (h : s.Produced) : s.Sound := by
  cases h with
  | compacted m gs => exact sound_compact m gs
  | read ht => exact sound_of_parse ht

end PatternSet

end HostPatterns
