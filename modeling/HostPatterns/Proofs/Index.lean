/-
  HostPatterns.Proofs.Index — the indexes of a pattern set, and lookup by membership.

  A set is `Indexed` when its two indexes give a place to exactly the patterns that
  stand there. The empty set is, and adding a binding keeps it (`indexed_insert`).

  Proved of an indexed set:
  - `get?_eq_some_iff`: a pattern's binding is the one in the list with that pattern.
  - `toList_insert`: a new pattern goes to the end of the list, a bound one changes nothing.
  - `nodup_patterns`, `eq_of_pattern_eq`: no pattern stands twice, so no two bindings have
    one pattern.
  - `eq_of_toList_eq`: the list determines the set.
  - `resolve?_eq_some_of_covers`: a domain resolves to `ip` when some binding covers it
    and every binding that does is of `ip`.
  - `lookup?_congr`: lookup depends only on which bindings there are.
  - `mem_insert_iff`, `mem_foldl_insert`: bindings that agree on their patterns are all in
    the set once they were added.
-/

import HostPatterns.Proofs.Ancestry
import HostPatterns.PatternSet
import Mathlib.Data.List.Nodup

namespace HostPatterns

/-- The domains that a pattern matches. -/
def Pattern.Covers : Pattern → Domain → Prop
  | .exact e, d => d = e
  | .wildcard w, d => w ∈ d.ancestry

theorem Pattern.Covers.mem_ancestry {p : Pattern} {d : Domain} (h : p.Covers d) (hd : d ≠ []) : p.domain ∈ d.ancestry := by
  cases p with
  | exact e =>
    cases (show d = e from h)
    exact Domain.self_mem_ancestry hd
  | wildcard w => exact h

theorem Pattern.Covers.exact_or_wildcard {p : Pattern} {d : Domain} (h : p.Covers d) :
    p = .exact d ∨ ∃ w ∈ d.ancestry, p = .wildcard w := by
  cases p with
  | exact e => exact Or.inl (congrArg _ (Eq.symm h))
  | wildcard w => exact Or.inr ⟨w, h, rfl⟩

/-- No pattern that matches a domain has a longer name than the exact one. -/
theorem Pattern.Covers.length_le {p : Pattern} {d : Domain} (h : p.Covers d) : p.domain.length ≤ d.length := by
  cases p with
  | exact e => exact Nat.le_of_eq (congrArg List.length (Eq.symm h))
  | wildcard w => exact (Domain.suffix_of_mem_ancestry h).length_le

theorem Binding.eq_of_parts {b c : Binding} (hp : c.pattern = b.pattern) (hip : c.ip = b.ip) : c = b := by
  obtain ⟨p, i⟩ := b
  obtain ⟨q, j⟩ := c
  cases hp
  cases hip
  rfl

namespace PatternSet

/-- Each pattern's place is where it stands among the bindings. -/
def Indexed (s : PatternSet) : Prop := ∀ p i, s.place? p = some i ↔ s.bindings[i]?.map Binding.pattern = some p

/-! ## Adding a binding -/

@[simp] theorem toList_empty : (∅ : PatternSet).toList = [] := rfl

theorem indexed_empty : Indexed ∅ := by
  intro p i
  have hp : (∅ : PatternSet).place? p = none := by
    cases p with
    | exact d => exact Std.ExtTreeMap.getElem?_empty
    | wildcard d => exact Std.ExtTreeMap.getElem?_empty
  have hb : (∅ : PatternSet).bindings[i]? = none := rfl
  rw [hp, hb]
  simp

@[simp] theorem bindings_push (s : PatternSet) (b : Binding) : (s.push b).bindings = s.bindings.push b := by
  obtain ⟨pattern, ip⟩ := b
  cases pattern <;> rfl

theorem place?_push (s : PatternSet) (b : Binding) (p : Pattern) :
    (s.push b).place? p = if b.pattern = p then some s.bindings.size else s.place? p := by
  obtain ⟨pattern, ip⟩ := b
  cases pattern <;> cases p <;> simp [push, place?, Std.ExtTreeMap.getElem?_insert]

/-- A place that is given lies among the bindings. -/
theorem Indexed.place?_lt {s : PatternSet} (h : Indexed s) {p : Pattern} {i : Nat} (hp : s.place? p = some i) :
    i < s.bindings.size := by
  have hi := (h p i).mp hp
  by_contra hn
  rw [Array.getElem?_eq_none (by omega)] at hi
  cases hi

theorem indexed_push {s : PatternSet} (h : Indexed s) {b : Binding} (hb : s.place? b.pattern = none) :
    Indexed (s.push b) := by
  intro p i
  rw [place?_push, bindings_push, Array.getElem?_push]
  by_cases hp : b.pattern = p
  · subst hp
    rw [if_pos rfl]
    by_cases hi : i = s.bindings.size
    · simp [hi]
    · rw [if_neg hi, ← h, hb]
      simp [Ne.symm hi]
  · rw [if_neg hp]
    by_cases hi : i = s.bindings.size
    · subst hi
      rw [if_pos rfl]
      constructor
      · intro hs
        exact absurd (h.place?_lt hs) (Nat.lt_irrefl _)
      · intro hs
        exact absurd (by simpa using hs) hp
    · rw [if_neg hi]
      exact h p i

theorem indexed_insert {s : PatternSet} (h : Indexed s) (b : Binding) : Indexed (s.insert b) := by
  unfold insert
  split
  · exact h
  · rename_i hn
    exact indexed_push h (by simpa using hn)

theorem indexed_foldl_insert {s : PatternSet} (h : Indexed s) (bs : List Binding) : Indexed (bs.foldl insert s) := by
  induction bs generalizing s with
  | nil => exact h
  | cons b bs ih => exact ih (indexed_insert h b)

/-! ## The list of bindings -/

theorem Indexed.get?_eq_some_iff_getElem? {s : PatternSet} (h : Indexed s) {p : Pattern} {b : Binding} :
    s.get? p = some b ↔ ∃ i : Nat, s.bindings[i]? = some b ∧ b.pattern = p := by
  simp only [get?, Option.bind_eq_bind, Option.bind_eq_some_iff]
  constructor
  · intro hplace
    obtain ⟨i, hi, hb⟩ := hplace
    have := (h p i).mp hi
    rw [hb] at this
    exact ⟨i, hb, by simpa using this⟩
  · intro hplace
    obtain ⟨i, hb, hp⟩ := hplace
    exact ⟨i, (h p i).mpr (by rw [hb, Option.map_some, hp]), hb⟩

theorem get?_eq_some_iff {s : PatternSet} (h : Indexed s) {p : Pattern} {b : Binding} :
    s.get? p = some b ↔ b ∈ s.toList ∧ b.pattern = p := by
  rw [h.get?_eq_some_iff_getElem?, toList, Array.mem_toList_iff, Array.mem_iff_getElem?]
  exact ⟨fun ⟨i, hb, hp⟩ => ⟨⟨i, hb⟩, hp⟩, fun ⟨⟨i, hb⟩, hp⟩ => ⟨i, hb, hp⟩⟩

/-- No two bindings have one pattern. -/
theorem eq_of_pattern_eq {s : PatternSet} (h : Indexed s) {b c : Binding} (hb : b ∈ s.toList) (hc : c ∈ s.toList)
    (hp : c.pattern = b.pattern) : c = b := by
  have hgb : s.get? b.pattern = some b := (get?_eq_some_iff h).mpr ⟨hb, rfl⟩
  have hgc : s.get? b.pattern = some c := (get?_eq_some_iff h).mpr ⟨hc, hp⟩
  rw [hgb] at hgc
  exact (Option.some.inj hgc).symm

theorem isSome_place?_iff {s : PatternSet} (h : Indexed s) {p : Pattern} :
    (s.place? p).isSome = true ↔ ∃ b ∈ s.toList, b.pattern = p := by
  constructor
  · intro hp
    obtain ⟨i, hi⟩ := Option.isSome_iff_exists.mp hp
    have hlt := h.place?_lt hi
    have hb := (h p i).mp hi
    rw [Array.getElem?_eq_getElem hlt, Option.map_some, Option.some.injEq] at hb
    exact ⟨s.bindings[i], Array.mem_toList_iff.mpr (Array.getElem_mem hlt), hb⟩
  · intro hbound
    obtain ⟨b, hb, rfl⟩ := hbound
    obtain ⟨i, hi⟩ := Array.mem_iff_getElem?.mp (Array.mem_toList_iff.mp hb)
    rw [(h b.pattern i).mpr (by rw [hi, Option.map_some])]
    rfl

theorem insert_of_bound {s : PatternSet} (h : Indexed s) {b : Binding} (hb : ∃ c ∈ s.toList, c.pattern = b.pattern) :
    s.insert b = s := by
  unfold insert
  rw [if_pos ((isSome_place?_iff h).mpr hb)]

theorem unbound_of_nodup {s : PatternSet} {b : Binding} {bs : List Binding}
    (hd : ((s.toList ++ b :: bs).map Binding.pattern).Nodup) : ∀ c ∈ s.toList, c.pattern ≠ b.pattern := by
  intro c hc
  rw [List.map_append, List.nodup_append] at hd
  exact hd.2.2 _ (List.mem_map_of_mem hc) _ (List.mem_map_of_mem List.mem_cons_self)

theorem toList_insert_of_unbound {s : PatternSet} (h : Indexed s) {b : Binding}
    (hb : ∀ c ∈ s.toList, c.pattern ≠ b.pattern) : (s.insert b).toList = s.toList ++ [b] := by
  have hn : ¬ (s.place? b.pattern).isSome = true := by
    rw [isSome_place?_iff h]
    intro hbound
    obtain ⟨c, hc, hp⟩ := hbound
    exact hb c hc hp
  unfold insert
  rw [if_neg hn, toList, bindings_push, Array.toList_push]
  rfl

/-- Of bindings whose patterns are all different, the first goes to the end of the list. -/
theorem toList_insert_append {s : PatternSet} (h : Indexed s) {b : Binding} {bs : List Binding}
    (hd : ((s.toList ++ b :: bs).map Binding.pattern).Nodup) : (s.insert b).toList ++ bs = s.toList ++ b :: bs := by
  rw [toList_insert_of_unbound h (unbound_of_nodup hd), List.append_assoc, List.singleton_append]

theorem toList_insert {s : PatternSet} (h : Indexed s) (b : Binding) :
    (s.insert b).toList = if b.pattern ∈ s.toList.map Binding.pattern then s.toList else s.toList ++ [b] := by
  split
  · rename_i hb
    rw [insert_of_bound h (List.mem_map.mp hb)]
  · rename_i hb
    exact toList_insert_of_unbound h fun c hc hp => hb (List.mem_map.mpr ⟨c, hc, hp⟩)

/-- A binding that agrees with those of its pattern is in the set once it was added. -/
theorem mem_insert_iff {s : PatternSet} (h : Indexed s) {b c : Binding}
    (hb : ∀ c ∈ s.toList, c.pattern = b.pattern → c = b) : c ∈ (s.insert b).toList ↔ c ∈ s.toList ∨ c = b := by
  rw [toList_insert h]
  split
  · rename_i hp
    obtain ⟨d, hd, hp⟩ := List.mem_map.mp hp
    constructor
    · exact Or.inl
    · intro hin
      rcases hin with hc | rfl
      · exact hc
      · exact hb d hd hp ▸ hd
  · rw [List.mem_append, List.mem_singleton]

theorem mem_insert_of_mem {s : PatternSet} (h : Indexed s) {b c : Binding} (hc : c ∈ s.toList) : c ∈ (s.insert b).toList := by
  rw [toList_insert h]
  split
  · exact hc
  · exact List.mem_append_left _ hc

theorem mem_of_mem_insert {s : PatternSet} (h : Indexed s) {b c : Binding} (hc : c ∈ (s.insert b).toList) :
    c ∈ s.toList ∨ c = b := by
  rw [toList_insert h] at hc
  split at hc
  · exact Or.inl hc
  · exact (List.mem_append.mp hc).imp_right List.mem_singleton.mp

theorem mem_of_mem_foldl_insert {s : PatternSet} (h : Indexed s) {bs : List Binding} {c : Binding}
    (hc : c ∈ (bs.foldl insert s).toList) : c ∈ s.toList ∨ c ∈ bs := by
  induction bs generalizing s with
  | nil => exact Or.inl hc
  | cons b bs ih =>
    rcases ih (indexed_insert h b) hc with hc | hc
    · rcases mem_of_mem_insert h hc with hc | rfl
      · exact Or.inl hc
      · exact Or.inr List.mem_cons_self
    · exact Or.inr (List.mem_cons_of_mem _ hc)

/-- Bindings that agree on their patterns are all in the set once they were added. -/
theorem mem_foldl_insert {s : PatternSet} (h : Indexed s) {bs : List Binding}
    (hb : ∀ b ∈ bs, ∀ c ∈ s.toList ++ bs, c.pattern = b.pattern → c = b) {c : Binding} :
    c ∈ (bs.foldl insert s).toList ↔ c ∈ s.toList ∨ c ∈ bs := by
  induction bs generalizing s with
  | nil => simp
  | cons b bs ih =>
    have hmem : ∀ c, c ∈ (s.insert b).toList ↔ c ∈ s.toList ∨ c = b := by
      intro c
      refine mem_insert_iff h ?_
      intro c hc
      exact hb b List.mem_cons_self c (List.mem_append_left _ hc)
    have hb' : ∀ d ∈ bs, ∀ c ∈ (s.insert b).toList ++ bs, c.pattern = d.pattern → c = d := by
      intro d hd c hc
      apply hb d (List.mem_cons_of_mem _ hd) c
      rw [List.mem_append, hmem] at hc
      rw [List.mem_append, List.mem_cons]
      rcases hc with (hc | hc) | hc
      · exact Or.inl hc
      · exact Or.inr (Or.inl hc)
      · exact Or.inr (Or.inr hc)
    rw [List.foldl_cons, ih (indexed_insert h b) hb', hmem, List.mem_cons, or_assoc]

theorem nodup_patterns {s : PatternSet} (h : Indexed s) : (s.toList.map Binding.pattern).Nodup := by
  rw [List.nodup_iff_getElem?_ne_getElem?]
  intro i j hij hj he
  rw [List.length_map] at hj
  have hp : s.bindings[i]?.map Binding.pattern = s.bindings[j]?.map Binding.pattern := by
    simpa [toList] using he
  have hlt : j < s.bindings.size := by simpa [toList] using hj
  rw [Array.getElem?_eq_getElem hlt, Option.map_some] at hp
  have hi := (h _ i).mpr hp
  have hj := (h _ j).mpr (by rw [Array.getElem?_eq_getElem hlt, Option.map_some])
  rw [hi] at hj
  cases hj
  exact Nat.lt_irrefl _ hij

theorem nodup_toList {s : PatternSet} (h : Indexed s) : s.toList.Nodup := (nodup_patterns h).of_map _

theorem eq_of_toList_eq {s t : PatternSet} (hs : Indexed s) (ht : Indexed t) (h : s.toList = t.toList) : s = t := by
  have hb : s.bindings = t.bindings := Array.toList_inj.mp h
  have hplace : ∀ p, s.place? p = t.place? p := by
    intro p
    ext i
    rw [hs p i, ht p i, hb]
  obtain ⟨bindings, exacts, wildcards⟩ := s
  obtain ⟨bindings', exacts', wildcards'⟩ := t
  have he : exacts = exacts' := Std.ExtTreeMap.ext_getElem? fun d => hplace (.exact d)
  have hw : wildcards = wildcards' := Std.ExtTreeMap.ext_getElem? fun d => hplace (.wildcard d)
  cases hb
  rw [he, hw]

/-! ## Lookup -/

theorem mem_bindingsAt_iff {s : PatternSet} (h : Indexed s) {d : Domain} {b : Binding} :
    b ∈ s.bindingsAt d ↔ b ∈ s.toList ∧ b.pattern.domain = d := by
  unfold bindingsAt
  simp only [List.mem_filterMap, List.mem_cons, List.not_mem_nil, or_false, get?_eq_some_iff h]
  constructor
  · intro hat
    rcases hat with ⟨p, rfl | rfl, hb, hp⟩
    · exact ⟨hb, by rw [hp]; rfl⟩
    · exact ⟨hb, by rw [hp]; rfl⟩
  · intro hat
    obtain ⟨hb, rfl⟩ := hat
    refine ⟨b.pattern, ?_, hb, rfl⟩
    cases b.pattern with
    | exact d => exact Or.inl rfl
    | wildcard d => exact Or.inr rfl

theorem lookup?_covers {s : PatternSet} (h : Indexed s) {d : Domain} {b : Binding} (hb : s.lookup? d = some b) :
    b ∈ s.toList ∧ b.pattern.Covers d := by
  unfold lookup? at hb
  rcases Option.or_eq_some_iff.mp hb with he | ⟨-, hw⟩
  · obtain ⟨hm, hp⟩ := (get?_eq_some_iff h).mp he
    exact ⟨hm, by rw [hp]; rfl⟩
  · obtain ⟨w, hwd, hg⟩ := List.exists_of_findSome?_eq_some hw
    obtain ⟨hm, hp⟩ := (get?_eq_some_iff h).mp hg
    exact ⟨hm, by rw [hp]; exact hwd⟩

theorem lookup?_isSome_of_covers {s : PatternSet} (h : Indexed s) {d : Domain} {b : Binding} (hb : b ∈ s.toList)
    (hc : b.pattern.Covers d) : (s.lookup? d).isSome = true := by
  have hg : s.get? b.pattern = some b := (get?_eq_some_iff h).mpr ⟨hb, rfl⟩
  unfold lookup?
  rw [Option.isSome_or, Bool.or_eq_true]
  cases hp : b.pattern with
  | exact e =>
    rw [hp] at hc hg
    left
    rw [show d = e from hc, hg]
    rfl
  | wildcard w =>
    rw [hp] at hc hg
    right
    rw [List.findSome?_isSome_iff]
    exact ⟨w, hc, by rw [hg]; rfl⟩

theorem resolve?_eq_some_of_covers {s : PatternSet} (h : Indexed s) {d : Domain} {ip : Ipv4}
    (hex : ∃ b ∈ s.toList, b.pattern.Covers d) (hall : ∀ b ∈ s.toList, b.pattern.Covers d → b.ip = ip) :
    s.resolve? d = some ip := by
  obtain ⟨b, hb, hc⟩ := hex
  obtain ⟨c, hl⟩ := Option.isSome_iff_exists.mp (lookup?_isSome_of_covers h hb hc)
  obtain ⟨hm, hcov⟩ := lookup?_covers h hl
  rw [resolve?, hl, Option.map_some, hall c hm hcov]

theorem lookup?_congr {s t : PatternSet} (hs : Indexed s) (ht : Indexed t) (h : ∀ b, b ∈ s.toList ↔ b ∈ t.toList)
    (d : Domain) : s.lookup? d = t.lookup? d := by
  have hg : s.get? = t.get? := by
    funext p
    ext b
    rw [get?_eq_some_iff hs, get?_eq_some_iff ht, h]
  unfold lookup?
  rw [hg]

end PatternSet

end HostPatterns
