/-
  HostPatterns.Proofs.LongestMatch — lookup through the indexes, told by a scan of all
  bindings.

  Whether a pattern `Matches` a domain is read off the two names alone. For a name with
  a character it is what `Covers` says by the ancestry (`matches_iff_covers`), and no
  sound set has a pattern of any other name. A scan `Finds` the exact binding of a
  domain, or, where there is none, the wildcard that matches it and has a longer name
  than every other binding that does.

  Lookup tries the names above a domain from the longest to the shortest, so what it
  comes to first is the longest (`pairwise_ancestry`), and the longest is what it comes
  to first, since two names of one length above one domain are one name
  (`lookup?_eq_some_iff`).
  - `lookup?_eq_scan`: of a set that is made, lookup gives what a scan finds, and
    nothing exactly if no pattern matches. The indexes give each pattern the place where
    it stands, no pattern stands twice, and adding a binding to a set keeps it so.
-/

import HostPatterns.Proofs.Produced
import Mathlib

namespace HostPatterns

/-! ## Matching -/

/-- The domains that a pattern matches, by its name alone. -/
def Pattern.Matches : Pattern → Domain → Prop
  | .exact e, d => e = d
  | .wildcard w, d => w = d ∨ Domain.below d w = true

instance : (p : Pattern) → (d : Domain) → Decidable (p.Matches d)
  | .exact e, d => inferInstanceAs (Decidable (e = d))
  | .wildcard w, d => inferInstanceAs (Decidable (w = d ∨ Domain.below d w = true))

theorem Pattern.matches_iff_covers {p : Pattern} (hp : p.domain ≠ []) {d : Domain} : p.Matches d ↔ p.Covers d := by
  cases p with
  | exact e => exact eq_comm
  | wildcard w => exact (Domain.mem_ancestry_iff_below hp).symm

namespace PatternSet

/-! ## Lookup -/

/-- What a scan of bindings finds for a domain. -/
inductive Finds (bs : List Binding) (d : Domain) (b : Binding) : Prop
  | exact : b ∈ bs → b.pattern = .exact d → Finds bs d b
  | wildcard : b ∈ bs → b.pattern.isWildcard = true → b.pattern.Matches d → (∀ c ∈ bs, c.pattern ≠ .exact d) →
      (∀ c ∈ bs, c ≠ b → c.pattern.Matches d → c.pattern.domain.length < b.pattern.domain.length) → Finds bs d b

theorem lookup?_eq_none_iff {s : PatternSet} (h : Indexed s) {d : Domain} :
    s.lookup? d = none ↔ ∀ b ∈ s.toList, ¬ b.pattern.Covers d := by
  constructor
  · intro hn b hb hc
    have hsome := lookup?_isSome_of_covers h hb hc
    rw [hn] at hsome
    cases hsome
  · intro hn
    by_contra hsome
    obtain ⟨b, hb⟩ := Option.ne_none_iff_exists'.mp hsome
    obtain ⟨hm, hc⟩ := lookup?_covers h hb
    exact hn b hm hc

/-- A wildcard is looked up only where there is no exact binding, and all others that match have shorter names. -/
theorem shorter_of_lookup? {s : PatternSet} (h : Indexed s) {d : Domain} {b : Binding} (hb : s.lookup? d = some b)
    (hw : b.pattern.isWildcard = true) :
    (∀ c ∈ s.toList, c.pattern ≠ .exact d) ∧
      ∀ c ∈ s.toList, c ≠ b → c.pattern.Covers d → c.pattern.domain.length < b.pattern.domain.length := by
  unfold lookup? at hb
  rcases Option.or_eq_some_iff.mp hb with he | ⟨hnone, hfound⟩
  · rw [((get?_eq_some_iff h).mp he).2] at hw
    cases hw
  · have hexact : ∀ c ∈ s.toList, c.pattern ≠ .exact d := by
      intro c hc hp
      rw [(get?_eq_some_iff h).mpr ⟨hc, hp⟩] at hnone
      cases hnone
    refine ⟨hexact, fun c hc hne hcov => ?_⟩
    obtain ⟨front, w, back, hsplit, hget, hfront⟩ := List.findSome?_eq_some_iff.mp hfound
    obtain ⟨hbm, hbw⟩ := (get?_eq_some_iff h).mp hget
    rcases hcov.exact_or_wildcard with hcp | ⟨v, hv, hcp⟩
    · exact absurd hcp (hexact c hc)
    · rw [hcp, hbw]
      show v.length < w.length
      have hcget : s.get? (.wildcard v) = some c := (get?_eq_some_iff h).mpr ⟨hc, hcp⟩
      have hordered := d.pairwise_ancestry.imp Domain.length_lt_of_mem_parents
      rw [hsplit] at hv hordered
      rcases List.mem_append.mp hv with hv | hv
      · -- the walk passed `v` and found nothing there
        rw [hfront v hv] at hcget
        cases hcget
      · rcases List.mem_cons.mp hv with rfl | hv
        · exact absurd (eq_of_pattern_eq h hbm hc (hcp.trans hbw.symm)) hne
        · exact (List.pairwise_cons.mp (List.pairwise_append.mp hordered).2.1).1 v hv

theorem lookup?_eq_some_iff {s : PatternSet} (h : s.Sound) {d : Domain} {b : Binding} :
    s.lookup? d = some b ↔ Finds s.toList d b := by
  have hmatches : ∀ c ∈ s.toList, (c.pattern.Matches d ↔ c.pattern.Covers d) :=
    fun c hc => Pattern.matches_iff_covers (h.named c hc)
  constructor
  · intro hb
    obtain ⟨hm, hcov⟩ := lookup?_covers h.indexed hb
    rcases hcov.exact_or_wildcard with hp | ⟨w, -, hp⟩
    · exact .exact hm hp
    · have hw : b.pattern.isWildcard = true := by rw [hp]; rfl
      obtain ⟨hexact, hlongest⟩ := shorter_of_lookup? h.indexed hb hw
      exact .wildcard hm hw ((hmatches b hm).mpr hcov) hexact fun c hc hne hcm =>
        hlongest c hc hne ((hmatches c hc).mp hcm)
  · intro hfound
    cases hfound with
    | exact hm hp =>
      unfold lookup?
      rw [(get?_eq_some_iff h.indexed).mpr ⟨hm, hp⟩]
      rfl
    | wildcard hm hw hmatch hexact hlongest =>
      -- something is looked up, and it is as long as all others
      obtain ⟨c, hc⟩ := Option.isSome_iff_exists.mp (lookup?_isSome_of_covers h.indexed hm ((hmatches b hm).mp hmatch))
      obtain ⟨hcm, hcov⟩ := lookup?_covers h.indexed hc
      by_cases hcb : c = b
      · rw [hc, hcb]
      · have hcw : c.pattern.isWildcard = true := by
          rcases hcov.exact_or_wildcard with hp | ⟨v, -, hp⟩
          · exact absurd hp (hexact c hcm)
          · rw [hp]
            rfl
        have hbc := hlongest c hcm hcb ((hmatches c hcm).mpr hcov)
        have hcb := (shorter_of_lookup? h.indexed hc hcw).2 b hm (Ne.symm hcb) ((hmatches b hm).mp hmatch)
        omega

/-- Lookup through the indexes gives what a scan finds. -/
theorem lookup?_eq_scan {s : PatternSet} (h : s.Produced) (d : Domain) :
    (∀ b, s.lookup? d = some b ↔ Finds s.toList d b) ∧
      (s.lookup? d = none ↔ ∀ b ∈ s.toList, ¬ b.pattern.Matches d) ∧
      (∀ p i, s.place? p = some i ↔ s.bindings[i]?.map Binding.pattern = some p) ∧
      (s.toList.map Binding.pattern).Nodup ∧
      ∀ t : PatternSet, t.Indexed → ∀ b, (t.insert b).Indexed ∧ ((t.insert b).toList.map Binding.pattern).Nodup := by
  have hs := h.sound
  refine ⟨fun b => lookup?_eq_some_iff hs, ?_, hs.indexed, nodup_patterns hs.indexed, ?_⟩
  · rw [lookup?_eq_none_iff hs.indexed]
    exact forall₂_congr fun b hb => not_congr (Pattern.matches_iff_covers (hs.named b hb)).symm
  · intro t ht b
    have hi := indexed_insert ht b
    exact ⟨hi, nodup_patterns hi⟩

/-- Wildcards one below the other, and an exact binding below both, of a name with an empty label and a dot at its end. -/
theorem lowest_wildcard_found :
    let s := compact .labelBoundary [⟨⟨1, 1, 1, 1⟩, [".example.com".toList]⟩, ⟨⟨2, 2, 2, 2⟩, [".cdn.example.com".toList]⟩,
      ⟨⟨3, 3, 3, 3⟩, ["www.cdn.example.com".toList]⟩, ⟨⟨4, 4, 4, 4⟩, ["..b.".toList]⟩]
    s.Produced ∧
      s.lookup? "a..cdn.example.com".toList = some ⟨.wildcard "cdn.example.com".toList, ⟨2, 2, 2, 2⟩⟩ ∧
      s.lookup? "www.cdn.example.com".toList = some ⟨.exact "www.cdn.example.com".toList, ⟨3, 3, 3, 3⟩⟩ ∧
      s.lookup? "..b.".toList = some ⟨.wildcard ".b.".toList, ⟨4, 4, 4, 4⟩⟩ ∧
      s.lookup? "notexample.com".toList = none ∧ s.lookup? [] = none := by
  intro s
  have made : s.Produced := .compacted _ _
  have list : s.toList = [⟨.wildcard "example.com".toList, ⟨1, 1, 1, 1⟩⟩, ⟨.wildcard "cdn.example.com".toList, ⟨2, 2, 2, 2⟩⟩,
      ⟨.exact "www.cdn.example.com".toList, ⟨3, 3, 3, 3⟩⟩, ⟨.wildcard ".b.".toList, ⟨4, 4, 4, 4⟩⟩] := by unfold s; cbv
  have found := fun d b => ((lookup?_eq_scan made d).1 b).mpr
  have missed := fun d => (lookup?_eq_scan made d).2.1.mpr
  rw [list] at found missed
  refine ⟨made, ?_, ?_, ?_, ?_, ?_⟩
  · exact found _ _ (.wildcard (by decide) rfl (by decide) (by decide) (by decide))
  · exact found _ _ (.exact (by decide) rfl)
  · exact found _ _ (.wildcard (by decide) rfl (by decide) (by decide) (by decide))
  · exact missed _ (by decide)
  · exact missed _ (by decide)

end PatternSet

end HostPatterns
