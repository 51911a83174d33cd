/-
  HostPatterns.Proofs.ExactOwners — the owners' summary keeps just what is asked of it.

  Of all addresses with a claim to a name the summary keeps the first, or `many` as soon as
  there is another one. What it keeps is told by the set of these addresses (`OwnerOf`):
  nothing if there is none, the address if there is one, `many` if there are two. It is also
  told by the answers, for each address, to whether another one is in the set
  (`ownerOf_iff`), as no two owners answer all addresses alike. So the answers over all
  groups, which come from the members claim by claim (`claimedByOther_iff`,
  `names_heldByOther_iff`), say what the summary holds: no claim takes an owner back or
  makes one up, whatever came before it.
  - `summary_exact`: what is kept of each name, the two questions as the members answer
    them, and nothing of it changed by another order of groups or members.
-/

import HostPatterns.Proofs.OrderIndependence

namespace HostPatterns

instance : Nontrivial Ipv4 := ⟨⟨0, 0, 0, 0⟩, ⟨0, 0, 0, 1⟩, by decide⟩

/-! ## Owners and sets of addresses -/

/-- The owner that some addresses come to. -/
inductive OwnerOf (has : Ipv4 → Prop) : Option Owner → Prop
  | nobody : (∀ ip, ¬ has ip) → OwnerOf has none
  | one {o : Ipv4} : has o → (∀ ip, has ip → ip = o) → OwnerOf has (some (.one o))
  | many {i j : Ipv4} : has i → has j → i ≠ j → OwnerOf has (some .many)

theorem OwnerOf.unique {has : Ipv4 → Prop} {x y : Option Owner} (hx : OwnerOf has x) (hy : OwnerOf has y) : x = y := by
  cases hx with
  | nobody hno =>
    cases hy with
    | nobody => rfl
    | one ho _ => exact absurd ho (hno _)
    | many hi _ _ => exact absurd hi (hno _)
  | one ho hall =>
    cases hy with
    | nobody hno => exact absurd ho (hno _)
    | one ho' _ => rw [hall _ ho']
    | many hi hj hne => exact absurd ((hall _ hi).trans (hall _ hj).symm) hne
  | many hi hj hne =>
    cases hy with
    | nobody hno => exact absurd hi (hno _)
    | one _ hall => exact absurd ((hall _ hi).trans (hall _ hj).symm) hne
    | many => rfl

/-- It is the one that tells each address whether another one is among them. -/
theorem ownerOf_iff {has : Ipv4 → Prop} {owner : Option Owner} :
    OwnerOf has owner ↔ ∀ ip, owner.any (·.isOther ip) = true ↔ ∃ o, o ≠ ip ∧ has o := by
  constructor
  · intro h ip
    cases h with
    | nobody hno => simp [hno]
    | @one o ho hall =>
      simp only [Option.any_some, Owner.isOther, bne_iff_ne]
      refine ⟨fun hne => ⟨o, hne, ho⟩, fun hother => ?_⟩
      obtain ⟨i, hne, hi⟩ := hother
      rw [← hall i hi]
      exact hne
    | @many i j hi hj hij =>
      simp only [Option.any_some, Owner.isOther, true_iff]
      by_cases hip : i = ip
      · exact ⟨j, fun h => hij (hip.trans h.symm), hj⟩
      · exact ⟨i, hip, hi⟩
  · intro h
    rcases owner with _ | (o | _)
    · refine .nobody fun o ho => ?_
      obtain ⟨ip, hne⟩ := exists_ne o
      simpa using (h ip).mpr ⟨o, hne.symm, ho⟩
    · simp only [Option.any_some, Owner.isOther, bne_iff_ne] at h
      have hall : ∀ i, has i → i = o := by
        intro i hi
        by_contra hne
        exact (h o).mpr ⟨i, hne, hi⟩ rfl
      obtain ⟨ip, hne⟩ := exists_ne o
      obtain ⟨i, -, hi⟩ := (h ip).mp hne.symm
      exact .one (hall i hi ▸ hi) hall
    · simp only [Option.any_some, Owner.isOther, true_iff] at h
      obtain ⟨i, -, hi⟩ := h ⟨0, 0, 0, 0⟩
      obtain ⟨j, hji, hj⟩ := h i
      exact .many hj hi hji

/-! ## The summary -/

/-- The address has such a member. -/
def HasMember (gs : List Group) (such : Pattern → Prop) (ip : Ipv4) : Prop := ∃ p, Member gs ip p ∧ such p

theorem exists_other_iff (gs : List Group) (such : Pattern → Prop) (ip : Ipv4) :
    (∃ o p, o ≠ ip ∧ Member gs o p ∧ such p) ↔ ∃ g ∈ gs, g.ip ≠ ip ∧ ∃ t ∈ g.domains, such (Pattern.ofText t) := by
  constructor
  · intro hother
    obtain ⟨_, _, hne, ⟨g, hg, rfl, t, ht, rfl⟩, hp⟩ := hother
    exact ⟨g, hg, hne, t, ht, hp⟩
  · intro hother
    obtain ⟨g, hg, hne, t, ht, hp⟩ := hother
    exact ⟨g.ip, _, hne, ⟨g, hg, rfl, t, ht, rfl⟩, hp⟩

theorem Reordering.hasMember_eq {gs gs' : List Group} (h : Reordering gs gs') (such : Pattern → Prop) :
    HasMember gs' such = HasMember gs such := by
  funext ip
  refine propext (exists_congr fun p => and_congr_left fun _ => ?_)
  exact ⟨h.symm.member, h.member⟩

namespace Owners

theorem ownerOf_reach (gs : List Group) (d : Domain) :
    OwnerOf (HasMember gs (d ∈ ·.domain.ancestry)) ((ofGroups gs).reach.get? d) := by
  refine ownerOf_iff.mpr fun ip => ?_
  show (ofGroups gs).claimedByOther ip d = true ↔ _
  simp only [claimedByOther_iff, HasMember, exists_and_left]

theorem ownerOf_names (gs : List Group) (d : Domain) :
    OwnerOf (HasMember gs (·.domain = d)) ((ofGroups gs).names.get? d) := by
  refine ownerOf_iff.mpr fun ip => ?_
  show (ofGroups gs).names.heldByOther ip d = true ↔ _
  simp only [names_heldByOther_iff, HasMember, exists_and_left]

/-- The summary of some groups keeps of each name what the addresses with a member at or below it, and those with one of the
    name itself, come to. So it tells each address what the members of others do: whether one is at or below a name, and
    whether one is of a name strictly above it. It is the same for the groups in another order, with their members in
    another order. -/
theorem summary_exact (gs : List Group) :
    let o := ofGroups gs
    (∀ ip d, o.claimedByOther ip d = true ↔
      ∃ g ∈ gs, g.ip ≠ ip ∧ ∃ t ∈ g.domains, d ∈ (Pattern.ofText t).domain.ancestry) ∧
    (∀ ip d, o.otherAbove ip d = true ↔
      ∃ g ∈ gs, g.ip ≠ ip ∧ ∃ t ∈ g.domains, (Pattern.ofText t).domain ∈ d.ancestry ∧ (Pattern.ofText t).domain ≠ d) ∧
    (∀ d, OwnerOf (HasMember gs (d ∈ ·.domain.ancestry)) (o.reach.get? d) ∧
      OwnerOf (HasMember gs (·.domain = d)) (o.names.get? d)) ∧
    ∀ gs', Reordering gs gs' → let o' := ofGroups gs'
      ∀ d, (o'.reach.get? d = o.reach.get? d ∧ o'.names.get? d = o.names.get? d) ∧
        ∀ ip, o'.claimedByOther ip d = o.claimedByOther ip d ∧ o'.otherAbove ip d = o.otherAbove ip d := by
  intro o
  refine ⟨fun ip d => ?_, fun ip d => ?_, fun d => ⟨ownerOf_reach gs d, ownerOf_names gs d⟩, ?_⟩
  · exact claimedByOther_iff.trans (exists_other_iff gs (d ∈ ·.domain.ancestry) ip)
  · refine otherAbove_iff.trans ?_
    simp only [Domain.mem_parents_iff]
    exact exists_other_iff gs (fun p => p.domain ∈ d.ancestry ∧ p.domain ≠ d) ip
  · intro gs' h o' d
    have hreach : ∀ e, o'.reach.get? e = o.reach.get? e := fun e =>
      (h.hasMember_eq _ ▸ ownerOf_reach gs' e).unique (ownerOf_reach gs e)
    have hnames : ∀ e, o'.names.get? e = o.names.get? e := fun e =>
      (h.hasMember_eq _ ▸ ownerOf_names gs' e).unique (ownerOf_names gs e)
    refine ⟨⟨hreach d, hnames d⟩, fun ip => ⟨?_, ?_⟩⟩
    · simp only [claimedByOther, OwnerMap.heldByOther, hreach]
    · have hheld : o'.names.heldByOther ip = o.names.heldByOther ip := by
        funext e
        simp only [OwnerMap.heldByOther, hnames]
      simp only [otherAbove, hheld]

/-- Two addresses below one name, one of them with two groups and a wildcard at the name, the other with a member given
    twice; and an address without a member. -/
theorem reordered_owners_alike :
    let a : Ipv4 := ⟨1, 1, 1, 1⟩
    let b : Ipv4 := ⟨2, 2, 2, 2⟩
    let stranger : Ipv4 := ⟨9, 9, 9, 9⟩
    let near : Group := ⟨a, ["a.example.com".toList, ".example.com".toList]⟩
    let far : Group := ⟨b, ["b.example.com".toList, "b.example.com".toList, "org".toList]⟩
    let more : Group := ⟨a, ["c.example.com".toList, "net.".toList]⟩
    let gs := [near, far, more]
    let gs' : List Group := [⟨a, more.domains.reverse⟩, ⟨b, far.domains.reverse⟩, ⟨a, near.domains.reverse⟩]
    let o := ofGroups gs
    let o' := ofGroups gs'
    Reordering gs gs' ∧
      o.reach.get? "example.com".toList = some .many ∧ o'.reach.get? "example.com".toList = some .many ∧
      o.names.get? "b.example.com".toList = some (.one b) ∧ o'.names.get? "example.com".toList = some (.one a) ∧
      o'.names.get? "com".toList = none ∧
      o.claimedByOther stranger "c.example.com".toList = true ∧ o'.claimedByOther a "c.example.com".toList = false ∧
      o.claimedByOther b [] = true ∧ o'.otherAbove b "x.example.com".toList = true ∧
      o'.otherAbove a "x.example.com".toList = false ∧ o.otherAbove b "example.com".toList = false := by
  intro a b stranger near far more gs gs' o o'
  have reordered : Reordering gs gs' := ⟨by decide, by decide⟩
  obtain ⟨claimed, above, sums, same⟩ := summary_exact gs
  have first : HasMember gs ("example.com".toList ∈ ·.domain.ancestry) a :=
    ⟨_, ⟨near, by decide, rfl, "a.example.com".toList, by decide, rfl⟩, by decide⟩
  have second : HasMember gs ("example.com".toList ∈ ·.domain.ancestry) b :=
    ⟨_, ⟨far, by decide, rfl, "b.example.com".toList, by decide, rfl⟩, by decide⟩
  have many : o.reach.get? "example.com".toList = some .many := (sums _).1.unique (.many first second (by decide))
  have one : o.names.get? "b.example.com".toList = some (.one b) := by unfold o gs near far more a b; cbv
  have wildcard : o.names.get? "example.com".toList = some (.one a) := by unfold o gs near far more a b; cbv
  have nobody : o.names.get? "com".toList = none := by unfold o gs near far more a b; cbv
  refine ⟨reordered, many, ?_, one, ?_, ?_, (claimed _ _).mpr (by decide), ?_, (claimed _ _).mpr (by decide), ?_, ?_, ?_⟩
  · exact (same gs' reordered _).1.1.trans many
  · exact (same gs' reordered _).1.2.trans wildcard
  · exact (same gs' reordered _).1.2.trans nobody
  · rw [((same gs' reordered _).2 a).1, ← Bool.not_eq_true, claimed]
    decide
  · rw [((same gs' reordered _).2 b).2, above]
    decide
  · rw [((same gs' reordered _).2 a).2, ← Bool.not_eq_true, above]
    decide
  · rw [← Bool.not_eq_true, above]
    decide

end Owners

end HostPatterns
