/-
  HostPatterns.Proofs.Rivals — what the owners' summary says, in terms of the members.

  The summary of a name is an address or `many`; yet for every address it answers
  exactly whether another one has claimed the name. A claim changes the answers as a
  list of claims would (`heldByOther_claim`), whatever was claimed before and in
  whatever order, so over all groups (`Member gs ip p`: a group of `ip` has the member
  `p`):
  - `claimedByOther_iff`: another address has a member at or below the name.
  - `otherAbove_iff`: another address has a member strictly above it.

  A name is `Contested` for an address when one or the other holds.
-/

import HostPatterns.Owners
import HostPatterns.Proofs.Ancestry

namespace HostPatterns

/-- Some group of the address has the member. -/
def Member (gs : List Group) (ip : Ipv4) (p : Pattern) : Prop :=
  ∃ g ∈ gs, g.ip = ip ∧ ∃ t ∈ g.domains, Pattern.ofText t = p

/-- Another address has a member at, below or above the name. -/
def Contested (gs : List Group) (ip : Ipv4) (d : Domain) : Prop :=
  ∃ o p, o ≠ ip ∧ Member gs o p ∧ (d ∈ p.domain.ancestry ∨ p.domain ∈ d.parents)

/-- Who is at, below or above a name is so for every name above it. -/
theorem Contested.above {gs : List Group} {ip : Ipv4} {s t : Domain} (h : Contested gs ip s) (ht : t ∈ s.ancestry)
    (hne : t ≠ []) : Contested gs ip t := by
  obtain ⟨o, p, ho, hp, hat | habove⟩ := h
  · exact ⟨o, p, ho, hp, Or.inl (Domain.ancestry_trans ht hat)⟩
  · refine ⟨o, p, ho, hp, ?_⟩
    have hp' : p.domain ∈ s.ancestry := Domain.mem_ancestry_of_parents habove
    rcases Domain.ancestry_total hp' ht hne with hup | hdown
    · by_cases heq : p.domain = t
      · left
        rw [heq]
        exact Domain.self_mem_ancestry hne
      · exact Or.inr (Domain.parents_of_mem_ancestry hup heq)
    · exact Or.inl hdown

theorem isOther_joined (ip o : Ipv4) (owner : Option Owner) :
    (OwnerMap.joined o owner).isOther ip = (o != ip || owner.any (·.isOther ip)) := by
  rcases owner with _ | (i | _)
  · simp [OwnerMap.joined, Owner.isOther]
  · by_cases h : i = o
    · simp [OwnerMap.joined, Owner.join, Owner.isOther, h]
    · simp only [OwnerMap.joined, Owner.join, if_neg h, Owner.isOther, Option.any_some]
      by_cases ho : o = ip
      · subst ho; simp [h]
      · simp [ho]
  · simp [OwnerMap.joined, Owner.join, Owner.isOther]

namespace OwnerMap

theorem heldByOther_claim (m : OwnerMap) (ip o : Ipv4) (d e : Domain) :
    (m.claim o d).heldByOther ip e = (d == e && o != ip || m.heldByOther ip e) := by
  unfold heldByOther
  rw [get?_claim]
  by_cases h : d = e
  · subst h
    rw [if_pos rfl, Option.any_some, isOther_joined]
    simp
  · rw [if_neg h, beq_false_of_ne h, Bool.false_and, Bool.false_or]

theorem heldByOther_foldl_claim (m : OwnerMap) (ip o : Ipv4) (ds : List Domain) (e : Domain) :
    (ds.foldl (·.claim o) m).heldByOther ip e = (ds.contains e && o != ip || m.heldByOther ip e) := by
  induction ds generalizing m with
  | nil => simp
  | cons d ds ih =>
    rw [List.foldl_cons, ih, heldByOther_claim, List.contains_cons, Bool.beq_comm (a := e)]
    cases d == e <;> cases ds.contains e <;> simp

end OwnerMap

namespace Owners

/-- A question that each other address's member may answer yes, and nothing takes back, is
    answered yes if one of these members does. -/
theorem ofGroups_asked (f : Owners → Bool) (ip : Ipv4) (yes : Pattern → Bool) (h0 : f ⟨∅, ∅⟩ = false)
    (h : ∀ o i t, f (o.addMember i t) = (yes (Pattern.ofText t) && i != ip || f o)) (gs : List Group) :
    f (ofGroups gs) = true ↔ ∃ o p, o ≠ ip ∧ Member gs o p ∧ yes p = true := by
  have hgroup : ∀ (g : Group) (o : Owners),
      f (o.addGroup g) = (g.domains.any (fun t => yes (Pattern.ofText t) && g.ip != ip) || f o) := by
    intro g o
    unfold addGroup
    induction g.domains generalizing o with
    | nil => simp
    | cons t ts ih => rw [List.foldl_cons, ih, h, List.any_cons, ← Bool.or_assoc, Bool.or_comm (List.any _ _)]
  have hall : ∀ (gs : List Group) (o : Owners), f (gs.foldl addGroup o) =
      (gs.any (fun g => g.domains.any fun t => yes (Pattern.ofText t) && g.ip != ip) || f o) := by
    intro gs
    induction gs with
    | nil => intro o; simp
    | cons g gs ih =>
      intro o
      rw [List.foldl_cons, ih, hgroup, List.any_cons, ← Bool.or_assoc, Bool.or_comm (List.any gs _)]
  rw [ofGroups, hall, h0, Bool.or_false]
  simp only [List.any_eq_true, Bool.and_eq_true, bne_iff_ne]
  constructor
  · intro hany
    obtain ⟨g, hg, t, ht, hyes, hip⟩ := hany
    exact ⟨g.ip, _, hip, ⟨g, hg, rfl, t, ht, rfl⟩, hyes⟩
  · intro hany
    obtain ⟨_, _, hip, ⟨g, hg, rfl, t, ht, rfl⟩, hyes⟩ := hany
    exact ⟨g, hg, t, ht, hyes, hip⟩

theorem claimedByOther_iff {gs : List Group} {ip : Ipv4} {d : Domain} :
    (ofGroups gs).claimedByOther ip d = true ↔ ∃ o p, o ≠ ip ∧ Member gs o p ∧ d ∈ p.domain.ancestry := by
  have hadd : ∀ (o : Owners) (i : Ipv4) (t : Text), (o.addMember i t).claimedByOther ip d =
      ((Pattern.ofText t).domain.ancestry.contains d && i != ip || o.claimedByOther ip d) :=
    fun o i t => OwnerMap.heldByOther_foldl_claim o.reach ip i _ d
  have hempty : claimedByOther ⟨∅, ∅⟩ ip d = false := by simp [claimedByOther, OwnerMap.heldByOther]
  simpa using ofGroups_asked (·.claimedByOther ip d) ip (·.domain.ancestry.contains d) hempty hadd gs

theorem names_heldByOther_iff {gs : List Group} {ip : Ipv4} {d : Domain} :
    (ofGroups gs).names.heldByOther ip d = true ↔ ∃ o p, o ≠ ip ∧ Member gs o p ∧ p.domain = d := by
  have hadd : ∀ (o : Owners) (i : Ipv4) (t : Text), (o.addMember i t).names.heldByOther ip d =
      ((Pattern.ofText t).domain == d && i != ip || o.names.heldByOther ip d) :=
    fun o i t => OwnerMap.heldByOther_claim o.names ip i _ d
  have hempty : OwnerMap.heldByOther (Owners.names ⟨∅, ∅⟩) ip d = false := by simp [OwnerMap.heldByOther]
  simpa using ofGroups_asked (·.names.heldByOther ip d) ip (·.domain == d) hempty hadd gs

theorem otherAbove_iff {gs : List Group} {ip : Ipv4} {d : Domain} :
    (ofGroups gs).otherAbove ip d = true ↔ ∃ o p, o ≠ ip ∧ Member gs o p ∧ p.domain ∈ d.parents := by
  unfold otherAbove
  rw [Domain.ancestry_tail, List.any_eq_true]
  constructor
  · intro habove
    obtain ⟨a, ha, hh⟩ := habove
    obtain ⟨o, p, ho, hp, rfl⟩ := names_heldByOther_iff.mp hh
    exact ⟨o, p, ho, hp, ha⟩
  · intro hrival
    obtain ⟨o, p, ho, hp, hd⟩ := hrival
    exact ⟨p.domain, hd, names_heldByOther_iff.mpr ⟨o, p, ho, hp, rfl⟩⟩

/-- Whether the owners alone keep `ip` from a wildcard at `d`. -/
def contested (o : Owners) (ip : Ipv4) (d : Domain) : Bool := o.claimedByOther ip d || o.otherAbove ip d

theorem contested_iff {gs : List Group} {ip : Ipv4} {d : Domain} :
    (ofGroups gs).contested ip d = true ↔ Contested gs ip d := by
  unfold contested
  rw [Bool.or_eq_true, claimedByOther_iff, otherAbove_iff]
  constructor
  · intro hrival
    rcases hrival with ⟨o, p, ho, hp, hd⟩ | ⟨o, p, ho, hp, hd⟩
    · exact ⟨o, p, ho, hp, Or.inl hd⟩
    · exact ⟨o, p, ho, hp, Or.inr hd⟩
  · intro hrival
    rcases hrival with ⟨o, p, ho, hp, hd | hd⟩
    · exact Or.inl ⟨o, p, ho, hp, hd⟩
    · exact Or.inr ⟨o, p, ho, hp, hd⟩

theorem contested_eq_false_iff {gs : List Group} {ip : Ipv4} {d : Domain} :
    (ofGroups gs).contested ip d = false ↔ ¬ Contested gs ip d := by
  rw [← contested_iff, Bool.not_eq_true]

end Owners

end HostPatterns
