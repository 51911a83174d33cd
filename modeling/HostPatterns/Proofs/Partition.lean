/-
  HostPatterns.Proofs.Partition — grouping as a partition of the kept records.

  The first element of each key is a sublist with distinct keys that misses no key
  (`firstOfEach_sublist`, `nodup_firstOfEach`, `key_mem_firstOfEach`), and the whole
  list when the keys are distinct already (`firstOfEach_eq_self`); all four come from
  what one more element does (`firstOfEach_snoc`).

  So, of `Grouping.ofRecords`:
  - `domains_of_mem_groups`: a group has exactly the domains of the kept records of its address.
  - `member_iff`: the members of the groups are the kept records.
  - `hostGroups_ofRecords`: plain records give `HostGroups`, the groups that compaction
    is made for: members that are no wildcards, each of one address only. They are
    `OwnedGroups`, in which wildcards stand too where no other address could be met.
  - `exists_group_of_perm`: reordered records of distinct domains give the same groups,
    up to the order of the groups and of the domains in each.
-/

import HostPatterns.Proofs.Rivals
import Mathlib.Data.List.Induction
import Mathlib.Data.List.Nodup

namespace HostPatterns

/-! ## The first of each key -/

section

variable {α κ : Type} [Ord κ] [Std.TransOrd κ] [Std.LawfulEqOrd κ] (key : α → κ)

theorem contains_keepUnseen (xs : List α) (k : κ) :
    (xs.foldl (keepUnseen key) (∅, [])).1.contains k = true ↔ k ∈ (firstOfEach key xs).map key := by
  unfold firstOfEach
  induction xs using List.reverseRecOn with
  | nil => simp
  | append_singleton xs x ih =>
    rw [List.foldl_append, List.foldl_cons, List.foldl_nil]
    generalize xs.foldl (keepUnseen key) (∅, []) = st at ih ⊢
    unfold keepUnseen
    split
    · exact ih
    · rw [Std.ExtTreeSet.contains_insert, Bool.or_eq_true, beq_iff_eq, Std.LawfulEqCmp.compare_eq_iff_eq, ih]
      simp [eq_comm, or_comm]

theorem firstOfEach_snoc [DecidableEq κ] (xs : List α) (x : α) :
    firstOfEach key (xs ++ [x]) =
      if key x ∈ (firstOfEach key xs).map key then firstOfEach key xs else firstOfEach key xs ++ [x] := by
  have hseen := contains_keepUnseen key xs (key x)
  have hfold : (xs ++ [x]).foldl (keepUnseen key) (∅, []) = keepUnseen key (xs.foldl (keepUnseen key) (∅, [])) x := by
    rw [List.foldl_append, List.foldl_cons, List.foldl_nil]
  unfold firstOfEach at hseen ⊢
  rw [hfold]
  by_cases h : (xs.foldl (keepUnseen key) (∅, [])).1.contains (key x) = true
  · rw [if_pos (hseen.mp h), keepUnseen, if_pos h]
  · rw [if_neg (h ∘ hseen.mpr), keepUnseen, if_neg h, List.reverse_cons]

theorem firstOfEach_sublist [DecidableEq κ] (xs : List α) : (firstOfEach key xs).Sublist xs := by
  induction xs using List.reverseRecOn with
  | nil => exact List.Sublist.slnil
  | append_singleton xs x ih =>
    rw [firstOfEach_snoc]
    split
    · exact ih.trans (List.sublist_append_left _ _)
    · exact ih.append (List.Sublist.refl _)

theorem nodup_firstOfEach [DecidableEq κ] (xs : List α) : ((firstOfEach key xs).map key).Nodup := by
  induction xs using List.reverseRecOn with
  | nil => exact List.nodup_nil
  | append_singleton xs x ih =>
    rw [firstOfEach_snoc]
    split
    · exact ih
    · rename_i hx
      rw [List.map_append, List.nodup_append]
      refine ⟨ih, List.nodup_singleton _, ?_⟩
      intro k hk l hl
      rw [List.mem_singleton.mp hl]
      intro heq
      subst heq
      exact hx hk

theorem key_mem_firstOfEach [DecidableEq κ] {xs : List α} {x : α} (h : x ∈ xs) :
    key x ∈ (firstOfEach key xs).map key := by
  induction xs using List.reverseRecOn with
  | nil => cases h
  | append_singleton xs y ih =>
    rw [firstOfEach_snoc]
    split
    · rename_i hy
      rcases List.mem_append.mp h with h | h
      · exact ih h
      · rwa [List.mem_singleton.mp h]
    · rw [List.map_append]
      rcases List.mem_append.mp h with h | h
      · exact List.mem_append_left _ (ih h)
      · rw [List.mem_singleton.mp h]
        exact List.mem_append_right _ (List.mem_singleton_self _)

theorem firstOfEach_eq_self [DecidableEq κ] {xs : List α} (h : (xs.map key).Nodup) : firstOfEach key xs = xs := by
  induction xs using List.reverseRecOn with
  | nil => rfl
  | append_singleton xs x ih =>
    rw [List.map_append, List.nodup_append] at h
    obtain ⟨hxs, -, hne⟩ := h
    rw [firstOfEach_snoc, ih hxs, if_neg]
    intro hx
    exact hne _ hx _ (List.mem_singleton_self _) rfl

end

/-! ## The groups of records -/

theorem Ipv4.toNat_injective {i j : Ipv4} (h : i.toNat = j.toNat) : i = j := by
  obtain ⟨a, b, c, d⟩ := i
  obtain ⟨a', b', c', d'⟩ := j
  simp only [toNat] at h
  have := a.toNat_lt; have := b.toNat_lt; have := c.toNat_lt; have := d.toNat_lt
  have := a'.toNat_lt; have := b'.toNat_lt; have := c'.toNat_lt; have := d'.toNat_lt
  have ha : a.toNat = a'.toNat := by omega
  have hb : b.toNat = b'.toNat := by omega
  have hc : c.toNat = c'.toNat := by omega
  have hd : d.toNat = d'.toNat := by omega
  rw [UInt8.toNat_inj.mp ha, UInt8.toNat_inj.mp hb, UInt8.toNat_inj.mp hc, UInt8.toNat_inj.mp hd]

namespace Grouping

/-- The domains of the records of an address, in order. -/
def domainsOf (ip : Ipv4) (rs : List Record) : List Domain := (rs.filter (·.ip = ip)).map Record.domain

theorem mem_domainsOf {ip : Ipv4} {rs : List Record} {d : Domain} : d ∈ domainsOf ip rs ↔ ⟨ip, d⟩ ∈ rs := by
  unfold domainsOf
  rw [List.mem_map]
  constructor
  · intro hin
    obtain ⟨r, hr, rfl⟩ := hin
    obtain ⟨hm, hip⟩ := List.mem_filter.mp hr
    rw [← of_decide_eq_true hip]
    exact hm
  · intro h
    exact ⟨_, List.mem_filter.mpr ⟨h, decide_eq_true rfl⟩, rfl⟩

theorem getElem?_members (rs : List Record) (ip : Ipv4) :
    ((members rs)[ip.toNat]?.getD #[]).toList = domainsOf ip rs := by
  unfold domainsOf
  induction rs using List.reverseRecOn with
  | nil => simp [members]
  | append_singleton rs r ih =>
    rw [members, List.foldl_append, List.foldl_cons, List.foldl_nil, ← members, Std.ExtTreeMap.getElem?_alter,
      List.filter_append, List.map_append, ← ih]
    by_cases h : r.ip = ip
    · subst h
      simp
    · have hn : ¬ compare r.ip.toNat ip.toNat = .eq := fun e => h (Ipv4.toNat_injective (Nat.compare_eq_eq.mp e))
      rw [if_neg hn]
      simp [h]

theorem groups_ofRecords (rs : List Record) :
    (ofRecords rs).groups =
      (firstOfEach (·.ip.toNat) (ofRecords rs).records).map fun r => ⟨r.ip, domainsOf r.ip (ofRecords rs).records⟩ := by
  show List.map _ _ = _
  apply List.map_congr_left
  intro r _
  rw [getElem?_members]
  rfl

theorem nodup_ips (rs : List Record) : ((ofRecords rs).groups.map Group.ip).Nodup := by
  have hkeys : ((ofRecords rs).groups.map fun g => g.ip.toNat).Nodup := by
    rw [groups_ofRecords, List.map_map]
    exact nodup_firstOfEach (fun r : Record => r.ip.toNat) _
  exact List.Nodup.of_map Ipv4.toNat (by rwa [List.map_map])

theorem eq_of_ip_eq {rs : List Record} {g g' : Group} (hg : g ∈ (ofRecords rs).groups)
    (hg' : g' ∈ (ofRecords rs).groups) (hip : g.ip = g'.ip) : g = g' :=
  List.inj_on_of_nodup_map (nodup_ips rs) hg hg' hip

theorem nodup_domains (rs : List Record) : ((ofRecords rs).records.map Record.domain).Nodup :=
  nodup_firstOfEach Record.domain rs

/-- Records of distinct domains are all kept. -/
theorem records_of_nodup {rs : List Record} (h : (rs.map Record.domain).Nodup) : (ofRecords rs).records = rs :=
  firstOfEach_eq_self Record.domain h

theorem mem_of_mem_records {rs : List Record} {r : Record} (h : r ∈ (ofRecords rs).records) : r ∈ rs :=
  (firstOfEach_sublist Record.domain rs).subset h

/-- Every record is kept, or counted as a duplicate. -/
theorem length_records_add (rs : List Record) : (ofRecords rs).records.length + (ofRecords rs).duplicates = rs.length := by
  have hle := (firstOfEach_sublist Record.domain rs).length_le
  show (firstOfEach Record.domain rs).length + (rs.length - (firstOfEach Record.domain rs).length) = rs.length
  omega

theorem domains_of_mem_groups {rs : List Record} {g : Group} (h : g ∈ (ofRecords rs).groups) :
    g.domains = domainsOf g.ip (ofRecords rs).records := by
  rw [groups_ofRecords] at h
  obtain ⟨r, -, rfl⟩ := List.mem_map.mp h
  rfl

theorem exists_group_of_mem {rs : List Record} {r : Record} (h : r ∈ (ofRecords rs).records) :
    ⟨r.ip, domainsOf r.ip (ofRecords rs).records⟩ ∈ (ofRecords rs).groups := by
  rw [groups_ofRecords]
  obtain ⟨leader, hl, hip⟩ := List.mem_map.mp (key_mem_firstOfEach (·.ip.toNat) h)
  refine List.mem_map.mpr ⟨leader, hl, ?_⟩
  rw [Ipv4.toNat_injective hip]

theorem exists_record_of_mem_groups {rs : List Record} {g : Group} (h : g ∈ (ofRecords rs).groups) :
    ∃ r ∈ (ofRecords rs).records, r.ip = g.ip := by
  rw [groups_ofRecords] at h
  obtain ⟨r, hr, rfl⟩ := List.mem_map.mp h
  exact ⟨r, (firstOfEach_sublist _ _).subset hr, rfl⟩

theorem member_iff {rs : List Record} {ip : Ipv4} {p : Pattern} :
    Member (ofRecords rs).groups ip p ↔ ⟨ip, p.render⟩ ∈ (ofRecords rs).records ∧ Pattern.ofText p.render = p := by
  constructor
  · intro hm
    obtain ⟨g, hg, rfl, t, ht, rfl⟩ := hm
    rw [domains_of_mem_groups hg, mem_domainsOf] at ht
    rw [Pattern.render_ofText]
    exact ⟨ht, rfl⟩
  · intro hm
    obtain ⟨hr, hp⟩ := hm
    exact ⟨_, exists_group_of_mem hr, rfl, p.render, mem_domainsOf.mpr hr, hp⟩

end Grouping

/-! ## Host groups -/

/-- A name that is written as it is: not empty, and without the dot that would make it a wildcard. -/
def Domain.Plain (d : Domain) : Prop := d ≠ [] ∧ d.head? ≠ some '.'

instance (d : Domain) : Decidable d.Plain := inferInstanceAs (Decidable (_ ∧ _))

theorem Domain.Plain.ofText {d : Domain} (h : d.Plain) : Pattern.ofText d = .exact d :=
  Pattern.ofText_eq_exact_iff.mpr ⟨rfl, h.2⟩

/-- Groups of plain names, no name in groups of two addresses. -/
structure HostGroups (gs : List Group) : Prop where
  plain : ∀ g ∈ gs, ∀ t ∈ g.domains, Domain.Plain t
  owned : ∀ ip ip' p, Member gs ip p → Member gs ip' p → ip = ip'

theorem HostGroups.exact_of_member {gs : List Group} (h : HostGroups gs) {ip : Ipv4} {p : Pattern}
    (hp : Member gs ip p) : p = .exact p.domain ∧ p.domain ≠ [] := by
  obtain ⟨g, hg, -, t, ht, rfl⟩ := hp
  have ht := h.plain g hg t ht
  rw [ht.ofText]
  exact ⟨rfl, ht.1⟩

/-- Groups in which no exact name has two addresses, and no wildcard could meet another address. -/
structure OwnedGroups (gs : List Group) : Prop where
  named : ∀ ip d, Member gs ip (.exact d) → d ≠ []
  owned : ∀ ip ip' d, Member gs ip (.exact d) → Member gs ip' (.exact d) → ip = ip'
  free : ∀ ip w, Member gs ip (.wildcard w) → ¬ Contested gs ip w

theorem HostGroups.ownedGroups {gs : List Group} (h : HostGroups gs) : OwnedGroups gs := by
  refine ⟨fun ip d hd => (h.exact_of_member hd).2, fun ip ip' d => h.owned ip ip' _, ?_⟩
  intro ip w hw
  cases (h.exact_of_member hw).1

/-- Host groups stand where owned ones are asked for. -/
instance {gs : List Group} : CoeOut (HostGroups gs) (OwnedGroups gs) := ⟨HostGroups.ownedGroups⟩

theorem hostGroups_ofRecords {rs : List Record} (h : ∀ r ∈ rs, r.domain.Plain) :
    HostGroups (Grouping.ofRecords rs).groups := by
  constructor
  · intro g hg t ht
    rw [Grouping.domains_of_mem_groups hg, Grouping.mem_domainsOf] at ht
    exact h _ (Grouping.mem_of_mem_records ht)
  · intro ip ip' p hp hp'
    have hr := (Grouping.member_iff.mp hp).1
    have hr' := (Grouping.member_iff.mp hp').1
    have := List.inj_on_of_nodup_map (Grouping.nodup_domains rs) hr hr' rfl
    exact congrArg Record.ip this

theorem Grouping.member_of_mem_records {rs : List Record} (h : ∀ r ∈ rs, r.domain.Plain) {r : Record}
    (hr : r ∈ (ofRecords rs).records) : Member (ofRecords rs).groups r.ip (.exact r.domain) :=
  member_iff.mpr ⟨hr, (h r (mem_of_mem_records hr)).ofText⟩

theorem Grouping.mem_records_of_member {rs : List Record} (h : ∀ r ∈ rs, r.domain.Plain) {ip : Ipv4} {p : Pattern}
    (hp : Member (ofRecords rs).groups ip p) : ⟨ip, p.domain⟩ ∈ (ofRecords rs).records := by
  have hr := (member_iff.mp hp).1
  rwa [((hostGroups_ofRecords h).exact_of_member hp).1] at hr

theorem Grouping.exists_group_of_perm {rs rs' : List Record} (hp : rs.Perm rs') (hd : (rs.map Record.domain).Nodup)
    {g : Group} (hg : g ∈ (ofRecords rs).groups) :
    ∃ g' ∈ (ofRecords rs').groups, g'.ip = g.ip ∧ g.domains.Perm g'.domains := by
  have hk := records_of_nodup hd
  have hk' := records_of_nodup ((hp.map _).nodup_iff.mp hd)
  obtain ⟨r, hr, hip⟩ := exists_record_of_mem_groups hg
  have hr' : r ∈ (ofRecords rs').records := by rw [hk] at hr; rw [hk']; exact hp.mem_iff.mp hr
  refine ⟨_, exists_group_of_mem hr', hip, ?_⟩
  rw [domains_of_mem_groups hg, ← hip, hk, hk']
  exact (hp.filter _).map _

end HostPatterns
