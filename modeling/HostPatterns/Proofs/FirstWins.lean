/-
  HostPatterns.Proofs.FirstWins — grouping as a walk over the records, one by one, in
  which the first record of a domain wins.

  `Grouping.add` is one turn of the walk. A record of a domain that is kept already is
  counted and changes nothing else: no group is opened for its address. Any other
  record is kept, and its domain goes to the group of its address, which stands last if
  it is new.
  - `Grouping.ofRecords_eq_foldl`: grouping is that walk (`Grouping.ofRecords_snoc` says
    it of the last record).
  - `firstOfEach_eq_firsts`: the first of each key are the elements that repeat no key in
    front of them.
  - `Grouping.first_wins`: the whole of it told by the records alone. What is kept and
    what is counted, the order of the groups, what stands in each of them, and that
    grouping the kept records again changes nothing.
-/

import HostPatterns.Proofs.Partition
import Mathlib.Data.List.Count

namespace HostPatterns

/-! ## The first of each key, by place -/

section

variable {α κ : Type} (key : α → κ)

/-- Of an element and its place: one in front of it has its key. -/
def Repeats (xs : List α) (x : α × Nat) : Prop := key x.1 ∈ (xs.take x.2).map key

theorem repeats_append_iff {xs ys : List α} {x : α × Nat} (h : x ∈ xs.zipIdx) :
    Repeats key (xs ++ ys) x ↔ Repeats key xs x := by
  have hlt : x.2 < xs.length := List.snd_lt_of_mem_zipIdx h
  unfold Repeats
  rw [List.take_append_of_le_length (Nat.le_of_lt hlt)]

variable [DecidableEq κ]

instance (xs : List α) (x : α × Nat) : Decidable (Repeats key xs x) := inferInstanceAs (Decidable (_ ∈ _))

/-- The elements that repeat nothing, in order. -/
def firsts (xs : List α) : List α := (xs.zipIdx.filter fun x => ¬ Repeats key xs x).map Prod.fst

theorem firsts_snoc (xs : List α) (x : α) :
    firsts key (xs ++ [x]) = if key x ∈ xs.map key then firsts key xs else firsts key xs ++ [x] := by
  have hfront : (xs.zipIdx.filter fun y => ¬ Repeats key (xs ++ [x]) y) = xs.zipIdx.filter fun y => ¬ Repeats key xs y := by
    apply List.filter_congr
    intro y hy
    exact decide_eq_decide.mpr (not_congr (repeats_append_iff key hy))
  have hlast : Repeats key (xs ++ [x]) (x, xs.length) ↔ key x ∈ xs.map key := by
    unfold Repeats
    rw [List.take_left]
  unfold firsts
  rw [List.zipIdx_append, List.filter_append, List.map_append, hfront]
  by_cases h : key x ∈ xs.map key
  · rw [if_pos h]
    simp [hlast.mpr h]
  · rw [if_neg h]
    simp [mt hlast.mp h]

theorem firsts_comp {κ' : Type} [DecidableEq κ'] {f : κ → κ'} (hf : Function.Injective f) (xs : List α) :
    firsts (f ∘ key) xs = firsts key xs := by
  have hrep : ∀ x, Repeats (f ∘ key) xs x ↔ Repeats key xs x := by
    intro x
    unfold Repeats
    rw [← List.map_map, Function.comp_apply, List.mem_map_of_injective hf]
  unfold firsts
  simp only [hrep]

theorem firstOfEach_eq_firsts [Ord κ] [Std.TransOrd κ] [Std.LawfulEqOrd κ] (xs : List α) :
    firstOfEach key xs = firsts key xs := by
  induction xs using List.reverseRecOn with
  | nil => rfl
  | append_singleton xs x ih =>
    have hseen : key x ∈ (firstOfEach key xs).map key ↔ key x ∈ xs.map key := by
      constructor
      · intro h
        exact ((firstOfEach_sublist key xs).map key).subset h
      · intro h
        obtain ⟨y, hy, heq⟩ := List.mem_map.mp h
        rw [← heq]
        exact key_mem_firstOfEach key hy
    rw [firstOfEach_snoc, firsts_snoc, ← ih]
    simp only [hseen]

theorem length_firsts_add (xs : List α) : (firsts key xs).length + xs.zipIdx.countP (Repeats key xs ·) = xs.length := by
  unfold firsts
  rw [List.length_map, ← List.countP_eq_length_filter, Nat.add_comm]
  simpa using (List.length_eq_countP_add_countP (fun x => decide (Repeats key xs x)) (l := xs.zipIdx)).symm

end

namespace Grouping

/-! ## The walk -/

/-- Put the domain in the group of its address, a new one at the end if there is none. -/
def enter (gs : List Group) (r : Record) : List Group :=
  if r.ip ∈ gs.map Group.ip then
    gs.map fun g => if g.ip = r.ip then { g with domains := g.domains ++ [r.domain] } else g
  else gs ++ [⟨r.ip, [r.domain]⟩]

/-- What one more record does. -/
def add (g : Grouping) (r : Record) : Grouping :=
  if r.domain ∈ g.records.map Record.domain then { g with duplicates := g.duplicates + 1 }
  else { g with groups := enter g.groups r, records := g.records ++ [r] }

theorem domainsOf_snoc (ip : Ipv4) (rs : List Record) (r : Record) :
    domainsOf ip (rs ++ [r]) = if r.ip = ip then domainsOf ip rs ++ [r.domain] else domainsOf ip rs := by
  unfold domainsOf
  by_cases h : r.ip = ip <;> simp [h]

/-- The kept records make the groups. -/
theorem groups_eq_of_records_eq {rs rs' : List Record} (h : (ofRecords rs).records = (ofRecords rs').records) :
    (ofRecords rs).groups = (ofRecords rs').groups := by
  rw [groups_ofRecords, groups_ofRecords, h]

/-- The addresses of the groups, in order of first appearance among the kept records. -/
theorem ips_groups (rs : List Record) :
    (ofRecords rs).groups.map Group.ip = (firsts Record.ip (ofRecords rs).records).map Record.ip := by
  have hinj : Function.Injective Ipv4.toNat := fun _ _ => Ipv4.toNat_injective
  have hfirsts := firsts_comp Record.ip hinj (ofRecords rs).records
  rw [groups_ofRecords, List.map_map, ← hfirsts, ← firstOfEach_eq_firsts]
  rfl

theorem mem_ips_groups_iff {rs : List Record} {ip : Ipv4} :
    ip ∈ (ofRecords rs).groups.map Group.ip ↔ ip ∈ (ofRecords rs).records.map Record.ip := by
  constructor
  · intro h
    obtain ⟨g, hg, rfl⟩ := List.mem_map.mp h
    obtain ⟨r, hr, hip⟩ := exists_record_of_mem_groups hg
    exact List.mem_map.mpr ⟨r, hr, hip⟩
  · intro h
    obtain ⟨r, hr, rfl⟩ := List.mem_map.mp h
    exact List.mem_map.mpr ⟨_, exists_group_of_mem hr, rfl⟩

theorem groups_eq_map_ips (rs : List Record) :
    (ofRecords rs).groups = ((ofRecords rs).groups.map Group.ip).map fun ip => ⟨ip, domainsOf ip (ofRecords rs).records⟩ := by
  rw [List.map_map]
  conv_lhs => rw [← List.map_id (ofRecords rs).groups]
  apply List.map_congr_left
  intro g hg
  rw [Function.comp_apply, ← domains_of_mem_groups hg]
  rfl

section

variable {rs : List Record} {r : Record}

theorem records_snoc_of_mem (h : r.domain ∈ (ofRecords rs).records.map Record.domain) :
    (ofRecords (rs ++ [r])).records = (ofRecords rs).records := by
  show firstOfEach Record.domain _ = _
  rw [firstOfEach_snoc]
  exact if_pos h

theorem records_snoc_of_not_mem (h : r.domain ∉ (ofRecords rs).records.map Record.domain) :
    (ofRecords (rs ++ [r])).records = (ofRecords rs).records ++ [r] := by
  show firstOfEach Record.domain _ = _
  rw [firstOfEach_snoc]
  exact if_neg h

theorem ips_snoc (h : r.domain ∉ (ofRecords rs).records.map Record.domain) :
    (ofRecords (rs ++ [r])).groups.map Group.ip =
      if r.ip ∈ (ofRecords rs).groups.map Group.ip then (ofRecords rs).groups.map Group.ip
      else (ofRecords rs).groups.map Group.ip ++ [r.ip] := by
  simp only [mem_ips_groups_iff]
  rw [ips_groups, ips_groups, records_snoc_of_not_mem h, firsts_snoc]
  split
  · rfl
  · rw [List.map_append, List.map_singleton]

theorem groups_snoc (h : r.domain ∉ (ofRecords rs).records.map Record.domain) :
    (ofRecords (rs ++ [r])).groups = enter (ofRecords rs).groups r := by
  rw [groups_eq_map_ips, ips_snoc h, records_snoc_of_not_mem h]
  unfold enter
  split
  · rename_i hip
    rw [List.map_map]
    apply List.map_congr_left
    intro g hg
    rw [Function.comp_apply, domainsOf_snoc, ← domains_of_mem_groups hg]
    simp only [eq_comm (a := g.ip)]
    split <;> rfl
  · rename_i hip
    have hnew : domainsOf r.ip (ofRecords rs).records = [] := by
      apply List.eq_nil_iff_forall_not_mem.mpr
      intro d hd
      exact hip (mem_ips_groups_iff.mpr (List.mem_map.mpr ⟨_, mem_domainsOf.mp hd, rfl⟩))
    rw [List.map_append, List.map_singleton, List.map_map, domainsOf_snoc, if_pos rfl, hnew, List.nil_append]
    congr 1
    conv_rhs => rw [← List.map_id (ofRecords rs).groups]
    apply List.map_congr_left
    intro g hg
    have hne : r.ip ≠ g.ip := fun heq => hip (heq ▸ List.mem_map_of_mem hg)
    rw [Function.comp_apply, domainsOf_snoc, if_neg hne, ← domains_of_mem_groups hg]
    rfl

end

/-- One more record is kept or counted. -/
theorem length_records_snoc (rs : List Record) (r : Record) :
    (ofRecords (rs ++ [r])).records.length + (ofRecords (rs ++ [r])).duplicates =
      (ofRecords rs).records.length + (ofRecords rs).duplicates + 1 := by
  rw [length_records_add, length_records_add, List.length_append, List.length_singleton]

theorem ofRecords_snoc (rs : List Record) (r : Record) : ofRecords (rs ++ [r]) = (ofRecords rs).add r := by
  have hlen := length_records_snoc rs r
  unfold add
  split
  · rename_i h
    have hrecords := records_snoc_of_mem h
    have hgroups := groups_eq_of_records_eq hrecords
    have hcount : (ofRecords (rs ++ [r])).duplicates = (ofRecords rs).duplicates + 1 := by
      rw [hrecords] at hlen
      omega
    rw [← hrecords, ← hgroups, ← hcount]
  · rename_i h
    have hrecords := records_snoc_of_not_mem h
    have hcount : (ofRecords (rs ++ [r])).duplicates = (ofRecords rs).duplicates := by
      rw [hrecords, List.length_append, List.length_singleton] at hlen
      omega
    rw [← groups_snoc h, ← hrecords, ← hcount]

theorem ofRecords_eq_foldl (rs : List Record) : ofRecords rs = rs.foldl add ⟨[], [], 0⟩ := by
  induction rs using List.reverseRecOn with
  | nil => rfl
  | append_singleton rs r ih => rw [ofRecords_snoc, ih, List.foldl_append, List.foldl_cons, List.foldl_nil]

/-- A repeated domain opens no group for its address. -/
example :
    let x : Record := ⟨⟨1, 1, 1, 1⟩, "x.com".toList⟩
    (ofRecords [x, { x with ip := ⟨2, 2, 2, 2⟩ }]) = ⟨[⟨x.ip, [x.domain]⟩], [x], 1⟩ := by cbv

/-! ## The partition -/

section

variable {rs : List Record}

theorem domains_ne_nil {g : Group} (hg : g ∈ (ofRecords rs).groups) : g.domains ≠ [] := by
  obtain ⟨r, hr, hip⟩ := exists_record_of_mem_groups hg
  rw [domains_of_mem_groups hg, ← hip]
  exact List.ne_nil_of_mem (mem_domainsOf.mpr hr)

theorem nodup_domains_of_mem_groups {g : Group} (hg : g ∈ (ofRecords rs).groups) : g.domains.Nodup := by
  rw [domains_of_mem_groups hg]
  exact (nodup_domains rs).sublist (List.filter_sublist.map Record.domain)

/-- A kept domain stands in the group of its address, once, and in no other. -/
theorem exists_only_group {r : Record} (hr : r ∈ (ofRecords rs).records) :
    ∃ g ∈ (ofRecords rs).groups, g.ip = r.ip ∧ g.domains.count r.domain = 1 ∧
      ∀ g' ∈ (ofRecords rs).groups, r.domain ∈ g'.domains → g' = g := by
  have hg := exists_group_of_mem hr
  have hin : r.domain ∈ domainsOf r.ip (ofRecords rs).records := mem_domainsOf.mpr hr
  refine ⟨_, hg, rfl, List.count_eq_one_of_mem (nodup_domains_of_mem_groups hg) hin, ?_⟩
  intro g' hg' hd
  rw [domains_of_mem_groups hg', mem_domainsOf] at hd
  have heq := List.inj_on_of_nodup_map (nodup_domains rs) hd hr rfl
  exact eq_of_ip_eq hg' hg (congrArg Record.ip heq)

end

/-- Grouping the kept records again gives what they gave, with nothing to count. -/
theorem ofRecords_records (rs : List Record) :
    ofRecords (ofRecords rs).records = ⟨(ofRecords rs).groups, (ofRecords rs).records, 0⟩ := by
  have hrecords := records_of_nodup (nodup_domains rs)
  have hgroups := groups_eq_of_records_eq hrecords
  have hnone : (ofRecords (ofRecords rs).records).duplicates = 0 := by
    have hlen := length_records_add (ofRecords rs).records
    rw [hrecords] at hlen
    omega
  calc
    ofRecords (ofRecords rs).records =
        ⟨(ofRecords (ofRecords rs).records).groups, (ofRecords (ofRecords rs).records).records,
          (ofRecords (ofRecords rs).records).duplicates⟩ := rfl
    _ = _ := by rw [hgroups, hrecords, hnone]

/-- Grouping takes the records one by one, and what is kept and what is counted is told by the records in front. The kept
    records make the groups: their addresses by first appearance, each with the domains of its records, so that a kept
    domain stands in one group, once. -/
theorem first_wins (rs : List Record) :
    let g := ofRecords rs
    g = rs.foldl add ⟨[], [], 0⟩ ∧
      g.records = firsts Record.domain rs ∧
      g.duplicates = rs.zipIdx.countP (Repeats Record.domain rs ·) ∧
      (g.groups.map Group.ip).Nodup ∧ g.groups.map Group.ip = (firsts Record.ip g.records).map Record.ip ∧
      (∀ grp ∈ g.groups, grp.domains ≠ [] ∧ grp.domains = domainsOf grp.ip g.records) ∧
      (∀ r ∈ g.records, ∃ grp ∈ g.groups, grp.ip = r.ip ∧ grp.domains.count r.domain = 1 ∧
        ∀ grp' ∈ g.groups, r.domain ∈ grp'.domains → grp' = grp) ∧
      ofRecords g.records = ⟨g.groups, g.records, 0⟩ := by
  intro g
  have hrecords : g.records = firsts Record.domain rs := firstOfEach_eq_firsts Record.domain rs
  have hcount : g.duplicates = rs.zipIdx.countP (Repeats Record.domain rs ·) := by
    have hlen : g.records.length + g.duplicates = rs.length := length_records_add rs
    have hlen' := length_firsts_add Record.domain rs
    rw [← hrecords] at hlen'
    omega
  refine ⟨ofRecords_eq_foldl rs, hrecords, hcount, nodup_ips rs, ips_groups rs, ?_, fun r => exists_only_group,
    ofRecords_records rs⟩
  intro grp hgrp
  exact ⟨domains_ne_nil hgrp, domains_of_mem_groups hgrp⟩

end Grouping

end HostPatterns
