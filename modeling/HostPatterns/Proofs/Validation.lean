/-
  HostPatterns.Proofs.Validation — what a report says, record by record.

  A record is checked on its own: it resolves to its address, or it gives one finding
  (`finding?`). A report counts the first and lists the second (`validate_eq`), so a
  report on records that all resolve finds nothing (`validate_of_resolves`).
-/

import HostPatterns.Report

namespace HostPatterns

namespace PatternSet

/-- The finding that a record gives, unless it resolves to its address. -/
def finding? (s : PatternSet) (r : Record) : Option Finding :=
  match s.resolve? r.domain with
  | none => some (.notFound r.domain)
  | some ip => if ip = r.ip then none else some (.mismatch r.domain r.ip ip)

/-- How many of the records resolve to their address. -/
def resolved (s : PatternSet) (rs : List Record) : Nat := rs.countP fun r => s.resolve? r.domain = some r.ip

theorem finding?_eq_none_iff {s : PatternSet} {r : Record} : s.finding? r = none ↔ s.resolve? r.domain = some r.ip := by
  unfold finding?
  split
  · rename_i h
    simp [h]
  · rename_i ip h
    by_cases hip : ip = r.ip <;> simp [h, hip]

theorem check_eq (s : PatternSet) (rep : Report) (r : Record) :
    rep.check s r =
      ⟨rep.matched + s.resolved [r], rep.total + 1, rep.findings ++ (s.finding? r).toArray⟩ := by
  unfold Report.check finding? resolved
  cases h : s.resolve? r.domain with
  | none => simp [h]
  | some ip => by_cases hip : ip = r.ip <;> simp [h, hip]

theorem foldl_check (s : PatternSet) (rs : List Record) (rep : Report) :
    rs.foldl (Report.check s) rep =
      ⟨rep.matched + s.resolved rs, rep.total + rs.length, rep.findings ++ (rs.filterMap s.finding?).toArray⟩ := by
  induction rs generalizing rep with
  | nil => simp [resolved]
  | cons r rs ih =>
    have hcount : s.resolved (r :: rs) = s.resolved [r] + s.resolved rs := by
      unfold resolved
      rw [← List.countP_append, List.singleton_append]
    rw [List.foldl_cons, check_eq, ih, hcount, List.length_cons]
    cases hf : s.finding? r with
    | none => simp [hf]; omega
    | some f => simp [hf]; omega

theorem validate_eq (s : PatternSet) (rs : List Record) :
    s.validate rs = ⟨s.resolved rs, rs.length, (rs.filterMap s.finding?).toArray⟩ := by
  unfold validate
  rw [foldl_check]
  simp [Report.empty]

end PatternSet

theorem validate_of_resolves {s : PatternSet} {rs : List Record} (h : ∀ r ∈ rs, s.resolve? r.domain = some r.ip) :
    s.validate rs = ⟨rs.length, rs.length, #[]⟩ := by
  have hall : s.resolved rs = rs.length := List.countP_eq_length.mpr fun r hr => by simpa using h r hr
  have hnone : rs.filterMap s.finding? = [] :=
    List.filterMap_eq_nil_iff.mpr fun r hr => PatternSet.finding?_eq_none_iff.mpr (h r hr)
  rw [PatternSet.validate_eq, hall, hnone]

end HostPatterns
