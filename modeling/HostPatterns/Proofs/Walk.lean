/-
  HostPatterns.Proofs.Walk — one group's members in walking order, cut into runs.

  The order: a name's bytes read backwards determine the name (`backwards_injective`),
  and a name stands before everything below it (`before_of_mem_ancestry`). The
  seeds of a group are its nonempty members in that order, those of one name in their
  own (`Group.filter_seeds`).

  The walk: `Through p qs r` says that `r` is the run which starts at `p` and goes on
  through `qs`; `Cut ps rs` that the runs `rs` go through `ps`, each stopped where the
  next one starts. A step of the walk keeps this (`cut_foldl_step`), so the runs of a
  group cut its seeds (`cut_ofSeeds`), and each run stands at its place among them
  (`Cut.exists_place`).

  Proved of a run through members:
  - `name_mem_ancestry_head`: its name stands at or above the member it starts at,
    whatever the comparison.
  - `name_mem_ancestry`: on label boundaries its name stands at or above every member.
  - `alone_or_unblocked`: it has one member, or its name was found unblocked.
  - `covers`: on label boundaries, in walking order, its pattern covers every member.

  The runs depend on what is blocked only at and above the members (`ofSeeds_congr`).
-/

import HostPatterns.Compaction
import HostPatterns.Proofs.Index

namespace HostPatterns

/-! ## Walking order -/

theorem Domain.backwards_injective {d e : Domain} (h : d.backwards = e.backwards) : d = e := by
  have hb : d.flatMap String.utf8EncodeChar = e.flatMap String.utf8EncodeChar :=
    List.reverse_injective (List.map_injective_iff.mpr (fun _ _ => UInt8.toNat_inj.mp) h)
  have ht : d.utf8Encode = e.utf8Encode := by rw [List.utf8Encode, hb, List.utf8Encode]
  rw [← String.toByteArray_ofList, ← String.toByteArray_ofList, String.toByteArray_inj] at ht
  exact String.ofList_injective ht

namespace Domain

/-- In walking order: the second name, read backwards, does not come first. -/
def Before (d e : Domain) : Prop := e.backwards.lex d.backwards = false

theorem Before.refl (d : Domain) : d.Before d := List.lex_eq_false_iff_ge.mpr (List.le_refl _)

theorem Before.trans {d e f : Domain} (h : d.Before e) (h' : e.Before f) : d.Before f :=
  List.lex_eq_false_iff_ge.mpr (List.le_trans (List.lex_eq_false_iff_ge.mp h) (List.lex_eq_false_iff_ge.mp h'))

theorem Before.antisymm {d e : Domain} (h : d.Before e) (h' : e.Before d) : d = e :=
  backwards_injective (List.le_antisymm (List.lex_eq_false_iff_ge.mp h) (List.lex_eq_false_iff_ge.mp h'))

theorem before_total (d e : Domain) : d.Before e ∨ e.Before d := by
  unfold Before
  rw [List.lex_eq_false_iff_ge, List.lex_eq_false_iff_ge]
  exact List.le_total _ _

theorem backwards_append (u v : Domain) : backwards (u ++ v) = backwards v ++ backwards u := by
  simp [backwards]

theorem before_of_suffix {p d : Domain} (h : p <:+ d) : p.Before d := by
  obtain ⟨u, rfl⟩ := h
  unfold Before
  rw [List.lex_eq_false_iff_ge, backwards_append]
  exact (List.prefix_append _ _).le

theorem before_of_mem_ancestry {d p : Domain} (h : p ∈ d.ancestry) : p.Before d :=
  before_of_suffix (suffix_of_mem_ancestry h)

/-- A member that stands no later in walking order than a name above it is that name. -/
theorem eq_of_mem_ancestry_of_before {d p : Domain} (h : p ∈ d.ancestry) (hle : d.Before p) : d = p :=
  hle.antisymm (before_of_mem_ancestry h)

end Domain

/-- In walking order, with the order of wildcards and exact patterns of one name left open. -/
def Pattern.Before (p q : Pattern) : Prop := p.domain.Before q.domain

/-! ## Sorting by a key -/

theorem perm_sortOn {α κ : Type} (key : α → κ) (le : κ → κ → Bool) (xs : List α) : (sortOn key le xs).Perm xs := by
  rw [sortOn_eq]
  exact List.mergeSort_perm _ _

section

variable {α κ : Type} (key : α → κ) {le : κ → κ → Bool}
  (trans : ∀ x y z : α, le (key x) (key y) = true → le (key y) (key z) = true → le (key x) (key z) = true)
  (total : ∀ x y : α, (le (key x) (key y) || le (key y) (key x)) = true)

include trans total

theorem pairwise_sortOn (xs : List α) : (sortOn key le xs).Pairwise fun x y => le (key x) (key y) = true := by
  rw [sortOn_eq]
  exact List.pairwise_mergeSort trans total xs

/-- Elements of one key keep their order. -/
theorem filter_sortOn [DecidableEq κ] (k : κ) (xs : List α) :
    (sortOn key le xs).filter (key · = k) = xs.filter (key · = k) := by
  have hsame : (xs.filter (key · = k)).Pairwise fun x y => le (key x) (key y) = true := by
    refine List.pairwise_of_forall_mem_list ?_
    intro x hx y hy
    have hx : key x = k := by simpa using (List.mem_filter.mp hx).2
    have hy : key y = k := by simpa using (List.mem_filter.mp hy).2
    have := total x x
    rw [hy, ← hx]
    simpa using this
  have hpart : (xs.filter (key · = k)).Sublist (sortOn key le xs) := by
    rw [sortOn_eq]
    exact List.sublist_mergeSort trans total hsame List.filter_sublist
  have hsub := hpart.filter (key · = k)
  rw [List.filter_filter] at hsub
  simp only [Bool.and_self] at hsub
  exact (hsub.eq_of_length ((perm_sortOn key le xs).filter _).length_eq.symm).symm

end

namespace Pattern

theorem not_lex_iff {p q : Pattern} : (!q.domain.backwards.lex p.domain.backwards) = true ↔ p.Before q := by
  rw [Bool.not_eq_true']
  exact Iff.rfl

theorem not_lex_trans (p q r : Pattern) (hpq : (!q.domain.backwards.lex p.domain.backwards) = true)
    (hqr : (!r.domain.backwards.lex q.domain.backwards) = true) :
    (!r.domain.backwards.lex p.domain.backwards) = true := by
  rw [not_lex_iff] at hpq hqr ⊢
  exact Domain.Before.trans hpq hqr

theorem not_lex_total (p q : Pattern) :
    (!q.domain.backwards.lex p.domain.backwards || !p.domain.backwards.lex q.domain.backwards) = true := by
  rw [Bool.or_eq_true, not_lex_iff, not_lex_iff]
  exact Domain.before_total _ _

end Pattern

namespace Group

theorem mem_seeds {g : Group} {p : Pattern} :
    p ∈ g.seeds ↔ (∃ t ∈ g.domains, Pattern.ofText t = p) ∧ p.domain ≠ [] := by
  unfold seeds
  rw [(perm_sortOn _ _ _).mem_iff, List.mem_filter, List.mem_map, bne_iff_ne]

theorem seeds_sorted (g : Group) : g.seeds.Pairwise Pattern.Before := by
  refine (pairwise_sortOn _ Pattern.not_lex_trans Pattern.not_lex_total _).imp ?_
  intro p q hpq
  exact Pattern.not_lex_iff.mp hpq

/-- The seeds of one name stand in the order of the members. -/
theorem filter_seeds (g : Group) {d : Domain} (hd : d ≠ []) :
    g.seeds.filter (·.domain = d) = (g.domains.map Pattern.ofText).filter (·.domain = d) := by
  have hkey : ∀ p : Pattern, decide (p.domain = d) = decide (p.domain.backwards = d.backwards) := by
    intro p
    rw [decide_eq_decide]
    exact ⟨congrArg Domain.backwards, Domain.backwards_injective⟩
  have hnamed : ∀ p : Pattern, (decide (p.domain = d) && p.domain != []) = decide (p.domain = d) := by
    intro p
    by_cases h : p.domain = d <;> simp [h, hd]
  have hsorted : g.seeds.filter (·.domain = d) =
      ((g.domains.map Pattern.ofText).filter (·.domain != [])).filter (·.domain = d) := by
    simp only [hkey]
    exact filter_sortOn _ Pattern.not_lex_trans Pattern.not_lex_total _ _
  rw [hsorted, List.filter_filter]
  simp only [hnamed]

/-- Without wildcard members, the seeds do not depend on the order of the members. -/
theorem seeds_eq_of_perm {g g' : Group} (h : g.domains.Perm g'.domains)
    (hx : ∀ t ∈ g.domains, ∃ d, Pattern.ofText t = .exact d) : g.seeds = g'.seeds := by
  have hperm : g.seeds.Perm g'.seeds := by
    unfold seeds
    exact (perm_sortOn _ _ _).trans (((h.map _).filter _).trans (perm_sortOn _ _ _).symm)
  refine List.Perm.eq_of_pairwise ?_ g.seeds_sorted g'.seeds_sorted hperm
  intro p q hp hq hpq hqp
  have exact_of_mem : ∀ r ∈ g.seeds, ∃ d, r = .exact d := by
    intro r hr
    obtain ⟨⟨t, ht, rfl⟩, -⟩ := mem_seeds.mp hr
    exact hx t ht
  obtain ⟨d, rfl⟩ := exact_of_mem p hp
  obtain ⟨e, rfl⟩ := exact_of_mem q (hperm.mem_iff.mpr hq)
  rw [show d = e from Domain.Before.antisymm hpq hqp]

end Group

namespace Run

variable {m : Comparison} {blocked : Domain → Bool}

/-! ## A run and its members -/

theorem extend?_eq_some_iff {r r' : Run} {p : Pattern} :
    r.extend? m blocked p = some r' ↔
      ∃ d, Domain.shared? m r.name p.domain = some d ∧ blocked d = false ∧ r' = ⟨d, p⟩ := by
  unfold extend?
  constructor
  · intro h
    split at h
    · cases h
    · rename_i d hd
      split at h
      · cases h
      · rename_i hb
        cases h
        exact ⟨d, hd, by simpa using hb, rfl⟩
  · intro hext
    obtain ⟨d, hd, hb, rfl⟩ := hext
    simp [hd, hb]

theorem step_of_extend? {r r' : Run} {p : Pattern} (h : r.extend? m blocked p = some r') (closed : List Run) :
    step m blocked (closed, r) p = (closed, r') := by
  simp [step, h]

theorem step_of_stopped {r : Run} {p : Pattern} (h : r.extend? m blocked p = none) (closed : List Run) :
    step m blocked (closed, r) p = (r :: closed, start p) := by
  simp [step, h]

/-- The run that starts at a member and goes on through others, in this order. -/
inductive Through (m : Comparison) (blocked : Domain → Bool) (p : Pattern) : List Pattern → Run → Prop
  | start : Through m blocked p [] (start p)
  | extend {qs : List Pattern} {q : Pattern} {r r' : Run} : Through m blocked p qs r →
      r.extend? m blocked q = some r' → Through m blocked p (qs ++ [q]) r'

/-- Runs through the members `ps`, each stopped where the next one starts. -/
inductive Cut (m : Comparison) (blocked : Domain → Bool) : List Pattern → List Run → Prop
  | nil : Cut m blocked [] []
  | snoc {ps qs : List Pattern} {p : Pattern} {rs : List Run} {r : Run} : Cut m blocked ps rs →
      (∀ s ∈ rs.getLast?, s.extend? m blocked p = none) → Through m blocked p qs r →
      Cut m blocked (ps ++ p :: qs) (rs ++ [r])

theorem cut_foldl_step {ps qs : List Pattern} {p : Pattern} {closed : List Run} {r : Run} (rest : List Pattern)
    (hs : ∀ s ∈ closed.head?, s.extend? m blocked p = none) (hc : Cut m blocked ps closed.reverse)
    (ht : Through m blocked p qs r) :
    let st := rest.foldl (step m blocked) (closed, r)
    Cut m blocked (ps ++ p :: qs ++ rest) (st.2 :: st.1).reverse := by
  induction rest generalizing ps qs p closed r with
  | nil =>
    have := Cut.snoc hc (by rwa [List.getLast?_reverse]) ht
    simpa using this
  | cons q rest ih =>
    simp only [List.foldl_cons]
    cases he : r.extend? m blocked q with
    | some r' =>
      have := ih hs hc (.extend ht he)
      rw [step_of_extend? he]
      simpa using this
    | none =>
      have hc' : Cut m blocked (ps ++ p :: qs) (r :: closed).reverse := by
        have := Cut.snoc hc (by rwa [List.getLast?_reverse]) ht
        simpa using this
      have := ih (by simpa using he) hc' .start
      rw [step_of_stopped he]
      simpa using this

theorem cut_ofSeeds (ps : List Pattern) : Cut m blocked ps (ofSeeds m blocked ps) := by
  cases ps with
  | nil => exact .nil
  | cons p ps =>
    have hs : ∀ s ∈ ([] : List Run).head?, s.extend? m blocked p = none := fun _ hs => nomatch hs
    exact cut_foldl_step ps hs .nil .start

/-- A run stands at its place among the members, and is stopped there unless it is the last. -/
theorem Cut.exists_place {ps : List Pattern} {rs : List Run} (h : Cut m blocked ps rs) : ∀ r ∈ rs, ∃ front p qs back,
    ps = front ++ p :: qs ++ back ∧ Through m blocked p qs r ∧ (∀ x ∈ back.head?, r.extend? m blocked x = none) ∧
      (back = [] → rs.getLast? = some r) := by
  induction h with
  | nil => intro r hr; cases hr
  | @snoc ps qs p rs r hc hstop ht ih =>
    intro r' hr'
    rcases List.mem_append.mp hr' with hr' | hr'
    · obtain ⟨front, p', qs', back, rfl, ht', hs, hend⟩ := ih r' hr'
      refine ⟨front, p', qs', back ++ p :: qs, by simp, ht', ?_, by simp⟩
      cases back with
      | nil =>
        intro x hx
        cases hx
        exact hstop r' (hend rfl)
      | cons y back => exact hs
    · cases List.mem_singleton.mp hr'
      exact ⟨ps, p, qs, [], by simp, ht, by simp, fun _ => List.getLast?_concat⟩

theorem Cut.exists_through {ps : List Pattern} {rs : List Run} (h : Cut m blocked ps rs) :
    ∀ r ∈ rs, ∃ p qs, Through m blocked p qs r ∧ p :: qs <:+: ps := by
  intro r hr
  obtain ⟨front, p, qs, back, rfl, ht, -⟩ := h.exists_place r hr
  exact ⟨p, qs, ht, List.infix_append _ _ _⟩

theorem Cut.exists_run_of_mem {ps : List Pattern} {rs : List Run} (h : Cut m blocked ps rs) :
    ∀ q ∈ ps, ∃ r ∈ rs, ∃ p qs, Through m blocked p qs r ∧ p :: qs <:+: ps ∧ q ∈ p :: qs := by
  induction h with
  | nil => intro q hq; cases hq
  | snoc _ _ ht ih =>
    intro q hq
    rcases List.mem_append.mp hq with hq | hq
    · obtain ⟨r, hr, p, qs, hp, hi, hm⟩ := ih q hq
      exact ⟨r, List.mem_append_left _ hr, p, qs, hp, hi.trans (List.prefix_append _ _).isInfix, hm⟩
    · exact ⟨_, List.mem_append_right _ (List.mem_singleton_self _), _, _, ht, (List.suffix_append _ _).isInfix, hq⟩

/-! ## What the name and the last member are -/

theorem Through.last_mem {p : Pattern} {qs : List Pattern} {r : Run} (h : Through m blocked p qs r) :
    r.last ∈ p :: qs := by
  cases h with
  | start => exact List.mem_cons_self
  | extend _ he =>
    obtain ⟨d, -, -, rfl⟩ := extend?_eq_some_iff.mp he
    simp

theorem Through.name_mem_ancestry_head {p : Pattern} {qs : List Pattern} {r : Run} (h : Through m blocked p qs r)
    (hp : p.domain ≠ []) : r.name ∈ p.domain.ancestry := by
  induction h with
  | start => exact Domain.self_mem_ancestry hp
  | extend _ he ih =>
    obtain ⟨d, hd, -, rfl⟩ := extend?_eq_some_iff.mp he
    exact Domain.ancestry_trans (Domain.mem_ancestry_of_shared? hd) ih

theorem Through.name_ne_nil {p : Pattern} {qs : List Pattern} {r : Run} (h : Through m blocked p qs r)
    (hp : p.domain ≠ []) : r.name ≠ [] := by
  cases h with
  | start => exact hp
  | extend _ he =>
    obtain ⟨d, hd, -, rfl⟩ := extend?_eq_some_iff.mp he
    exact Domain.ne_nil_of_shared? hd

theorem Through.name_mem_ancestry {p : Pattern} {qs : List Pattern} {r : Run}
    (h : Through .labelBoundary blocked p qs r) (hp : p.domain ≠ []) : ∀ q ∈ p :: qs, r.name ∈ q.domain.ancestry := by
  induction h with
  | start =>
    intro q hq
    cases List.mem_singleton.mp hq
    exact Domain.self_mem_ancestry hp
  | extend _ he ih =>
    obtain ⟨d, hd, -, rfl⟩ := extend?_eq_some_iff.mp he
    intro q hq
    rw [← List.cons_append] at hq
    rcases List.mem_append.mp hq with hq | hq
    · exact Domain.ancestry_trans (Domain.mem_ancestry_of_shared? hd) (ih q hq)
    · cases List.mem_singleton.mp hq
      exact Domain.mem_ancestry_of_shared?_labelBoundary hd

theorem Through.alone_or_unblocked {p : Pattern} {qs : List Pattern} {r : Run} (h : Through m blocked p qs r) :
    r = Run.start p ∨ blocked r.name = false := by
  cases h with
  | start => exact Or.inl rfl
  | extend _ he =>
    obtain ⟨d, -, hb, rfl⟩ := extend?_eq_some_iff.mp he
    exact Or.inr hb

theorem Through.before_last {p : Pattern} {qs : List Pattern} {r : Run} (h : Through m blocked p qs r)
    (hs : (p :: qs).Pairwise Pattern.Before) : ∀ q ∈ p :: qs, q.Before r.last := by
  cases h with
  | start =>
    intro q hq
    cases List.mem_singleton.mp hq
    exact Domain.Before.refl _
  | extend _ he =>
    obtain ⟨d, -, -, rfl⟩ := extend?_eq_some_iff.mp he
    intro q hq
    rw [← List.cons_append] at hq hs
    rcases List.mem_append.mp hq with hq | hq
    · exact (List.pairwise_append.mp hs).2.2 q hq _ (List.mem_singleton_self _)
    · cases List.mem_singleton.mp hq
      exact Domain.Before.refl _

/-! ## The pattern of a run -/

@[simp] theorem pattern_domain (r : Run) : r.pattern.domain = r.name := by
  unfold pattern
  split
  · rename_i h; rw [h]; rfl
  · rfl

theorem last_of_pattern_exact {r : Run} {d : Domain} (h : r.pattern = .exact d) : r.last = .exact d := by
  unfold pattern at h
  split at h
  · exact h
  · cases h

theorem pattern_eq_wildcard_iff {r : Run} {w : Domain} :
    r.pattern = .wildcard w ↔ r.name = w ∧ r.last ≠ .exact r.name := by
  unfold pattern
  by_cases h : r.last = .exact r.name <;> simp [h]

/-- The pattern of a lone member is that member. -/
theorem pattern_start (p : Pattern) : (start p).pattern = p := by
  cases p <;> simp [pattern, start, Pattern.domain]

/-- A run whose name is its last member's has members of this name only. -/
theorem Through.domain_eq {p : Pattern} {qs : List Pattern} {r : Run} (h : Through .labelBoundary blocked p qs r)
    (hp : p.domain ≠ []) (hs : (p :: qs).Pairwise Pattern.Before) (hlast : r.name = r.last.domain) :
    ∀ q ∈ p :: qs, q.domain = r.name := by
  intro q hq
  have hbefore : q.domain.Before r.name := by
    rw [hlast]
    exact h.before_last hs q hq
  exact Domain.eq_of_mem_ancestry_of_before (h.name_mem_ancestry hp q hq) hbefore

theorem Through.covers {p : Pattern} {qs : List Pattern} {r : Run} (h : Through .labelBoundary blocked p qs r)
    (hp : p.domain ≠ []) (hs : (p :: qs).Pairwise Pattern.Before) : ∀ q ∈ p :: qs, r.pattern.Covers q.domain := by
  intro q hq
  cases hr : r.pattern with
  | exact d =>
    have hname : d = r.name := by rw [← pattern_domain, hr]; rfl
    have hlast : r.name = r.last.domain := by rw [last_of_pattern_exact hr, ← hname]; rfl
    rw [hname]
    exact h.domain_eq hp hs hlast q hq
  | wildcard w =>
    rw [← (pattern_eq_wildcard_iff.mp hr).1]
    exact h.name_mem_ancestry hp q hq

/-! ## What the runs depend on -/

theorem extend?_congr {blocked' : Domain → Bool} {r : Run} (h : ∀ d ∈ r.name.ancestry, blocked d = blocked' d)
    (p : Pattern) : r.extend? m blocked p = r.extend? m blocked' p := by
  unfold extend?
  split
  · rfl
  · rename_i d hd
    rw [h d (Domain.mem_ancestry_of_shared? hd)]

theorem foldl_step_congr {blocked' : Domain → Bool} {ps : List Pattern} {st : List Run × Run}
    (h : ∀ p ∈ ps, ∀ d ∈ p.domain.ancestry, blocked d = blocked' d)
    (hr : ∀ d ∈ st.2.name.ancestry, blocked d = blocked' d) :
    ps.foldl (step m blocked) st = ps.foldl (step m blocked') st := by
  induction ps generalizing st with
  | nil => rfl
  | cons p ps ih =>
    have hrest : ∀ q ∈ ps, ∀ d ∈ q.domain.ancestry, blocked d = blocked' d :=
      fun q hq => h q (List.mem_cons_of_mem _ hq)
    simp only [List.foldl_cons]
    have hstep : step m blocked st p = step m blocked' st p := by
      unfold step
      rw [extend?_congr hr p]
    rw [← hstep]
    apply ih hrest
    -- the open run was extended to a name above its old one, or it starts at `p`
    unfold step
    split
    · rename_i r' he
      obtain ⟨d, hd, -, rfl⟩ := extend?_eq_some_iff.mp he
      intro e he
      exact hr e (Domain.ancestry_trans he (Domain.mem_ancestry_of_shared? hd))
    · exact h p List.mem_cons_self

theorem ofSeeds_congr {blocked' : Domain → Bool} {ps : List Pattern}
    (h : ∀ p ∈ ps, ∀ d ∈ p.domain.ancestry, blocked d = blocked' d) : ofSeeds m blocked ps = ofSeeds m blocked' ps := by
  cases ps with
  | nil => rfl
  | cons p ps =>
    have hrest : ∀ q ∈ ps, ∀ d ∈ q.domain.ancestry, blocked d = blocked' d :=
      fun q hq => h q (List.mem_cons_of_mem _ hq)
    have hfold : ps.foldl (step m blocked) ([], start p) = ps.foldl (step m blocked') ([], start p) :=
      foldl_step_congr hrest (h p List.mem_cons_self)
    simp only [ofSeeds, hfold]

end Run

end HostPatterns
