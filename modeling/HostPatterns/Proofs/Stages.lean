/-
  HostPatterns.Proofs.Stages — a compaction one step at a time, and what is blocked on the
  way.

  At each `Stage` some groups wait, one group may be walked, and a set was committed so far.
  A step takes the next group, or the next member of the one that is walked: the open run
  goes on, or it is closed and committed. Here a suffix is blocked by all that was committed
  until then, also by the group itself. That makes no difference, as an address blocks
  nothing for itself (`blocked_insert_own`), so a group that is walked member by member ends
  with the runs that it makes at once (`Reach.walked`). There is never a choice of steps
  (`Step.deterministic`), and they end in the compaction (`reach_compact`).

  What is committed for an address, or is the name of its open run, has a member of the
  address at or below it (`Rooted`); a step keeps this, as a run only goes on to names above
  its own (`Step.inv`). What is above a blocked name is then blocked itself, though not for
  one reason: above a foreign binding nothing need be bound, but the binding's member is
  below (`closedAbove_blocked`):
  - `blocks_upward`: at every stage, for every address, and also above a shared suffix that
    closed a run, so that no shorter one would have gone on.
-/

import HostPatterns.Proofs.Neighbours
import Mathlib

namespace HostPatterns

/-! ## Runs from an open one -/

namespace Run

variable {m : Comparison} {blocked : Domain → Bool}

/-- The runs that an open run and the members behind it make. -/
def walked (m : Comparison) (blocked : Domain → Bool) (r : Run) (ps : List Pattern) : List Run :=
  let st := ps.foldl (step m blocked) ([], r)
  (st.2 :: st.1).reverse

@[simp] theorem walked_nil (r : Run) : walked m blocked r [] = [r] := rfl

theorem ofSeeds_cons (p : Pattern) (ps : List Pattern) : ofSeeds m blocked (p :: ps) = walked m blocked (start p) ps := rfl

/-- Runs that are closed already stay in front. -/
theorem reverse_foldl_step (m : Comparison) (blocked : Domain → Bool) (closed : List Run) (r : Run) (ps : List Pattern) :
    let st := ps.foldl (step m blocked) (closed, r)
    (st.2 :: st.1).reverse = closed.reverse ++ walked m blocked r ps := by
  induction ps generalizing closed r with
  | nil => simp
  | cons p ps ih =>
    unfold walked
    simp only [List.foldl_cons]
    cases he : r.extend? m blocked p with
    | some r' =>
      rw [step_of_extend? he, step_of_extend? he]
      exact ih closed r'
    | none =>
      rw [step_of_stopped he, step_of_stopped he, ih, ih]
      simp

theorem walked_of_extend? {r r' : Run} {p : Pattern} (h : r.extend? m blocked p = some r') (ps : List Pattern) :
    walked m blocked r (p :: ps) = walked m blocked r' ps := by
  unfold walked
  rw [List.foldl_cons, step_of_extend? h]

theorem walked_of_stopped {r : Run} {p : Pattern} (h : r.extend? m blocked p = none) (ps : List Pattern) :
    walked m blocked r (p :: ps) = r :: walked m blocked (start p) ps := by
  have hclosed := reverse_foldl_step m blocked [r] (start p) ps
  unfold walked
  rw [List.foldl_cons, step_of_stopped h]
  exact hclosed

end Run

/-! ## Stages -/

/-- A group that is being walked: its address, the open run and the members to come. -/
structure Walking where
  ip : Ipv4
  run : Run
  rest : List Pattern

/-- A compaction under way. -/
structure Stage where
  waiting : List Group
  walking : Option Walking
  /-- What was committed so far. -/
  set : PatternSet

namespace Stage

variable {m : Comparison} {o : Owners} {gs : List Group} {st st' : Stage}

inductive Step (m : Comparison) (o : Owners) : Stage → Stage → Prop
  /-- The next group has no member to walk. -/
  | skip {g : Group} {gs : List Group} {s : PatternSet} : g.seeds = [] → Step m o ⟨g :: gs, none, s⟩ ⟨gs, none, s⟩
  | start {g : Group} {gs : List Group} {p : Pattern} {ps : List Pattern} {s : PatternSet} : g.seeds = p :: ps →
      Step m o ⟨g :: gs, none, s⟩ ⟨gs, some ⟨g.ip, .start p, ps⟩, s⟩
  | extend {gs : List Group} {ip : Ipv4} {r r' : Run} {p : Pattern} {ps : List Pattern} {s : PatternSet} :
      r.extend? m (blocked o s ip) p = some r' → Step m o ⟨gs, some ⟨ip, r, p :: ps⟩, s⟩ ⟨gs, some ⟨ip, r', ps⟩, s⟩
  | close {gs : List Group} {ip : Ipv4} {r : Run} {p : Pattern} {ps : List Pattern} {s : PatternSet} :
      r.extend? m (blocked o s ip) p = none →
      Step m o ⟨gs, some ⟨ip, r, p :: ps⟩, s⟩ ⟨gs, some ⟨ip, .start p, ps⟩, s.insert ⟨r.pattern, ip⟩⟩
  /-- The last run is closed behind the last member. -/
  | finish {gs : List Group} {ip : Ipv4} {r : Run} {s : PatternSet} :
      Step m o ⟨gs, some ⟨ip, r, []⟩, s⟩ ⟨gs, none, s.insert ⟨r.pattern, ip⟩⟩

/-- The stages of the compaction of some groups. -/
inductive Reach (m : Comparison) (gs : List Group) : Stage → Prop
  | init : Reach m gs ⟨processingOrder gs, none, ∅⟩
  | step {st st' : Stage} : Reach m gs st → Step m (Owners.ofGroups gs) st st' → Reach m gs st'

/-! ## What is committed has a member below it -/

/-- The address has a member at or below the name. -/
def Rooted (gs : List Group) (ip : Ipv4) (d : Domain) : Prop := ∃ p, Member gs ip p ∧ d ∈ p.domain.ancestry

theorem Rooted.above {ip : Ipv4} {d e : Domain} (h : Rooted gs ip d) (he : e ∈ d.ancestry) : Rooted gs ip e := by
  obtain ⟨p, hp, hd⟩ := h
  exact ⟨p, hp, Domain.ancestry_trans he hd⟩

theorem rooted_of_mem_seeds {g : Group} (hg : g ∈ gs) {p : Pattern} (hp : p ∈ g.seeds) : Rooted gs g.ip p.domain :=
  ⟨p, Group.member_of_mem_seeds hg hp, Domain.self_mem_ancestry (Group.mem_seeds.mp hp).2⟩

structure Inv (gs : List Group) (st : Stage) : Prop where
  waiting : ∀ g ∈ st.waiting, g ∈ gs
  run : ∀ w ∈ st.walking, Rooted gs w.ip w.run.name
  rest : ∀ w ∈ st.walking, ∀ p ∈ w.rest, Rooted gs w.ip p.domain
  indexed : st.set.Indexed
  bound : ∀ b ∈ st.set.toList, Rooted gs b.ip b.pattern.domain

/-- A run of the address commits a name with a member below it. -/
theorem rooted_insert {s : PatternSet} (hs : s.Indexed) (hb : ∀ b ∈ s.toList, Rooted gs b.ip b.pattern.domain)
    {ip : Ipv4} {r : Run} (hr : Rooted gs ip r.name) :
    ∀ b ∈ (s.insert ⟨r.pattern, ip⟩).toList, Rooted gs b.ip b.pattern.domain := by
  intro b hin
  rcases PatternSet.mem_of_mem_insert hs hin with hin | rfl
  · exact hb b hin
  · rw [Run.pattern_domain]
    exact hr

theorem Step.inv (hi : Inv gs st) (h : Step m o st st') : Inv gs st' := by
  obtain ⟨hwaiting, hrun, hrest, hindexed, hbound⟩ := hi
  cases h with
  | skip =>
    exact ⟨fun g hg => hwaiting g (List.mem_cons_of_mem _ hg), nofun, nofun, hindexed, hbound⟩
  | @start g gs' p ps s hseeds =>
    have hrooted : ∀ q ∈ p :: ps, Rooted gs g.ip q.domain := by
      rw [← hseeds]
      exact fun q hq => rooted_of_mem_seeds (hwaiting g List.mem_cons_self) hq
    refine ⟨fun g hg => hwaiting g (List.mem_cons_of_mem _ hg), ?_, ?_, hindexed, hbound⟩
    · rintro w ⟨⟩
      exact hrooted p List.mem_cons_self
    · rintro w ⟨⟩ q hq
      exact hrooted q (List.mem_cons_of_mem _ hq)
  | @extend gs' ip r r' p ps s he =>
    obtain ⟨d, hd, -, rfl⟩ := Run.extend?_eq_some_iff.mp he
    refine ⟨hwaiting, ?_, ?_, hindexed, hbound⟩
    · rintro w ⟨⟩
      exact (hrun _ rfl).above (Domain.mem_ancestry_of_shared? hd)
    · rintro w ⟨⟩ q hq
      exact hrest _ rfl q (List.mem_cons_of_mem _ hq)
  | @close gs' ip r p ps s he =>
    refine ⟨hwaiting, ?_, ?_, PatternSet.indexed_insert hindexed _, rooted_insert hindexed hbound (hrun _ rfl)⟩
    · rintro w ⟨⟩
      exact hrest _ rfl p List.mem_cons_self
    · rintro w ⟨⟩ q hq
      exact hrest _ rfl q (List.mem_cons_of_mem _ hq)
  | finish =>
    exact ⟨hwaiting, nofun, nofun, PatternSet.indexed_insert hindexed _, rooted_insert hindexed hbound (hrun _ rfl)⟩

theorem Reach.inv (h : Reach m gs st) : Inv gs st := by
  induction h with
  | init =>
    exact ⟨fun g hg => mem_processingOrder.mp hg, nofun, nofun, PatternSet.indexed_empty, fun b hb => absurd hb List.not_mem_nil⟩
  | step _ hs ih => exact hs.inv ih

/-! ## The steps reach the compaction -/

/-- An address blocks nothing for itself. -/
theorem blocked_insert_own {s : PatternSet} (hs : s.Indexed) (p : Pattern) (ip : Ipv4) :
    blocked o (s.insert ⟨p, ip⟩) ip = blocked o s ip := by
  funext d
  rw [Bool.eq_iff_iff, blocked_iff (PatternSet.indexed_insert hs _), blocked_iff hs]
  refine or_congr ?_ Iff.rfl
  constructor
  · intro hbound
    obtain ⟨b, hb, hne, habove⟩ := hbound
    rcases PatternSet.mem_of_mem_insert hs hb with hb | rfl
    · exact ⟨b, hb, hne, habove⟩
    · exact absurd rfl hne
  · intro hbound
    obtain ⟨b, hb, hne, habove⟩ := hbound
    exact ⟨b, PatternSet.mem_insert_of_mem hs hb, hne, habove⟩

theorem Step.deterministic {st₁ st₂ : Stage} (h₁ : Step m o st st₁) (h₂ : Step m o st st₂) : st₁ = st₂ := by
  cases h₁ <;> cases h₂ <;> simp_all

/-- A walk commits the runs that a group makes of its members at once. -/
theorem Reach.walked {waiting : List Group} {ip : Ipv4} {r : Run} {ps : List Pattern} {s : PatternSet}
    (h : Reach m gs ⟨waiting, some ⟨ip, r, ps⟩, s⟩) :
    Reach m gs ⟨waiting, none,
      (Run.walked m (blocked (Owners.ofGroups gs) s ip) r ps).foldl (fun s r => s.insert ⟨r.pattern, ip⟩) s⟩ := by
  induction ps generalizing r s with
  | nil => exact h.step .finish
  | cons p ps ih =>
    cases he : r.extend? m (blocked (Owners.ofGroups gs) s ip) p with
    | some r' =>
      rw [Run.walked_of_extend? he]
      exact ih (h.step (.extend he))
    | none =>
      have hrest := ih (h.step (.close he))
      rw [blocked_insert_own h.inv.indexed] at hrest
      rw [Run.walked_of_stopped he]
      exact hrest

theorem Reach.addGroup {g : Group} {waiting : List Group} {s : PatternSet} (h : Reach m gs ⟨g :: waiting, none, s⟩) :
    Reach m gs ⟨waiting, none, s.addGroup (Owners.ofGroups gs) m g⟩ := by
  unfold PatternSet.addGroup
  cases hseeds : g.seeds with
  | nil => exact h.step (.skip hseeds)
  | cons p ps =>
    rw [Run.ofSeeds_cons]
    exact (h.step (.start hseeds)).walked

theorem Reach.foldl_addGroup {waiting : List Group} {s : PatternSet} (h : Reach m gs ⟨waiting, none, s⟩) :
    Reach m gs ⟨[], none, waiting.foldl (PatternSet.addGroup (Owners.ofGroups gs) m) s⟩ := by
  induction waiting generalizing s with
  | nil => exact h
  | cons g waiting ih => exact ih h.addGroup

theorem reach_compact (m : Comparison) (gs : List Group) : Reach m gs ⟨[], none, compact m gs⟩ := Reach.init.foldl_addGroup

/-! ## What is above a blocked name -/

/-- Above a foreign binding, the member below the binding takes its place. -/
theorem closedAbove_blocked {s : PatternSet} (hs : s.Indexed) (hb : ∀ b ∈ s.toList, Rooted gs b.ip b.pattern.domain)
    (ip : Ipv4) : ClosedAbove (blocked (Owners.ofGroups gs) s ip) := by
  intro d e he hne hd
  rw [blocked_iff hs] at hd ⊢
  rcases hd with ⟨b, hin, hip, habove⟩ | hc
  · rcases Domain.ancestry_total habove he hne with hdown | hup
    · exact Or.inl ⟨b, hin, hip, hdown⟩
    · -- `e` is above the binding, so it is above the member that the binding has below it
      right
      obtain ⟨p, hp, hbelow⟩ := (hb b hin).above hup
      exact Owners.contested_iff.mpr ⟨b.ip, p, hip, hp, Or.inl hbelow⟩
  · exact Or.inr (closedAbove_contested gs ip d e he hne hc)

theorem blocks_upward (h : Reach m gs st) (ip : Ipv4) :
    let blocks := blocked (Owners.ofGroups gs) st.set ip
    ClosedAbove blocks ∧
      ∀ (r : Run) (p : Pattern) (d : Domain), Domain.shared? m r.name p.domain = some d → r.extend? m blocks p = none →
        ∀ e ∈ d.ancestry, e ≠ [] → blocks e = true := by
  intro blocks
  have hclosed : ClosedAbove blocks := closedAbove_blocked h.inv.indexed h.inv.bound ip
  refine ⟨hclosed, ?_⟩
  intro r p d hd hstop e he hne
  have hblocked : blocks d = true := by
    by_contra hfree
    have hgo := Run.extend?_eq_some_iff.mpr ⟨d, hd, Bool.eq_false_iff.mpr hfree, rfl⟩
    rw [hstop] at hgo
    cases hgo
  exact hclosed d e he hne hblocked

/-- Two hosts below a wildcard of another address: what they share is below the wildcard, so they are not put together,
    and would not be by a shorter suffix, though nothing is bound above the wildcard. -/
theorem foreign_wildcard_blocks_above :
    let near : Group := ⟨⟨1, 1, 1, 1⟩, [".x.example.com".toList, "org".toList]⟩
    let far : Group := ⟨⟨2, 2, 2, 2⟩, ["c.y.x.example.com".toList, "d.y.x.example.com".toList]⟩
    let o := Owners.ofGroups [near, far]
    let s := PatternSet.addGroup o .labelBoundary ∅ near
    let run : Run := .start (.exact "c.y.x.example.com".toList)
    let next : Pattern := .exact "d.y.x.example.com".toList
    let blocks := blocked o s far.ip
    Reach .labelBoundary [near, far] ⟨[], some ⟨far.ip, run, [next]⟩, s⟩ ∧
      run.extend? .labelBoundary blocks next = none ∧ blocks "y.x.example.com".toList = true ∧
      blocks "x.example.com".toList = true ∧ blocks "example.com".toList = true ∧ blocks "com".toList = true ∧
      blocks "host.org".toList = true ∧ blocks "org".toList = true ∧ blocks "host.net".toList = false := by
  intro near far o s run next blocks
  have order : processingOrder [near, far] = [near, far] := by unfold near far; cbv
  have first : Reach .labelBoundary [near, far] ⟨processingOrder [near, far], none, ∅⟩ := .init
  rw [order] at first
  have seeds : far.seeds = [.exact "c.y.x.example.com".toList, next] := by unfold far next; cbv
  have reached : Reach .labelBoundary [near, far] ⟨[], some ⟨far.ip, run, [next]⟩, s⟩ := first.addGroup.step (.start seeds)
  have stopped : run.extend? .labelBoundary blocks next = none := by unfold run blocks next s o far near; cbv
  have shared : Domain.shared? .labelBoundary run.name next.domain = some "y.x.example.com".toList := by
    unfold run next; cbv
  have host : blocks "host.org".toList = true := by unfold blocks s o far near; cbv
  have free : blocks "host.net".toList = false := by unfold blocks s o far near; cbv
  obtain ⟨closed, above⟩ := blocks_upward reached far.ip
  have above_shared := above run next _ shared stopped
  refine ⟨reached, stopped, ?_, ?_, ?_, ?_, host, closed _ _ (by decide) (by decide) host, free⟩
  · exact above_shared _ (by decide) (by decide)
  · exact above_shared _ (by decide) (by decide)
  · exact above_shared _ (by decide) (by decide)
  · exact above_shared _ (by decide) (by decide)

end Stage

end HostPatterns
