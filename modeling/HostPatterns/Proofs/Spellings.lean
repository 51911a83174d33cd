/-
  HostPatterns.Proofs.Spellings — paths that are compared by their components, and the
  places they lead to.

  Where a path leads, if anywhere, its components tell, and the start if it is relative
  (`place_of_locate`), so two paths of the same components lead to one place
  (`meet_of_same`). The converse fails for three reasons only: a `..` takes back a name, a
  `.` in front counts as a component though it leads nowhere, and a path from the root may
  lead where a relative one does. Two paths are `Askew` when one of them climbs, or when
  only one starts at the root or at a dot; else the comparison is right (`same_of_meet`).

  An extension behind a path makes another name of its last piece, and leads elsewhere
  (`not_meet_extended`).
-/

import HostPatterns.Proofs.Places

namespace HostPatterns

/-- One of the paths climbs, or only one of them starts at the root, or at a dot. -/
def Path.Askew (p q : Path) : Prop :=
  .up ∈ p.components ∨ .up ∈ q.components ∨ ¬ (.root ∈ p.components ↔ .root ∈ q.components) ∨
    ¬ (.here ∈ p.components ↔ .here ∈ q.components)

instance (p q : Path) : Decidable (p.Askew q) := inferInstanceAs (Decidable (_ ∨ _ ∨ _ ∨ _))

theorem Path.isRooted_iff {p : Path} : p.isRooted = true ↔ lead p.pieces = [.root] := by
  have hlead : lead p.pieces = [.root] ↔ ∃ next rest, p.pieces = [] :: next :: rest := by
    unfold lead
    split <;> simp_all
  rw [hlead, isRooted, beq_iff_eq]
  constructor
  · intro h
    obtain ⟨q, rfl⟩ := List.head?_eq_some_iff.mp h
    obtain ⟨next, rest, hq⟩ := List.exists_cons_of_ne_nil (List.splitOn_ne_nil '/' q)
    refine ⟨next, rest, ?_⟩
    rw [pieces, ← List.nil_append ('/' :: q), List.splitOn_append_cons_self, List.splitOn_nil, hq]
    rfl
  · intro h
    obtain ⟨next, rest, hp⟩ := h
    have joined : p = ['/'].intercalate ([] :: next :: rest) := by
      rw [← hp]
      exact (List.intercalate_splitOn '/').symm
    rw [joined]
    rfl

theorem Path.lead_cases (pieces : List Text) : lead pieces = [.root] ∨ lead pieces = [] ∨ lead pieces = [.here] := by
  unfold lead
  split <;> simp

theorem Path.component?_eq_some {piece : Text} {c : Component} (h : component? piece = some c) :
    c = .up ∨ c = .name piece := by
  unfold component? at h
  split at h
  · cases h
  · cases h
  · cases h; exact Or.inl rfl
  · cases h; exact Or.inr rfl

theorem Path.component?_eq_name {piece : Text} (h : piece ≠ []) (hdot : piece ≠ ['.']) (hdots : piece ≠ ['.', '.']) :
    component? piece = some (.name piece) := by
  unfold component?
  split <;> simp_all

/-- Behind an extension longer than `..` a piece is a name. -/
theorem Path.component?_extended (piece : Text) {ext : Text} (hlong : 2 < ext.length) :
    component? (piece ++ ext) = some (.name (piece ++ ext)) := by
  have hlen : 2 < (piece ++ ext).length := by rw [List.length_append]; omega
  apply component?_eq_name <;> (intro h; rw [h] at hlen; simp at hlen)

/-- Without steps up, the components of pieces are names. -/
theorem Path.exists_names {pieces : List Text} (h : .up ∉ pieces.filterMap component?) :
    ∃ ns : List Text, pieces.filterMap component? = ns.map .name := by
  refine ⟨pieces.filter fun n => (component? n).isSome, ?_⟩
  induction pieces with
  | nil => rfl
  | cons n pieces ih =>
    cases hn : component? n with
    | none =>
      rw [List.filterMap_cons_none hn] at h ⊢
      simp [hn, ih h]
    | some c =>
      rw [List.filterMap_cons_some hn] at h ⊢
      simp only [List.mem_cons, not_or] at h
      rcases component?_eq_some hn with rfl | rfl
      · exact absurd rfl h.1
      · simp [hn, ih h.2]

/-- What is put behind a path is put behind its last piece. -/
theorem Path.pieces_append {p : Path} {front : List Text} {last ext : Text} (h : p.pieces = front ++ [last])
    (hext : '/' ∉ ext) : (p ++ ext).pieces = front ++ [last ++ ext] := by
  unfold pieces at h ⊢
  by_cases hp : '/' ∈ p
  · obtain ⟨v, u, hsplit, hv⟩ := List.eq_append_cons_of_mem (List.mem_reverse.mpr hp)
    have hp : p = u.reverse ++ '/' :: v.reverse := by simpa using congrArg List.reverse hsplit
    have hv : '/' ∉ v.reverse := by simpa using hv
    have hv' : '/' ∉ v.reverse ++ ext := by simp_all
    rw [hp, List.splitOn_append_cons_self, List.splitOn_eq_singleton hv] at h
    obtain ⟨rfl, hlast⟩ := List.append_inj' h rfl
    cases hlast
    rw [hp, List.append_assoc, List.cons_append, List.splitOn_append_cons_self, List.splitOn_eq_singleton hv']
  · have hp' : '/' ∉ p ++ ext := by simp [hp, hext]
    rw [List.splitOn_eq_singleton hp, ← List.nil_append [p]] at h
    obtain ⟨rfl, hlast⟩ := List.append_inj' h rfl
    cases hlast
    rw [List.splitOn_eq_singleton hp', List.nil_append]

namespace FileTree

variable {t : FileTree} {p q : Path}

/-- Where a component leads from a directory. -/
def follow (here : Place) : Path.Component → Place
  | .root => []
  | .here => here
  | .up => here.dropLast
  | .name n => here ++ [n]

theorem goTo_eq (here : Place) (piece : Text) : goTo here piece = (Path.component? piece).elim here (follow here) := by
  unfold goTo
  split
  · rfl
  · rfl
  · rfl
  · rename_i h1 h2 h3
    rw [Path.component?_eq_name h1 h2 h3]
    rfl

theorem place_of_walk {pieces : List Text} {here : Place} (h : t.walk pieces = .ok here) :
    here = (pieces.filterMap Path.component?).foldl follow [] := by
  induction pieces using List.reverseRecOn generalizing here with
  | nil => cases h; rfl
  | append_singleton pieces last ih =>
    obtain ⟨up, hup, hlast⟩ := walk_concat.mp h
    obtain ⟨-, -, rfl⟩ := enter_eq_ok_iff.mp hlast
    rw [goTo_eq, List.filterMap_append, List.foldl_append, ← ih hup]
    cases hc : Path.component? last <;> simp [hc]

/-- A root in front leads to the root from anywhere, and a dot stays. -/
theorem foldl_follow_lead (p : Path) (here : Place) :
    (Path.lead p.pieces).foldl follow here = if p.isRooted then [] else here := by
  cases hp : p.isRooted with
  | true => rw [Path.isRooted_iff.mp hp]; rfl
  | false =>
    have hlead := (Path.lead_cases p.pieces).resolve_left fun hroot => by simp [Path.isRooted_iff.mpr hroot] at hp
    rcases hlead with hlead | hlead <;> (rw [hlead]; rfl)

/-- Where the names of the start lead. -/
def base (t : FileTree) : Place := (t.start.filterMap Path.component?).foldl follow []

theorem place_of_locate {here : Place} (h : t.locate p = .ok here) : here = p.components.foldl follow t.base := by
  obtain ⟨-, hw⟩ := locate_eq_ok_iff.mp h
  have hplace := place_of_walk hw
  have horigin : ((t.origin p).filterMap Path.component?).foldl follow [] = if p.isRooted then [] else t.base := by
    unfold origin base
    split <;> rfl
  rw [hplace, Path.components, List.filterMap_append, List.foldl_append, List.foldl_append, horigin, foldl_follow_lead]

theorem meet_of_same {here there : Place} (hp : t.locate p = .ok here) (hq : t.locate q = .ok there)
    (h : p.same q = true) : t.Meet p q := by
  have hsame : p.components = q.components := by simpa [Path.same] using h
  have heq : there = here := by rw [place_of_locate hp, place_of_locate hq, hsame]
  exact ⟨here, hp, heq ▸ hq⟩

theorem foldl_follow_names (here : Place) (ns : List Text) : (ns.map Path.Component.name).foldl follow here = here ++ ns := by
  induction ns generalizing here with
  | nil => simp
  | cons n ns ih => simp [ih, follow]

/-- A path that does not climb spells the names from its origin to its place. -/
theorem exists_names_of_locate {here : Place} (h : t.locate p = .ok here) (hup : .up ∉ p.components) :
    ∃ ns : List Text, p.components = Path.lead p.pieces ++ ns.map .name ∧
      here = (if p.isRooted then [] else t.base) ++ ns := by
  obtain ⟨ns, hns⟩ := Path.exists_names fun hin => hup (List.mem_append_right _ hin)
  have hc : p.components = Path.lead p.pieces ++ ns.map .name := by rw [← hns, Path.components]
  refine ⟨ns, hc, ?_⟩
  rw [place_of_locate h, hc, List.foldl_append, foldl_follow_lead, foldl_follow_names]

theorem same_of_meet (hm : t.Meet p q) (h : ¬ p.Askew q) : p.same q = true := by
  obtain ⟨here, hp, hq⟩ := hm
  simp only [Path.Askew, not_or, not_not] at h
  obtain ⟨hup, hup', hroot, hhere⟩ := h
  obtain ⟨ns, hc, hplace⟩ := exists_names_of_locate hp hup
  obtain ⟨ns', hc', hplace'⟩ := exists_names_of_locate hq hup'
  have hlead : Path.lead p.pieces = Path.lead q.pieces := by
    rw [hc, hc'] at hroot hhere
    rcases Path.lead_cases p.pieces with h | h | h <;> rcases Path.lead_cases q.pieces with h' | h' | h' <;> simp_all
  have hrooted : p.isRooted = q.isRooted := by rw [Bool.eq_iff_iff, Path.isRooted_iff, Path.isRooted_iff, hlead]
  rw [hplace, hrooted, List.append_cancel_left_eq] at hplace'
  simp [Path.same, hc, hc', hlead, hplace']

/-- From a start below the root, a path with a slash in front leads where a relative one does. -/
example :
    let t : FileTree := { empty.put ["w".toList] .directory with start := ["w".toList] }
    t.Meet "h".toList "/w/h".toList ∧ Path.Askew "h".toList "/w/h".toList ∧ Path.same "h".toList "/w/h".toList = false :=
  ⟨⟨["w".toList, "h".toList], by cbv, by cbv⟩, by decide, by decide⟩

/-- A path with an extension put behind it does not lead to the file that the path names. -/
theorem not_meet_extended {here : Place} (hl : t.locate p = .ok here) (hd : t.get? here ≠ some .directory) {ext : Text}
    (hext : '/' ∉ ext) (hlong : 2 < ext.length) : ¬ t.Meet p (p ++ ext) := by
  intro hm
  obtain ⟨there, hp, hq⟩ := hm
  rw [hl] at hp
  cases hp
  obtain ⟨front, last, hpieces⟩ := p.exists_pieces_concat
  obtain ⟨hr, hw⟩ := locate_eq_ok_iff.mp hl
  obtain ⟨-, hw'⟩ := locate_eq_ok_iff.mp hq
  have horigin : t.origin (p ++ ext) = t.origin p := by
    obtain ⟨c, rest, rfl⟩ := List.exists_cons_of_ne_nil (ne_nil_of_refusal? hr)
    rfl
  rw [hpieces, ← List.append_assoc] at hw
  rw [horigin, Path.pieces_append hpieces hext, ← List.append_assoc] at hw'
  obtain ⟨up, hup, hlast⟩ := walk_concat.mp hw
  obtain ⟨up', hup', hlast'⟩ := walk_concat.mp hw'
  rw [hup] at hup'
  cases hup'
  obtain ⟨hdir, -, rfl⟩ := enter_eq_ok_iff.mp hlast
  obtain ⟨-, -, heq⟩ := enter_eq_ok_iff.mp hlast'
  obtain ⟨hgo, -⟩ := (get?_goTo (grounded_of_walk hup) hdir last).resolve_right hd
  simp [hgo, goTo_eq, Path.component?_extended last hlong, follow] at heq
  simp [heq] at hlong

end FileTree

end HostPatterns
