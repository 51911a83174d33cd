/-
  HostPatterns.Proofs.Places — where paths lead in a tree, and what a new file changes.

  A relative path goes on behind the names of the start, so it is followed from there, where
  these names lead there (`locate_of_start`).

  A name is entered from a directory only, and `..` goes back the way it came, so
  everything above a place that a walk reaches is a directory (`grounded_of_walk`). A path
  that ends in a slash, in `.` or in `..` leads to a directory if it leads anywhere, so a
  new file can be put exactly where a path leads to no directory (`locateNew_eq_ok_iff`).

  The new file takes the place of no directory, and every walk that succeeded still does
  (`locate_create`). So a file is read back as it was written (`read_create_self`), and one
  that could be read before holds the new bytes if its path leads to the same place
  (`read_create_of_meet`), and its own if not (`read_create_of_not_meet`).
-/

import HostPatterns.FileTree
import Mathlib.Data.List.Induction
import Mathlib.Data.List.TakeWhile

namespace HostPatterns

theorem Except.bind_eq_ok_iff {ε α β : Type} {x : Except ε α} {f : α → Except ε β} {b : β} :
    (x >>= f) = .ok b ↔ ∃ a, x = .ok a ∧ f a = .ok b := by
  cases x <;> simp [bind, Except.bind]

/-! ## Pieces of a path -/

theorem Text.intercalate_concat_nil (sep : Text) {xs : List Text} (h : xs ≠ []) :
    sep.intercalate (xs ++ [[]]) = sep.intercalate xs ++ sep := by
  induction xs with
  | nil => exact absurd rfl h
  | cons x xs ih =>
    cases xs with
    | nil => simp [List.intercalate]
    | cons y xs =>
      have := ih (List.cons_ne_nil y xs)
      simp only [List.intercalate, List.cons_append, List.intersperse_cons_cons, List.flatten_cons] at this ⊢
      simp [this]

theorem Path.exists_pieces_concat (p : Path) : ∃ front last, p.pieces = front ++ [last] := by
  obtain ⟨front, last, hpieces⟩ := (List.eq_nil_or_concat p.pieces).resolve_left (List.splitOn_ne_nil _ _)
  exact ⟨front, last, hpieces.trans (List.concat_eq_append ..)⟩

/-- The last piece of a path is empty behind a slash only. -/
theorem Path.getLast?_pieces {p : Path} (hp : p ≠ []) : p.pieces.getLast? = some [] ↔ p.getLast? = some '/' := by
  constructor
  · intro h
    obtain ⟨xs, hxs⟩ := List.getLast?_eq_some_iff.mp h
    have joined : p = ['/'].intercalate (xs ++ [[]]) := by
      rw [← hxs]
      exact (List.intercalate_splitOn '/').symm
    have hne : xs ≠ [] := by
      rintro rfl
      exact hp joined
    rw [joined, Text.intercalate_concat_nil _ hne, List.getLast?_concat]
  · intro h
    obtain ⟨u, rfl⟩ := List.getLast?_eq_some_iff.mp h
    rw [pieces, List.splitOn_append_cons_self]
    exact List.getLast?_concat

theorem Path.dropWhile_reverse_pieces {p : Path} (hp : p ≠ []) (h : p.getLast? ≠ some '/') :
    p.pieces.reverse.dropWhile (· == []) = p.pieces.reverse := by
  rw [List.dropWhile_eq_self_iff]
  intro hlen hnil
  apply h
  rw [← getLast?_pieces hp, List.getLast?_eq_head?_reverse, List.head?_eq_getElem?, List.getElem?_eq_getElem hlen]
  simpa using hnil

namespace FileTree

variable {t : FileTree}

/-! ## Walks -/

theorem enter_eq_ok_iff {here there : Place} {piece : Text} :
    t.enter here piece = .ok there ↔
      t.get? here = some .directory ∧ piece.byteLength ≤ Path.maxNameBytes ∧ goTo here piece = there := by
  unfold enter
  split
  · rename_i h; simp [h]
  · rename_i h; simp [h]
  · rename_i h
    split
    · rename_i hlen; simp [h, Nat.not_le_of_lt hlen]
    · rename_i hlen; simp [h, Nat.le_of_not_lt hlen]

theorem walk_concat {pieces : List Text} {last : Text} {here : Place} :
    t.walk (pieces ++ [last]) = .ok here ↔ ∃ up, t.walk pieces = .ok up ∧ t.enter up last = .ok here := by
  unfold walk
  rw [List.foldlM_append, Except.bind_eq_ok_iff]
  simp

theorem locate_eq_ok_iff {p : Path} {here : Place} :
    t.locate p = .ok here ↔ refusal? p = none ∧ t.walk (t.origin p ++ p.pieces) = .ok here := by
  unfold locate
  split
  · rename_i h; simp [h]
  · rename_i h; simp [h]

/-- A relative path is followed from the start, if the names of the start lead there. -/
theorem locate_of_start {p : Path} (hs : t.walk t.start = .ok t.start) (hr : refusal? p = none) (hp : p.isRooted = false) :
    t.locate p = p.pieces.foldlM t.enter t.start := by
  have horigin : t.origin p = t.start := by simp [origin, hp]
  unfold locate walk at *
  rw [hr, horigin, List.foldlM_append, hs]
  rfl

/-- Everything above the place is a directory. -/
def Grounded (t : FileTree) (here : Place) : Prop := ∀ above, above <+: here → above ≠ here → t.get? above = some .directory

theorem Grounded.goTo {here : Place} (h : t.Grounded here) (hd : t.get? here = some .directory) (piece : Text) :
    t.Grounded (goTo here piece) := by
  unfold FileTree.goTo
  split
  · exact h
  · exact h
  · intro above ha hne
    by_cases e : above = here
    · rw [e]; exact hd
    · exact h above (ha.trans (List.dropLast_prefix here)) e
  · intro above ha hne
    rcases List.prefix_concat_iff.mp ha with e | ha
    · exact absurd e hne
    · by_cases e : above = here
      · rw [e]; exact hd
      · exact h above ha e

theorem grounded_of_walk {pieces : List Text} {here : Place} (h : t.walk pieces = .ok here) : t.Grounded here := by
  induction pieces using List.reverseRecOn generalizing here with
  | nil =>
    cases h
    intro above ha hne
    exact absurd (List.prefix_nil.mp ha) hne
  | append_singleton pieces last ih =>
    obtain ⟨up, hup, hlast⟩ := walk_concat.mp h
    obtain ⟨hd, -, rfl⟩ := enter_eq_ok_iff.mp hlast
    exact (ih hup).goTo hd last

/-- A last piece that is no name leads to a directory. -/
theorem get?_goTo {up : Place} (h : t.Grounded up) (hd : t.get? up = some .directory) (last : Text) :
    goTo up last = up ++ [last] ∧ last ≠ [] ∨ t.get? (goTo up last) = some .directory := by
  unfold goTo
  split
  · exact Or.inr hd
  · exact Or.inr hd
  · right
    by_cases e : up.dropLast = up
    · rw [e]; exact hd
    · exact h _ (List.dropLast_prefix up) e
  · rename_i hne _ _
    exact Or.inl ⟨rfl, hne⟩

/-! ## New files -/

theorem ne_nil_of_refusal? {p : Path} (h : refusal? p = none) : p ≠ [] := by
  rintro rfl
  cases h

theorem locate_of_locateNew {p : Path} {here : Place} (h : t.locateNew p = .ok here) :
    t.locate p = .ok here ∧ t.get? here ≠ some .directory := by
  unfold locateNew at h
  split at h
  · cases h
  · cases h
  · rename_i last above hr hpieces
    obtain ⟨base, hbase, h⟩ := Except.bind_eq_ok_iff.mp h
    obtain ⟨up, hup, h⟩ := Except.bind_eq_ok_iff.mp h
    obtain ⟨-, -, rfl⟩ := enter_eq_ok_iff.mp hup
    split at h
    · cases h
    rename_i hslash
    obtain ⟨there, hthere, h⟩ := Except.bind_eq_ok_iff.mp h
    split at h
    · cases h
    split at h
    · cases h
    rename_i hdir
    cases h
    rw [Path.dropWhile_reverse_pieces (ne_nil_of_refusal? hr) hslash] at hpieces
    have hp : p.pieces = above.reverse ++ [last] := by simpa using congrArg List.reverse hpieces
    refine ⟨locate_eq_ok_iff.mpr ⟨hr, ?_⟩, hdir⟩
    rw [hp, ← List.append_assoc]
    exact walk_concat.mpr ⟨_, hbase, hthere⟩

theorem locateNew_of_locate {p : Path} {here : Place} (h : t.locate p = .ok here) (hdir : t.get? here ≠ some .directory) :
    t.locateNew p = .ok here := by
  obtain ⟨hr, hw⟩ := locate_eq_ok_iff.mp h
  obtain ⟨front, last, hpieces⟩ := p.exists_pieces_concat
  rw [hpieces, ← List.append_assoc] at hw
  obtain ⟨up, hup, hlast⟩ := walk_concat.mp hw
  obtain ⟨hd, -, rfl⟩ := enter_eq_ok_iff.mp hlast
  obtain ⟨hgo, hne⟩ := (get?_goTo (grounded_of_walk hup) hd last).resolve_right hdir
  rw [hgo] at hlast hdir ⊢
  have hp := ne_nil_of_refusal? hr
  have hslash : p.getLast? ≠ some '/' := by
    rw [Ne, ← Path.getLast?_pieces hp, hpieces, List.getLast?_concat]
    simpa using hne
  have hstay : t.enter up [] = .ok up := enter_eq_ok_iff.mpr ⟨hd, Nat.zero_le _, rfl⟩
  unfold locateNew
  rw [Path.dropWhile_reverse_pieces hp hslash, hpieces, hr, List.reverse_append, List.reverse_singleton]
  simp [bind, Except.bind, hup, hstay, hslash, hlast]

/-- A new file can be put where a path leads, unless a directory stands there. -/
theorem locateNew_eq_ok_iff {p : Path} {here : Place} :
    t.locateNew p = .ok here ↔ t.locate p = .ok here ∧ t.get? here ≠ some .directory :=
  ⟨locate_of_locateNew, fun h => locateNew_of_locate h.1 h.2⟩

theorem create_eq_ok_iff {p : Path} {bytes : ByteArray} {t' : FileTree} :
    t.create p bytes = .ok t' ↔ ∃ here, t.locateNew p = .ok here ∧ t.put here (.file bytes) = t' := by
  show (t.locateNew p >>= _) = _ ↔ _
  rw [Except.bind_eq_ok_iff]
  simp [pure, Except.pure]

theorem read_eq_ok_iff {p : Path} {bytes : ByteArray} :
    t.read p = .ok bytes ↔ ∃ here, t.locate p = .ok here ∧ t.get? here = some (.file bytes) := by
  show (t.locate p >>= _) = _ ↔ _
  rw [Except.bind_eq_ok_iff]
  refine exists_congr fun here => and_congr_right fun _ => ?_
  split
  · rename_i h; simp [h]
  · rename_i h; simp [h]
  · rename_i h; simp [h]

theorem get?_put {here x : Place} {n : Node} (h : here ≠ []) :
    (t.put here n).get? x = if here = x then some n else t.get? x := by
  unfold get? put
  by_cases hx : x = []
  · simp [hx, h]
  · simp [hx, Std.ExtTreeMap.getElem?_insert]

section

variable {t' : FileTree} (h : ∀ here, t.get? here = some .directory → t'.get? here = some .directory)

include h

/-- A walk depends on directories only. -/
theorem walk_mono {pieces : List Text} {here : Place} (hw : t.walk pieces = .ok here) : t'.walk pieces = .ok here := by
  induction pieces using List.reverseRecOn generalizing here with
  | nil => exact hw
  | append_singleton pieces last ih =>
    obtain ⟨up, hup, hlast⟩ := walk_concat.mp hw
    obtain ⟨hd, hlen, hgo⟩ := enter_eq_ok_iff.mp hlast
    exact walk_concat.mpr ⟨up, ih hup, enter_eq_ok_iff.mpr ⟨h up hd, hlen, hgo⟩⟩

theorem locate_mono (hs : t'.start = t.start) {p : Path} {here : Place} (hl : t.locate p = .ok here) :
    t'.locate p = .ok here := by
  obtain ⟨hr, hw⟩ := locate_eq_ok_iff.mp hl
  have horigin : t'.origin p = t.origin p := by rw [origin, origin, hs]
  rw [← horigin] at hw
  exact locate_eq_ok_iff.mpr ⟨hr, walk_mono h hw⟩

end

/-- The two paths lead to one place. -/
def Meet (t : FileTree) (p q : Path) : Prop := ∃ here, t.locate p = .ok here ∧ t.locate q = .ok here

theorem Meet.symm {p q : Path} (h : t.Meet p q) : t.Meet q p := by
  obtain ⟨here, hp, hq⟩ := h
  exact ⟨here, hq, hp⟩

theorem not_meet_of_locate {p q : Path} {here there : Place} (hp : t.locate p = .ok here) (hq : t.locate q = .ok there)
    (h : here ≠ there) : ¬ t.Meet p q := by
  intro hm
  obtain ⟨x, hx, hx'⟩ := hm
  rw [hp] at hx
  rw [hq] at hx'
  cases hx
  cases hx'
  exact h rfl

section

variable {t' : FileTree} {p q : Path} {bytes : ByteArray} (h : t.create p bytes = .ok t')

include h

theorem start_create : t'.start = t.start := by
  obtain ⟨here, -, rfl⟩ := create_eq_ok_iff.mp h
  rfl

/-- A new file stands where its path led, and nothing else changed. -/
theorem get?_create : ∃ here, t.locate p = .ok here ∧ t.get? here ≠ some .directory ∧
    ∀ x, t'.get? x = if here = x then some (.file bytes) else t.get? x := by
  obtain ⟨here, hnew, rfl⟩ := create_eq_ok_iff.mp h
  obtain ⟨hl, hdir⟩ := locateNew_eq_ok_iff.mp hnew
  have hroot : here ≠ [] := by
    rintro rfl
    exact hdir rfl
  exact ⟨here, hl, hdir, fun x => get?_put hroot⟩

theorem locate_create {here : Place} (hl : t.locate q = .ok here) : t'.locate q = .ok here := by
  obtain ⟨new, -, hdir, hget⟩ := get?_create h
  refine locate_mono ?_ (start_create h) hl
  intro x hx
  have hne : new ≠ x := by
    rintro rfl
    exact hdir hx
  rw [hget, if_neg hne, hx]

theorem read_create_of_meet (hm : t.Meet q p) : t'.read q = .ok bytes := by
  obtain ⟨here, hq, hp⟩ := hm
  obtain ⟨new, hnew, -, hget⟩ := get?_create h
  rw [hp] at hnew
  cases hnew
  exact read_eq_ok_iff.mpr ⟨here, locate_create h hq, by rw [hget, if_pos rfl]⟩

theorem read_create_self : t'.read p = .ok bytes := by
  obtain ⟨here, hl, -⟩ := get?_create h
  exact read_create_of_meet h ⟨here, hl, hl⟩

theorem read_create_of_not_meet {old : ByteArray} (hq : t.read q = .ok old) (hm : ¬ t.Meet q p) : t'.read q = .ok old := by
  obtain ⟨here, hl, hfile⟩ := read_eq_ok_iff.mp hq
  obtain ⟨new, hnew, -, hget⟩ := get?_create h
  have hne : new ≠ here := by
    rintro rfl
    exact hm ⟨new, hl, hnew⟩
  exact read_eq_ok_iff.mpr ⟨here, locate_create h hl, by rw [hget, if_neg hne, hfile]⟩

end

end FileTree

end HostPatterns
