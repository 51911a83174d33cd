/-
  HostPatterns.Proofs.OutputOnly — what a conversion leaves of the files.

  Nothing but the output is touched. A new file takes the place of no directory, so a path
  leads after it where it led before (`locate_of_create`), and finds what it found unless
  it leads to the new file (`node?_create`). Such a path is the output as given, up to
  what `Path.same` leaves aside, or askew to it.

  A conversion that is `Stopped` leaves the whole tree. Any other one leaves the written
  form of its compaction at the output, whatever stood there, and then either fails at a
  line of what it wrote or sums up the run that wrote it.
  - `only_output_written`: all of it, of every tree and every conversion.
  - `longer_output_replaced`: a longer file that stood at the output is replaced, and where
    a directory stands nothing is.
-/

import HostPatterns.Proofs.Effects
import HostPatterns.Proofs.Spellings
import Mathlib

namespace HostPatterns

namespace FileTree

/-- No file can be put where a directory stands. -/
theorem locateNew_of_directory {t : FileTree} {p : Path} {here : Place} (h : t.locate p = .ok here)
    (hdir : t.get? here = some .directory) : t.locateNew p = .error .isDirectory := by
  obtain ⟨hr, hw⟩ := locate_eq_ok_iff.mp h
  cases hnames : p.pieces.reverse.dropWhile (· == []) with
  | nil =>
    unfold locateNew
    rw [hr, hnames]
  | cons last above =>
    -- the way there leads past the last name, whatever empty pieces are behind it
    have hsplit : above.reverse ++ [last] ++ (p.pieces.reverse.takeWhile (· == [])).reverse = p.pieces := by
      have := List.takeWhile_append_dropWhile (p := (· == [])) (l := p.pieces.reverse)
      rw [hnames] at this
      simpa using congrArg List.reverse this
    have hpast : ∃ there, t.walk (t.origin p ++ above.reverse ++ [last]) = .ok there := by
      rw [← hsplit, ← List.append_assoc, ← List.append_assoc] at hw
      unfold walk at hw
      rw [List.foldlM_append] at hw
      obtain ⟨there, hthere, -⟩ := Except.bind_eq_ok_iff.mp hw
      exact ⟨there, hthere⟩
    obtain ⟨there, hthere⟩ := hpast
    obtain ⟨up, hup, hlast⟩ := walk_concat.mp hthere
    have hstay : t.enter up [] = .ok up := enter_eq_ok_iff.mpr ⟨(enter_eq_ok_iff.mp hlast).1, Nat.zero_le _, rfl⟩
    unfold locateNew
    rw [hr, hnames]
    by_cases hslash : p.getLast? = some '/'
    · simp [bind, Except.bind, hup, hstay, hslash]
    · have hp : p.pieces = above.reverse ++ [last] := by
        rw [Path.dropWhile_reverse_pieces (ne_nil_of_refusal? hr) hslash] at hnames
        simpa using congrArg List.reverse hnames
      rw [hp, ← List.append_assoc, hthere] at hw
      cases hw
      simp [bind, Except.bind, hup, hstay, hslash, hlast, hdir]

section

variable {t t' : FileTree} {p q : Path} {bytes : ByteArray} (h : t.create p bytes = .ok t')

include h

theorem locate_of_create {here : Place} (hl : t'.locate q = .ok here) : t.locate q = .ok here := by
  obtain ⟨new, -, -, hget⟩ := get?_create h
  refine locate_mono ?_ (start_create h).symm hl
  intro x hx
  rw [hget] at hx
  split at hx
  · cases hx
  · exact hx

theorem get?_create_of_ne {here : Place} (hne : t.locate p ≠ .ok here) : t'.get? here = t.get? here := by
  obtain ⟨new, hnew, -, hget⟩ := get?_create h
  rw [hget, if_neg]
  rintro rfl
  exact hne hnew

theorem node?_create (hm : ¬ t.Meet q p) : t'.node? q = t.node? q := by
  unfold node?
  cases hl : t.locate q with
  | ok here =>
    have hne : t.locate p ≠ .ok here := fun hp => hm ⟨here, hl, hp⟩
    rw [locate_create h hl]
    exact get?_create_of_ne h hne
  | error fault =>
    cases hl' : t'.locate q with
    | ok here =>
      rw [locate_of_create h hl'] at hl
      cases hl
    | error fault' => rfl

end

end FileTree

namespace Conversion

variable {c : Conversion} {t : FileTree}

theorem get?_perform_run {here : Place} (hne : t.locate c.target ≠ .ok here) : (t.perform c.run).2.get? here = t.get? here := by
  rcases c.stopped_or_writes t with ⟨e, he⟩ | ⟨text, t', hw⟩
  · rw [perform_of_stopped he]
  · rw [perform_of_writes hw]
    exact FileTree.get?_create_of_ne hw.created hne

theorem start_perform_run (c : Conversion) (t : FileTree) : (t.perform c.run).2.start = t.start := by
  rcases c.stopped_or_writes t with ⟨e, he⟩ | ⟨text, t', hw⟩
  · rw [perform_of_stopped he]
  · rw [perform_of_writes hw]
    exact FileTree.start_create hw.created

theorem node?_perform_run {q : Path} (hm : ¬ t.Meet q c.target) : (t.perform c.run).2.node? q = t.node? q := by
  rcases c.stopped_or_writes t with ⟨e, he⟩ | ⟨text, t', hw⟩
  · rw [perform_of_stopped he]
  · rw [perform_of_writes hw]
    exact FileTree.node?_create hw.created hm

/-- After the writing, only the reading of what was written can fail. -/
theorem verdict_cases (c : Conversion) (text : Text) :
    (c.validates = true ∧ ∃ e, PatternSet.parse (c.rewritten text) = .error e ∧ c.verdict text = .error e) ∨
      ∃ validation, c.verdict text = .ok (c.summary text validation) := by
  unfold verdict
  split
  · rename_i hv
    unfold revalidated
    cases hparse : PatternSet.parse (c.rewritten text) with
    | error e => exact Or.inl ⟨hv, e, rfl, rfl⟩
    | ok s => exact Or.inr ⟨_, rfl⟩
  · exact Or.inr ⟨none, rfl⟩

/-- A conversion changes what stands at its output, if anything: it leaves the tree if it is stopped, and else what it
    made of the input's text, as which it is summed up unless that text is not read back. -/
theorem only_output_written (c : Conversion) (t : FileTree) :
    let said := (t.perform c.run).1
    let left := (t.perform c.run).2
    (left.start = t.start ∧ ∀ here, t.locate c.target ≠ .ok here → left.get? here = t.get? here) ∧
      (∀ q, left.node? q ≠ t.node? q → t.Meet q c.target ∧ (q.Askew c.target ∨ q.same c.target = true)) ∧
      (∀ e, c.Stopped t e → said = .error e ∧ left = t) ∧
      ((∀ e, ¬ c.Stopped t e) → ∃ text, t.readText c.input = .ok text ∧
        let hosts := Hosts.ofText text
        let g := Grouping.ofRecords hosts.records
        let s := compact c.comparison g.groups
        left.read c.target = .ok s.render.bytes ∧
          ((c.validates = true ∧ ∃ e, PatternSet.parse s.render = .error e ∧ said = .error e) ∨
            ∃ validation, said = .ok {
              output := c.target, records := hosts.records.length, skipped := hosts.skipped, duplicates := g.duplicates,
              groups := g.groups.length, patterns := s.size, validation })) := by
  intro said left
  refine ⟨⟨start_perform_run c t, fun here => get?_perform_run⟩, ?_, ?_, ?_⟩
  · intro q hchanged
    have hm : t.Meet q c.target := by
      by_contra hm
      exact hchanged (node?_perform_run hm)
    by_cases ha : q.Askew c.target
    · exact ⟨hm, Or.inl ha⟩
    · exact ⟨hm, Or.inr (FileTree.same_of_meet hm ha)⟩
  · intro e he
    unfold said left
    rw [perform_of_stopped he]
    exact ⟨rfl, rfl⟩
  · intro hfree
    obtain ⟨e, he⟩ | ⟨text, t', hw⟩ := c.stopped_or_writes t
    · exact absurd he (hfree e)
    · unfold said left
      rw [perform_of_writes hw]
      exact ⟨text, hw.read, FileTree.read_create_self hw.created, c.verdict_cases text⟩

/-- What is written replaces a longer file, also where it is then not read back. A directory stays. -/
theorem longer_output_replaced :
    let c : Conversion := {}
    let text : Text := "1.1.1.1 a.com..\n2.2.2.2 a.com\n".toList
    let older : Text := "3.3.3.3\t.an.older.and.longer.text.of.patterns\n".toList
    let newer : Text := "1.1.1.1\ta.com.\n2.2.2.2\ta.com\n".toList
    let t := (FileTree.holding c.input text).put [c.target] (.file older.bytes)
    let t' := (FileTree.holding c.input text).put [c.target] .directory
    let e := Error.rebound 2 (.exact "a.com".toList) ⟨1, 1, 1, 1⟩ ⟨2, 2, 2, 2⟩
    newer.length < older.length ∧ (t.perform c.run).1 = .error e ∧ (t.perform c.run).2.read c.target = .ok newer.bytes ∧
      t'.perform c.run = (.error (.inaccessible c.target .isDirectory), t') := by
  intro c text older newer t t' e
  have hin : ∀ nodes, FileTree.locate { nodes } c.input = .ok [c.input] := by intro nodes; cbv
  have hout : ∀ nodes, FileTree.locate { nodes } c.target = .ok [c.target] := by intro nodes; cbv
  have hother : c.target ≠ c.input := by decide
  have hread : t.readText c.input = .ok text := t.readText_of_locate (hin _) (FileTree.get?_put_holding hother text _)
  have hread' : t'.readText c.input = .ok text := t'.readText_of_locate (hin _) (FileTree.get?_put_holding hother text _)
  have hfile : t.get? [c.target] ≠ some .directory := by
    rw [FileTree.get?_put (List.cons_ne_nil _ _), if_pos rfl]
    simp
  have hstopped : c.Stopped t' (.inaccessible c.target .isDirectory) := by
    have hdir : t'.get? [c.target] = some .directory := by rw [FileTree.get?_put (List.cons_ne_nil _ _), if_pos rfl]
    have hthere : t'.locate c.target = .ok [c.target] := hout _
    refine .uncreated (by decide) hread' ?_
    unfold FileTree.create
    rw [FileTree.locateNew_of_directory hthere hdir]
    rfl
  obtain ⟨left, hw⟩ := exists_writes_iff.mpr ⟨by decide, hread, _, hout _, hfile⟩
  obtain ⟨text', hread'', hwritten, -⟩ := (only_output_written c t).2.2.2 hw.not_stopped
  rw [hread] at hread''
  cases hread''
  have hnewer : c.rewritten text = newer := by unfold c text newer; cbv
  have hsaid : c.verdict text = .error e := by unfold c text e; cbv
  refine ⟨by decide, ?_, ?_, ?_⟩
  · rw [perform_of_writes hw, hsaid]
  · rw [← hnewer]
    exact hwritten
  · obtain ⟨hsaid', hleft⟩ := (only_output_written c t').2.2.1 _ hstopped
    exact Prod.ext hsaid' hleft

end Conversion

end HostPatterns
