/-
  HostPatterns.Proofs.InputKept — what becomes of the input of a conversion.

  A conversion creates one file, at the output, so the input is in danger only where both
  paths lead to one place. Such an output is refused when it has the components of the
  input. One that has not, `./h`, `d/../h` or, started in `d`, `/d/h` for `h`, passes, and
  the input is replaced by the patterns that were made of it: the conversion `Clobbers` it.
  - `input_kept_iff`: the input is kept but for a conversion that clobbers it, and that
    takes an output which was given, and which is askew to the input.
  - `dotted_output_overwrites`: with `./hosts.txt` as the output for `hosts.txt` it is lost.
-/

import HostPatterns.Proofs.Effects
import HostPatterns.Proofs.Spellings
import Mathlib

namespace HostPatterns

namespace Conversion

variable {c : Conversion} {t t' : FileTree} {text : Text}

/-- The output leads to the input by a path that is not told from it, and the patterns
    are another text than the one they were made of. -/
structure Clobbers (c : Conversion) (t : FileTree) : Prop where
  unlike : c.target.same c.input = false
  meets : t.Meet c.input c.target
  altered : ∃ text, t.readText c.input = .ok text ∧ c.rewritten text ≠ text

theorem Clobbers.exists_writes (h : c.Clobbers t) : ∃ text t', c.Writes t text t' := by
  obtain ⟨text, hr, -⟩ := h.altered
  obtain ⟨here, hin, hout⟩ := h.meets
  obtain ⟨there, hl, hfile⟩ := FileTree.read_eq_ok_iff.mp (t.readText_eq_ok_iff.mp hr)
  rw [hin] at hl
  cases hl
  exact ⟨text, exists_writes_iff.mpr ⟨h.unlike, hr, here, hout, by rw [hfile]; simp⟩⟩

theorem Writes.clobbers_iff (h : c.Writes t text t') : c.Clobbers t ↔ t.Meet c.input c.target ∧ c.rewritten text ≠ text := by
  constructor
  · intro hc
    obtain ⟨u, hu, hne⟩ := hc.altered
    rw [h.read] at hu
    cases hu
    exact ⟨hc.meets, hne⟩
  · intro hc
    exact ⟨h.unlike, hc.1, text, h.read, hc.2⟩

theorem Writes.readText_input_iff (h : c.Writes t text t') : t'.readText c.input = .ok text ↔ ¬ c.Clobbers t := by
  rw [h.clobbers_iff]
  by_cases hm : t.Meet c.input c.target
  · rw [h.readText_input_of_meet hm]
    simp [hm]
  · simp [hm, h.readText_input hm]

/-- The output that is made up from the input is never in its place. -/
theorem exists_output_of_clobbers (h : c.Clobbers t) : ∃ output, c.output = some output := by
  cases ho : c.output with
  | some output => exact ⟨output, rfl⟩
  | none =>
    obtain ⟨text, hr, -⟩ := h.altered
    obtain ⟨here, hl, hfile⟩ := FileTree.read_eq_ok_iff.mp (t.readText_eq_ok_iff.mp hr)
    have hd : t.get? here ≠ some .directory := by rw [hfile]; simp
    have htarget : c.target = c.input ++ ".vhosts".toList := by rw [target, ho, Option.getD_none]
    have hm := h.meets
    rw [htarget] at hm
    exact absurd hm (FileTree.not_meet_extended hl hd (by decide) (by decide))

theorem Clobbers.askew (h : c.Clobbers t) : c.target.Askew c.input := by
  by_cases ha : c.target.Askew c.input
  · exact ha
  · have hsame := FileTree.same_of_meet h.meets.symm ha
    rw [h.unlike] at hsame
    cases hsame

/-- A conversion keeps its input, whatever comes of it, unless it clobbers it: then both
    paths lead to the input and one of them climbs, or only one starts at the root or at a
    dot. -/
theorem input_kept_iff {bytes : ByteArray} (hread : t.read c.input = .ok bytes) :
    ((t.perform c.run).2.read c.input = .ok bytes ↔ ¬ c.Clobbers t) ∧
      (c.Clobbers t → ∃ output, c.output = some output ∧ output.Askew c.input) := by
  refine ⟨?_, ?_⟩
  · by_cases hw : ∃ text t', c.Writes t text t'
    · obtain ⟨text, t', hw⟩ := hw
      have hbytes := t.readText_eq_ok_iff.mp hw.read
      rw [hread] at hbytes
      cases hbytes
      rw [perform_of_writes hw, ← FileTree.readText_eq_ok_iff]
      exact hw.readText_input_iff
    · have hc : ¬ c.Clobbers t := fun h => hw h.exists_writes
      simp only [not_exists] at hw
      obtain ⟨e, he⟩ := perform_of_not_writes hw
      rw [he]
      exact iff_of_true hread hc
  · intro h
    obtain ⟨output, ho⟩ := exists_output_of_clobbers h
    have htarget : c.target = output := by rw [target, ho, Option.getD_some]
    exact ⟨output, ho, htarget ▸ h.askew⟩

/-- An output of another name leaves the input, and one that is the input behind a dot does not. -/
theorem named_output_keeps_input :
    let c : Conversion := { output := some "b.txt".toList }
    let c' : Conversion := { output := some "./hosts.txt".toList }
    let t := FileTree.holding c.input "1.1.1.1 a.com\n".toList
    ∃ bytes, t.read c.input = .ok bytes ∧ (t.perform c.run).2.read c.input = .ok bytes ∧
      (t.perform c'.run).2.read c.input ≠ .ok bytes := by
  intro c c' t
  have hin : t.locate c.input = .ok [c.input] := by unfold t FileTree.holding; cbv
  have hout : t.locate c.target = .ok [c.target] := by unfold t FileTree.holding; cbv
  have hout' : t.locate c'.target = .ok [c.input] := by unfold t FileTree.holding; cbv
  have htext := FileTree.readText_holding hin
  have hread := t.readText_eq_ok_iff.mp htext
  have hkept : ¬ c.Clobbers t := fun h => FileTree.not_meet_of_locate hin hout (by decide) h.meets
  have hrewritten : c'.rewritten "1.1.1.1 a.com\n".toList = "1.1.1.1\ta.com\n".toList := by unfold c'; cbv
  have hlost : c'.Clobbers t := ⟨by decide, ⟨_, hin, hout'⟩, _, htext, by rw [hrewritten]; decide⟩
  refine ⟨_, hread, (input_kept_iff hread).1.mpr hkept, ?_⟩
  intro h
  exact (input_kept_iff (c := c') hread).1.mp h hlost

/-- The input behind a dot in front is another path to the same file. -/
theorem dotted_output_overwrites :
    let c : Conversion := { output := some "./hosts.txt".toList }
    let t := FileTree.holding c.input "1.1.1.1 a.com\n".toList
    t.readText c.input = .ok "1.1.1.1 a.com\n".toList ∧
      (t.perform c.run).2.readText c.input = .ok "1.1.1.1\ta.com\n".toList ∧
        (t.perform c.run).2.read c.input ≠ t.read c.input := by
  intro c t
  have hin : t.locate c.input = .ok [c.input] := by unfold t FileTree.holding; cbv
  have hout : t.locate c.target = .ok [c.input] := by unfold t FileTree.holding; cbv
  have hread := FileTree.readText_holding hin
  have hfile : t.get? [c.input] ≠ some .directory := by unfold t; rw [FileTree.get?_holding]; simp
  obtain ⟨t', hw⟩ := exists_writes_iff.mpr ⟨by decide, hread, _, hout, hfile⟩
  have htext : c.rewritten "1.1.1.1 a.com\n".toList = "1.1.1.1\ta.com\n".toList := by unfold c; cbv
  have hlost : (t.perform c.run).2.readText c.input = .ok "1.1.1.1\ta.com\n".toList := by
    rw [perform_of_writes hw, hw.readText_input_of_meet ⟨_, hin, hout⟩, htext]
  refine ⟨hread, hlost, ?_⟩
  intro heq
  have hsame : (t.perform c.run).2.readText c.input = t.readText c.input := by
    unfold FileTree.readText
    rw [heq]
  rw [hlost, hread] at hsame
  revert hsame
  decide

end Conversion

end HostPatterns
