/-
  HostPatterns.Proofs.DerivedOutput — the output that a conversion makes up from its input.

  The extension is put behind the input as it is written, be it a name, a slash, a dot or
  two. It always ends as a name: the last piece of the path becomes another name, and the
  components in front of it stay (`Path.components_extended`). What the last piece was by
  itself, if it was a component at all, is not that name, so the paths differ
  (`Path.same_extended`).

  A conversion says that its output is its input where their components are the same, and
  nowhere else (`overwritesInput_iff`): all other errors are about the access to a file or
  a line in it, whatever the file system answers to its requests (`FailsOnly`).
  - `derived_output_never_refused`: a conversion that is given no output is never refused
    for it.
-/

import HostPatterns.Conversion
import HostPatterns.Proofs.LineByLine
import HostPatterns.Proofs.Spellings

namespace HostPatterns

/-! ## Components -/

namespace Path

/-- What the last piece adds to the components of those in front: its own, and a lone `.` counts. -/
def ending (front : List Text) (last : Text) : List Component :=
  if front = [] ∧ last = ['.'] then [.here] else (component? last).toList

/-- What leads is told by the first piece, if it is not the only one. -/
theorem lead_congr (first : Text) {rest rest' : List Text} (h : rest ≠ []) (h' : rest' ≠ []) :
    lead (first :: rest) = lead (first :: rest') := by
  obtain ⟨next, more, rfl⟩ := List.exists_cons_of_ne_nil h
  obtain ⟨next', more', rfl⟩ := List.exists_cons_of_ne_nil h'
  by_cases hroot : first = []
  · rw [hroot]; rfl
  by_cases hhere : first = ['.']
  · rw [hhere]; rfl
  unfold lead
  split <;> simp_all

theorem exists_components_concat (front : List Text) :
    ∃ up, ∀ (p : Path) (last : Text), p.pieces = front ++ [last] → p.components = up ++ ending front last := by
  have hconcat : ∀ last : Text, (front ++ [last]).filterMap component? =
      front.filterMap component? ++ (component? last).toList := by
    intro last
    rw [List.filterMap_append]
    cases hc : component? last <;> simp [hc]
  unfold components ending
  cases front with
  | nil =>
    refine ⟨[], fun p last h => ?_⟩
    rw [h]
    by_cases hdot : last = ['.']
    · rw [hdot]; rfl
    · have hlead : lead [last] = [] := by
        unfold lead
        split <;> simp_all
      rw [if_neg fun hlone => hdot hlone.2, hconcat, List.nil_append, hlead]
      rfl
  | cons first front =>
    -- the first piece is not the last one, so it alone tells what leads
    refine ⟨lead (first :: [[]]) ++ (first :: front).filterMap component?, fun p last h => ?_⟩
    have hlead : lead (first :: front ++ [last]) = lead (first :: [[]]) := lead_congr first (by simp) (by simp)
    rw [h, hlead, hconcat, if_neg fun hlone => List.cons_ne_nil _ _ hlone.1, List.append_assoc]

theorem ending_cases (front : List Text) (last : Text) :
    ending front last = [] ∨ ∃ c ∈ [.here, .up, .name last], ending front last = [c] := by
  unfold ending
  split
  · exact Or.inr ⟨.here, by simp, rfl⟩
  · cases hc : component? last with
    | none => exact Or.inl rfl
    | some c =>
      right
      rcases component?_eq_some hc with rfl | rfl
      · exact ⟨.up, by simp, rfl⟩
      · exact ⟨.name last, by simp, rfl⟩

theorem ending_extended (front : List Text) (last : Text) {ext : Text} (hlong : 2 < ext.length) :
    ending front (last ++ ext) = [.name (last ++ ext)] := by
  have hdot : last ++ ext ≠ ['.'] := by
    intro h
    have hlen := congrArg List.length h
    rw [List.length_append, List.length_singleton] at hlen
    omega
  unfold ending
  rw [if_neg fun hlone => hdot hlone.2, component?_extended last hlong]
  rfl

/-- An extension makes a new name of the last piece, and leaves the components in front of it. -/
theorem components_extended (p : Path) {ext : Text} (hext : '/' ∉ ext) (hlong : 2 < ext.length) :
    ∃ (up : List Component) (last : Text), (p ++ ext).components = up ++ [.name (last ++ ext)] ∧
      (p.components = up ∨ ∃ c ∈ [.here, .up, .name last], p.components = up ++ [c]) := by
  obtain ⟨front, last, hpieces⟩ := exists_pieces_concat p
  obtain ⟨up, hup⟩ := exists_components_concat front
  refine ⟨up, last, ?_, ?_⟩
  · rw [hup _ _ (pieces_append hpieces hext), ending_extended front last hlong]
  · rw [hup _ _ hpieces]
    rcases ending_cases front last with hnone | ⟨c, hc, hsome⟩
    · left; rw [hnone, List.append_nil]
    · exact Or.inr ⟨c, hc, by rw [hsome]⟩

/-- A path with an extension put behind it is another path. -/
theorem same_extended (p : Path) {ext : Text} (hext : '/' ∉ ext) (hlong : 2 < ext.length) : (p ++ ext).same p = false := by
  obtain ⟨up, last, hextended, hown⟩ := components_extended p hext hlong
  have hne : up ++ [.name (last ++ ext)] ≠ p.components := by
    intro heq
    rcases hown with hnone | ⟨c, hc, hsome⟩
    · rw [hnone] at heq
      simp at heq
    · rw [hsome, List.append_right_inj, List.singleton_inj] at heq
      have hext : ext ≠ [] := List.ne_nil_of_length_pos (by omega)
      subst heq
      simp [hext] at hc
  unfold same
  rw [hextended]
  simpa using hne

end Path

/-! ## How a conversion fails -/

/-- It is about the access to a file, or about a line of one. -/
def Error.OfFile (e : Error) : Prop := (∃ p fault, e = .inaccessible p fault) ∨ ∃ n, e.line? = some n

theorem Error.OfFile.ne_overwritesInput {e : Error} (h : e.OfFile) (p : Path) : e ≠ .overwritesInput p := by
  rintro rfl
  rcases h with ⟨q, fault, h⟩ | ⟨n, h⟩
  · cases h
  · cases h

theorem PatternSet.ofFile_of_parse {t : Text} {e : Error} (h : parse t = .error e) : e.OfFile := by
  rw [parse_eq_readRows] at h
  obtain ⟨i, hfault, -⟩ := faultAt_of_readRows_eq_error h
  exact Or.inr ⟨i + 1, hfault.line?⟩

section

variable {σ α β : Type}

/-- From whatever state the action starts, it ends with a result, or with an error of the kind. -/
def FailsOnly (kind : Error → Prop) (x : ExceptT Error (StateM σ) α) : Prop := ∀ t e, (x.run t).1 = .error e → kind e

namespace FailsOnly

variable {kind : Error → Prop}

theorem ofPure (a : α) : FailsOnly kind (pure a : ExceptT Error (StateM σ) α) := fun _ _ h => nomatch h

theorem ofThrow {e : Error} (he : kind e) : FailsOnly kind (throw e : ExceptT Error (StateM σ) α) := by
  intro t e' h
  cases h
  exact he

theorem bind {x : ExceptT Error (StateM σ) α} {f : α → ExceptT Error (StateM σ) β} (hx : FailsOnly kind x)
    (hf : ∀ a, FailsOnly kind (f a)) : FailsOnly kind (x >>= f) := by
  intro t e h
  have hrun : (x >>= f).run t = ExceptT.bindCont f (x.run t).1 (x.run t).2 := rfl
  rw [hrun] at h
  cases hfirst : (x.run t).1 with
  | ok a =>
    rw [hfirst] at h
    exact hf a _ e h
  | error e' =>
    rw [hfirst] at h
    cases h
    exact hx t e hfirst

end FailsOnly

theorem failsOnly_access (p : Path) (request : StateM σ (Except Fault α)) : FailsOnly Error.OfFile (access p request) := by
  unfold access
  refine FailsOnly.bind (fun t e h => nomatch h) fun answer => ?_
  cases answer with
  | ok x => exact .ofPure x
  | error fault => exact .ofThrow (Or.inl ⟨p, fault, rfl⟩)

variable [Files (StateM σ)]

theorem failsOnly_loadHosts (p : Path) : FailsOnly Error.OfFile (Hosts.load p : ExceptT Error (StateM σ) Hosts) :=
  (failsOnly_access p _).bind fun _ => .ofPure _

theorem failsOnly_loadPatterns (p : Path) :
    FailsOnly Error.OfFile (PatternSet.load p : ExceptT Error (StateM σ) PatternSet) := by
  refine (failsOnly_access p _).bind fun text => ?_
  cases hparse : PatternSet.parse text with
  | ok s => exact .ofPure s
  | error e => exact .ofThrow (PatternSet.ofFile_of_parse hparse)

end

namespace Conversion

variable {σ : Type} [Files (StateM σ)]

/-- The conversion in a file system of any kind, with the state it leaves. -/
def runIn (c : Conversion) (t : σ) : Except Error Summary × σ := (c.run : ExceptT Error (StateM σ) Summary).run t

theorem runIn_of_same {c : Conversion} (h : c.target.same c.input = true) (t : σ) :
    c.runIn t = (.error (.overwritesInput c.target), t) := by
  unfold runIn run
  simp only [h, if_true]
  rfl

theorem failsOnly_run {c : Conversion} (h : c.target.same c.input = false) :
    FailsOnly Error.OfFile (c.run : ExceptT Error (StateM σ) Summary) := by
  unfold run
  simp only [h, Bool.false_eq_true, if_false]
  refine (failsOnly_loadHosts _).bind fun hosts => ?_
  refine (failsOnly_access _ _).bind fun _ => ?_
  split
  · refine (failsOnly_loadPatterns _).bind fun written => ?_
    exact .ofPure _
  · exact .ofPure _

/-- An output is refused where it is the input by its components, and only there, whatever the file system. -/
theorem overwritesInput_iff (c : Conversion) (t : σ) (p : Path) :
    (c.runIn t).1 = .error (.overwritesInput p) ↔ c.target.same c.input = true ∧ c.target = p := by
  cases h : c.target.same c.input with
  | true =>
    rw [runIn_of_same h]
    simp
  | false =>
    refine iff_of_false (fun hrun => ?_) (by simp)
    exact (failsOnly_run h t _ hrun).ne_overwritesInput p rfl

/-- Without an output of its own, a conversion writes to another path than its input, and is not refused for it. -/
theorem derived_output_never_refused {c : Conversion} (h : c.output = none) :
    c.target.same c.input = false ∧
      ∀ (σ : Type) [Files (StateM σ)] (t : σ) (p : Path), (c.runIn t).1 ≠ .error (.overwritesInput p) := by
  have hunlike : c.target.same c.input = false := by
    unfold target
    rw [h]
    exact c.input.same_extended (by decide) (by decide)
  refine ⟨hunlike, fun σ _ t p hrun => ?_⟩
  rw [overwritesInput_iff, hunlike] at hrun
  cases hrun.1

/-- Slashes and dots at the end of the input, alone or behind a name, and an output that is given and is the input. -/
theorem dots_and_slashes_derive :
    let inputs : List Path := ["", "/", "//", ".", "./", "/.", "..", "h/..", "d//", "d/.", "d/./", "h.vhosts"].map String.toList
    let given : Conversion := { input := "d//h".toList, output := some "d/./h/".toList }
    (∀ i ∈ inputs, let c : Conversion := { input := i }
      c.output = none ∧ c.target.same i = false ∧
        ∀ (t : FileTree) (p : Path), (t.perform c.run).1 ≠ .error (.overwritesInput p)) ∧
    ∀ t : FileTree, (t.perform given.run).1 = .error (.overwritesInput given.target) := by
  intro inputs given
  refine ⟨fun i _ => ?_, fun t => ?_⟩
  · obtain ⟨hunlike, hnever⟩ := derived_output_never_refused (c := { input := i }) rfl
    exact ⟨rfl, hunlike, fun t p => hnever FileTree t p⟩
  · exact (overwritesInput_iff given t given.target).mpr ⟨by decide, rfl⟩

end Conversion

end HostPatterns
