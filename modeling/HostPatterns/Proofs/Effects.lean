/-
  HostPatterns.Proofs.Effects — what a conversion does to a tree.

  Reading leaves the tree as it is, and there is one request that does not: the output is
  created. So a conversion either writes or changes nothing. It `Writes` when output and
  input are told apart, the input is read as a text, and a file can be created at the
  output. What it then says depends on the text alone, as what is read again is what was
  written (`perform_of_writes`); else it is `Stopped` by the first of these that fails, says
  so and leaves the tree (`perform_of_stopped`).
-/

import HostPatterns.Conversion
import HostPatterns.Proofs.Places

namespace HostPatterns

theorem Text.ofBytes?_eq_some_iff {b : ByteArray} {t : Text} : ofBytes? b = some t ↔ b = t.bytes := by
  constructor
  · intro h
    obtain ⟨s, hs, rfl⟩ := Option.map_eq_some_iff.mp h
    unfold String.fromUTF8? at hs
    split at hs
    · cases hs
      simp [bytes, string, String.fromUTF8]
    · cases hs
  · rintro rfl
    exact ofBytes?_bytes t

namespace FileTree

variable {ε α β : Type} (t : FileTree)

/-! ## Actions -/

theorem perform_bind (x : ExceptT ε (StateM FileTree) α) (f : α → ExceptT ε (StateM FileTree) β) :
    t.perform (x >>= f) =
      match t.perform x with
      | (.ok a, t') => t'.perform (f a)
      | (.error e, t') => (.error e, t') := by
  show ExceptT.bindCont f _ _ = _
  unfold perform ExceptT.run
  rcases x t with ⟨_ | _, _⟩ <;> rfl

/-- The text of the file that a path leads to. -/
def readText (p : Path) : Except Fault Text := do (Text.ofBytes? (← t.read p)).elim (.error .notText) .ok

theorem readText_eq_ok_iff {p : Path} {text : Text} : t.readText p = .ok text ↔ t.read p = .ok text.bytes := by
  unfold readText
  rw [Except.bind_eq_ok_iff]
  constructor
  · intro h
    obtain ⟨b, hb, h⟩ := h
    cases ht : Text.ofBytes? b with
    | none => rw [ht] at h; cases h
    | some u =>
      rw [ht] at h
      cases h
      rw [hb, Text.ofBytes?_eq_some_iff.mp ht]
  · intro h
    exact ⟨_, h, by rw [Text.ofBytes?_bytes]; rfl⟩

theorem readText_run (p : Path) : (Files.readText p : StateM FileTree _) t = (t.readText p, t) := by
  unfold readText Files.readText
  simp only [bind, StateT.bind, Files.read, Except.bind]
  cases t.read p <;> rfl

/-- The tree that holds one file, of this text, below its root. -/
def holding (name text : Text) : FileTree := empty.put [name] (.file text.bytes)

theorem get?_holding (name text : Text) : (holding name text).get? [name] = some (.file text.bytes) := by
  rw [holding, get?_put (List.cons_ne_nil _ _), if_pos rfl]

theorem readText_of_locate {p : Path} {here : Place} {text : Text} (hl : t.locate p = .ok here)
    (hfile : t.get? here = some (.file text.bytes)) : t.readText p = .ok text :=
  (readText_eq_ok_iff _).mpr (read_eq_ok_iff.mpr ⟨_, hl, hfile⟩)

theorem readText_holding {name text : Text} {p : Path} (h : (holding name text).locate p = .ok [name]) :
    (holding name text).readText p = .ok text :=
  readText_of_locate _ h (get?_holding name text)

/-- A second name does not change what the first holds. -/
theorem get?_put_holding {name other : Text} (h : other ≠ name) (text : Text) (n : Node) :
    ((holding name text).put [other] n).get? [name] = some (.file text.bytes) := by
  rw [get?_put (List.cons_ne_nil _ _), if_neg (by simpa using h), get?_holding]

theorem perform_lift (request : StateM FileTree α) :
    t.perform (liftM request : ExceptT ε (StateM FileTree) α) = (.ok (request t).1, (request t).2) := rfl

theorem perform_access (p : Path) (request : StateM FileTree (Except Fault α)) :
    t.perform (access p request) = ((request t).1.mapError (.inaccessible p), (request t).2) := by
  unfold access
  rw [perform_bind, perform_lift]
  rcases request t with ⟨fault | x, t'⟩
  · rfl
  · rfl

theorem perform_loadHosts (p : Path) :
    t.perform (Hosts.load p) = ((t.readText p).mapError (.inaccessible p) |>.map Hosts.ofText, t) := by
  unfold Hosts.load
  rw [perform_bind, perform_access, readText_run]
  cases t.readText p <;> rfl

theorem perform_loadPatterns (p : Path) :
    t.perform (PatternSet.load p) = ((t.readText p).mapError (.inaccessible p) >>= PatternSet.parse, t) := by
  unfold PatternSet.load
  rw [perform_bind, perform_access, readText_run]
  cases t.readText p with
  | error fault => rfl
  | ok text =>
    simp only [Except.mapError, bind, Except.bind]
    cases PatternSet.parse text <;> rfl

theorem perform_save (s : PatternSet) (p : Path) :
    t.perform (s.save p) =
      match t.create p s.render.bytes with
      | .ok t' => (.ok (), t')
      | .error fault => (.error (.inaccessible p fault), t) := by
  unfold PatternSet.save
  rw [perform_access]
  simp only [Files.create]
  cases t.create p s.render.bytes <;> rfl

end FileTree

/-! ## Conversions -/

namespace Conversion

variable (c : Conversion)

/-- The records of a hosts text, grouped. -/
def grouping (text : Text) : Grouping := .ofRecords (Hosts.ofText text).records

/-- The set that a hosts text is compacted into. -/
def compacted (text : Text) : PatternSet := compact c.comparison (grouping text).groups

/-- The text that is written for a hosts text. -/
def rewritten (text : Text) : Text := (c.compacted text).render

def summary (text : Text) (validation : Option Report) : Summary where
  output := c.target
  records := (Hosts.ofText text).records.length
  skipped := (Hosts.ofText text).skipped
  duplicates := (grouping text).duplicates
  groups := (grouping text).groups.length
  patterns := (c.compacted text).size
  validation := validation

/-- The report on the kept records of a hosts text, against what was written for it. -/
def revalidated (text : Text) : Except Error Report := do
  return (← PatternSet.parse (c.rewritten text)).validate (grouping text).records

/-- What is said once the text was written. -/
def verdict (text : Text) : Except Error Summary :=
  if c.validates then (c.revalidated text).map fun report => c.summary text (some report)
  else .ok (c.summary text none)

/-- The conversion reads a text, and the file it creates leaves `t'`. -/
structure Writes (t : FileTree) (text : Text) (t' : FileTree) : Prop where
  unlike : c.target.same c.input = false
  read : t.readText c.input = .ok text
  created : t.create c.target (c.rewritten text).bytes = .ok t'

variable {c} {t t' : FileTree} {text : Text}

/-- A conversion writes where its output leads to no directory. -/
theorem exists_writes_iff :
    (∃ t', c.Writes t text t') ↔
      c.target.same c.input = false ∧ t.readText c.input = .ok text ∧
        ∃ here, t.locate c.target = .ok here ∧ t.get? here ≠ some .directory := by
  constructor
  · intro h
    obtain ⟨t', h⟩ := h
    obtain ⟨here, hl, hd, -⟩ := FileTree.get?_create h.created
    exact ⟨h.unlike, h.read, here, hl, hd⟩
  · intro h
    obtain ⟨hs, hr, here, hl, hd⟩ := h
    exact ⟨_, hs, hr, FileTree.create_eq_ok_iff.mpr ⟨here, FileTree.locateNew_of_locate hl hd, rfl⟩⟩

theorem Writes.readText_target (h : c.Writes t text t') : t'.readText c.target = .ok (c.rewritten text) :=
  t'.readText_eq_ok_iff.mpr (FileTree.read_create_self h.created)

theorem Writes.readText_input (h : c.Writes t text t') (hm : ¬ t.Meet c.input c.target) : t'.readText c.input = .ok text :=
  t'.readText_eq_ok_iff.mpr (FileTree.read_create_of_not_meet h.created (t.readText_eq_ok_iff.mp h.read) hm)

theorem Writes.readText_input_of_meet (h : c.Writes t text t') (hm : t.Meet c.input c.target) :
    t'.readText c.input = .ok (c.rewritten text) :=
  t'.readText_eq_ok_iff.mpr (FileTree.read_create_of_meet h.created hm)

theorem Writes.perform_save (h : c.Writes t text t') : t.perform ((c.compacted text).save c.target) = (.ok (), t') := by
  have created : t.create c.target (c.compacted text).render.bytes = .ok t' := h.created
  rw [FileTree.perform_save, created]

theorem Writes.perform_load (h : c.Writes t text t') :
    t'.perform (PatternSet.load c.target) = (PatternSet.parse (c.rewritten text), t') := by
  rw [FileTree.perform_loadPatterns, h.readText_target]
  rfl

theorem perform_of_writes (h : c.Writes t text t') : t.perform c.run = (c.verdict text, t') := by
  have saved := h.perform_save
  unfold compacted grouping at saved
  unfold run verdict
  simp only [h.unlike, Bool.false_eq_true, if_false, FileTree.perform_bind, FileTree.perform_loadHosts, h.read,
    Except.mapError, Except.map, saved]
  split
  · simp only [FileTree.perform_bind, h.perform_load]
    unfold revalidated
    cases PatternSet.parse (c.rewritten text) <;> rfl
  · rfl

/-- What stops a conversion before it writes. -/
inductive Stopped (c : Conversion) (t : FileTree) : Error → Prop
  | alike : c.target.same c.input = true → Stopped c t (.overwritesInput c.target)
  | unread {fault : Fault} : c.target.same c.input = false → t.readText c.input = .error fault →
      Stopped c t (.inaccessible c.input fault)
  | uncreated {text : Text} {fault : Fault} : c.target.same c.input = false → t.readText c.input = .ok text →
      t.create c.target (c.rewritten text).bytes = .error fault → Stopped c t (.inaccessible c.target fault)

theorem stopped_or_writes (c : Conversion) (t : FileTree) : (∃ e, c.Stopped t e) ∨ ∃ text t', c.Writes t text t' := by
  by_cases hsame : c.target.same c.input = true
  · exact Or.inl ⟨_, .alike hsame⟩
  rw [Bool.not_eq_true] at hsame
  cases hread : t.readText c.input with
  | error fault => exact Or.inl ⟨_, .unread hsame hread⟩
  | ok text =>
    cases hcreate : t.create c.target (c.rewritten text).bytes with
    | error fault => exact Or.inl ⟨_, .uncreated hsame hread hcreate⟩
    | ok t' => exact Or.inr ⟨text, t', hsame, hread, hcreate⟩

theorem Writes.not_stopped (h : c.Writes t text t') (e : Error) : ¬ c.Stopped t e := by
  intro hs
  cases hs with
  | alike hsame =>
    rw [h.unlike] at hsame
    cases hsame
  | unread _ hread =>
    rw [h.read] at hread
    cases hread
  | uncreated _ hread hcreate =>
    rw [h.read] at hread
    cases hread
    rw [h.created] at hcreate
    cases hcreate

/-- A stopped conversion says what stopped it and changes nothing. -/
theorem perform_of_stopped {e : Error} (h : c.Stopped t e) : t.perform c.run = (.error e, t) := by
  unfold run
  cases h with
  | alike hsame =>
    simp only [hsame, if_true]
    rfl
  | unread hsame hread =>
    simp only [hsame, Bool.false_eq_true, if_false, FileTree.perform_bind, FileTree.perform_loadHosts, hread]
    rfl
  | @uncreated text fault hsame hread hcreate =>
    have hsave := t.perform_save (c.compacted text) c.target
    unfold rewritten at hcreate
    rw [hcreate] at hsave
    unfold compacted grouping at hsave
    simp only [hsame, Bool.false_eq_true, if_false, FileTree.perform_bind, FileTree.perform_loadHosts, hread, Except.mapError,
      Except.map, hsave]

/-- A conversion that does not write changes nothing. -/
theorem perform_of_not_writes (h : ∀ text t', ¬ c.Writes t text t') : ∃ e, t.perform c.run = (.error e, t) := by
  rcases c.stopped_or_writes t with ⟨e, he⟩ | ⟨text, t', hw⟩
  · exact ⟨e, perform_of_stopped he⟩
  · exact absurd hw (h text t')

end Conversion

end HostPatterns
