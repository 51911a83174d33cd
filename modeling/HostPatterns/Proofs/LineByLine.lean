/-
  HostPatterns.Proofs.LineByLine — which pattern files are read, and what the reader
  says about the others.

  The rows of a text are its lines without the blanks at their ends; a blank line is an
  empty row, and counts. By itself a row has a `Flaw`, which is the error of reading it
  (`ofLine_eq_error_iff`), or holds a binding (`ofRow?`). Behind other rows it is `Bad`
  in four ways; its `Fault` is the first of the four, with the number of the row.

  A set is `Gathered` from rows when it has the bindings of these rows, the first of each
  pattern in their order. From such a set one more row gives an error exactly if it has
  that `Fault` (`readRow_eq_error_iff`), and else a set gathered from one row more
  (`gathered_readRow`). So, over all rows, what is read is gathered and no row is bad
  (`gathered_of_readRows_eq_ok`), and what is not read stops at the first bad row
  (`faultAt_of_readRows_eq_error`), whichever that is (`exists_faultAt_of_first`).
  - `parse_fails_at_first_bad_row`: reading fails exactly if a row is bad; the error is the
    fault of the first bad row, and tells its number, whatever follows; without bad rows
    the set has the rows' bindings in order, without those whose pattern came before.
-/

import HostPatterns.Proofs.FirstWins
import HostPatterns.Proofs.Produced
import Mathlib

namespace HostPatterns

/-! ## One row -/

/-- The lines without the blanks at their ends. -/
def Text.rows (t : Text) : List Text := t.lines.map trim

namespace Binding

/-- The binding that a row holds, if it breaks no rule by itself. -/
def ofRow? (row : Text) : Option Binding := do
  let (address, written) ← row.cut? '\t'
  let ip ← Ipv4.parse? address.trim
  let p := (Pattern.ofText written.trim).normalize
  if p.domain = [] then none else some ⟨p, ip⟩

/-- What is wrong with row number `n` by itself, and the error that says so. -/
inductive Flaw (n : Nat) (row : Text) : Error → Prop
  | noTab : '\t' ∉ row → Flaw n row (.noTab n row)
  | badAddress {address written : Text} : row = address ++ '\t' :: written → '\t' ∉ address →
      Ipv4.parse? address.trim = none → Flaw n row (.badAddress n address.trim)
  | emptyDomain {address written : Text} {ip : Ipv4} : row = address ++ '\t' :: written → '\t' ∉ address →
      Ipv4.parse? address.trim = some ip → (Pattern.ofText written.trim).normalize.domain = [] →
      Flaw n row (.emptyDomain n)

theorem ofRow?_eq_some_iff {row : Text} {b : Binding} (n : Nat) : ofRow? row = some b ↔ ofLine n row = .ok b := by
  unfold ofRow? ofLine
  cases row.cut? '\t' with
  | none => simp
  | some sides =>
    cases hip : Ipv4.parse? sides.1.trim with
    | none => simp [hip]
    | some ip =>
      simp only [hip, Option.bind_eq_bind, Option.bind_some]
      split <;> simp

theorem ofLine_eq_error_iff {n : Nat} {row : Text} {e : Error} : ofLine n row = .error e ↔ Flaw n row e := by
  unfold ofLine
  constructor
  · intro h
    split at h
    · rename_i hcut
      cases h
      exact .noTab (Text.cut?_eq_none_iff.mp hcut)
    · rename_i address written hcut
      obtain ⟨hrow, htab⟩ := Text.cut?_eq_some_iff.mp hcut
      split at h
      · rename_i hip
        cases h
        exact .badAddress hrow htab hip
      · rename_i ip hip
        simp only at h
        split at h
        · rename_i hempty
          cases h
          exact .emptyDomain hrow htab hip hempty
        · cases h
  · intro h
    cases h with
    | noTab htab => rw [Text.cut?_eq_none_iff.mpr htab]
    | badAddress hrow htab hip => simp only [Text.cut?_eq_some_iff.mpr ⟨hrow, htab⟩, hip]
    | emptyDomain hrow htab hip hempty => simp only [Text.cut?_eq_some_iff.mpr ⟨hrow, htab⟩, hip, if_pos hempty]

theorem Flaw.ofRow?_eq_none {n : Nat} {row : Text} {e : Error} (h : Flaw n row e) : ofRow? row = none := by
  rw [Option.eq_none_iff_forall_ne_some]
  intro b hb
  rw [ofRow?_eq_some_iff n, ofLine_eq_error_iff.mpr h] at hb
  cases hb

/-- A row without a binding has a flaw. -/
theorem exists_flaw {row : Text} (h : ofRow? row = none) (n : Nat) : ∃ e, Flaw n row e := by
  cases hl : ofLine n row with
  | error e => exact ⟨e, ofLine_eq_error_iff.mp hl⟩
  | ok b =>
    rw [(ofRow?_eq_some_iff n).mpr hl] at h
    cases h

end Binding

/-! ## Errors of rows -/

/-- The line number that an error holds. -/
def Error.line? : Error → Option Nat
  | .noTab n _ | .badAddress n _ | .emptyDomain n | .rebound n _ _ _ => some n
  | .overwritesInput _ | .inaccessible _ _ | .interrupted _ => none

/-- The wording names line `n`. -/
def TellsLine (n : Nat) (wording : String) : Prop := ∃ front back, wording = front ++ s!"line {n}: " ++ back

theorem TellsLine.append {n : Nat} {wording : String} (h : TellsLine n wording) (more : String) :
    TellsLine n (wording ++ more) := by
  obtain ⟨front, back, rfl⟩ := h
  exact ⟨front, back ++ more, String.append_assoc⟩

theorem tellsLine_of_eq {start stop : String} (n : Nat) (front back : String) (hstart : start = front ++ "line ")
    (hstop : stop = ": " ++ back) : TellsLine n (start ++ toString n ++ stop) := by
  refine ⟨front, back, ?_⟩
  subst hstart hstop
  show front ++ "line " ++ toString n ++ (": " ++ back) = front ++ ("line " ++ toString n ++ ": ") ++ back
  rw [String.append_assoc, String.append_assoc, String.append_assoc, String.append_assoc, String.append_assoc]

theorem Error.tellsLine {e : Error} {n : Nat} (h : e.line? = some n) : TellsLine n e.message := by
  have parse : "Parse error at line " = "Parse error at " ++ "line " := by decide
  have invalid : "Invalid pattern: line " = "Invalid pattern: " ++ "line " := by decide
  cases e with
  | noTab line content =>
    cases h
    have hline := tellsLine_of_eq n _ "expected <ip>\\t<pattern>, got: " parse rfl
    exact hline.append content.string
  | badAddress line field =>
    cases h
    have hline := tellsLine_of_eq n _ "invalid IPv4 address: " parse rfl
    exact hline.append field.string
  | emptyDomain line =>
    cases h
    exact tellsLine_of_eq n _ "empty pattern domain" invalid rfl
  | rebound line pattern first second =>
    cases h
    have hline := tellsLine_of_eq n _ "" invalid rfl
    exact ((((hline.append pattern.render.string).append " bound to both ").append (toString first)).append
      " and ").append (toString second)
  | overwritesInput | inaccessible | interrupted => cases h

namespace PatternSet

/-- The bindings that rows hold, in order. -/
def bindingsOf (rows : List Text) : List Binding := rows.filterMap Binding.ofRow?

/-- A row behind others that cannot be read: it has no tab, or in front of its first tab no address, or behind it no
    name with a character, or a pattern that one of the others binds to another address. -/
inductive Bad (earlier : List Text) (row : Text) : Prop
  | noTab : row ≠ [] → '\t' ∉ row → Bad earlier row
  | badAddress {address written : Text} : row = address ++ '\t' :: written → '\t' ∉ address →
      Ipv4.parse? address.trim = none → Bad earlier row
  | emptyDomain {address written : Text} : row = address ++ '\t' :: written → '\t' ∉ address →
      (Pattern.ofText written.trim).normalize.domain = [] → Bad earlier row
  | rebound {b c : Binding} : Binding.ofRow? row = some b → c ∈ bindingsOf earlier → c.pattern = b.pattern →
      c.ip ≠ b.ip → Bad earlier row

/-- The error that a row behind others gives: its own flaw, or else an earlier binding of its pattern. -/
inductive Fault (earlier : List Text) (row : Text) : Error → Prop
  | flaw {e : Error} : row ≠ [] → Binding.Flaw (earlier.length + 1) row e → Fault earlier row e
  | rebound {b c : Binding} : Binding.ofRow? row = some b → c ∈ bindingsOf earlier → c.pattern = b.pattern →
      c.ip ≠ b.ip → Fault earlier row (.rebound (earlier.length + 1) b.pattern c.ip b.ip)

def BadAt (rows : List Text) (i : Nat) : Prop := ∃ row, rows[i]? = some row ∧ Bad (rows.take i) row

def FaultAt (rows : List Text) (i : Nat) (e : Error) : Prop := ∃ row, rows[i]? = some row ∧ Fault (rows.take i) row e

theorem bad_iff {earlier : List Text} {row : Text} : Bad earlier row ↔ ∃ e, Fault earlier row e := by
  constructor
  · intro h
    cases h with
    | noTab hne htab => exact ⟨_, .flaw hne (.noTab htab)⟩
    | badAddress hrow htab hip => exact ⟨_, .flaw (by simp [hrow]) (.badAddress hrow htab hip)⟩
    | @emptyDomain address written hrow htab hempty =>
      -- an address that is wrong as well comes first
      have hne : row ≠ [] := by simp [hrow]
      cases hip : Ipv4.parse? address.trim with
      | none => exact ⟨_, .flaw hne (.badAddress hrow htab hip)⟩
      | some ip => exact ⟨_, .flaw hne (.emptyDomain hrow htab hip hempty)⟩
    | rebound hb hc hp hip => exact ⟨_, .rebound hb hc hp hip⟩
  · intro h
    obtain ⟨e, h⟩ := h
    cases h with
    | flaw hne hflaw =>
      cases hflaw with
      | noTab htab => exact .noTab hne htab
      | badAddress hrow htab hip => exact .badAddress hrow htab hip
      | emptyDomain hrow htab hip hempty => exact .emptyDomain hrow htab hempty
    | rebound hb hc hp hip => exact .rebound hb hc hp hip

theorem Fault.line? {earlier : List Text} {row : Text} {e : Error} (h : Fault earlier row e) :
    e.line? = some (earlier.length + 1) := by
  cases h with
  | flaw _ hflaw => cases hflaw <;> rfl
  | rebound => rfl

theorem BadAt.exists_faultAt {rows : List Text} {i : Nat} (h : BadAt rows i) : ∃ e, FaultAt rows i e := by
  obtain ⟨row, hrow, hbad⟩ := h
  obtain ⟨e, he⟩ := bad_iff.mp hbad
  exact ⟨e, row, hrow, he⟩

theorem FaultAt.badAt {rows : List Text} {i : Nat} {e : Error} (h : FaultAt rows i e) : BadAt rows i := by
  obtain ⟨row, hrow, hfault⟩ := h
  exact ⟨row, hrow, bad_iff.mpr ⟨e, hfault⟩⟩

theorem FaultAt.lt_length {rows : List Text} {i : Nat} {e : Error} (h : FaultAt rows i e) : i < rows.length := by
  obtain ⟨row, hrow, -⟩ := h
  exact (List.getElem?_eq_some_iff.mp hrow).1

theorem FaultAt.line? {rows : List Text} {i : Nat} {e : Error} (h : FaultAt rows i e) : e.line? = some (i + 1) := by
  have hlt := h.lt_length
  obtain ⟨row, -, hfault⟩ := h
  rw [hfault.line?, List.length_take, Nat.min_eq_left (by omega)]

/-- What follows a row does not make it bad. -/
theorem badAt_append {rows more : List Text} {i : Nat} (hi : i < rows.length) :
    BadAt (rows ++ more) i ↔ BadAt rows i := by
  unfold BadAt
  rw [List.getElem?_append_left hi, List.take_append_of_le_length (by omega)]

theorem faultAt_append {rows more : List Text} {i : Nat} {e : Error} (hi : i < rows.length) :
    FaultAt (rows ++ more) i e ↔ FaultAt rows i e := by
  unfold FaultAt
  rw [List.getElem?_append_left hi, List.take_append_of_le_length (by omega)]

theorem faultAt_length {rows : List Text} {row : Text} {e : Error} :
    FaultAt (rows ++ [row]) rows.length e ↔ Fault rows row e := by
  unfold FaultAt
  simp

/-! ## One row more -/

/-- Reading a binding adds it, unless its pattern is bound to another address. -/
theorem bind_eq_ok_iff {s s' : PatternSet} (h : Indexed s) {n : Nat} {b : Binding} :
    s.bind n b = .ok s' ↔ s' = s.insert b ∧ ∀ c ∈ s.toList, c.pattern = b.pattern → c = b := by
  unfold bind
  split
  · rename_i old hold
    obtain ⟨hm, hp⟩ := (get?_eq_some_iff h).mp hold
    by_cases hip : old.ip = b.ip
    · have hagree : ∀ c ∈ s.toList, c.pattern = b.pattern → c = b := by
        intro c hc hcp
        rw [eq_of_pattern_eq h hm hc (hcp.trans hp.symm)]
        exact Binding.eq_of_parts hp hip
      rw [if_pos hip, insert_of_bound h ⟨old, hm, hp⟩]
      exact ⟨fun hs => ⟨(Except.ok.inj hs).symm, hagree⟩, fun hs => hs.1 ▸ rfl⟩
    · rw [if_neg hip]
      exact iff_of_false nofun fun hs => hip (by rw [hs.2 old hm hp])
  · rename_i hnone
    have hnew := (get?_eq_none_iff h).mp hnone
    exact ⟨fun hs => ⟨(Except.ok.inj hs).symm, fun c hc hcp => absurd hcp (hnew c hc)⟩, fun hs => hs.1 ▸ rfl⟩

theorem bind_eq_error_iff {s : PatternSet} (h : Indexed s) {n : Nat} {b : Binding} {e : Error} :
    s.bind n b = .error e ↔
      ∃ c ∈ s.toList, c.pattern = b.pattern ∧ c.ip ≠ b.ip ∧ e = .rebound n b.pattern c.ip b.ip := by
  unfold bind
  split
  · rename_i old hold
    obtain ⟨hm, hp⟩ := (get?_eq_some_iff h).mp hold
    constructor
    · intro hs
      split at hs
      · cases hs
      · rename_i hip
        cases hs
        exact ⟨old, hm, hp, hip, rfl⟩
    · intro hs
      obtain ⟨c, hc, hcp, hip, rfl⟩ := hs
      cases eq_of_pattern_eq h hm hc (hcp.trans hp.symm)
      rw [if_neg hip]
  · rename_i hnone
    refine iff_of_false nofun ?_
    intro hs
    obtain ⟨c, hc, hcp, -⟩ := hs
    exact (get?_eq_none_iff h).mp hnone c hc hcp

/-- The set has the bindings of the rows, the first of each pattern in their order. -/
structure Gathered (rows : List Text) (s : PatternSet) : Prop where
  indexed : s.Indexed
  mem_iff : ∀ b, b ∈ s.toList ↔ b ∈ bindingsOf rows
  toList_eq : s.toList = firsts Binding.pattern (bindingsOf rows)

theorem gathered_empty : Gathered [] ∅ := ⟨indexed_empty, fun _ => Iff.rfl, rfl⟩

/-- Read one row. -/
def readRow (s : PatternSet) (row : Text × Nat) : Except Error PatternSet :=
  if row.1 = [] then .ok s else do s.bind row.2 (← Binding.ofLine row.2 row.1)

theorem readRow_of_binding (s : PatternSet) {row : Text} {b : Binding} (hb : Binding.ofRow? row = some b) (n : Nat) :
    s.readRow (row, n) = s.bind n b := by
  have hne : row ≠ [] := by
    rintro rfl
    cases hb
  unfold readRow
  simp only [if_neg hne, (Binding.ofRow?_eq_some_iff n).mp hb]
  rfl

theorem readRow_of_flaw (s : PatternSet) {row : Text} (hne : row ≠ []) {n : Nat} {e : Error}
    (h : Binding.Flaw n row e) : s.readRow (row, n) = .error e := by
  unfold readRow
  simp only [if_neg hne, Binding.ofLine_eq_error_iff.mpr h]
  rfl

/-- What a row can be: empty, flawed, or a binding. -/
theorem row_cases (row : Text) (n : Nat) :
    row = [] ∨ (row ≠ [] ∧ ∃ e, Binding.Flaw n row e) ∨ ∃ b, Binding.ofRow? row = some b := by
  cases hb : Binding.ofRow? row with
  | some b => exact Or.inr (Or.inr ⟨b, rfl⟩)
  | none =>
    by_cases hne : row = []
    · exact Or.inl hne
    · exact Or.inr (Or.inl ⟨hne, Binding.exists_flaw hb n⟩)

theorem readRow_eq_error_iff {rows : List Text} {s : PatternSet} (h : Gathered rows s) {row : Text} {e : Error} :
    s.readRow (row, rows.length + 1) = .error e ↔ Fault rows row e := by
  constructor
  · intro hs
    rcases row_cases row (rows.length + 1) with rfl | ⟨hne, e', hflaw⟩ | ⟨b, hb⟩
    · cases hs
    · rw [readRow_of_flaw s hne hflaw] at hs
      cases hs
      exact .flaw hne hflaw
    · rw [readRow_of_binding s hb, bind_eq_error_iff h.indexed] at hs
      obtain ⟨c, hc, hp, hip, rfl⟩ := hs
      exact .rebound hb ((h.mem_iff c).mp hc) hp hip
  · intro hf
    cases hf with
    | flaw hne hflaw => exact readRow_of_flaw s hne hflaw
    | rebound hb hc hp hip =>
      rw [readRow_of_binding s hb, bind_eq_error_iff h.indexed]
      exact ⟨_, (h.mem_iff _).mpr hc, hp, hip, rfl⟩

theorem gathered_readRow {rows : List Text} {s s' : PatternSet} (h : Gathered rows s) {row : Text} {n : Nat}
    (hs : s.readRow (row, n) = .ok s') : Gathered (rows ++ [row]) s' := by
  rcases row_cases row n with rfl | ⟨hne, e, hflaw⟩ | ⟨b, hb⟩
  · cases hs
    have hsame : bindingsOf (rows ++ [[]]) = bindingsOf rows := by
      unfold bindingsOf
      rw [List.filterMap_append]
      exact List.append_nil _
    exact ⟨h.indexed, by rw [hsame]; exact h.mem_iff, by rw [hsame]; exact h.toList_eq⟩
  · rw [readRow_of_flaw s hne hflaw] at hs
    cases hs
  · have hmore : bindingsOf (rows ++ [row]) = bindingsOf rows ++ [b] := by simp [bindingsOf, hb]
    rw [readRow_of_binding s hb, bind_eq_ok_iff h.indexed] at hs
    obtain ⟨rfl, hagree⟩ := hs
    refine ⟨indexed_insert h.indexed b, ?_, ?_⟩
    · intro c
      rw [mem_insert_iff h.indexed hagree, hmore, List.mem_append, List.mem_singleton, h.mem_iff]
    · have hbound : b.pattern ∈ s.toList.map Binding.pattern ↔ b.pattern ∈ (bindingsOf rows).map Binding.pattern := by
        simp only [List.mem_map, h.mem_iff]
      rw [toList_insert h.indexed, hmore, firsts_snoc, ← h.toList_eq]
      simp only [hbound]

/-! ## All rows -/

def readRows (rows : List Text) : Except Error PatternSet := (rows.zipIdx 1).foldlM readRow ∅

theorem parse_eq_readRows (t : Text) : parse t = readRows t.rows := by
  unfold parse readRows Text.rows
  rw [List.zipIdx_map, List.foldlM_map]
  rfl

theorem readRows_append (rows more : List Text) :
    readRows (rows ++ more) = readRows rows >>= (more.zipIdx (rows.length + 1)).foldlM readRow := by
  unfold readRows
  rw [List.zipIdx_append, List.foldlM_append, Nat.add_comm]

theorem readRows_concat (rows : List Text) (row : Text) :
    readRows (rows ++ [row]) = readRows rows >>= fun s => s.readRow (row, rows.length + 1) := by
  rw [readRows_append]
  simp

/-- What is read is gathered, and has no bad row. -/
theorem gathered_of_readRows_eq_ok {rows : List Text} {s : PatternSet} (h : readRows rows = .ok s) :
    Gathered rows s ∧ ∀ i, ¬ BadAt rows i := by
  -- by the last row: what is bad about it is told by the rows in front
  induction rows using List.reverseRecOn generalizing s with
  | nil =>
    cases h
    exact ⟨gathered_empty, fun i hi => nomatch hi⟩
  | append_singleton rows row ih =>
    rw [readRows_concat] at h
    cases hrows : readRows rows with
    | error e => rw [hrows] at h; cases h
    | ok s₀ =>
      rw [hrows] at h
      obtain ⟨hs₀, hgood⟩ := ih hrows
      refine ⟨gathered_readRow hs₀ h, ?_⟩
      intro i hbad
      obtain ⟨e, hfault⟩ := hbad.exists_faultAt
      have hi := hfault.lt_length
      rw [List.length_append, List.length_singleton] at hi
      by_cases hlast : i = rows.length
      · rw [hlast, faultAt_length, ← readRow_eq_error_iff hs₀] at hfault
        rw [show s₀.readRow (row, rows.length + 1) = .ok s from h] at hfault
        cases hfault
      · exact hgood i ((badAt_append (by omega)).mp hbad)

/-- What is not read stops at its first bad row. -/
theorem faultAt_of_readRows_eq_error {rows : List Text} {e : Error} (h : readRows rows = .error e) :
    ∃ i, FaultAt rows i e ∧ (∀ j < i, ¬ BadAt rows j) ∧ readRows (rows.take (i + 1)) = .error e := by
  induction rows using List.reverseRecOn with
  | nil => cases h
  | append_singleton rows row ih =>
    cases hrows : readRows rows with
    | error e' =>
      rw [readRows_concat, hrows] at h
      cases h
      obtain ⟨i, hfault, hfirst, hstop⟩ := ih hrows
      have hi := hfault.lt_length
      refine ⟨i, (faultAt_append hi).mpr hfault, fun j hj hbad => hfirst j hj ((badAt_append (by omega)).mp hbad), ?_⟩
      rw [List.take_append_of_le_length (by omega)]
      exact hstop
    | ok s =>
      obtain ⟨hs, hgood⟩ := gathered_of_readRows_eq_ok hrows
      refine ⟨rows.length, ?_, fun j hj hbad => hgood j ((badAt_append hj).mp hbad), ?_⟩
      · rw [readRows_concat, hrows] at h
        exact faultAt_length.mpr ((readRow_eq_error_iff hs).mp h)
      · rw [List.take_of_length_le (by simp)]
        exact h

theorem readRows_append_of_error {rows : List Text} {e : Error} (h : readRows rows = .error e) (more : List Text) :
    readRows (rows ++ more) = .error e := by
  rw [readRows_append, h]
  rfl

theorem exists_readRows_eq_error_iff {rows : List Text} : (∃ e, readRows rows = .error e) ↔ ∃ i, BadAt rows i := by
  constructor
  · intro hex
    obtain ⟨e, he⟩ := hex
    obtain ⟨i, hfault, -⟩ := faultAt_of_readRows_eq_error he
    exact ⟨i, hfault.badAt⟩
  · intro hex
    obtain ⟨i, hbad⟩ := hex
    cases hr : readRows rows with
    | error e => exact ⟨e, rfl⟩
    | ok s => exact absurd hbad ((gathered_of_readRows_eq_ok hr).2 i)

/-- The rows up to the first bad one are not read, and the error is its fault. -/
theorem exists_faultAt_of_first {rows : List Text} {i : Nat} (hbad : BadAt rows i) (hfirst : ∀ j < i, ¬ BadAt rows j) :
    ∃ e, FaultAt rows i e ∧ readRows (rows.take (i + 1)) = .error e := by
  obtain ⟨e, he⟩ := exists_readRows_eq_error_iff.mpr ⟨i, hbad⟩
  obtain ⟨k, hfault, hbefore, hstop⟩ := faultAt_of_readRows_eq_error he
  -- rows before `k` are not bad either
  have hki : k = i := by
    rcases Nat.lt_trichotomy k i with hlt | heq | hlt
    · exact absurd hfault.badAt (hfirst k hlt)
    · exact heq
    · exact absurd hbad (hbefore i hlt)
  rw [hki] at hfault hstop
  exact ⟨e, hfault, hstop⟩

theorem exists_of_map_toList_eq_ok {x : Except Error PatternSet} {bs : List Binding} (h : x.map toList = .ok bs) :
    ∃ s, x = .ok s ∧ s.toList = bs := by
  cases x with
  | error e => cases h
  | ok s => exact ⟨s, rfl, Except.ok.inj h⟩

/-- Reading fails exactly if a row is bad, and then with the fault of the first bad row, whatever follows it. -/
theorem parse_fails_at_first_bad_row (t : Text) :
    ((∃ e, parse t = .error e) ↔ ∃ i, BadAt t.rows i) ∧
    (∀ i, BadAt t.rows i → (∀ j < i, ¬ BadAt t.rows j) →
      ∃ e, FaultAt t.rows i e ∧ e.line? = some (i + 1) ∧ TellsLine (i + 1) e.message ∧ parse t = .error e ∧
        ∀ u : Text, u.rows.take (i + 1) = t.rows.take (i + 1) → parse u = .error e) ∧
    ((∀ i, ¬ BadAt t.rows i) → ∃ s, parse t = .ok s ∧ s.toList = firsts Binding.pattern (bindingsOf t.rows)) := by
  refine ⟨?_, ?_, ?_⟩
  · rw [parse_eq_readRows]
    exact exists_readRows_eq_error_iff
  · intro i hbad hfirst
    obtain ⟨e, hfault, hstop⟩ := exists_faultAt_of_first hbad hfirst
    have hstops : ∀ u : Text, u.rows.take (i + 1) = t.rows.take (i + 1) → parse u = .error e := by
      intro u hu
      rw [parse_eq_readRows, ← List.take_append_drop (i + 1) u.rows, hu]
      exact readRows_append_of_error hstop _
    exact ⟨e, hfault, hfault.line?, Error.tellsLine hfault.line?, hstops t rfl, hstops⟩
  · intro hgood
    rw [parse_eq_readRows]
    cases hr : readRows t.rows with
    | ok s => exact ⟨s, rfl, (gathered_of_readRows_eq_ok hr).1.toList_eq⟩
    | error e =>
      obtain ⟨i, hbad⟩ := exists_readRows_eq_error_iff.mp ⟨e, hr⟩
      exact absurd hbad (hgood i)

/-- A conflict with the first line, in front of a line that is wrong twice over; a blank line counts, a repeated binding
    is nothing wrong. Without the last two lines the text is read. -/
theorem second_address_refused :
    let t : Text := "1.1.1.1\t.a.com\r\n\n 1.1.1.1 \t.A.com.\n2.2.2.2\t.a.com\n1.1.1\t.\n".toList
    let t' : Text := "1.1.1.1\t.a.com\r\n\n 1.1.1.1 \t.A.com.\n".toList
    let e : Error := .rebound 4 (.wildcard "a.com".toList) ⟨1, 1, 1, 1⟩ ⟨2, 2, 2, 2⟩
    (BadAt t.rows 3 ∧ (∀ j < 3, ¬ BadAt t.rows j) ∧ BadAt t.rows 4) ∧
      FaultAt t.rows 3 e ∧ parse t = .error e ∧ (∀ u : Text, u.rows.take 4 = t.rows.take 4 → parse u = .error e) ∧
      (∀ i, ¬ BadAt t'.rows i) ∧
      ∃ s, parse t' = .ok s ∧ s.toList = [⟨.wildcard "a.com".toList, ⟨1, 1, 1, 1⟩⟩] := by
  intro t t' e
  have rows : t.rows = t'.rows ++ ["2.2.2.2\t.a.com".toList, "1.1.1\t.".toList] := by decide
  have conflict : Binding.ofRow? "2.2.2.2\t.a.com".toList = some ⟨.wildcard "a.com".toList, ⟨2, 2, 2, 2⟩⟩ := by decide
  have bound : ⟨.wildcard "a.com".toList, ⟨1, 1, 1, 1⟩⟩ ∈ bindingsOf (t.rows.take 3) := by decide
  have third : BadAt t.rows 3 := ⟨_, by decide, .rebound conflict bound rfl (by decide)⟩
  have split : "1.1.1\t.".toList = "1.1.1".toList ++ '\t' :: ".".toList := by decide
  have fourth : BadAt t.rows 4 := ⟨_, by decide, .emptyDomain split (by decide) (by decide)⟩
  obtain ⟨s, read, list⟩ : ∃ s, parse t' = .ok s ∧ s.toList = [⟨.wildcard "a.com".toList, ⟨1, 1, 1, 1⟩⟩] :=
    exists_of_map_toList_eq_ok (by unfold t'; cbv)
  have good : ∀ i, ¬ BadAt t'.rows i := by
    intro i hi
    obtain ⟨e', he'⟩ := (parse_fails_at_first_bad_row t').1.mpr ⟨i, hi⟩
    rw [read] at he'
    cases he'
  have before : ∀ j < 3, ¬ BadAt t.rows j := by
    intro j hj
    have length : t'.rows.length = 3 := by decide
    rw [rows, badAt_append (by omega)]
    exact good j
  obtain ⟨e', fault, -, -, refused, whatever⟩ := (parse_fails_at_first_bad_row t).2.1 3 third before
  have same : e' = e := by
    have : (parse t).map toList = .error e := by unfold t; cbv
    rw [refused] at this
    exact Except.error.inj this
  rw [same] at fault refused whatever
  exact ⟨⟨third, before, fourth⟩, fault, refused, whatever, good, s, read, list⟩

end PatternSet

end HostPatterns
