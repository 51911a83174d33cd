/-
  HostPatterns.Text — texts as lists of characters, and the cuts the file formats
  are made of: lines, blank-separated fields, trimming, the two sides of a first
  separator. A text reaches a file as the bytes of its UTF-8 form.
-/

import HostPatterns.Text.Blank

namespace HostPatterns

abbrev Text := List Char

namespace Text

def string (t : Text) : String := String.ofList t

/-- Lines end at a line feed; a last line without one counts, an empty one does not. -/
def lines (t : Text) : List Text :=
  let pieces := t.splitOn '\n'
  if pieces.getLast? = some [] then pieces.dropLast else pieces

/-- The nonempty pieces between blanks. -/
def fields (t : Text) : List Text := (t.splitOnP isBlank).filter (!·.isEmpty)

def trim (t : Text) : Text := ((t.dropWhile isBlank).reverse.dropWhile isBlank).reverse

/-- The two sides of the first separator. -/
def cut? (sep : Char) (t : Text) : Option (Text × Text) :=
  match t.dropWhile (· != sep) with
  | [] => none
  | _ :: rest => some (t.takeWhile (· != sep), rest)

/-- Whether `s` stands somewhere in the text, as one unbroken run of characters. -/
def occursIn (s : Text) : Text → Bool
  | [] => s.isEmpty
  | c :: t => s.isPrefixOf (c :: t) || occursIn s t

def ofNat (n : Nat) : Text := Nat.toDigits 10 n

def bytes (t : Text) : ByteArray := t.string.toUTF8

/-- How many bytes the text has in its UTF-8 form. -/
def byteLength (t : Text) : Nat := t.foldr (fun c n => c.utf8Size + n) 0

/-- The text that the bytes are the UTF-8 form of, if there is one. -/
def ofBytes? (b : ByteArray) : Option Text := (String.fromUTF8? b).map String.toList

@[simp] theorem ofBytes?_bytes (t : Text) : ofBytes? t.bytes = some t := by
  have h : String.fromUTF8? t.string.toUTF8 = some t.string := by
    simp only [String.fromUTF8?, String.toUTF8_eq_toByteArray, dif_pos t.string.isValidUTF8]
    rfl
  rw [ofBytes?, bytes, h]
  simp [string]

theorem size_bytes (t : Text) : t.bytes.size = t.byteLength := by
  rw [bytes, String.toUTF8_eq_toByteArray]
  induction t with
  | nil => rfl
  | cons c t ih => simp_all [string, byteLength, List.utf8Encode_singleton]

theorem occursIn_iff {s t : Text} : occursIn s t = true ↔ s <:+: t := by
  induction t with
  | nil => simp [occursIn]
  | cons c t ih => simp [occursIn, ih, List.infix_cons_iff]

theorem cut?_eq_some_iff {sep : Char} {t u v : Text} :
    cut? sep t = some (u, v) ↔ t = u ++ sep :: v ∧ sep ∉ u := by
  unfold cut?
  constructor
  · intro h
    split at h
    · cases h
    · rename_i c rest hd
      have hc : c = sep := by
        have := List.head?_dropWhile_not (· != sep) t
        simpa [hd] using this
      simp only [Option.some.injEq, Prod.mk.injEq] at h
      obtain ⟨rfl, rfl⟩ := h
      refine ⟨?_, fun hm => ?_⟩
      · have := List.takeWhile_append_dropWhile (p := (· != sep)) (l := t)
        rw [hd, hc] at this
        exact this.symm
      · have := List.all_takeWhile (p := (· != sep)) (l := t)
        simpa using List.all_eq_true.mp this sep hm
  · rintro ⟨rfl, hu⟩
    have hp : ∀ c ∈ u, (c != sep) = true := fun c hc => by
      simp only [bne_iff_ne]
      rintro rfl
      exact hu hc
    rw [List.dropWhile_append_of_pos hp, List.takeWhile_append_of_pos hp]
    simp

theorem cut?_eq_none_iff {sep : Char} {t : Text} : cut? sep t = none ↔ sep ∉ t := by
  rw [Option.eq_none_iff_forall_not_mem]
  constructor
  · intro hn hsep
    obtain ⟨u, v, rfl, hu⟩ := List.eq_append_cons_of_mem hsep
    exact hn (u, v) (cut?_eq_some_iff.mpr ⟨rfl, hu⟩)
  · intro hsep sides hcut
    obtain ⟨rfl, -⟩ := cut?_eq_some_iff.mp hcut
    exact hsep (List.mem_append_right _ List.mem_cons_self)

end Text

end HostPatterns
