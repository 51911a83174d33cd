/-
  HostPatterns.Proofs.LimitedRoom — what a place of limited room has of a set that is
  written to it line by line.

  A room takes the first bytes of what it is offered, as many as it has left
  (`Room.offered`), and two texts one after the other are taken as the one text they make
  (`Room.offered_append`). A line that does not fit fills the room, and a full room takes
  nothing (`Room.offered_of_left_eq_zero`), so the lines behind it, which are no longer
  written, would not have changed what was taken (`PatternSet.writeLines_eq`).
  - `PatternSet.write_takes_rendered`: the room is left as if the whole rendered text had
    been offered at once, and writing succeeds exactly if that fits.
-/

import HostPatterns.PatternSet.Writing

namespace HostPatterns

theorem Text.bytes_append (t u : Text) : bytes (t ++ u) = t.bytes ++ u.bytes := by
  simp [bytes, string, String.toUTF8_eq_toByteArray]

namespace Room

variable (r : Room)

/-- The room after bytes were offered to it. -/
def offered (b : ByteArray) : Room := ⟨r.taken ++ b.extract 0 r.left, r.left - b.size⟩

theorem offered_append (b c : ByteArray) : r.offered (b ++ c) = (r.offered b).offered c := by
  unfold offered
  rw [ByteArray.extract_append, ByteArray.size_append, Nat.zero_sub, ← ByteArray.append_assoc, Nat.sub_sub]

variable {r}

theorem offered_of_le {b : ByteArray} (h : b.size ≤ r.left) : r.offered b = ⟨r.taken ++ b, r.left - b.size⟩ := by
  have hwhole : b.extract 0 r.left = b := by
    ext1
    rw [ByteArray.data_extract]
    exact Array.extract_eq_self_of_le h
  rw [offered, hwhole]

theorem offered_empty : r.offered .empty = r := by
  rw [offered_of_le (Nat.zero_le _), ByteArray.append_empty]
  rfl

theorem offered_of_lt {b : ByteArray} (h : r.left < b.size) : r.offered b = ⟨r.taken ++ b.extract 0 r.left, 0⟩ := by
  rw [offered, Nat.sub_eq_zero_of_le (Nat.le_of_lt h)]

theorem offered_of_left_eq_zero (h : r.left = 0) (b : ByteArray) : r.offered b = r := by
  obtain ⟨taken, left⟩ := r
  cases h
  simp [offered]

theorem write_eq (r : Room) (t : Text) :
    r.write t = (if t.bytes.size ≤ r.left then .ok () else .error .noRoom, r.offered t.bytes) := by
  unfold write
  by_cases h : t.bytes.size ≤ r.left
  · simp only [if_pos h, offered_of_le h]
  · simp only [if_neg h, offered_of_lt (Nat.lt_of_not_le h)]

end Room

namespace PatternSet

theorem writeLines_eq (bs : List Binding) (r : Room) :
    let text : Text := bs.flatMap fun b => b.render ++ ['\n']
    writeLines bs r =
      (if text.bytes.size ≤ r.left then .ok () else .error (.interrupted .noRoom), r.offered text.bytes) := by
  induction bs generalizing r with
  | nil =>
    have hnone : Text.bytes [] = .empty := rfl
    simp [writeLines, hnone, Room.offered_empty]
  | cons b bs ih =>
    intro text
    have htext : text = (b.render ++ ['\n']) ++ bs.flatMap fun b => b.render ++ ['\n'] := rfl
    unfold writeLines
    rw [htext, Text.bytes_append, Room.offered_append, ByteArray.size_append, Room.write_eq]
    generalize Text.bytes (b.render ++ ['\n']) = line
    have hleft : (r.offered line).left = r.left - line.size := rfl
    by_cases hfits : line.size ≤ r.left
    · simp only [if_pos hfits, ih, hleft, Nat.le_sub_iff_add_le hfits, Nat.add_comm]
    · -- the room is full, so the lines behind would not be taken either
      have hfull : (r.offered line).left = 0 := by omega
      rw [if_neg hfits, if_neg (by omega), Room.offered_of_left_eq_zero hfull]

/-- With room enough, what is taken is the rendered set; else it is the first bytes of that, and the room is full. -/
theorem write_takes_rendered (s : PatternSet) (r : Room) :
    (s.render.bytes.size ≤ r.left → s.write r = (.ok (), ⟨r.taken ++ s.render.bytes, r.left - s.render.bytes.size⟩)) ∧
    (r.left < s.render.bytes.size →
      s.write r = (.error (.interrupted .noRoom), ⟨r.taken ++ s.render.bytes.extract 0 r.left, 0⟩)) := by
  have hwrite : s.write r =
      (if s.render.bytes.size ≤ r.left then .ok () else .error (.interrupted .noRoom), r.offered s.render.bytes) :=
    writeLines_eq s.toList r
  constructor
  · intro h
    rw [hwrite, if_pos h, Room.offered_of_le h]
  · intro h
    rw [hwrite, if_neg (Nat.not_le_of_lt h), Room.offered_of_lt h]

end PatternSet

end HostPatterns
