/-
  HostPatterns.PatternSet.Writing — writing a set line by line into a place of
  limited room, which takes what fits and then refuses.
-/

import HostPatterns.Error
import HostPatterns.PatternSet

namespace HostPatterns

/-- Bytes taken so far, and how many more will be. -/
structure Room where
  taken : ByteArray
  left : Nat

/-- Take a text's bytes, or as many as there is room for. -/
def Room.write (r : Room) (t : Text) : Except Fault Unit × Room :=
  let bytes := t.bytes
  if bytes.size ≤ r.left then (.ok (), ⟨r.taken ++ bytes, r.left - bytes.size⟩)
  else (.error .noRoom, ⟨r.taken ++ bytes.extract 0 r.left, 0⟩)

namespace PatternSet

/-- Write lines until one does not fit. -/
def writeLines : List Binding → Room → Except Error Unit × Room
  | [], r => (.ok (), r)
  | b :: bs, r =>
    match r.write (b.render ++ ['\n']) with
    | (.ok _, r') => writeLines bs r'
    | (.error fault, r') => (.error (.interrupted fault), r')

def write (s : PatternSet) (r : Room) : Except Error Unit × Room := writeLines s.toList r

end PatternSet

end HostPatterns
