/-
  HostPatterns.Text.Control — texts as they are shown where nothing may steer a
  terminal: without control characters, and without the sequences that ESC starts.

  Of the control characters only the ASCII blanks are shown (tab, line feed, form
  feed, carriage return); everything from the space on is, except DEL. A sequence
  ends as its kind says. ESC starts a new one wherever it stands, CAN and SUB end any.
  A character beyond ASCII means nothing to a sequence, but for the strings that the
  byte 9C closes: there a character ends the string if that byte is in its UTF-8 form.

  A blank is shown even within a sequence that does not take it as content. What
  follows it is shown as well, up to the next control character, where the sequence
  goes on; a character beyond ASCII ends it for good.
-/

import HostPatterns.Text

namespace HostPatterns.Text

/-- How far a control sequence has come. -/
inductive Sequence where
  /-- After ESC. -/
  | escape
  /-- After ESC and further characters before the final one. -/
  | escapeMiddle
  /-- After ESC [, up to the final character. -/
  | command
  /-- After ESC P, in front of the final character of the header. -/
  | device
  | deviceParameters
  | deviceMiddle
  /-- In a string that only the byte 9C closes. -/
  | content
  /-- After ESC ], up to BEL. -/
  | title
  deriving DecidableEq, Repr

/-- Whether a character in no sequence is shown. -/
def isShown (c : Char) : Bool := [0x09, 0x0a, 0x0c, 0x0d].contains c.toNat || (0x20 ≤ c.toNat && c.toNat != 0x7f)

namespace Sequence

/-- The sequence behind a character other than ESC, CAN and SUB; `none` where the character ends it. -/
def advance (s : Sequence) (c : Char) : Option Sequence :=
  let n := c.toNat
  let isFinal := 0x40 ≤ n && n ≤ 0x7e
  let isMiddle := 0x20 ≤ n && n ≤ 0x2f
  match s with
  | .escape =>
    if isMiddle then some .escapeMiddle
    else match c with
      | '[' => some .command
      | ']' => some .title
      | 'P' => some .device
      | 'X' | '^' | '_' => some .content
      | _ => if 0x30 ≤ n && n ≤ 0x7e then none else some .escape
  | .escapeMiddle => if 0x30 ≤ n && n ≤ 0x7e then none else some .escapeMiddle
  | .command => if isFinal then none else some .command
  | .device =>
    if isFinal then some .content
    else if isMiddle then some .deviceMiddle
    else if 0x30 ≤ n && n ≤ 0x3f then some .deviceParameters
    else some .device
  | .deviceParameters =>
    if isFinal || (0x3c ≤ n && n ≤ 0x3f) then some .content
    else if isMiddle then some .deviceMiddle
    else some .deviceParameters
  | .deviceMiddle => if 0x30 ≤ n && n ≤ 0x7e then some .content else some .deviceMiddle
  | .content => if (String.utf8EncodeChar c).contains 0x9c then none else some .content
  | .title => if n = 0x07 then none else some .title

/-- Whether a blank stands out of the sequence. -/
def passesBlanks : Sequence → Bool
  | .escape | .escapeMiddle | .command => true
  | _ => false

end Sequence

/-- Where in a text with control sequences a character stands. -/
inductive Showing where
  | clear
  | within (s : Sequence)
  /-- Behind a blank within a sequence. -/
  | interrupted (s : Sequence)
  deriving DecidableEq, Repr

namespace Showing

def ofSequence : Option Sequence → Showing
  | none => .clear
  | some s => .within s

/-- What a hidden character leads to, in a sequence or in none. -/
def hide (s : Option Sequence) (c : Char) : Showing :=
  match c with
  | '\x1b' => .within .escape
  | '\x18' | '\x1a' => .clear
  | c => ofSequence (s.bind (·.advance c))

def shows (st : Showing) (c : Char) : Bool :=
  match st with
  | .within s => c.toNat < 0x20 && isShown c && s.passesBlanks
  | _ => isShown c

def next (st : Showing) (c : Char) : Showing :=
  match st with
  | .clear => if isShown c then .clear else hide none c
  | .interrupted s => if 0x80 ≤ c.toNat then .clear else if isShown c then .interrupted s else hide (some s) c
  | .within s => if shows (.within s) c then .interrupted s else hide (some s) c

end Showing

/-- The characters shown of a text, from a given place on. -/
def shownFrom : Showing → Text → Text
  | _, [] => []
  | st, c :: t => if st.shows c then c :: shownFrom (st.next c) t else shownFrom (st.next c) t

def shown (t : Text) : Text := shownFrom .clear t

theorem shown_eq_self {t : Text} (h : ∀ c ∈ t, isShown c = true) : shown t = t := by
  unfold shown
  induction t with
  | nil => rfl
  | cons c t ih =>
    have hc : isShown c = true := h c List.mem_cons_self
    simp [shownFrom, Showing.shows, Showing.next, hc, ih fun d hd => h d (List.mem_cons_of_mem _ hd)]

example : shown "\x1b[31mred\x1b[0m".toList = "red".toList := by decide

example : shown "v\x0bt\x0cf\x08".toList = "vt\x0cf".toList := by decide

end HostPatterns.Text
