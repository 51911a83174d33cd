/-
  HostPatterns.Json — the JSON values the tool prints, and their layout: two spaces
  a level, one item a line, nothing between the brackets of an empty array or object.

  Fields stay in the order given. Within a string, the quote, the backslash and the
  control characters below U+0020 are escaped and nothing else is.
-/

import HostPatterns.Text

namespace HostPatterns

inductive Json where
  | null
  | number (n : Nat)
  | string (t : Text)
  | array (items : List Json)
  | object (fields : List (String × Json))

namespace Json

def hexDigit (n : Nat) : Char := Nat.digitChar (n % 16)

def escape (c : Char) : Text :=
  match c with
  | '"' => ['\\', '"']
  | '\\' => ['\\', '\\']
  | '\x08' => ['\\', 'b']
  | '\x0c' => ['\\', 'f']
  | '\n' => ['\\', 'n']
  | '\r' => ['\\', 'r']
  | '\t' => ['\\', 't']
  | c => if c.toNat < 0x20 then ['\\', 'u', '0', '0', hexDigit (c.toNat / 16), hexDigit c.toNat] else [c]

def quote (t : Text) : Text := '"' :: t.flatMap escape ++ ['"']

/-- A line break and the indentation of a level. -/
def newline (level : Nat) : Text := '\n' :: List.replicate (2 * level) ' '

mutual

/-- The value as it stands inside a given level. -/
def layout (level : Nat) : Json → Text
  | .null => "null".toList
  | .number n => Text.ofNat n
  | .string t => quote t
  | .array [] => "[]".toList
  | .array (x :: xs) => '[' :: newline (level + 1) ++ layout (level + 1) x ++ items (level + 1) xs ++ newline level ++ [']']
  | .object [] => "\x7b\x7d".toList
  | .object ((k, x) :: fs) =>
    '\x7b' :: newline (level + 1) ++ quote k.toList ++ ": ".toList ++ layout (level + 1) x ++ fields (level + 1) fs ++
      newline level ++ ['\x7d']

def items (level : Nat) : List Json → Text
  | [] => []
  | x :: xs => ',' :: newline level ++ layout level x ++ items level xs

def fields (level : Nat) : List (String × Json) → Text
  | [] => []
  | (k, x) :: fs => ',' :: newline level ++ quote k.toList ++ ": ".toList ++ layout level x ++ fields level fs

end

def text (j : Json) : String := (layout 0 j).string

end Json

end HostPatterns
