/-
  HostPatterns.Ipv4 — IPv4 addresses in dotted form.

  An octet is written in decimal without leading zeros, and nothing else is read:
  every address has one written form.
-/

import HostPatterns.Text

namespace HostPatterns

structure Ipv4 where
  a : UInt8
  b : UInt8
  c : UInt8
  d : UInt8
  deriving DecidableEq, Repr

namespace Ipv4

def octetText (o : UInt8) : Text := Text.ofNat o.toNat

def render (ip : Ipv4) : Text :=
  octetText ip.a ++ '.' :: octetText ip.b ++ '.' :: octetText ip.c ++ '.' :: octetText ip.d

def string (ip : Ipv4) : String := ip.render.string

instance : ToString Ipv4 := ⟨string⟩

/-- One to three digits, no zero in front of another digit, at most 255. -/
def octet? (t : Text) : Option UInt8 :=
  if t = [] ∨ 3 < t.length ∨ t.all Char.isDigit = false ∨ (t.head? = some '0' ∧ 1 < t.length) then none
  else
    let n := t.foldl (fun n c => 10 * n + (c.toNat - '0'.toNat)) 0
    if n < 256 then some n.toUInt8 else none

def parse? (t : Text) : Option Ipv4 :=
  match t.splitOn '.' with
  | [a, b, c, d] => do some ⟨← octet? a, ← octet? b, ← octet? c, ← octet? d⟩
  | _ => none

/-- The address as one number, the first octet in front. -/
def toNat (ip : Ipv4) : Nat :=
  ((ip.a.toNat * 256 + ip.b.toNat) * 256 + ip.c.toNat) * 256 + ip.d.toNat

theorem octet?_octetText (o : UInt8) : octet? (octetText o) = some o := by
  have h : ∀ n < 256, octet? (octetText (UInt8.ofNat n)) = some (UInt8.ofNat n) := by decide +kernel
  have := h o.toNat o.toNat_lt
  simpa using this

end Ipv4

end HostPatterns
