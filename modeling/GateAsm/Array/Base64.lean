/-!
# Bytes in base 64

Three bytes are written as four characters, with `=` up to a multiple of four. Reading skips every
character that is neither of the alphabet nor `=`, and stops at the `=` that completes a group.
-/

namespace GateAsm.Base64

def digit (n : Nat) : Char :=
  if n < 26 then Char.ofNat (65 + n)
  else if n < 52 then Char.ofNat (71 + n)
  else if n < 62 then Char.ofNat (n - 4)
  else if n = 62 then '+'
  else '/'

def value? (c : Char) : Option Nat :=
  if 'A' ≤ c && c ≤ 'Z' then some (c.toNat - 65)
  else if 'a' ≤ c && c ≤ 'z' then some (c.toNat - 71)
  else if '0' ≤ c && c ≤ '9' then some (c.toNat + 4)
  else if c = '+' then some 62
  else if c = '/' then some 63
  else none

def encode : List Nat → List Char
  | [] => []
  | [a] => [digit (a / 4), digit (a % 4 * 16), '=', '=']
  | [a, b] => [digit (a / 4), digit (a % 4 * 16 + b / 16), digit (b % 16 * 4), '=']
  | a :: b :: c :: rest =>
    digit (a / 4) :: digit (a % 4 * 16 + b / 16) :: digit (b % 16 * 4 + c / 64) :: digit (c % 64)
      :: encode rest

/-- Reads on: `place` characters of the current group are read, `left` holds the bits of the last one
that no byte has taken yet, and `pads` counts the `=` since. `none` if a group is left incomplete. -/
def decodeFrom (place left pads : Nat) : List Char → Option (List Nat)
  | [] => if place = 0 then some [] else none
  | c :: cs =>
    if c = '=' then
      if 2 ≤ place then
        if 4 ≤ place + pads + 1 then some [] else decodeFrom place left (pads + 1) cs
      else decodeFrom place left pads cs
    else match value? c with
      | none => decodeFrom place left pads cs
      | some v =>
        if place = 0 then decodeFrom 1 v 0 cs
        else if place = 1 then (decodeFrom 2 (v % 16) 0 cs).map ((left * 4 + v / 16) :: ·)
        else if place = 2 then (decodeFrom 3 (v % 4) 0 cs).map ((left * 16 + v / 4) :: ·)
        else (decodeFrom 0 0 0 cs).map ((left * 64 + v) :: ·)

def decode (cs : List Char) : Option (List Nat) := decodeFrom 0 0 0 cs

end GateAsm.Base64
