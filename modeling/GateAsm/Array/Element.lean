import GateAsm.Floating.Double

/-!
# Element types of numeric arrays

An element is kept as the bits of its cell, the lowest byte first in memory. `Element.read` tells the
number in a cell, `Element.text` its text.
-/

namespace GateAsm

inductive Element
  | boolean
  | signed (bytes : Nat)
  | unsigned (bytes : Nat)
  | half
  | single
  | double
  deriving DecidableEq, Repr

namespace Element

open Floating

def size : Element → Nat
  | boolean => 1
  | signed n => n
  | unsigned n => n
  | half => 2
  | single => 4
  | double => 8

def name : Element → String
  | boolean => "bool"
  | signed n => "int" ++ toString (8 * n)
  | unsigned n => "uint" ++ toString (8 * n)
  | half => "float16"
  | single => "float32"
  | double => "float64"

def code : Element → String
  | boolean => "b1"
  | signed n => "i" ++ toString n
  | unsigned n => "u" ++ toString n
  | half => "f2"
  | single => "f4"
  | double => "f8"

inductive NameFault
  | unknown
  | noCells
  deriving DecidableEq, Repr

def letters : List (Char × Element) :=
  [('?', boolean), ('b', signed 1), ('B', unsigned 1), ('h', signed 2), ('H', unsigned 2), ('i', signed 4),
   ('I', unsigned 4), ('l', signed 8), ('L', unsigned 8), ('q', signed 8), ('Q', unsigned 8), ('p', signed 8),
   ('P', unsigned 8), ('e', half), ('f', single), ('d', double)]

def words : List (String × Element) :=
  [("bool", boolean), ("bool_", boolean), ("bool8", boolean),
   ("int8", signed 1), ("byte", signed 1), ("int16", signed 2), ("short", signed 2), ("int32", signed 4),
   ("intc", signed 4), ("int64", signed 8), ("int", signed 8), ("int_", signed 8), ("int0", signed 8),
   ("intp", signed 8), ("long", signed 8), ("longlong", signed 8),
   ("uint8", unsigned 1), ("ubyte", unsigned 1), ("uint16", unsigned 2), ("ushort", unsigned 2),
   ("uint32", unsigned 4), ("uintc", unsigned 4), ("uint64", unsigned 8), ("uint", unsigned 8),
   ("uint0", unsigned 8), ("uintp", unsigned 8), ("ulong", unsigned 8), ("ulonglong", unsigned 8),
   ("float16", half), ("half", half), ("float32", single), ("single", single), ("float64", double),
   ("double", double), ("float", double), ("float_", double)]

/-- Words and letters of types whose cells have no size of their own or are no numbers in place. -/
def cellless : List String :=
  ["O", "object", "object_", "object0", "S", "a", "U", "V", "str", "str_", "str0", "bytes", "bytes_", "bytes0",
   "string_", "unicode", "unicode_", "void", "void0"]

def ofSort? (sort : Char) (bytes : Nat) : Option Element :=
  match sort, bytes with
  | 'b', 1 => some boolean
  | 'i', 1 | 'i', 2 | 'i', 4 | 'i', 8 => some (signed bytes)
  | 'u', 1 | 'u', 2 | 'u', 4 | 'u', 8 => some (unsigned bytes)
  | 'f', 2 => some half
  | 'f', 4 => some single
  | 'f', 8 => some double
  | _, _ => none

def byteCount? (cs : List Char) : Option Nat :=
  let cs := cs.dropWhile fun c => c = ' ' || ('\x09' ≤ c && c ≤ '\x0d')
  let ds := if cs.head? = some '+' then cs.drop 1 else cs
  if ds.isEmpty || !ds.all Char.isDigit then none else some (Floating.natOfDigits ds)

def ofCode (cs : List Char) : Except NameFault Element :=
  let missing (x : Option Element) : Except NameFault Element := (x.map Except.ok).getD (.error .unknown)
  match cs with
  | [] => .error .unknown
  | [c] => if cellless.contains c.toString then .error .noCells else missing (letters.lookup c)
  | sort :: count => match byteCount? count with
    | none => .error .unknown
    | some n =>
      if (n = 0 && "SaUV".contains sort) || (n = 8 && sort = 'O') then .error .noCells
      else missing (ofSort? sort n)

/-- The element type of a name, and whether the highest byte of its cells comes first. A mark for the
order of bytes stands in front of a code, and says nothing about single bytes. -/
def ofName (s : String) : Except NameFault (Element × Bool) :=
  let marked (cs : List Char) (highFirst : Bool) : Except NameFault (Element × Bool) :=
    (ofCode cs).map fun e => (e, highFirst && e.size != 1)
  match words.lookup s, s.toList with
  | some e, _ => .ok (e, false)
  | none, '>' :: cs => marked cs true
  | none, '<' :: cs | none, '=' :: cs | none, '|' :: cs => marked cs false
  | none, cs => if cellless.contains s then .error .noCells else marked cs false

inductive Cell
  | boolean (b : Bool)
  | int (n : Int)
  | float (f : Format) (x : Number)

/-- The number in a cell in full: one of lower precision has the text of the double of its value. -/
def Cell.fullText : Cell → String
  | boolean b => if b then "True" else "False"
  | int n => toString n
  | float _ x => (Double.ofNumber x).text

def read (e : Element) (bits : Nat) : Cell :=
  match e with
  | boolean => .boolean (bits != 0)
  | signed n => .int (if bits < 2 ^ (8 * n - 1) then bits else (bits : Int) - 2 ^ (8 * n))
  | unsigned _ => .int bits
  | half => .float Format.half (Format.half.decode bits)
  | single => .float Format.single (Format.single.decode bits)
  | double => .float Format.double (Format.double.decode bits)

def ofInt (e : Element) (n : Int) : Nat :=
  match e with
  | boolean => if n = 0 then 0 else 1
  | signed w => (n % 2 ^ (8 * w)).toNat
  | unsigned w => (n % 2 ^ (8 * w)).toNat
  | half => Format.half.round (n < 0) n.natAbs 1
  | single => Format.single.round (n < 0) n.natAbs 1
  | double => Format.double.round (n < 0) n.natAbs 1

def ofDouble (e : Element) (x : Double) : Nat :=
  let bitsIn (f : Format) : Nat :=
    f.ofNumber x.number + if x.number = .nan && x.isSignSet then f.signWeight else 0
  match e with
  | half => bitsIn Format.half
  | single => bitsIn Format.single
  | double => bitsIn Format.double
  | e => e.ofInt (x.number.truncate?.getD 0)

/-- The integers that a cell takes; those out of its range are cut to its last bits. -/
def takes (e : Element) (n : Int) : Bool :=
  match e with
  | signed _ | unsigned 1 | unsigned 2 => -(2 ^ 63) ≤ n && n < 2 ^ 63
  | unsigned _ => -(2 ^ 63) ≤ n && n < 2 ^ 64
  | _ => true

def bytes (count bits : Nat) : List Nat :=
  match count with
  | 0 => []
  | count + 1 => bits % 256 :: bytes count (bits / 256)

def ofBytes : List Nat → Nat
  | [] => 0
  | b :: bs => b + 256 * ofBytes bs

end Element

end GateAsm
