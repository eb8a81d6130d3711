import GateAsm.Floating.Text

/-!
# Doubles

The floating point numbers that attributes hold have sixty-four bits. Two of them are the same when
their bits are; `Double.number` tells what they stand for.
-/

namespace GateAsm

structure Double where
  bits : Nat
  deriving DecidableEq, Repr

namespace Double

open Floating

def number (x : Double) : Number := Format.double.decode x.bits

def text (x : Double) : String := Style.plain.text Format.double x.number

def jsonText (x : Double) : String := Style.json.text Format.double x.number

def isFinite (x : Double) : Bool := x.number.isFinite

/-- The sign bit is set, as it can be in NaN too. -/
def isSignSet (x : Double) : Bool := x.bits / Format.double.signWeight % 2 = 1

def signedNaN (negative : Bool) : Double :=
  ⟨Format.double.quietNaN + if negative then Format.double.signWeight else 0⟩

def ofNumber (n : Number) : Double := ⟨Format.double.ofNumber n⟩

def ofInt (n : Int) : Double := ⟨Format.double.round (n < 0) n.natAbs 1⟩

def ofLiteral? (text : String) : Option Double := (Floating.ofLiteral? Format.double text.toList).map (⟨·⟩)

def stripUnderscores : List Char → Option (List Char)
  | [] => some []
  | a :: '_' :: b :: cs =>
    if a.isDigit && b.isDigit then (stripUnderscores (b :: cs)).map (a :: ·) else none
  | '_' :: _ => none
  | a :: cs => (stripUnderscores cs).map (a :: ·)

def plainDigit (c : Char) : Char :=
  match Text.decimalDigit? c with
  | some d => Char.ofNat (48 + d)
  | none => c

/-- The number that a free-standing text spells: blanks around it, a sign, and either a decimal with
optional underscores or one of the words for infinity and NaN in any case. -/
def ofText? (s : String) : Option Double :=
  let cs := (Text.trim s.toList).map plainDigit
  let (negative, body) := splitSign cs
  let word := String.ofList (body.map Char.toLower)
  if word = "inf" || word = "infinity" then some ⟨Format.double.infinity negative⟩
  else if word = "nan" then some (signedNaN negative)
  else (stripUnderscores cs).bind fun cs => (Floating.ofLiteral? Format.double cs).map (⟨·⟩)

end Double

end GateAsm
