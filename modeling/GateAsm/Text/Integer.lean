import GateAsm.Floating.Double
import GateAsm.Json.Reader

/-!
# Integers as free-standing text

Blanks around a number, a sign and digits of any script with single underscores between them. A text in
base ten may not be too long; in another base the mark of the base may stand in front of the digits.
-/

namespace GateAsm.Text

def integer? (s : String) : Option Int :=
  let (negative, digits) := Floating.splitSign ((trim s.toList).map Double.plainDigit)
  match Double.stripUnderscores digits with
  | none => none
  | some ds =>
    if ds.isEmpty || !ds.all Char.isDigit || maxIntegerDigits < ds.length then none
    else some (Json.signed negative ds)

def digitsInBase? (base : Nat) (ds : List Char) : Option Nat :=
  if ds.isEmpty then none
  else ds.foldlM (fun n d => match Json.hexValue? d with
    | some v => if v < base then some (base * n + v) else none
    | none => none) 0

def withoutBase (mark : Char) (cs : List Char) : List Char :=
  match cs with
  | '0' :: m :: rest => if m.toLower = mark then rest else cs
  | _ => cs

/-- The integer that a text without underscores spells in a base below ten or of sixteen, whose mark is
a letter. -/
def integerInBase? (base : Nat) (mark : Char) (s : String) : Option Int :=
  let (negative, digits) := Floating.splitSign ((trim s.toList).map Double.plainDigit)
  (digitsInBase? base (withoutBase mark digits)).map fun n => if negative then -(n : Int) else n

end GateAsm.Text
