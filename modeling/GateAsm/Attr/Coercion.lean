import GateAsm.Attr.Equality
import GateAsm.Text.Integer

/-!
# Reading an attribute as something else

Tags are not checked when an instruction is created, so whoever reads one meets any value there.
`Mismatch` tells in which way a value does not have the shape that was wanted.
-/

namespace GateAsm

inductive Mismatch
  | wrongKind
  | noComponent
  /-- It is of the right kind but spells no number, or has the wrong extent. -/
  | badValue
  /-- It is an infinite number where an integer is wanted, or too large an integer for a float. -/
  | overflow
  | outOfRange
  | exhausted
  | missing (key : String)
  deriving DecidableEq, Repr

namespace Attr

def truncated (x : Floating.Number) : Except Mismatch Int :=
  match x with
  | .nan => .error .badValue
  | .infinite _ => .error .overflow
  | x => .ok (x.truncate?.getD 0)

def cellInt : Element.Cell → Except Mismatch Int
  | .boolean b => .ok (if b then 1 else 0)
  | .int n => .ok n
  | .float _ x => truncated x

def toInt : Attr → Except Mismatch Int
  | bool b => .ok (if b then 1 else 0)
  | int n => .ok n
  | float x => truncated x.number
  | str s => match Text.integer? s with
    | some n => .ok n
    | Option.none => .error .badValue
  | array a => match a.values with
    | [cell] => cellInt cell
    | _ => .error .wrongKind
  | int64 n => .ok n
  | float64 x => truncated x.number
  | float32 x => truncated x.number
  | bool8 b => .ok (if b then 1 else 0)
  | _ => .error .wrongKind

def floatOfInt (n : Int) : Except Mismatch Double :=
  let x := Double.ofInt n
  if x.isFinite then .ok x else .error .overflow

def cellFloat : Element.Cell → Except Mismatch Double
  | .boolean b => .ok (.ofInt (if b then 1 else 0))
  | .int n => .ok (.ofInt n)
  | .float _ x => .ok (.ofNumber x)

/-- A numeric value as a double; texts are no numbers here. -/
def toReal : Attr → Except Mismatch Double
  | bool b => .ok (.ofInt (if b then 1 else 0))
  | int n => floatOfInt n
  | float x => .ok x
  | array a => match a.values with
    | [cell] => cellFloat cell
    | _ => .error .wrongKind
  | int64 n => .ok (.ofInt n)
  | float64 x => .ok x
  | float32 x => .ok x
  | bool8 b => .ok (.ofInt (if b then 1 else 0))
  | _ => .error .wrongKind

/-- A value read as a double, texts that spell one included. -/
def toFloat : Attr → Except Mismatch Double
  | str s => match Double.ofText? s with
    | some x => .ok x
    | Option.none => .error .badValue
  | a => a.toReal

def cellIsZero : Element.Cell → Bool
  | .boolean b => !b
  | .int n => n = 0
  | .float _ x => x.isZero

def truthy : Attr → Except Mismatch Bool
  | none => .ok false
  | bool b => .ok b
  | int n => .ok (n != 0)
  | float x => .ok (!x.number.isZero)
  | str s => .ok (!s.isEmpty)
  | accessors a => .ok (!a.components.isEmpty)
  | list items => .ok (!items.isEmpty)
  | tuple items => .ok (!items.isEmpty)
  | dict entries => .ok (!entries.isEmpty)
  | array a => match a.values with
    | [] => .ok false
    | [cell] => .ok (!cellIsZero cell)
    | _ => .error .badValue
  | int64 n => .ok (n != 0)
  | float64 x => .ok (!x.number.isZero)
  | float32 x => .ok (!x.number.isZero)
  | bool8 b => .ok b
  | block j => .ok (operationCount j != 0)
  | _ => .ok true

/-- Whether a value is a type; an array compares cell by cell, and only one of at most one cell does so
to an answer. -/
def isType (a : Attr) (t : Ty) : Except Mismatch Bool :=
  match a with
  | type t' => .ok (t'.same t)
  | array a => match a.cells with
    | [] => .ok true
    | [_] => .ok false
    | _ => .error .badValue
  | _ => .ok false

def items (a : Attr) : Except Mismatch (List Attr) :=
  match a.items? with
  | some items => .ok items
  | Option.none => .error .wrongKind

def length (a : Attr) : Except Mismatch Nat := (a.items).map List.length

def item (a : Attr) (i : Nat) : Except Mismatch Attr :=
  match a with
  | dict entries => match entry? (.int i) entries with
    | some x => .ok x
    | Option.none => .error (.missing (toString i))
  | block _ => .error .wrongKind
  | a => match a.items? with
    | Option.none => .error .wrongKind
    | some items => match items[i]? with
      | some x => .ok x
      | Option.none => .error .outOfRange

def dynamicCount : Attr → Except Mismatch Nat
  | accessors a => .ok a.dynamicCount
  | _ => .error .noComponent

end Attr

end GateAsm
