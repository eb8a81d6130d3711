import GateAsm.Attr.Accessors
import GateAsm.Array.Basic
import GateAsm.Json.Label
import GateAsm.Ty.Class

/-!
# Attributes

The values of tags. An instruction may carry any of them under names of its user's choice; the
instruction format keeps segment sizes, accessors and rotation angles there as well. A block inside a
tag is kept in its serialized form, which determines it; a value or an operation of a block is kept as a
listing shows it.
-/

namespace GateAsm

-- A sum starts from the literal zero.
attribute [local instance(high)] Zero.ofOfNat0

inductive Attr
  | none
  | bool (b : Bool)
  | int (n : Int)
  | float (x : Double)
  | str (s : String)
  | symbol (name : Label)
  | constant (n : Int)
  | dynamic
  | accessors (a : Accessors)
  | type (t : Ty)
  | list (items : List Attr)
  | tuple (items : List Attr)
  | dict (entries : List (Attr × Attr))
  | array (a : NumArray)
  | int64 (n : Int)
  | float64 (x : Double)
  | float32 (x : Double)
  | bool8 (b : Bool)
  | block (serialized : Json)
  /-- A value or an operation of a block. -/
  | part (kind shown : String)
  deriving Repr

instance : Inhabited Attr := ⟨.none⟩

namespace Attr

def kindName : Attr → String
  | none => "NoneType"
  | bool _ => "bool"
  | int _ => "int"
  | float _ => "float"
  | str _ => "str"
  | symbol _ => "SymbolRef"
  | constant _ => "Constant"
  | dynamic => "Dynamic"
  | accessors _ => "AccessorArray"
  | type t => t.tyClass.name
  | list _ => "list"
  | tuple _ => "tuple"
  | dict _ => "dict"
  | array _ => "ndarray"
  | int64 _ => "int64"
  | float64 _ => "float64"
  | float32 _ => "float32"
  | bool8 _ => "bool_"
  | block _ => "Block"
  | part kind _ => kind

def ofComponent : Component → Attr
  | .constant n => constant n
  | .dynamic => dynamic

def ofCell : Element.Cell → Attr
  | .boolean b => bool8 b
  | .int n => int64 n
  | .float f x => if f = Floating.Format.double then float64 (.ofNumber x) else float32 (.ofNumber x)

def fieldItems (j : Json) (key : String) : List Json :=
  match j with
  | .obj fields => match Json.lookup key fields with
    | some (.arr items) => items
    | _ => []
  | _ => []

def operationCount (serialized : Json) : Nat := (fieldItems serialized "operations").length

def valueCount (serialized : Json) : Nat :=
  (fieldItems serialized "inputs").length
    + ((fieldItems serialized "operations").map fun op => (fieldItems op "results").length).sum

/-- What iteration over a value yields; `none` if there is nothing to iterate over. -/
def items? : Attr → Option (List Attr)
  | list items => some items
  | tuple items => some items
  | str s => some (s.toList.map fun c => str c.toString)
  | dict entries => some (entries.map (·.1))
  | accessors a => some (a.components.map ofComponent)
  | array a => match a.shape with
    | [] => Option.none
    | [_] => some (a.values.map ofCell)
    | _ => a.rows.map fun rows => rows.map array
  | block j => some (List.replicate (operationCount j) (part "Operation" "Operation"))
  | _ => Option.none

def type? : Attr → Option Ty
  | type t => some t
  | _ => Option.none

def isIndex : Attr → Bool
  | type .index => true
  | _ => false

def lookup (key : String) : List (String × Attr) → Option Attr
  | [] => Option.none
  | (k, v) :: tags => if k = key then some v else lookup key tags

def put (key : String) (value : Attr) : List (String × Attr) → List (String × Attr)
  | [] => [(key, value)]
  | (k, v) :: tags => if k = key then (k, value) :: tags else (k, v) :: put key value tags

@[simp]
theorem lookup_put_self (key : String) (value : Attr) (tags : List (String × Attr)) :
    lookup key (put key value tags) = some value := by
  induction tags with
  | nil => simp [put, lookup]
  | cons t tags ih => by_cases h : t.1 = key <;> simp [put, lookup, h, ih]

theorem lookup_put_ne {key other : String} (h : other ≠ key) (value : Attr) (tags : List (String × Attr)) :
    lookup other (put key value tags) = lookup other tags := by
  induction tags with
  | nil => simp [put, lookup, Ne.symm h]
  | cons t tags ih =>
    by_cases ht : t.1 = key
    · subst ht; simp [put, lookup, Ne.symm h]
    · simp [put, lookup, ht, ih]

end Attr

end GateAsm
