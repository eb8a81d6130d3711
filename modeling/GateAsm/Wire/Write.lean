import GateAsm.Block.Basic
import GateAsm.Json.Writer
import GateAsm.Wire.Kinds

/-!
# Serialization

The serialized form of attributes and blocks. Types write their parameters, arrays their bytes; the kind
stands first for plain values and last for all others.
-/

namespace GateAsm

inductive SerialFault
  | unsupported (kind : String)
  | nonTextKey
  /-- A type holds a parameter in a form that JSON does not have. -/
  | foreignNumber
  | integerTooLong
  deriving DecidableEq, Repr

def SerialFault.message? : SerialFault → Option String
  | unsupported kind => some (s!"Cannot serialize object of type {kind}. "
      ++ "Ensure the class is decorated with @serde.register_class and implements to_json()/from_json().")
  | nonTextKey => some "Only dicts with string keys can be serialized"
  | foreignNumber | integerTooLong => none

namespace Wire

def registered (kind : String) (fields : List (String × Json)) : Json :=
  .obj (fields ++ [(kindField, .str kind)])

def plain (kind : String) (fields : List (String × Json)) : Json := .obj ((kindField, .str kind) :: fields)

def width (w : Width) : Except SerialFault Json :=
  match w.form with
  | .int => .ok (.int w.value)
  | .bool => .ok (.bool (w.value != 0))
  | .float => .ok (.float (.ofInt w.value))
  | .int64 | .float32 => .error .foreignNumber

def count (n : Option Nat) : Json := (n.map fun n => Json.int n).getD .null

def type : Ty → Except SerialFault Json
  | .index => .ok (registered "quantir.IndexType" [])
  | .integer w => (width w).map fun w => registered "quantir.IntegerType" [("width", w)]
  | .float w => (width w).map fun w => registered "quantir.FloatType" [("width", w)]
  | .qubit => .ok (registered "quantum.QubitType" [])
  | .register n => .ok (registered "quantum.RegisterType" [("size", count n)])
  | .gate1 => .ok (registered "quantum.Gate1Type" [])
  | .gate2 => .ok (registered "quantum.Gate2Type" [])
  | .circuit => .ok (registered "quantum.CircuitType" [])
  | .controlled base n =>
    let baseKind := match base with
      | .gate1 => "quantum.Gate1Type"
      | .gate2 => "quantum.Gate2Type"
      | .circuit => "quantum.CircuitType"
    .ok (registered "quantum.ControlledGateType" [("base", registered baseKind []), ("num_ctrls", count n)])
  | .abstract => .error (.unsupported TyClass.quantum.name)

def component : Component → Json
  | .constant n => registered "quantir.Constant" [("value", .int n)]
  | .dynamic => registered "quantir.Dynamic" []

def array (a : NumArray) : Json :=
  plain "_ndarray" [("dtype", .str a.typeName), ("shape", .arr (a.shape.map fun n => Json.int (n : Nat))),
    ("data", .str (String.ofList (Base64.encode a.bytes)))]

mutual

def attr : Attr → Except SerialFault Json
  | .none => .ok (plain "_null" [])
  | .bool b => .ok (plain "_bool" [("v", .bool b)])
  | .int n => .ok (plain "_int" [("v", .int n)])
  | .float x => .ok (plain "_float" [("v", .float x)])
  | .str s => .ok (plain "_str" [("v", .str s)])
  | .int64 n => .ok (plain "_int" [("v", .int n)])
  | .float64 x => .ok (plain "_float" [("v", .float x)])
  | .float32 x => .ok (plain "_float" [("v", .float x)])
  | .bool8 b => .error (.unsupported (Attr.bool8 b).kindName)
  | .symbol name => .ok (registered "quantir.SymbolRef" [("name", name.json)])
  | .constant n => .ok (component (.constant n))
  | .dynamic => .ok (component .dynamic)
  | .accessors a => .ok (registered "quantir.AccessorArray" [("elements", .arr (a.components.map component))])
  | .type t => type t
  | .array a => .ok (array a)
  | .list xs => (attrs xs).map fun js => plain "_list" [("items", .arr js)]
  | .tuple xs => (attrs xs).map fun js => plain "_tuple" [("items", .arr js)]
  | .dict entries => match textKeys entries with
    | false => .error .nonTextKey
    | true => (fields entries).map fun fs => plain "_dict" [("items", .obj fs)]
  | .block j => .ok j
  | .part kind _ => .error (.unsupported kind)

def attrs : List Attr → Except SerialFault (List Json)
  | [] => .ok []
  | a :: as => do
    let j ← attr a
    let js ← attrs as
    return j :: js

def textKeys : List (Attr × Attr) → Bool
  | [] => true
  | (.str _, _) :: entries => textKeys entries
  | _ => false

def fields : List (Attr × Attr) → Except SerialFault (List (String × Json))
  | [] => .ok []
  | (.str k, v) :: entries => do
    let j ← attr v
    let js ← fields entries
    return (k, j) :: js
  | _ => .error .nonTextKey

end

def tags : List (String × Attr) → Except SerialFault (List (String × Json))
  | [] => .ok []
  | (k, v) :: rest => do
    let j ← attr v
    let js ← tags rest
    return (k, j) :: js

def value (b : Block) (id : Nat) : Except SerialFault Json := do
  return .obj [("name", (b.nameOf id).json), ("type", ← attr (b.typeOf id))]

def operation (b : Block) (op : Operation) : Except SerialFault Json := do
  let results ← op.results.mapM (value b)
  return .obj [("opcode", op.opcode.json), ("operands", .arr (op.operands.map fun id => (b.nameOf id).json)),
    ("results", .arr results), ("attrs", .obj (← tags op.attrs))]

def block (b : Block) : Except SerialFault Json := do
  let inputs ← b.inputs.mapM (value b)
  let operations ← b.operations.mapM (operation b)
  return registered "quantir.Block" [("inputs", .arr inputs), ("operations", .arr operations)]

end Wire

end GateAsm
