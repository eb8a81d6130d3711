import GateAsm.Attr.Construct
import GateAsm.Attr.Coercion
import GateAsm.Block.Basic
import GateAsm.Ty.Make
import GateAsm.Wire.Write

/-!
# Deserialization

Reading the serialized form of attributes and blocks. Types are interned in the context that is handed
along, whether the reading succeeds or not. Fields beyond those that a kind has are ignored.
-/

namespace GateAsm

inductive WireFault
  | notObject (kind : String)
  | noKind
  | unknownKind (shown : String)
  | missing (key : String)
  | type (f : TypeFault)
  | accessor (f : AccessorFault)
  | block (f : BlockFault)
  | mismatch (m : Mismatch)
  | badPadding
  deriving DecidableEq, Repr

def WireFault.message? : WireFault → Option String
  | notObject kind => some s!"Expected dict, got {kind}"
  | noKind => some s!"Missing '{Wire.kindField}' field in JSON data"
  | unknownKind shown => some (s!"Unknown type kind: '{shown}'. "
      ++ "Ensure the class is registered with @serde.register_class and the module is imported.")
  | missing key => some key
  | type f => some f.message
  | accessor f => some f.message
  | block f => some f.message
  | mismatch (.missing key) => some key
  | mismatch _ => none
  | badPadding => none

namespace Wire

abbrev Loader := ExceptT WireFault (StateM TypeContext)

mutual

def rawAttr : Json → Attr
  | .null => .none
  | .bool b => .bool b
  | .int n => .int n
  | .float x => .float x
  | .str s => .str s
  | .arr items => .list (rawAttrs items)
  | .obj fields => .dict (rawEntries fields)

def rawAttrs : List Json → List Attr
  | [] => []
  | j :: js => rawAttr j :: rawAttrs js

def rawEntries : List (String × Json) → List (Attr × Attr)
  | [] => []
  | (k, j) :: fields => (.str k, rawAttr j) :: rawEntries fields

end

def field (fields : List (String × Json)) (key : String) : Loader Json :=
  match Json.lookup key fields with
  | some j => pure j
  | none => throw (.missing key)

def ofShape {α : Type} (x : Except Mismatch α) : Loader α :=
  match x with
  | .ok a => pure a
  | .error m => throw (.mismatch m)

/-- What iteration over a JSON value yields: the items of a list, the names of an object's fields, the
characters of a text. -/
def iterate (j : Json) : Loader (List Json) :=
  match j with
  | .arr items => pure items
  | .obj fields => pure (fields.map fun f => .str f.1)
  | .str s => pure (s.toList.map fun c => .str c.toString)
  | _ => throw (.mismatch .wrongKind)

def fieldsOf (j : Json) : Loader (List (String × Json)) :=
  match j with
  | .obj fields => pure fields
  | _ => throw (.mismatch .wrongKind)

def intern (t : Except TypeFault Ty) : Loader Attr :=
  match t with
  | .error f => throw (.type f)
  | .ok t => do
    let (kept, context) := (← get).intern t
    set context
    return .type kept

/-- The element type that an array states, and whether the highest byte comes first; without one it is
the type of doubles. There is none if its cells take no room. An object may name the fields of a cell,
each described by a list at least. -/
def element (j : Json) : Loader (Option (Element × Bool)) :=
  match j with
  | .null => pure (some (.double, false))
  | .str s => match Element.ofName s with
    | .ok e => pure (some e)
    | .error .unknown => throw (.mismatch .wrongKind)
    | .error .noCells => pure none
  | .arr [] | .obj [] => pure none
  | .obj ((_, .arr _) :: _) | .obj ((_, .obj _) :: _) | .obj ((_, .str _) :: _) => throw (.mismatch .badValue)
  | _ => throw (.mismatch .wrongKind)

def bytes (j : Json) : Loader (List Nat) :=
  match j with
  | .str s =>
    if !s.toList.all fun c => c.toNat < 0x80 then throw (.mismatch .badValue)
    else match Base64.decode s.toList with
      | some bs => pure bs
      | none => throw .badPadding
  | _ => throw (.mismatch .wrongKind)

def extent (j : Json) : Loader Int :=
  match j with
  | .int n => if InInt64 n then pure n else throw (.mismatch .badValue)
  | _ => throw (.mismatch .wrongKind)

def readArray (fields : List (String × Json)) : Loader Attr := do
  let stated ← element (← field fields "dtype")
  let shape ← iterate (← field fields "shape")
  let buffer ← bytes (← field fields "data")
  let (e, highFirst) ← ofShape (stated.map Except.ok |>.getD (.error .badValue))
  if buffer.length % e.size != 0 || NumArray.maxRank < shape.length then throw (.mismatch .badValue)
  let extents ← shape.mapM extent
  match NumArray.ofBuffer e highFirst extents buffer with
  | some a => return .array a
  | none => throw (.mismatch .badValue)

def change {α : Type} (x : Except BlockFault α) : Loader α :=
  match x with
  | .ok a => pure a
  | .error (.unknownName name) => throw (.missing name)
  | .error f => throw (.block f)

def valueName (j : Json) : Option Label :=
  match j with
  | .null => none
  | j => some (.ofJson j)

def operand (b : Block) (j : Json) : Loader Nat :=
  let name := Label.ofJson j
  if !name.isKey then throw (.mismatch .wrongKind)
  else match b.inScope? name with
    | some id => pure id
    | none => throw (.missing name.display)

def readItems (read : Json → Loader Attr) (js : List Json) : Loader (List Attr) := js.mapM read

def readComponents (read : Json → Loader Attr) (js : List Json) : Loader (List Component) :=
  js.mapM fun j => do
    match Component.ofAttr (← read j) with
    | .error f => throw (.accessor f)
    | .ok c => return c

def readEntries (read : Json → Loader Attr) (entries : List (String × Json)) : Loader (List (String × Attr)) :=
  entries.mapM fun e => do return (e.1, ← read e.2)

def readInputs (read : Json → Loader Attr) (b : Block) : List Json → Loader Block
  | [] => pure b
  | j :: js => do
    let fields ← fieldsOf j
    let name ← field fields "name"
    let type ← read (← field fields "type")
    let (_, b) ← change (b.addInput (valueName name) type)
    readInputs read b js

def readOperation (read : Json → Loader Attr) (b : Block) (j : Json) : Loader Block := do
  let fields ← fieldsOf j
  let opcode := Label.ofJson (← field fields "opcode")
  let operands ← (← iterate (← field fields "operands")).mapM (operand b)
  let attrs ← match ← field fields "attrs" with
    | .obj entries => readEntries read entries
    | _ => throw (.mismatch .noComponent)
  let results ← iterate (← field fields "results")
  let types ← results.mapM fun r => do read (← field (← fieldsOf r) "type")
  let names ← results.mapM fun r => do return valueName (← field (← fieldsOf r) "name")
  match b.createOperation ⟨opcode, operands.map some, attrs, types⟩ (some names) with
  | (.ok _, b) => return b
  | (.error f, _) => throw (.block f)

def readBlock (read : Json → Loader Attr) (fields : List (String × Json)) : Loader Block := do
  let b ← readInputs read .empty (← iterate (← field fields "inputs"))
  (← iterate (← field fields "operations")).foldlM (readOperation read) b

def readType? (read : Json → Loader Attr) (kind : String) (fields : List (String × Json)) :
    Option (Loader Attr) :=
  match kind with
  | "quantir.IndexType" => some (intern (.ok .index))
  | "quantir.IntegerType" => some do intern (Ty.ofIntegerWidth (rawAttr (← field fields "width")))
  | "quantir.FloatType" => some do intern (Ty.ofFloatWidth (rawAttr (← field fields "width")))
  | "quantum.QubitType" => some (intern (.ok .qubit))
  | "quantum.RegisterType" => some do intern (Ty.ofRegisterSize (rawAttr (← field fields "size")))
  | "quantum.Gate1Type" => some (intern (.ok .gate1))
  | "quantum.Gate2Type" => some (intern (.ok .gate2))
  | "quantum.CircuitType" => some (intern (.ok .circuit))
  | "quantum.ControlledGateType" => some do
    let base ← read (← field fields "base")
    intern (Ty.ofBaseAndCount base (rawAttr (← field fields "num_ctrls")))
  | _ => none

def readRegistered (read : Json → Loader Attr) (kind : String) (fields : List (String × Json)) : Loader Attr :=
  match kind with
  | "quantir.Constant" => do
    match rawAttr (← field fields "value") with
    | .int n => if InInt64 n then return .constant n else throw (.accessor (.outOfRange n))
    | a => throw (.accessor (.notInteger a.kindName))
  | "quantir.Dynamic" => pure .dynamic
  | "quantir.AccessorArray" => do
    let components ← readComponents read (← iterate (← field fields "elements"))
    match Accessors.ofComponents components with
    | .ok a => return .accessors a
    | .error f => throw (.accessor f)
  | "quantir.SymbolRef" => do return .symbol (.ofJson (← field fields "name"))
  | "quantir.Block" => do
    match block (← readBlock read fields) with
    | .ok j => return .block j
    | .error _ => throw (.mismatch .wrongKind)
  | kind => throw (.unknownKind kind)

def readKind (read : Json → Loader Attr) (kind : String) (fields : List (String × Json)) : Loader Attr :=
  match kind with
  | "_null" => pure .none
  | "_bool" => do return .bool (← field fields "v").truthy
  | "_int" => do return .int (← ofShape (rawAttr (← field fields "v")).toInt)
  | "_float" => do return .float (← ofShape (rawAttr (← field fields "v")).toFloat)
  | "_str" => do return .str (rawAttr (← field fields "v")).display
  | "_list" => do return .list (← readItems read (← iterate (← field fields "items")))
  | "_tuple" => do return .tuple (← readItems read (← iterate (← field fields "items")))
  | "_dict" => do
    match ← field fields "items" with
    | .obj entries => return .dict ((← readEntries read entries).map fun e => (.str e.1, e.2))
    | _ => throw (.mismatch .noComponent)
  | "_ndarray" => readArray fields
  | kind => match readType? read kind fields with
    | some loader => loader
    | none => readRegistered read kind fields

def readObject (read : Json → Loader Attr) (j : Json) : Loader Attr :=
  match j with
  | .obj fields => match (Json.lookup kindField fields).getD .null with
    | .null => throw .noKind
    | .arr _ | .obj _ => throw (.mismatch .wrongKind)
    | .str kind => readKind read kind fields
    | k => throw (.unknownKind (rawAttr k).display)
  | j => throw (.notObject (rawAttr j).kindName)

def readWithin : (depth : Nat) → Json → Loader Attr
  | 0, j => throw (.notObject (rawAttr j).kindName)
  | depth + 1, j => readObject (readWithin depth) j

def read (j : Json) : Loader Attr := readWithin (j.depth + 1) j

def readBlockValue (j : Json) : Loader Block :=
  match j with
  | .obj fields => match Json.lookup kindField fields with
    | some (.str "quantir.Block") => readBlock (readWithin j.depth) fields
    | _ => do
      let _ ← read j
      throw (.mismatch .noComponent)
  | j => throw (.notObject (rawAttr j).kindName)

end Wire

end GateAsm
