import GateAsm.Attr.Text
import GateAsm.Block.Window

/-!
# Blocks

A block is a list of operations over values. Values are numbered in the order of their creation; a
value is an input of the block or the result of one operation, and knows the operations that use it.
`Block.scope` holds the values by name, in the order of their names' entry. A value that has left the
scope keeps its number.

The operations on blocks that can fail give the block they leave behind beside their answer.
-/

namespace GateAsm

/-- An operation as values know it: the position that it has or was to have in the block, and which of
the abandoned attempts it was if it never came into being. -/
structure OperationRef where
  position : Nat
  abandoned : Option Nat
  deriving DecidableEq, Repr

def OperationRef.name (r : OperationRef) : String := s!"op{r.position}"

structure Value where
  name : Label
  type : Attr
  definedBy : Option OperationRef
  /-- The operations that use the value, each once, in the order of their creation. -/
  uses : List OperationRef
  deriving Repr

/-- The start of the names of values that were given none; no name in assembly text starts so. -/
def anonymousMark : String := "%#"

namespace Value

def isAnonymous (v : Value) : Bool := (v.name.text?.map (·.startsWith anonymousMark)).getD false

def isFree (v : Value) : Bool := v.definedBy.isNone

def text (v : Value) : String := s!"Value({v.name.display}: {v.type.display})"

def defineBy (op : OperationRef) (v : Value) : Value := { v with definedBy := some op }

def useBy (op : OperationRef) (v : Value) : Value :=
  if v.uses.contains op then v else { v with uses := v.uses ++ [op] }

end Value

structure OperationState where
  opcode : Label
  /-- The operands, `none` for one that is missing. -/
  operands : List (Option Nat)
  attrs : List (String × Attr)
  resultTypes : List Attr
  deriving Repr

/-- An operation: operands and results are numbers of values. -/
structure Operation where
  opcode : Label
  operands : List Nat
  results : List Nat
  attrs : List (String × Attr)
  name : String
  deriving Repr

structure Block where
  values : List Value
  scope : List (Label × Nat)
  inputs : List Nat
  operations : List Operation
  /-- The number from which the next name for an anonymous value is searched. -/
  anonymousCount : Nat
  abandoned : Nat
  deriving Repr

inductive BlockFault
  | valueExists (name : String)
  | resultNameCount (opcode : String) (names types : Nat)
  | inUse (name : String)
  | unknownName (name : String)
  | missingOperand
  | notKey
  deriving DecidableEq, Repr

def BlockFault.message : BlockFault → String
  | valueExists name => s!"Value {name} already exists"
  | resultNameCount opcode names types => s!"{opcode}: {names} result names for {types} result types"
  | inUse name => s!"Value {name} is in use"
  | unknownName name => name
  | missingOperand => "an operand is missing"
  | notKey => "the name is no key"

namespace Block

def empty : Block := ⟨[], [], [], [], 0, 0⟩

def value? (b : Block) (id : Nat) : Option Value := b.values[id]?

def nameOf (b : Block) (id : Nat) : Label := ((b.value? id).map (·.name)).getD (.text "")

def typeOf (b : Block) (id : Nat) : Attr := ((b.value? id).map (·.type)).getD .none

def inScope? (b : Block) (name : Label) : Option Nat := (b.scope.find? (·.1.same name)).map (·.2)

/-- The value that a name in a text stands for; anonymous values are never found. -/
def lookup (b : Block) (name : String) : Option Nat :=
  if name.startsWith anonymousMark then none else b.inScope? name

/-- The first name for an anonymous value, from a counter on, that is not in scope; it is found among
one more names than there are in scope. -/
def freshName (b : Block) : (tries : Nat) → (count : Nat) → String × Nat
  | 0, count => (anonymousMark ++ toString count, count + 1)
  | tries + 1, count =>
    let name := anonymousMark ++ toString count
    if (b.inScope? name).isNone then (name, count + 1) else b.freshName tries (count + 1)

def enter (b : Block) (type : Attr) (name : Label) : Nat × Block :=
  (b.values.length,
   { b with values := b.values ++ [⟨name, type, none, []⟩], scope := b.scope ++ [(name, b.values.length)] })

def addValue (b : Block) (type : Attr) (name : Option Label) : Except BlockFault (Nat × Block) :=
  match name with
  | none =>
    let (name, count) := b.freshName b.scope.length b.anonymousCount
    .ok ({ b with anonymousCount := count }.enter type name)
  | some name =>
    if !name.isKey then .error .notKey
    else if (b.inScope? name).isSome then .error (.valueExists name.display)
    else .ok (b.enter type name)

def addInput (b : Block) (name : Option Label) (type : Attr) : Except BlockFault (Nat × Block) :=
  (b.addValue type name).map fun (id, b) => (id, { b with inputs := b.inputs ++ [id] })

def mapValues (b : Block) (ids : List Nat) (f : Value → Value) : Block :=
  { b with values := b.values.zipIdx.map fun (v, i) => if ids.contains i then f v else v }

/-- Adds the results of an operation one by one, and stops at a name that is taken; the results added
before it stay. -/
def addResults (b : Block) : List (Attr × Option Label) → Except BlockFault (List Nat) × Block
  | [] => (.ok [], b)
  | (type, name) :: rest => match b.addValue type name with
    | .error e => (.error e, b)
    | .ok (id, b) => match b.addResults rest with
      | (.error e, b) => (.error e, b)
      | (.ok ids, b) => (.ok (id :: ids), b)

def link (b : Block) (op : OperationRef) (results operands : List Nat) : Block :=
  (b.mapValues results (Value.defineBy op)).mapValues operands (Value.useBy op)

def appendOperation (b : Block) (s : OperationState) (results operands : List Nat) : Nat × Block :=
  let op : OperationRef := ⟨b.operations.length, none⟩
  (op.position, { b.link op results operands with
    operations := b.operations ++ [⟨s.opcode, operands, results, s.attrs, op.name⟩] })

/-- Gives an operation up in front of a missing operand, with its results and the operands before. -/
def abandonOperation (b : Block) (results operands : List Nat) : Block :=
  { b.link ⟨b.operations.length, some b.abandoned⟩ results operands with abandoned := b.abandoned + 1 }

def createOperation (b : Block) (s : OperationState) (names : Option (List (Option Label))) :
    Except BlockFault Nat × Block :=
  let names := names.getD (s.resultTypes.map fun _ => none)
  if names.length != s.resultTypes.length then
    (.error (.resultNameCount s.opcode.display names.length s.resultTypes.length), b)
  else match b.addResults (s.resultTypes.zip names) with
    | (.error e, b) => (.error e, b)
    | (.ok results, b) =>
      let operands := (s.operands.takeWhile Option.isSome).filterMap id
      if operands.length = s.operands.length then
        let (op, b) := b.appendOperation s results operands
        (.ok op, b)
      else (.error .missingOperand, b.abandonOperation results operands)

/-- Takes inputs out of scope one by one, up to one that is in use or is not in scope any more. -/
def removeInputs (b : Block) : List Nat → Except BlockFault Unit × Block
  | [] => (.ok (), b)
  | id :: ids =>
    let name := b.nameOf id
    if ((b.value? id).map (·.uses.isEmpty)).getD true = false then (.error (.inUse name.display), b)
    else if (b.inScope? name).isNone then (.error (.unknownName name.display), b)
    else { b with scope := b.scope.filter fun e => !e.1.same name }.removeInputs ids

def discardInputs (b : Block) (start : Int) : Except BlockFault Unit × Block :=
  let kept := boundIn b.inputs.length start
  match b.removeInputs (b.inputs.drop kept) with
  | (.error e, b) => (.error e, b)
  | (.ok (), b) => (.ok (), { b with inputs := b.inputs.take kept })

def text (b : Block) : String := s!"Block({b.operations.length} ops, {b.scope.length} values)"

def operationText? (b : Block) (op : Operation) : Option String := do
  let operands ← op.operands.mapM fun id => (b.nameOf id).text?
  let results ← op.results.mapM fun id => (b.nameOf id).text?
  let opcode := op.opcode.display
  let given := ", ".intercalate operands
  let defined := ", ".intercalate results
  some s!"Operation({opcode}: {given} -> {defined})"

end Block

end GateAsm
