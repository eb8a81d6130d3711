import GateAsm.Operation.Printer
import GateAsm.Wire.Read

/-!
# Blocks as text

One line per operation. A result that was given no name is shown under a fresh one where the text needs
it: if its operation has a result that is named or used. All fresh names are free in the whole block.
-/

namespace GateAsm

namespace Block

def numberedName (n : Nat) : String := "%" ++ toString n

/-- The first number from `n` on whose name is not in scope; it is found among one more numbers than
there are names in scope. -/
def freeNumber (b : Block) : (tries : Nat) → (n : Nat) → Nat
  | 0, n => n
  | tries + 1, n => if (b.inScope? (numberedName n)).isNone then n else b.freeNumber tries (n + 1)

def isIdle (b : Block) (id : Nat) : Bool :=
  match b.value? id with
  | some v => v.isAnonymous && v.uses.isEmpty
  | none => true

def isAnonymous (b : Block) (id : Nat) : Bool := ((b.value? id).map Value.isAnonymous).getD true

def nameResults (b : Block) : List Nat → (n : Nat) → ShownNames × Nat
  | [], n => ([], n)
  | id :: ids, n =>
    if b.isAnonymous id then
      let n := b.freeNumber b.scope.length n
      let (names, next) := b.nameResults ids (n + 1)
      ((id, numberedName n) :: names, next)
    else b.nameResults ids n

def nameOperations (b : Block) : List Operation → (n : Nat) → ShownNames
  | [], _ => []
  | op :: ops, n =>
    if op.results.all b.isIdle then b.nameOperations ops n
    else
      let (names, next) := b.nameResults op.results n
      names ++ b.nameOperations ops next

def displayNames (b : Block) : ShownNames := b.nameOperations b.operations 0

def checkResultNames (b : Block) : Readback Unit :=
  if (b.operations.flatMap (·.results)).all fun id => (b.nameOf id).text?.isSome then .ok ()
  else .error (.mismatch .noComponent)

/-- An operation with the names of its results in front, unless one of them has no name to show. -/
def formatOperation (env : PrintEnv) (b : Block) (names : ShownNames) (op : Operation) : Readback String := do
  let body ← Printer.operation env b names op
  let bound ← Printer.texts (op.results.map (b.shownName names))
  if bound.isEmpty || bound.any (·.startsWith anonymousMark) then return body
  return ", ".intercalate bound ++ " = " ++ body

def formatWith (env : PrintEnv) (b : Block) (indent : Nat) : Readback String := do
  b.checkResultNames
  let lines ← b.operations.mapM (formatOperation env b b.displayNames)
  return "\n".intercalate (lines.map fun line => String.ofList (List.replicate indent ' ') ++ line)

end Block

namespace Registry

def nestedText (registry : Registry) : (depth : Nat) → Json → Readback String
  | 0, _ => .error (.mismatch .wrongKind)
  | depth + 1, j => match (Wire.readBlockValue j .default).1 with
    | .ok b => b.formatWith ⟨registry, nestedText registry depth⟩ 0
    | .error _ => .error (.mismatch .wrongKind)

def printEnv (registry : Registry) : PrintEnv := ⟨registry, fun j => registry.nestedText (j.depth + 1) j⟩

end Registry

namespace Block

def printOperation (b : Block) (registry : Registry) (names : ShownNames) (op : Operation) : Readback String :=
  Printer.operation registry.printEnv b names op

def format (b : Block) (registry : Registry) (indent : Nat) : Readback String :=
  b.formatWith registry.printEnv indent

def valueText (registry : Registry) (v : Value) : Readback String :=
  return "Value(" ++ v.name.display ++ ": " ++ (← registry.printEnv.shown v.type) ++ ")"

end Block

end GateAsm
