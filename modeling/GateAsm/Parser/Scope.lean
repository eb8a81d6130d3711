import GateAsm.Block.Printer
import GateAsm.Parser.Literal

/-!
# Binding names

A name that is in scope stands for its value and has to be used at that value's type. Any other name
becomes an input of the block.
-/

namespace GateAsm.Parser

/-- Changes the block, whether the change succeeds or not. -/
def changeBlock {α : Type} (f : Block → Except BlockFault α × Block) : Parser α := do
  let s ← get
  let (answer, block) := f s.block
  set { s with block := block }
  match answer with
  | .ok a => return a
  | .error e => throw (.block e)

def orUnchanged {α : Type} (f : Block → Except BlockFault (α × Block)) (b : Block) : Except BlockFault α × Block :=
  match f b with
  | .ok (a, b) => (.ok a, b)
  | .error e => (.error e, b)

def orStop {α : Type} (x : Readback α) : Parser α :=
  match x with
  | .ok a => return a
  | .error e => throw (.type e)

def bind (registry : Registry) (r : Reference) (t : Ty) : Parser Nat := do
  let b := (← get).block
  match b.lookup r.name with
  | none => changeBlock (orUnchanged fun b => b.addInput (some (.text r.name)) (.type t))
  | some id =>
    if ← orStop (Readback.ofAttr ((b.typeOf id).isType t)) then return id
    else
      let given ← orStop (registry.printEnv.shown (.type t))
      let prior ← orStop (registry.printEnv.shown (b.typeOf id))
      fail (.typeConflict r.name given prior) r.location

def bindAll (registry : Registry) : List Reference → List Ty → Parser (List Nat)
  | [], [] => return []
  | r :: rs, t :: ts => do
    let id ← bind registry r t
    let ids ← bindAll registry rs ts
    return id :: ids
  | _, _ => throw .lengthMismatch

end GateAsm.Parser
