import GateAsm.Attr.Shown
import GateAsm.Block.Window
import GateAsm.Operation.Fault

/-!
# Operations as text

The text of an operation in its kind's form, the reverse of reading it. Values are shown by their own
names or by names given for the purpose. Structural tags are not written out, since operands and
accessors show what they hold.
-/

namespace GateAsm

abbrev ShownNames := List (Nat × String)

/-- What the text of an operation depends on besides its block: the instruction kinds, and the text of a
block that stands inside a tag. -/
structure PrintEnv where
  registry : Registry
  nested : Json → Readback String

def PrintEnv.shown (env : PrintEnv) : Attr → Readback String
  | .block j => env.nested j
  | a => Readback.ofAttr a.shown

namespace Block

def shownName (b : Block) (names : ShownNames) (id : Nat) : Label :=
  ((names.find? (·.1 = id)).map fun n => Label.text n.2).getD (b.nameOf id)

def typesOf (b : Block) (ids : List Nat) : List Attr := ids.map b.typeOf

end Block

namespace Printer

def texts (labels : List Label) : Readback (List String) :=
  match labels.mapM Label.text? with
  | some ts => .ok ts
  | none => .error (.mismatch .wrongKind)

def nameList (labels : List Label) : Readback String := return ", ".intercalate (← texts labels)

def typeList (env : PrintEnv) (types : List Attr) : Readback String :=
  return ", ".intercalate (← types.mapM env.shown)

def arrowTypes (env : PrintEnv) (types : List Attr) : Readback String :=
  if types.isEmpty then .ok "" else (typeList env types).map (" -> " ++ ·)

def colonTypes (env : PrintEnv) (types : List Attr) : Readback String :=
  if types.isEmpty then .ok "" else (typeList env types).map (" : " ++ ·)

def tagTexts : List (String × Attr) → Except LiteralFault (List String)
  | [] => .ok []
  | (k, v) :: tags => do
    let t ← v.literal
    let ts ← tagTexts tags
    return s!"{k} = {t}" :: ts

def tags (attrs : List (String × Attr)) (elided : List String) : Except LiteralFault String := do
  let shown := attrs.filter fun t => !elided.contains t.1
  if shown.isEmpty then return ""
  return " \x7b" ++ ", ".intercalate (← tagTexts shown) ++ "\x7d"

/-- The components of an accessor, each dynamic one taking the next operand, and the operands left. -/
def componentTexts (shown : Nat → Label) : List Attr → List Nat → Readback (List Label × List Nat)
  | [], operands => .ok ([], operands)
  | .dynamic :: cs, operands => match operands with
    | [] => .error (.record .tooFewReferences)
    | id :: operands => do
      let (ts, left) ← componentTexts shown cs operands
      return (shown id :: ts, left)
  | .constant n :: cs, operands => do
    let (ts, left) ← componentTexts shown cs operands
    return (.text (toString n) :: ts, left)
  | _ :: _, _ => .error (.mismatch .noComponent)

def accessors (shown : Nat → Label) (a : Attr) (operands : List Nat) : Readback (String × List Nat) := do
  if ← Readback.ofAttr a.truthy then
    let (ts, left) ← componentTexts shown (← Readback.ofAttr a.items) operands
    return ("[" ++ (← nameList ts) ++ "]", left)
  else return ("", operands)

/-- The operands of slots: their text, each operand behind `mark` and all but the first behind a comma,
and the main operands in order. -/
def slots (shown : Nat → Label) (op : Operation) :
    List Slot → (sizes : List Int) → (operands : List Nat) → (mark : String) → Readback (String × List Nat)
  | [], _, _, _ => .ok ("", [])
  | s :: ss, sizes, operands, mark =>
    let later := sizes.drop (Kind.slotSegments s)
    if sizes.headD 0 = 0 then slots shown op ss later operands mark
    else match operands with
      | [] => .error (.mismatch .exhausted)
      | main :: operands => do
        let (accessor, operands) ←
          if s.register then accessors shown ((op.tag? s.accessorTag).getD (.accessors .empty)) operands
          else pure ("", operands)
        let (text, mains) ← slots shown op ss later operands ", "
        return (mark ++ (shown main).display ++ accessor ++ text, main :: mains)

def angle (shown : Nat → Label) (op : Operation) (size : Int) : Readback (String × List Nat × List Nat) :=
  match op.tag? angleTag with
  | some a => do
    let x ← Readback.ofAttr a.toFloat
    let t ← Readback.ofLiteral (Attr.floatLiteral x)
    return (s!"({t})", [], op.operands)
  | none =>
    if size = 0 then .ok ("", [], op.operands)
    else match op.operands with
      | [] => .error (.mismatch .exhausted)
      | id :: operands => .ok ("(" ++ (shown id).display ++ ")", [id], operands)

/-- A text in which the names of operands stand, all of which have to be texts themselves. -/
def withNames (labels : List Label) (text : String) : Readback String := do
  let _ ← texts labels
  return text

def generic (env : PrintEnv) (b : Block) (names : ShownNames) (kind : Kind) (op : Operation) :
    Readback String := do
  let sizes ← op.segmentSizes
  if sizes.length != kind.segmentCount then
    throw (.record (.segmentCount op.mnemonic sizes.length kind.segmentCount))
  let shown := b.shownName names
  let (angleText, angleMain, operands) ←
    if kind.rotation then angle shown op (sizes.headD 0) else pure ("", [], op.operands)
  let sizes := if kind.rotation then sizes.drop 1 else sizes
  let (text, mains) ← slots shown op kind.operandSlots sizes operands " "
  let mains := angleMain ++ mains
  let tagText ← Readback.ofLiteral (tags op.attrs kind.structuralTags)
  let operandTypes ← colonTypes env (b.typesOf mains)
  let resultTypes ← arrowTypes env (b.typesOf op.results)
  withNames (mains.map shown) (kind.name ++ angleText ++ text ++ tagText ++ operandTypes ++ resultTypes)

def arguments (shown : Nat → Label) (arrays : Attr) : (i : Nat) → List Nat → (references : List Nat) →
    Readback String
  | _, [], _ => .ok ""
  | i, arg :: args, references => do
    let (accessor, references) ←
      if i < (← Readback.ofAttr arrays.length) then
        accessors shown (← Readback.ofAttr (arrays.item i)) references
      else pure ("", references)
    return ", " ++ (shown arg).display ++ accessor ++ (← arguments shown arrays (i + 1) args references)

def requiredTag (op : Operation) (key : String) : Readback Attr :=
  match op.tag? key with
  | some a => .ok a
  | none => .error (.mismatch (.missing key))

def call (env : PrintEnv) (b : Block) (names : ShownNames) (kind : Kind) (op : Operation) :
    Readback String := do
  let sizes ← op.segmentSizes
  if sizes.length != 2 then throw (.record (.segmentCount op.mnemonic sizes.length 2))
  match op.results with
  | [result] =>
    let argCount := sizes.headD 0
    let args := window op.operands 0 argCount
    let references := window op.operands argCount op.operands.length
    let shown := b.shownName names
    let callee ← env.shown (← requiredTag op calleeTag)
    let count ← env.shown (.int (← Readback.ofAttr (← requiredTag op countTag).toInt))
    let arrays := (op.tag? callAccessorsTag).getD (.tuple [])
    let argText ← arguments shown arrays 0 args references
    let tagText ← Readback.ofLiteral (tags op.attrs kind.structuralTags)
    let argTypes ← colonTypes env (b.typesOf args)
    let resultType ← env.shown (b.typeOf result)
    withNames (args.map shown)
      (s!"{kind.name} {callee}({count}" ++ argText ++ ")" ++ tagText ++ argTypes ++ " -> " ++ resultType)
  | _ => throw (.record (.resultCount op.mnemonic))

def operation (env : PrintEnv) (b : Block) (names : ShownNames) (op : Operation) : Readback String := do
  match ← env.registry.find op.opcode with
  | none => throw (.unprintable op.mnemonic)
  | some kind => if kind.callForm then call env b names kind op else generic env b names kind op

end Printer

end GateAsm
