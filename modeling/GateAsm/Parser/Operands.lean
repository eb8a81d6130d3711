import GateAsm.Parser.Scope
import GateAsm.Parser.TypeExpr

/-!
# Operands of an instruction

The generic form of an instruction is

    mnemonic [(angle)] %a[accessor], %b, … [{tags}] [: types] [-> types]

Operands fill the slots of the kind in order. The references of an accessor stand right behind the main
operand of their slot; they are of type index and do not appear in the list of types.
-/

namespace GateAsm

inductive Angle
  | absent
  | literal (x : Double)
  | reference (r : Reference)

namespace Angle

def references : Angle → List Reference
  | reference r => [r]
  | _ => []

def tags : Angle → List (String × Attr)
  | literal x => [(angleTag, .float x)]
  | _ => []

end Angle

structure SlotOperand where
  slot : Slot
  main : Reference
  accessors : Accessors
  references : List Reference

namespace SlotOperand

def operands (o : SlotOperand) : List (Reference × Bool) :=
  (o.main, false) :: o.references.map (·, true)

def sizes (o : SlotOperand) : List Nat :=
  if o.slot.register then [1, o.references.length] else [1]

def tags (o : SlotOperand) : List (String × Attr) :=
  if o.slot.register then [(o.slot.accessorTag, .accessors o.accessors)] else []

end SlotOperand

def Slot.absentSizes (s : Slot) : List Nat := if s.register then [0, 0] else [0]

def Slot.absentTags (s : Slot) : List (String × Attr) :=
  if s.register then [(s.accessorTag, .accessors .empty)] else []

def segmentSizesAttr (sizes : List Nat) : Attr :=
  .array (NumArray.ofInts (.signed 4) (sizes.map Int.ofNat))

namespace Parser

def component : Parser (Component × Option Reference) := do
  match ← optionalOperand with
  | some r => return (.dynamic, some r)
  | none =>
    let t ← peek 0
    if t.kind != .int then fail (.noComponent t) t.location
    let n ← integerOf t
    if InInt64 n then
      let _ ← advance
      return (.constant n, none)
    else fail (.componentTooLarge n) t.location

def components : (room : Nat) → Parser (List (Component × Option Reference))
  | 0 => return []
  | room + 1 => do
    let c ← component
    if room = 0 then return [c]
    if (← optional .comma).isNone then return [c]
    let cs ← components room
    return c :: cs

def accessorList : Parser (Accessors × List Reference) := do
  if (← optional .openBracket).isNone then return (.empty, [])
  if (← optional .closeBracket).isSome then return (.empty, [])
  let cs ← components Accessors.maxSize
  let _ ← expect .closeBracket
  return ((Accessors.ofComponents? (cs.map (·.1))).getD .empty, cs.filterMap (·.2))

def missingAngle (env : ParserEnv) (kind : Kind) : Parser Angle := do
  let l ← location
  if env.allowMissingAngle then
    warn s!"'{kind.name}' has no rotation angle" l
    record (.acceptedWithoutAngle kind.name)
    return .absent
  else fail (.noAngle kind.name) l

def angleInside (env : ParserEnv) (kind : Kind) : Parser Angle := do
  match ← optionalFloat with
  | some x => return .literal x
  | none => match ← optionalOperand with
    | some r => return .reference r
    | none => missingAngle env kind

def angle (env : ParserEnv) (kind : Kind) : Parser Angle := do
  if (← optional .openParen).isNone then return .absent
  let found ← angleInside env kind
  let _ ← expect .closeParen
  return found

def slotAccessor (slot : Slot) : Parser (Accessors × List Reference) :=
  if slot.register then accessorList else return (.empty, [])

def slotOperands (kind : Kind) : List Slot → Reference → Parser (List SlotOperand)
  | [], r => fail (.tooManyOperands kind.name kind.operandSlots.length) r.location
  | slot :: slots, r => do
    let (accessors, references) ← slotAccessor slot
    let here : SlotOperand := ⟨slot, r, accessors, references⟩
    if (← optional .comma).isNone then return [here]
    let next ← operand
    let others ← slotOperands kind slots next
    return here :: others

/-- The type of each physical operand: index where it is fixed, else the next type of the list. -/
def operandTypes (pinned : List Bool) (indexTy : Ty) (types : List Ty) : List Ty :=
  match pinned, types with
  | [], _ => []
  | true :: pinned, types => indexTy :: operandTypes pinned indexTy types
  | false :: pinned, t :: types => t :: operandTypes pinned indexTy types
  | false :: _, [] => []

def structuralAttrs (kind : Kind) (a : Angle) (given : List SlotOperand) : List (String × Attr) :=
  let absent := kind.operandSlots.drop given.length
  let angleSizes := if kind.rotation then [a.references.length] else []
  let sizes := angleSizes ++ (given.flatMap SlotOperand.sizes ++ absent.flatMap Slot.absentSizes)
  let tags := a.tags ++ (given.flatMap SlotOperand.tags ++ absent.flatMap Slot.absentTags)
    ++ [(segmentSizesTag, segmentSizesAttr sizes)]
  tags.foldl (fun tags (k, v) => Attr.put k v tags) []

def optionalAngle (env : ParserEnv) (kind : Kind) : Parser Angle :=
  if kind.rotation then angle env kind else return .absent

def operandList (kind : Kind) : Parser (List SlotOperand) := do
  match ← optionalOperand with
  | some r => slotOperands kind kind.operandSlots r
  | none => return []

def physicalOperands (a : Angle) (given : List SlotOperand) : List (Reference × Bool) :=
  a.references.map (·, false) ++ given.flatMap SlotOperand.operands

def countedTypes (registry : Registry) (expected : Nat) : Parser (List Ty) := do
  let l ← location
  let types ← colonTypes registry
  require (types.length = expected) (.typeCount expected types.length) l
  return types

/-- The tags and the types behind operands, and the values that the operands are; the flag of an operand
tells whether its type is fixed to be index. -/
def boundOperands (env : ParserEnv) (kind : Kind) (operands : List (Reference × Bool)) : Parser (List Nat) := do
  optionalTags kind.structuralTags
  let types ← countedTypes env.registry (operands.filter (!·.2)).length
  let indexTy ← intern .index
  bindAll env.registry (operands.map (·.1)) (operandTypes (operands.map (·.2)) indexTy types)

def operandGroup (env : ParserEnv) (kind : Kind) : Parser OperationState := do
  let found ← optionalAngle env kind
  let start ← location
  let given ← operandList kind
  require (kind.leastOperands ≤ given.length) (.tooFewOperands kind.name kind.leastOperands given.length) start
  modify fun s => { s with tags := structuralAttrs kind found given }
  let values ← boundOperands env kind (physicalOperands found given)
  let results ← arrowTypes env.registry
  return ⟨kind.name, values.map some, (← get).tags, results.map .type⟩

end Parser

end GateAsm
