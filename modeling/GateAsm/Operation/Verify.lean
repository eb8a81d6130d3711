import GateAsm.Operation.Slots

/-!
# Legal operations

`Kind.verify` checks that the record of an operation is one of its kind: the segment sizes add up, each
accessor has the references that it consumes, all of type index, and only a tail of optional slots is
absent. The first broken rule is the verdict.
-/

namespace GateAsm.Kind

-- A sum starts from the literal zero.
attribute [local instance(high)] Zero.ofOfNat0

def broken {α : Type} (op : Operation) (r : VerifyRule) : Readback α :=
  .error (if r.isShowable then .record (.rule op.mnemonic r) else .mismatch .badValue)

def checkIndexTypes (b : Block) (op : Operation) : List Nat → Readback Unit
  | [] => .ok ()
  | id :: ids =>
    if (b.typeOf id).isIndex then checkIndexTypes b op ids else broken op (.notIndex (b.nameOf id).display)

def checkReferences (b : Block) (op : Operation) (references : List Nat) (accessors : Option Attr)
    (what : String) : Readback Unit :=
  match accessors with
  | some (.accessors a) =>
    if a.dynamicCount != references.length then broken op (.dynamicCount what a.dynamicCount references.length)
    else checkIndexTypes b op references
  | _ => broken op (.notAccessors what)

/-- The accessors of the arguments of a call: a tuple that holds nothing else. -/
def argumentAccessors? (a : Option Attr) : Option (List Accessors) :=
  match a with
  | some (.tuple items) => items.mapM fun
    | .accessors a => some a
    | _ => none
  | _ => none

def checkArguments (b : Block) (op : Operation) : List SlotOperands → Readback Unit
  | [] => .ok ()
  | g :: gs => do
    checkReferences b op g.references (some g.accessors) ("accessor of " ++ g.name)
    checkArguments b op gs

def verifyCall (k : Kind) (b : Block) (op : Operation) (sizes : List Int) : Readback Unit := do
  match argumentAccessors? (op.tag? callAccessorsTag) with
  | none => broken op .argumentAccessors
  | some arrays =>
    if (arrays.length : Int) != sizes.headD 0 then broken op .argumentAccessors
    match op.tag? calleeTag with
    | some (.symbol _) => pure ()
    | _ => broken op .calleeNotSymbol
    if op.results.length != 1 then broken op .notOneResult
    if ((arrays.map Accessors.dynamicCount).sum : Int) != (sizes.drop 1).headD 0 then broken op .callReferences
    checkArguments b op (← k.slotOperands op)

def checkSlots (b : Block) (op : Operation) : (absent : Bool) → List (Slot × SlotOperands) →
    (sizes : List Int) → Readback Unit
  | _, [], _ => .ok ()
  | absent, (s, g) :: rest, sizes => do
    let size := sizes.headD 0
    if 1 < size then broken op (.mainCount s.name size)
    if g.main.isNone && !s.optional then broken op (.missingOperand s.name)
    if g.main.isSome && absent then broken op (.followsAbsent s.name)
    if s.register then
      if g.main.isNone && !g.references.isEmpty then broken op (.referencesOfAbsent s.name)
      checkReferences b op g.references (op.tag? s.accessorTag) s.accessorTag
    checkSlots b op (absent || g.main.isNone) rest (sizes.drop (slotSegments s))

def verifyGeneric (k : Kind) (b : Block) (op : Operation) (sizes : List Int) : Readback Unit := do
  if k.rotation && (op.tag? angleTag).isSome && sizes.headD 0 != 0 then broken op .angleTwice
  let groups ← k.slotOperands op
  match k.rotation, k.slots.zip groups with
  | true, (s, _) :: rest =>
    if 1 < sizes.headD 0 then broken op (.mainCount s.name (sizes.headD 0))
    checkSlots b op false rest (sizes.drop 1)
  | _, pairs => checkSlots b op false pairs sizes

def verify (k : Kind) (b : Block) (op : Operation) : Readback Unit := do
  if !op.opcode.same k.name then broken op (.otherKind k.name)
  let sizes ← op.segmentSizes
  if sizes.length != k.segmentCount then broken op (.segmentCount sizes.length k.segmentCount)
  if sizes.any (· < 0) then broken op .negativeSize
  if sizes.sum != op.operands.length then broken op (.sizeSum sizes.sum op.operands.length)
  if k.callForm then k.verifyCall b op sizes else k.verifyGeneric b op sizes

end GateAsm.Kind
