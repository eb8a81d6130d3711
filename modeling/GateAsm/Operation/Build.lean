import GateAsm.Attr.Shown
import GateAsm.Block.Basic
import GateAsm.Kind.Basic

/-!
# Building instructions

`Kind.build` and `Kind.buildCall` append an instruction that is given by its operands and not by text.
The same segments and tags come out as from text; what the form of the kind cannot express is refused.
-/

namespace GateAsm

/-- What a caller hands in where a value of the block may stand as well as a plain value. -/
inductive Supplied
  | value (id : Nat)
  | attr (a : Attr)

inductive BuildFault
  | needsCall (kind : String)
  | needsOperands (kind : String)
  | unknownSlots (kind : String) (names : List String)
  | reservedTags (kind : String) (names : List String)
  | nonFiniteAngle (kind shown : String)
  | noAngle (kind : String)
  | tooManyOperands (kind : String) (most got : Nat)
  | missingOperand (kind slot : String)
  | accessorOfAbsent (kind slot : String)
  | followsAbsent (kind slot : String)
  | accessorLists (kind : String) (lists arguments : Nat)
  | referenceType (kind reference type : String)
  | badComponent (kind shown : String)
  | accessor (f : AccessorFault)
  deriving DecidableEq, Repr

def BuildFault.message : BuildFault → String
  | needsCall kind => s!"{kind}: use build_call()"
  | needsOperands kind => s!"{kind}: use build()"
  | unknownSlots kind names => s!"{kind}: no register-eligible slot named {Text.quotedList names}"
  | reservedTags kind names => s!"{kind}: attributes {Text.quotedList names} are reserved"
  | nonFiniteAngle kind shown => s!"{kind}: rotation angle must be finite, got {shown}"
  | noAngle kind => s!"{kind} takes no rotation angle"
  | tooManyOperands kind most got => s!"{kind}: expected at most {most} operands, got {got}"
  | missingOperand kind slot => s!"{kind}: missing operand for slot '{slot}'"
  | accessorOfAbsent kind slot => s!"{kind}: accessor given for absent slot '{slot}'"
  | followsAbsent kind slot => s!"{kind}: slot '{slot}' follows an absent slot"
  | accessorLists kind lists arguments => s!"{kind}: {lists} accessor lists for {arguments} arguments"
  | referenceType kind reference type =>
    s!"{kind}: accessor reference {reference} must be of type index, got {type}"
  | badComponent kind shown => s!"{kind}: accessor components must be ints or index values, got {shown}"
  | accessor f => f.message

inductive BuildError
  | fault (f : BuildFault)
  | mismatch (m : Mismatch)
  | block (f : BlockFault)
  deriving Repr

structure BuildRequest where
  /-- One entry for each slot behind the angle, `none` for an absent one; the tail may be left out. -/
  operands : List (Option Nat)
  accessors : List (String × List Supplied)
  angle : Supplied
  attrs : List (String × Attr)
  resultTypes : List Attr
  resultNames : Option (List (Option Label))

structure CallRequest where
  callee : Label
  count : Attr
  arguments : List (Option Nat)
  /-- One list of components for each argument; `none` for no accessor at all. -/
  accessors : Option (List (List Supplied))
  attrs : List (String × Attr)
  resultType : Attr
  resultName : Option Label

namespace Kind

def refuse {α : Type} (f : BuildFault) : Except BuildError α := .error (.fault f)

/-- Refuses a value or its type, which the message shows. -/
def refuseShowing {α : Type} (a : Attr) (f : BuildFault) : Except BuildError α :=
  match a.unshown? with
  | some m => .error (.mismatch m)
  | none => refuse f

theorem refuseShowing_ne {α : Type} {a : Attr} {f : BuildFault} {x : α} : refuseShowing a f ≠ .ok x := by
  unfold refuseShowing
  split <;> nofun

def suppliedComponent (kind : String) (b : Block) : Supplied → Except BuildError (Component × Option Nat)
  | .value id =>
    if (b.typeOf id).isIndex then .ok (.dynamic, some id)
    else refuseShowing (b.typeOf id) (.referenceType kind (b.nameOf id).display (b.typeOf id).display)
  | .attr (.constant n) => .ok (.constant n, none)
  | .attr (.int n) => match Component.ofInt n with
    | .ok c => .ok (c, none)
    | .error f => refuseShowing (.int n) (.accessor f)
  | .attr a => refuseShowing a (.badComponent kind a.inspect)

def suppliedAccessor (kind : String) (b : Block) (items : List Supplied) :
    Except BuildError (Accessors × List Nat) := do
  let cs ← items.mapM (suppliedComponent kind b)
  match Accessors.ofComponents (cs.map (·.1)) with
  | .ok a => return (a, cs.filterMap (·.2))
  | .error f => refuse (.accessor f)

def checkTags (k : Kind) (attrs : List (String × Attr)) : Except BuildError Unit :=
  let reserved := (attrs.map (·.1)).filter k.structuralTags.contains
  if reserved.isEmpty then .ok ()
  else refuse (.reservedTags k.name (reserved.mergeSort fun a b => !decide (b < a)))

def suppliedAngle (k : Kind) (angle : Supplied) : Except BuildError (List (String × Attr) × List Nat) :=
  match k.rotation, angle with
  | _, .attr .none => .ok ([], [])
  | false, _ => refuse (.noAngle k.name)
  | true, .value id => .ok ([], [id])
  | true, .attr a => match a.toReal with
    | .error m => .error (.mismatch m)
    | .ok x => if x.isFinite then .ok ([(angleTag, .float x)], []) else refuse (.nonFiniteAngle k.name a.display)

structure SlotParts where
  tags : List (String × Attr)
  operands : List Nat
  sizes : List Nat

def accessorsFor (accessors : List (String × List Supplied)) (s : Slot) : Option (List Supplied) :=
  (accessors.find? (·.1 = s.name)).map (·.2)

/-- The main operand of a slot, if it is present; `absent` tells that a slot before it is not. -/
def mainOperand (kind : String) (accessors : List (String × List Supplied)) (s : Slot) (absent : Bool)
    (given : Option Nat) : Except BuildError (List Nat) :=
  match given with
  | none =>
    if !s.optional then refuse (.missingOperand kind s.name)
    else if (accessorsFor accessors s).isSome then refuse (.accessorOfAbsent kind s.name)
    else .ok []
  | some id => if absent then refuse (.followsAbsent kind s.name) else .ok [id]

def slotParts (kind : String) (b : Block) (accessors : List (String × List Supplied)) :
    List Slot → List (Option Nat) → (absent : Bool) → Except BuildError SlotParts
  | [], _, _ => .ok ⟨[], [], []⟩
  | s :: ss, operands, absent => do
    let given := operands.head?.join
    let main ← mainOperand kind accessors s absent given
    let absent := absent || given.isNone
    if s.register then
      let (a, references) ← suppliedAccessor kind b ((accessorsFor accessors s).getD [])
      let rest ← slotParts kind b accessors ss (operands.drop 1) absent
      return ⟨(s.accessorTag, .accessors a) :: rest.tags, main ++ references ++ rest.operands,
        main.length :: references.length :: rest.sizes⟩
    else
      let rest ← slotParts kind b accessors ss (operands.drop 1) absent
      return ⟨rest.tags, main ++ rest.operands, main.length :: rest.sizes⟩

def sizesAttr (sizes : List Nat) : Attr := .array (NumArray.ofInts (.signed 4) (sizes.map Int.ofNat))

def addTags (attrs new : List (String × Attr)) : List (String × Attr) :=
  new.foldl (fun tags (k, v) => Attr.put k v tags) attrs

def buildState (k : Kind) (b : Block) (r : BuildRequest) : Except BuildError OperationState := do
  if k.callForm then refuse (.needsCall k.name)
  let registers := (k.slots.filter (·.register)).map (·.name)
  let unknown := (r.accessors.map (·.1)).filter (!registers.contains ·)
  if !unknown.isEmpty then refuse (.unknownSlots k.name (unknown.mergeSort fun a b => !decide (b < a)))
  k.checkTags r.attrs
  let (angleTags, angleOperands) ← k.suppliedAngle r.angle
  let slots := k.operandSlots
  if slots.length < r.operands.length then
    refuse (.tooManyOperands k.name slots.length r.operands.length)
  let parts ← slotParts k.name b r.accessors slots r.operands false
  let sizes := (if k.rotation then [angleOperands.length] else []) ++ parts.sizes
  return ⟨.text k.name, (angleOperands ++ parts.operands).map some,
    addTags r.attrs (angleTags ++ parts.tags ++ [(segmentSizesTag, sizesAttr sizes)]), r.resultTypes⟩

def callState (k : Kind) (b : Block) (r : CallRequest) : Except BuildError OperationState := do
  if !k.callForm then refuse (.needsOperands k.name)
  let lists := r.accessors.getD (r.arguments.map fun _ => [])
  if lists.length != r.arguments.length then
    refuse (.accessorLists k.name lists.length r.arguments.length)
  let parts ← lists.mapM (suppliedAccessor k.name b)
  k.checkTags r.attrs
  let count ← r.count.toInt.mapError BuildError.mismatch
  let references := parts.flatMap (·.2)
  if !([r.arguments.length, references.length].all (· < segmentLimit)) then throw (.mismatch .overflow)
  return ⟨.text k.name, r.arguments ++ references.map some,
    addTags r.attrs
      [(calleeTag, .symbol r.callee), (countTag, .int count),
       (callAccessorsTag, .tuple (parts.map fun p => .accessors p.1)),
       (segmentSizesTag, sizesAttr [r.arguments.length, references.length])],
    [r.resultType]⟩

def append (b : Block) (state : Except BuildError OperationState) (names : Option (List (Option Label))) :
    Except BuildError Nat × Block :=
  match state with
  | .error e => (.error e, b)
  | .ok s => match b.createOperation s names with
    | (.error f, b) => (.error (.block f), b)
    | (.ok op, b) => (.ok op, b)

def build (k : Kind) (b : Block) (r : BuildRequest) : Except BuildError Nat × Block :=
  append b (k.buildState b r) r.resultNames

def buildCall (k : Kind) (b : Block) (r : CallRequest) : Except BuildError Nat × Block :=
  append b (k.callState b r) (r.resultName.map fun name => [some name])

end Kind

end GateAsm
