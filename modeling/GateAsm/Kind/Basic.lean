import GateAsm.Attr.Construct

/-!
# Instruction kinds

A kind gives an instruction its mnemonic and its operand slots; the same description drives reading,
printing, building and checking. Physical operands fall into segments: one for the main operand of each
slot and, behind it, one for the references of the accessor if the slot takes a register. A kind of call
form has no slots and two segments, the arguments and all their references.
-/

namespace GateAsm

-- A sum starts from the literal zero.
attribute [local instance(high)] Zero.ofOfNat0

def segmentSizesTag : String := "operand_segment_sizes"

/-- A segment has fewer operands than this: its size has thirty-two bits, one of them for a sign. -/
def segmentLimit : Nat := 2 ^ 31

def angleTag : String := "phi"

def calleeTag : String := "callee"

/-- The tag that holds the number written behind the callee of a call. -/
def countTag : String := "n"

def callAccessorsTag : String := "accessors"

structure Slot where
  name : String
  register : Bool
  /-- The operand may be left out, with all behind it. -/
  optional : Bool
  deriving DecidableEq, Repr

def Slot.accessorTag (s : Slot) : String := s.name ++ "_accessors"

structure Kind where
  name : String
  slots : List Slot
  /-- The first slot is a rotation angle, written behind the mnemonic. -/
  rotation : Bool
  callForm : Bool
  summary : String
  deriving DecidableEq, Repr

inductive KindFault
  | noMnemonic
  | callFormSlots (kind : String)
  | duplicateSlots (kind : String)
  | noAngleSlot (kind : String)
  | requiredAfterOptional (kind slot : String)
  deriving DecidableEq, Repr

def KindFault.message : KindFault → String
  | noMnemonic => "instruction kind needs a mnemonic"
  | callFormSlots kind => s!"{kind}: call-form instructions take no slots"
  | duplicateSlots kind => s!"{kind}: duplicate slot names"
  | noAngleSlot kind => s!"{kind}: rotation kinds need a plain angle slot first"
  | requiredAfterOptional kind slot => s!"{kind}: required slot '{slot}' follows an optional one"

namespace Kind

def operandSlots (k : Kind) : List Slot := if k.rotation then k.slots.drop 1 else k.slots

def misplacedSlot? (slots : List Slot) : Option Slot :=
  (slots.dropWhile (!·.optional)).find? (!·.optional)

def fault? (k : Kind) : Option KindFault :=
  if k.name = "" then some .noMnemonic
  else if k.callForm && (!k.slots.isEmpty || k.rotation) then some (.callFormSlots k.name)
  else if !decide (k.slots.map (·.name)).Nodup then some (.duplicateSlots k.name)
  else if k.rotation && (k.slots.head?.map (·.register)).getD true then some (.noAngleSlot k.name)
  else (misplacedSlot? k.operandSlots).map fun s => .requiredAfterOptional k.name s.name

def Valid (k : Kind) : Prop := k.fault? = none

instance (k : Kind) : Decidable k.Valid := by unfold Valid; infer_instance

def make (k : Kind) : Except KindFault Kind :=
  match k.fault? with
  | some f => .error f
  | none => .ok k

/-! ## Layout -/

def slotSegments (s : Slot) : Nat := if s.register then 2 else 1

def segmentCount (k : Kind) : Nat :=
  if k.callForm then 2 else (k.slots.map slotSegments).sum

def segmentIndex (k : Kind) (slot : Nat) : Nat := ((k.slots.take slot).map slotSegments).sum

def accessorTags (k : Kind) : List String := (k.slots.filter (·.register)).map Slot.accessorTag

def structuralTags (k : Kind) : List String :=
  if k.callForm then [calleeTag, countTag, callAccessorsTag, segmentSizesTag]
  else segmentSizesTag :: k.accessorTags ++ (if k.rotation then [angleTag] else [])

def leastOperands (k : Kind) : Nat := (k.operandSlots.filter (!·.optional)).length

def mostOperands? (k : Kind) : Option Nat :=
  if k.callForm then none
  else some ((k.slots.map fun s => if s.register then 1 + Accessors.maxSize else 1).sum)

def slotText (s : Slot) : String :=
  s.name ++ (if s.register then "*" else "") ++ (if s.optional then "?" else "")

def describe (k : Kind) : String :=
  if k.callForm then "@callee(N, args...)"
  else
    let parts := k.slots.map slotText
    ", ".intercalate (match k.rotation, parts with
      | true, angle :: rest => s!"({angle})" :: rest
      | _, parts => parts)

end Kind

end GateAsm
