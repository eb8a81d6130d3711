import GateAsm.Block.Window
import GateAsm.Operation.Fault

/-!
# Operands by slot

Regrouping the physical operands of an operation by the segment sizes that it states: each slot, or each
argument of a call, with its main operand, its references and what its accessor tag holds.
-/

namespace GateAsm

structure SlotOperands where
  name : String
  main : Option Nat
  references : List Nat
  accessors : Attr
  deriving Repr

namespace Kind

def firstSize (sizes : List Int) : Readback Int :=
  match sizes with
  | [] => .error (.mismatch .outOfRange)
  | n :: _ => .ok n

def slotGroups (op : Operation) : List Slot → (sizes : List Int) → (pos : Int) → Readback (List SlotOperands)
  | [], _, _ => .ok []
  | s :: ss, sizes, pos => do
    let size ← firstSize sizes
    let main ← if size = 0 then pure none
      else match itemAt? op.operands pos with
        | some id => pure (some id)
        | none => throw (.mismatch .outOfRange)
    let pos := pos + size
    if s.register then
      let count ← firstSize (sizes.drop 1)
      let here : SlotOperands :=
        ⟨s.name, main, window op.operands pos (pos + count), (op.tag? s.accessorTag).getD (.accessors .empty)⟩
      return here :: (← slotGroups op ss (sizes.drop 2) (pos + count))
    else
      return ⟨s.name, main, [], .accessors .empty⟩ :: (← slotGroups op ss (sizes.drop 1) pos)

def argumentGroups (op : Operation) (arrays : Attr) : (i : Nat) → List Nat → (pos : Int) →
    Readback (List SlotOperands)
  | _, [], _ => .ok []
  | i, arg :: args, pos => do
    let array ← if i < (← Readback.ofAttr arrays.length) then Readback.ofAttr (arrays.item i)
      else pure (.accessors .empty)
    let count ← Readback.ofAttr array.dynamicCount
    let here : SlotOperands := ⟨s!"arg{i}", some arg, window op.operands pos (pos + count), array⟩
    return here :: (← argumentGroups op arrays (i + 1) args (pos + count))

def slotOperands (k : Kind) (op : Operation) : Readback (List SlotOperands) := do
  let sizes ← op.segmentSizes
  if k.callForm then
    let argCount ← firstSize sizes
    let arrays := (op.tag? callAccessorsTag).getD (.tuple [])
    argumentGroups op arrays 0 (window op.operands 0 argCount) argCount
  else slotGroups op k.slots sizes 0

end Kind

def Registry.kindOf (registry : Registry) (op : Operation) : Readback Kind :=
  (registry.find op.opcode).bind fun
    | some k => .ok k
    | none => .error (.record (.unknownKind op.mnemonic))

end GateAsm
