import GateAsm.Attr.Coercion
import GateAsm.Attr.Printer
import GateAsm.Block.Basic
import GateAsm.Kind.Registry

/-!
# Reading an operation back

An operation is a record: operands, results and tags. Reading it back into slots, text or a verdict can
fail in three ways: the record breaks a rule of its kind, a tag has no literal, or a tag has a value of
the wrong shape.
-/

namespace GateAsm

inductive VerifyRule
  | otherKind (kind : String)
  | segmentCount (got expected : Nat)
  | negativeSize
  | sizeSum (sum : Int) (operands : Nat)
  | notAccessors (what : String)
  | dynamicCount (what : String) (dynamic references : Nat)
  | notIndex (reference : String)
  | argumentAccessors
  | calleeNotSymbol
  | notOneResult
  | callReferences
  | angleTwice
  | mainCount (slot : String) (count : Int)
  | missingOperand (slot : String)
  | followsAbsent (slot : String)
  | referencesOfAbsent (slot : String)
  deriving DecidableEq, Repr

def VerifyRule.message : VerifyRule → String
  | otherKind kind => s!"verified against kind '{kind}'"
  | segmentCount got expected => s!"{got} operand segments, expected {expected}"
  | negativeSize => "negative operand segment size"
  | sizeSum sum operands => s!"operand segment sizes sum to {sum} but there are {operands} operands"
  | notAccessors what => s!"{what} is not an accessor array"
  | dynamicCount what dynamic references =>
    s!"{what} has {dynamic} dynamic components but {references} reference operands"
  | notIndex reference => s!"accessor reference {reference} is not of type index"
  | argumentAccessors => "needs one accessor array per argument"
  | calleeNotSymbol => "callee is not a symbol reference"
  | notOneResult => "must have exactly one result"
  | callReferences => "accessor references do not match the accessor segment"
  | angleTwice => "rotation angle given both as literal and as value"
  | mainCount slot count => s!"slot '{slot}' has {count} main operands"
  | missingOperand slot => s!"missing operand for slot '{slot}'"
  | followsAbsent slot => s!"slot '{slot}' follows an absent slot"
  | referencesOfAbsent slot => s!"accessor references for absent slot '{slot}'"

def VerifyRule.isShowable : VerifyRule → Bool
  | sizeSum sum _ => FewDigits sum
  | mainCount _ count => FewDigits count
  | _ => true

inductive RecordFault
  | unknownKind (opcode : String)
  | noSegmentSizes (opcode : String)
  | segmentCount (opcode : String) (got expected : Nat)
  | resultCount (opcode : String)
  | tooFewReferences
  | rule (opcode : String) (r : VerifyRule)
  deriving DecidableEq, Repr

def RecordFault.message : RecordFault → String
  | unknownKind opcode => s!"unknown instruction kind '{opcode}'"
  | noSegmentSizes opcode => s!"'{opcode}' has no '{segmentSizesTag}' tag"
  | segmentCount opcode got expected => s!"'{opcode}' has {got} operand segments, expected {expected}"
  | resultCount opcode => s!"'{opcode}' must have exactly one result"
  | tooFewReferences => "accessor has more dynamic components than reference operands"
  | rule opcode r => s!"'{opcode}': {r.message}"

inductive OperationError
  | record (f : RecordFault)
  | literal (f : LiteralFault)
  | unprintable (opcode : String)
  | mismatch (m : Mismatch)
  deriving Repr

abbrev Readback := Except OperationError

namespace Readback

def ofAttr {α : Type} (x : Except Mismatch α) : Readback α := x.mapError .mismatch

def ofLiteral {α : Type} (x : Except LiteralFault α) : Readback α := x.mapError .literal

end Readback

namespace Operation

def tag? (op : Operation) (key : String) : Option Attr := Attr.lookup key op.attrs

def mnemonic (op : Operation) : String := op.opcode.display

def segmentSizes (op : Operation) : Readback (List Int) :=
  match op.tag? segmentSizesTag with
  | none | some .none => .error (.record (.noSegmentSizes op.mnemonic))
  | some sizes => Readback.ofAttr do (← sizes.items).mapM Attr.toInt

end Operation

/-- The kind registered under a mnemonic; under a list or an object nothing can be looked up. -/
def Registry.find (r : Registry) (opcode : Label) : Readback (Option Kind) :=
  match opcode with
  | .text name => .ok (r.kind? name)
  | .data _ => if opcode.isKey then .ok none else .error (.mismatch .wrongKind)

end GateAsm
