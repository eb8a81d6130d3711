import GateAsm.Ty.Basic

/-!
# Classes of types

A type belongs to a class, which fixes how many parameters it has. Quantum types share an abstract
class, whose only type of its own has neither parameters nor a text.
-/

namespace GateAsm

inductive TyClass
  | index
  | integer
  | float
  | qubit
  | register
  | gate1
  | gate2
  | circuit
  | controlled
  | quantum
  deriving DecidableEq, Repr

namespace TyClass

def name : TyClass → String
  | index => "IndexType"
  | integer => "IntegerType"
  | float => "FloatType"
  | qubit => "QubitType"
  | register => "RegisterType"
  | gate1 => "Gate1Type"
  | gate2 => "Gate2Type"
  | circuit => "CircuitType"
  | controlled => "ControlledGateType"
  | quantum => "QuantumType"

def words : List (String × TyClass) :=
  [("index", index), ("int", integer), ("float", float), ("qubit", qubit), ("register", register),
   ("gate1", gate1), ("gate2", gate2), ("circuit", circuit), ("cgate", controlled), ("quantum", quantum)]

def ofWord? (word : String) : Option TyClass := (words.find? (·.1 = word)).map (·.2)

def plain? : TyClass → Option Ty
  | index => some .index
  | qubit => some .qubit
  | gate1 => some .gate1
  | gate2 => some .gate2
  | circuit => some .circuit
  | quantum => some .abstract
  | _ => none

def arity : TyClass → Nat
  | integer | float | register => 1
  | controlled => 2
  | _ => 0

end TyClass

def Ty.tyClass : Ty → TyClass
  | .index => .index
  | .integer _ => .integer
  | .float _ => .float
  | .qubit => .qubit
  | .register _ => .register
  | .gate1 => .gate1
  | .gate2 => .gate2
  | .circuit => .circuit
  | .controlled .. => .controlled
  | .abstract => .quantum

theorem TyClass.tyClass_of_plain? {c : TyClass} {t : Ty} (h : c.plain? = some t) : t.tyClass = c := by
  cases c <;> simp [plain?] at h <;> subst h <;> rfl

end GateAsm
