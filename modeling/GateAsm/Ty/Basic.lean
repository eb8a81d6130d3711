/-!
# Types

The types of values: the builtin numbers, qubits and registers, gates, and gates under control qubits.
Two types are the same when their parameters are equal numbers; how a parameter was given (`NumberForm`)
shows in the text of the type only.
-/

namespace GateAsm

inductive NumberForm
  | int
  | bool
  | float
  | int64
  | float32
  deriving DecidableEq, Repr

structure Width where
  value : Nat
  form : NumberForm
  deriving DecidableEq, Repr

namespace Width

def ofNat (n : Nat) : Width := ⟨n, .int⟩

def text (w : Width) : String :=
  match w.form with
  | .int | .int64 => toString w.value
  | .bool => if w.value = 0 then "False" else "True"
  | .float | .float32 => toString w.value ++ ".0"

end Width

inductive GateBase
  | gate1
  | gate2
  | circuit
  deriving DecidableEq, Repr

inductive Ty
  | index
  | integer (width : Width)
  | float (width : Width)
  | qubit
  | register (size : Option Nat)
  | gate1
  | gate2
  | circuit
  | controlled (base : GateBase) (count : Option Nat)
  /-- The bare type of the class that all quantum types share; it stands for no values. -/
  | abstract
  deriving DecidableEq, Repr

namespace GateBase

def ty : GateBase → Ty
  | gate1 => .gate1
  | gate2 => .gate2
  | circuit => .circuit

def text : GateBase → String
  | gate1 => "gate1"
  | gate2 => "gate2"
  | circuit => "circuit"

end GateBase

namespace Ty

def base? : Ty → Option GateBase
  | gate1 => some .gate1
  | gate2 => some .gate2
  | circuit => some .circuit
  | _ => none

def number? : Ty → Option Nat
  | register n => n
  | controlled _ n => n
  | _ => none

/-- The letters of a type. `Ty.unshown?` tells when they cannot be written: the number may be too long, and
the abstract type, which goes by the name of its class here, has no text. -/
def text : Ty → String
  | index => "index"
  | integer w => "i" ++ w.text
  | float w => "f" ++ w.text
  | qubit => "qubit"
  | register none => "register<>"
  | register (some n) => s!"register<{n}>"
  | gate1 => "gate1"
  | gate2 => "gate2"
  | circuit => "circuit"
  | controlled base none => s!"cgate<{base.text}>"
  | controlled base (some n) => s!"cgate<{n}, {base.text}>"
  | abstract => "QuantumType"

def plain : Ty → Ty
  | integer w => integer (.ofNat w.value)
  | float w => float (.ofNat w.value)
  | t => t

/-- Two types are the same when they differ in the form of their parameters at most. -/
def same (a b : Ty) : Bool := a.plain = b.plain

def WellFormed : Ty → Prop
  | integer w => 1 ≤ w.value ∧ w.value ≤ 64
  | float w => w.value = 16 ∨ w.value = 32 ∨ w.value = 64
  | register (some n) => 1 < n
  | controlled _ (some n) => 0 < n
  | _ => True

instance (t : Ty) : Decidable t.WellFormed := by
  unfold WellFormed
  split <;> infer_instance

@[simp]
theorem base?_ty (b : GateBase) : b.ty.base? = some b := by cases b <;> rfl

theorem base?_eq_some_iff {t : Ty} {b : GateBase} : t.base? = some b ↔ t = b.ty := by
  cases t <;> cases b <;> simp [base?, GateBase.ty]

@[simp]
theorem same_self (t : Ty) : t.same t = true := by simp [same]

theorem same_iff {a b : Ty} : a.same b = true ↔ a.plain = b.plain := by simp [same]

end Ty

end GateAsm
