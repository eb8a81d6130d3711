import GateAsm.Attr.Basic

/-!
# Building accessors from values

A component is given as a constant, as the dynamic marker, or as a plain integer. Truth values and
integers taken out of arrays are no integers here.
-/

namespace GateAsm

inductive AccessorFault
  | notInteger (kind : String)
  | outOfRange (n : Int)
  | tooMany (got : Nat)
  deriving DecidableEq, Repr

def AccessorFault.message : AccessorFault → String
  | notInteger kind => s!"accessor constant must be an int, got {kind}"
  | outOfRange n => s!"accessor constant {n} does not fit in int64"
  | tooMany got => s!"accessor list has at most {Accessors.maxSize} components, got {got}"

def Component.ofInt (n : Int) : Except AccessorFault Component :=
  if InInt64 n then .ok (.constant n) else .error (.outOfRange n)

def Component.ofAttr : Attr → Except AccessorFault Component
  | .constant n => .ok (.constant n)
  | .dynamic => .ok .dynamic
  | .int n => Component.ofInt n
  | a => .error (.notInteger a.kindName)

def Accessors.ofComponents (cs : List Component) : Except AccessorFault Accessors :=
  match Accessors.ofComponents? cs with
  | some a => .ok a
  | none => .error (.tooMany cs.length)

def Accessors.ofAttrs (items : List Attr) : Except AccessorFault Accessors := do
  Accessors.ofComponents (← items.mapM Component.ofAttr)

end GateAsm
