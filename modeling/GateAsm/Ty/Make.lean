import GateAsm.Attr.Text
import GateAsm.Ty.Context

/-!
# Types from values

Whoever asks for a type by its parameters may give any values for them. The bounds are checked before
the type exists, so a context never holds a type that breaks them.
-/

namespace GateAsm

inductive TypeFault
  | integerWidth (shown : String)
  | floatWidth (shown : String)
  | registerSize (shown : String)
  | controlledBase (shown : String)
  | controlCount (shown : String)
  | foreign (requester param owner context : String)
  deriving DecidableEq, Repr

def TypeFault.message : TypeFault → String
  | integerWidth shown => s!"integer width must be in [1, 64], got {shown}"
  | floatWidth shown => s!"float width must be 16, 32 or 64, got {shown}"
  | registerSize shown => s!"register size must be an integer > 1, got {shown}"
  | controlledBase shown => s!"controlled gate base must be gate1, gate2 or circuit, got {shown}"
  | controlCount shown => s!"number of controls must be an integer > 0, got {shown}"
  | foreign requester param owner context =>
    s!"{requester} parameter {param} belongs to context '{owner}', not '{context}'"

namespace Ty

/-- The integer type of a width from 1 to 64; a truth value counts as its number. -/
def ofIntegerWidth (a : Attr) : Except TypeFault Ty :=
  match a with
  | .int n => if 1 ≤ n ∧ n ≤ 64 then .ok (.integer (.ofNat n.toNat)) else .error (.integerWidth a.display)
  | .bool true => .ok (.integer ⟨1, .bool⟩)
  | a => .error (.integerWidth a.display)

def numberOf? : Attr → Option (Int × NumberForm)
  | .int n => some (n, .int)
  | .int64 n => some (n, .int64)
  | .float x | .float64 x => x.number.toInt?.map (·, .float)
  | .float32 x => x.number.toInt?.map (·, .float32)
  | _ => none

def ofFloatWidth (a : Attr) : Except TypeFault Ty :=
  match numberOf? a with
  | some (n, form) =>
    if n = 16 ∨ n = 32 ∨ n = 64 then .ok (.float ⟨n.toNat, form⟩) else .error (.floatWidth a.display)
  | none => .error (.floatWidth a.display)

def ofRegisterSize (a : Attr) : Except TypeFault Ty :=
  match a with
  | .none => .ok (.register none)
  | .int n => if 1 < n then .ok (.register (some n.toNat)) else .error (.registerSize a.inspect)
  | a => .error (.registerSize a.inspect)

def ofBaseAndCount (base count : Attr) : Except TypeFault Ty :=
  match base.type?.bind Ty.base? with
  | none => .error (.controlledBase base.inspect)
  | some b => match count with
    | .none => .ok (.controlled b none)
    | .int n => if 0 < n then .ok (.controlled b (some n.toNat)) else .error (.controlCount count.inspect)
    | count => .error (.controlCount count.inspect)

end Ty

end GateAsm
