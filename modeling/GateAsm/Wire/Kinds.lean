import GateAsm.Attr.Basic

/-!
# Kinds of serialized values

In serialized form a value is an object that names its kind. Plain values have short names; types,
accessors, symbols and blocks have the names that are registered for them from the start.
-/

namespace GateAsm.Wire

def kindField : String := "_kind"

inductive ClassFault
  | noKind (name : String)
  | duplicate (kind existing : String)
  deriving DecidableEq, Repr

def ClassFault.message : ClassFault → String
  | noKind name => s!"{name} must define `_serde_kind` class variable for serialization registration"
  | duplicate kind existing => s!"Duplicate _serde_kind '{kind}': already registered by {existing}"

structure ClassTable where
  registered : List (String × String)
  declared : List (String × Option String)
  deriving DecidableEq, Repr

namespace ClassTable

def standard : ClassTable :=
  { registered := [("quantir.IndexType", "IndexType"), ("quantir.IntegerType", "IntegerType"),
      ("quantir.FloatType", "FloatType"), ("quantir.Constant", "Constant"), ("quantir.Dynamic", "Dynamic"),
      ("quantir.AccessorArray", "AccessorArray"), ("quantir.SymbolRef", "SymbolRef"), ("quantir.Block", "Block"),
      ("quantum.QubitType", "QubitType"), ("quantum.RegisterType", "RegisterType"),
      ("quantum.Gate1Type", "Gate1Type"), ("quantum.Gate2Type", "Gate2Type"),
      ("quantum.CircuitType", "CircuitType"), ("quantum.ControlledGateType", "ControlledGateType")]
    declared := [] }

def class? (t : ClassTable) (kind : String) : Option String := (t.registered.find? (·.1 = kind)).map (·.2)

def kinds (t : ClassTable) : List String := t.registered.map (·.1)

/-- The kind that a class states: what it stated when it was first named. -/
def kindOf (t : ClassTable) (name : String) (kind : Option String) : Option String :=
  (t.declared.lookup name).getD kind

def declare (t : ClassTable) (name : String) (kind : Option String) : ClassTable :=
  if (t.declared.lookup name).isSome then t else { t with declared := (name, kind) :: t.declared }

/-- Registers a class under its kind. The same class may be registered again; a kind of the standard table
belongs to its own class for good, whatever the name of another class. -/
def register (t : ClassTable) (name : String) (kind : Option String) : Except ClassFault Unit × ClassTable :=
  let declared := t.declare name kind
  match t.kindOf name kind with
  | none => (.error (.noKind name), declared)
  | some kind => match t.class? kind with
    | none => (.ok (), { declared with registered := t.registered ++ [(kind, name)] })
    | some existing =>
      if existing = name && !(standard.class? kind).isSome then (.ok (), declared)
      else (.error (.duplicate kind existing), declared)

end ClassTable

end GateAsm.Wire
