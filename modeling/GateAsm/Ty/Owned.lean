import GateAsm.Attr.Shown
import GateAsm.Ty.Make

/-!
# Owned types

Types live in contexts, and a type of one context is another object than the same type of a second one.
`OwnedType` keeps a type with the name of its owner; `TypeContexts` is the collection of all contexts, in
which a context comes into being when it is first named.
-/

namespace GateAsm

structure OwnedType extends StoredType where
  owner : String
  deriving Repr

/-- Two types are one object when one context owns both and they are the same. -/
def OwnedType.is (a b : OwnedType) : Bool := a.owner = b.owner && a.toStoredType.same b.toStoredType

inductive TypeParam
  | attr (a : Attr)
  | owned (t : OwnedType)
  deriving Repr

namespace TypeParam

def value : TypeParam → Attr
  | attr a => a
  | owned t => .type t.type

def surplus : TypeParam → List Surplus
  | attr _ => []
  | owned t => t.surplus

def key : TypeParam → Surplus
  | attr (.type t) => .type t []
  | attr a => .value a
  | owned t => .type t.type t.surplus

end TypeParam

inductive RequestFault
  | abstractClass
  | parameterCount
  | badParameters
  | notComparable
  | notContext
  | noText (c : TyClass)
  | unshown (m : Mismatch)
  | type (f : TypeFault)
  deriving DecidableEq, Repr

namespace Ty

def shown (t : Ty) : Except RequestFault String :=
  if t = .abstract then .error (.noText t.tyClass)
  else match t.unshown? with
    | some m => .error (.unshown m)
    | none => .ok t.text

def widthAttr (w : Width) : Attr :=
  match w.form with
  | .int => .int w.value
  | .bool => .bool (w.value != 0)
  | .float => .float (.ofInt w.value)
  | .int64 => .int64 w.value
  | .float32 => .float32 (.ofInt w.value)

def countAttr (n : Option Nat) : Attr := (n.map fun n => Attr.int n).getD .none

def params : Ty → List Attr
  | .integer w | .float w => [widthAttr w]
  | .register n => [countAttr n]
  | .controlled b n => [.type b.ty, countAttr n]
  | _ => []

end Ty

namespace StoredType

def key (t : StoredType) : List Surplus :=
  match t.type with
  | .controlled b n => [.type b.ty t.surplus, .value (Ty.countAttr n)]
  | type => type.params.map .value ++ t.surplus

def params (t : StoredType) : List Attr := t.key.map Surplus.attr

def property? (t : StoredType) (name : String) : Option Attr :=
  match name, t.type, t.params with
  | "params", _, ps => some (.tuple ps)
  | "width", .integer _, [w] => some w
  | "width", .float _, [w] => some w
  | "size", .register _, [n] => some n
  | "base", .controlled .., [b, _] => some b
  | "num_ctrls", .controlled .., [_, n] => some n
  | _, _, _ => none

end StoredType

namespace TyClass

/-- The fault is told with the parameter that is to blame for it, which has to be shown. -/
def orRefuse (param : Attr) (t : Except TypeFault Ty) : Except RequestFault Ty :=
  match t, param with
  | .ok t, _ => .ok t
  | .error _, .type .abstract => .error (.noText .quantum)
  | .error f, param => match param.unshown? with
    | some m => .error (.unshown m)
    | none => .error (.type f)

/-- The type of a width that may be an array, which is compared cell by cell and is no key. -/
def makeFloat (a : Attr) : Except RequestFault Ty :=
  match a with
  | .array cells => match cells.values with
    | [cell] => match Ty.ofFloatWidth (.ofCell cell) with
      | .ok _ => .error .notComparable
      | .error _ => .error (.type (.floatWidth a.display))
    | [] => .error (.type (.floatWidth a.display))
    | _ => .error .badParameters
  | a => orRefuse a (Ty.ofFloatWidth a)

/-- The type of a class with the parameters; a class that has none takes any. -/
def make (c : TyClass) (params : List TypeParam) : Except RequestFault StoredType :=
  match c, params with
  | integer, [a] => (orRefuse a.value (Ty.ofIntegerWidth a.value)).map (⟨·, []⟩)
  | float, [a] => (makeFloat a.value).map (⟨·, []⟩)
  | register, [a] => (orRefuse a.value (Ty.ofRegisterSize a.value)).map (⟨·, []⟩)
  | controlled, [a, b] =>
    (orRefuse (if (a.value.type?.bind Ty.base?).isSome then b.value else a.value)
      (Ty.ofBaseAndCount a.value b.value)).map (⟨·, a.surplus⟩)
  | c, params => match c.plain? with
    | some t => .ok ⟨t, params.map TypeParam.key⟩
    | none => .error .badParameters

def complete (c : TyClass) (params : List TypeParam) : Except RequestFault (List TypeParam) :=
  match c, params with
  | quantum, _ => .error .abstractClass
  | register, [] => .ok [.attr .none]
  | controlled, [a] => .ok [a, .attr .none]
  | register, [a] | integer, [a] | float, [a] => .ok [a]
  | controlled, [a, b] => .ok [a, b]
  | c, [] => if c.plain?.isSome then .ok [] else .error .parameterCount
  | _, _ => .error .parameterCount

end TyClass

structure TypeContexts where
  default : TypeContext
  named : List TypeContext
  deriving Repr

namespace TypeContexts

def start : TypeContexts := ⟨.default, []⟩

def get (cs : TypeContexts) (name : String) : TypeContext :=
  if name = cs.default.name then cs.default
  else (cs.named.find? (·.name = name)).getD (.empty name)

def set (cs : TypeContexts) (c : TypeContext) : TypeContexts :=
  if c.name = cs.default.name then { cs with default := c }
  else { cs with named := cs.named.filter (·.name != c.name) ++ [c] }

def foreign? (c : TyClass) (context : String) (params : List TypeParam) : Option RequestFault :=
  params.findSome? fun
    | .owned t =>
      if t.owner = context then none
      else match t.type.shown with
        | .error f => some f
        | .ok shown => some (.type (.foreign c.name shown t.owner context))
    | .attr _ => none

/-- The type that a context gives for a class and its parameters; a type among them has to be the
context's own, and all of them have to be keys. -/
def intern (cs : TypeContexts) (c : TyClass) (params : List TypeParam) (context : String) :
    Except RequestFault (OwnedType × TypeContexts) := do
  let t ← c.make params
  match foreign? c context params with
  | some f => throw f
  | none =>
    if !Attr.areKeys (params.map (·.value)) then throw .notComparable
    let (kept, context) := (cs.get context).store t
    return (⟨kept, context.name⟩, cs.set context)

def withoutContext (c : TyClass) (params : List TypeParam) : Except RequestFault (List TypeParam) :=
  match params.drop c.arity with
  | [.attr .none] => .ok (params.take c.arity)
  | [_] => .error .notContext
  | _ => .ok params

/-- The type of a class with its parameters, those left out filled in. Where no context is named, a base
gives its own and all others the default one. -/
def request (cs : TypeContexts) (c : TyClass) (params : List TypeParam) (context : Option String) :
    Except RequestFault (OwnedType × TypeContexts) := do
  let params ← c.complete (← if context.isSome then pure params else withoutContext c params)
  let owner := match context, c, params with
    | some name, _, _ => name
    | none, .controlled, .owned base :: _ => base.owner
    | none, _, _ => cs.default.name
  cs.intern c params owner

def holds (cs : TypeContexts) (c : TyClass) (params : List TypeParam) (context : String) :
    Except RequestFault Bool :=
  if Attr.areKeys (params.map (·.value)) then
    .ok ((cs.get context).stored.any fun t => t.type.tyClass = c && Surplus.allAgree t.key (params.map (·.key)))
  else .error .notComparable

end TypeContexts

end GateAsm
