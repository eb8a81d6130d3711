import GateAsm.Parser.State
import GateAsm.Parser.Literal

/-!
# Types in a text

    qubit   register<N>   register<>   gate1   gate2   circuit   cgate<N, base>   cgate<base>
    index   f16   f32   f64   iN

The words of the last row are builtin; the others introduce a grammar that the registry holds under
them, and further words may be registered for the same grammars.
-/

namespace GateAsm.Parser

def builtinType? (word : String) : Option Ty :=
  if word = "index" then some .index
  else if word = "f16" then some (.float (.ofNat 16))
  else if word = "f32" then some (.float (.ofNat 32))
  else if word = "f64" then some (.float (.ofNat 64))
  else match word.toList with
    | 'i' :: d :: ds =>
      let n := Floating.natOfDigits (d :: ds)
      if d.isDigit && d != '0' && ds.length ≤ 1 && ds.all Char.isDigit && n ≤ 64 then
        some (.integer (.ofNat n))
      else none
    | _ => none

def malformed {α : Type} (keyword : String) : Parser α := do
  fail (.malformedType keyword .shape) (← location)

def argumentToken (keyword : String) (kind : TokenKind) : Parser Unit := do
  if (← optional kind).isNone then malformed keyword

def registerArguments (keyword : String) : Parser Ty := do
  argumentToken keyword .less
  let size ← optional .int
  argumentToken keyword .more
  match size with
  | none => intern (.register none)
  | some t =>
    let n ← integerOf t
    if n ≤ 1 then fail (.malformedType keyword (.registerSize n)) t.location
    else intern (.register (some n.toNat))

def controlCount (keyword : String) (t : Token) : Parser Nat := do
  let n ← integerOf t
  if n ≤ 0 then fail (.malformedType keyword (.controlCount n)) t.location else return n.toNat

def controlPrefix (keyword : String) : Parser (Option Token) := do
  match ← optional .int with
  | none => return none
  | some t =>
    argumentToken keyword .comma
    return some t

def wordAhead (keyword : String) : Parser Token := do
  let t ← peek 0
  if t.kind != .word then malformed keyword else return t

def optionalCount (keyword : String) : Option Token → Parser (Option Nat)
  | none => return none
  | some t => some <$> controlCount keyword t

def controlledType (base : Ty) (count : Option Nat) (l : Location) : Parser Ty :=
  match base.base? with
  | some base => intern (.controlled base count)
  | none => fail (.invalidBase base) l

def controlledArguments (keyword : String) (inner : Parser Ty) : Parser Ty := do
  argumentToken keyword .less
  let count ← controlPrefix keyword
  let baseToken ← wordAhead keyword
  let base ← inner
  argumentToken keyword .more
  let count ← optionalCount keyword count
  controlledType base count baseToken.location

/-- The type that a word in front of the cursor stands for or introduces; `inner` reads the base of a controlled
gate. -/
def typeAt (registry : Registry) (t : Token) (inner : Parser Ty) : Parser Ty :=
  match builtinType? t.text with
  | some builtin => intern builtin
  | none => match registry.keyword? t.text with
    | none => fail (.unknownType t.text) t.location
    | some .qubit => intern .qubit
    | some .gate1 => intern .gate1
    | some .gate2 => intern .gate2
    | some .circuit => intern .circuit
    | some .register => registerArguments t.text
    | some .cgate => controlledArguments t.text inner

def typeWithin (registry : Registry) : (fuel : Nat) → Parser Ty
  | 0 => do
    let t ← peek 0
    fail (.unexpectedToken "type" t) t.location
  | fuel + 1 => do
    let t ← peek 0
    if t.kind != .word then fail (.unexpectedToken "type" t) t.location
    let _ ← advance
    typeAt registry t (typeWithin registry fuel)

def typeExpr (registry : Registry) : Parser Ty := do typeWithin registry (← get).rest.length

def moreTypes (registry : Registry) : (fuel : Nat) → Parser (List Ty)
  | 0 => return []
  | fuel + 1 => do
    if (← optional .comma).isNone then return []
    let t ← typeExpr registry
    let ts ← moreTypes registry fuel
    return t :: ts

def typeList (registry : Registry) : Parser (List Ty) := do
  let t ← typeExpr registry
  let ts ← moreTypes registry (← get).rest.length
  return t :: ts

def colonTypes (registry : Registry) : Parser (List Ty) := do
  if (← optional .colon).isNone then return []
  typeList registry

def arrowTypes (registry : Registry) : Parser (List Ty) := do
  if (← optional .arrow).isNone then return []
  typeList registry

end GateAsm.Parser
