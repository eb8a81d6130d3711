import GateAsm.Json.Reader
import GateAsm.Parser.State

/-!
# Literals and references

Numbers, names and the literals that tags hold. Nothing is consumed when an optional construct is not
there.
-/

namespace GateAsm

structure Reference where
  name : String
  location : Location
  deriving DecidableEq, Repr

namespace Parser

def optionalOperand : Parser (Option Reference) := do
  return (← optional .valueName).map fun t => ⟨t.text, t.location⟩

def operand : Parser Reference := do
  let t ← expect .valueName
  return ⟨t.text, t.location⟩

def integerOf (t : Token) : Parser Int :=
  let (negative, digits) := Floating.splitSign t.text.toList
  if maxIntegerDigits < digits.length then throw .integerTooLong else return Json.signed negative digits

def optionalInteger : Parser (Option Int) := do
  match ← optional .int with
  | some t => return some (← integerOf t)
  | none => return none

def integer (wanted : String) : Parser Int := do integerOf (← expectAs .int wanted)

def finiteFloat (t : Token) : Parser Double := do
  match Double.ofLiteral? t.text with
  | some x => if x.isFinite then return x else fail (.floatTooLarge t) t.location
  | none => fail (.floatTooLarge t) t.location

def optionalFloat : Parser (Option Double) := do
  let t ← peek 0
  if t.kind = .float || t.kind = .int then
    let _ ← advance
    return some (← finiteFloat t)
  else return none

def optionalKeyword (keyword : Option String) : Parser (Option String) := do
  let t ← peek 0
  if t.kind != .word || (keyword.map (· != t.text)).getD false then return none
  else
    let _ ← advance
    return some t.text

def symbol : Parser String := do
  let t ← expect .symbolName
  return String.ofList (t.text.toList.drop 1)

mutual

def literalWithin : (fuel : Nat) → Parser Attr
  | 0 => do
    let t ← peek 0
    fail (.noAttribute t) t.location
  | fuel + 1 => do
    let t ← peek 0
    match t.kind with
    | .int =>
      let _ ← advance
      return .int (← integerOf t)
    | .float =>
      let _ ← advance
      return .float (← finiteFloat t)
    | .string =>
      let _ ← advance
      match Json.readString? t.text with
      | some s => return .str s
      | none => fail (.badString t) t.location
    | .symbolName => return .symbol (.text (← symbol))
    | .openBracket =>
      let _ ← advance
      if (← optional .closeBracket).isSome then return .tuple []
      let first ← literalWithin fuel
      let others ← literalsWithin fuel
      let _ ← expect .closeBracket
      return .tuple (first :: others)
    | .word =>
      if t.text = "true" || t.text = "false" then
        let _ ← advance
        return .bool (t.text = "true")
      else fail (.noAttribute t) t.location
    | _ => fail (.noAttribute t) t.location

def literalsWithin : (fuel : Nat) → Parser (List Attr)
  | 0 => return []
  | fuel + 1 => do
    if (← optional .comma).isNone then return []
    let first ← literalWithin fuel
    let others ← literalsWithin fuel
    return first :: others

end

def literal : Parser Attr := do literalWithin (← get).rest.length

def tagEntries (reserved : List String) : (fuel : Nat) → Parser Unit
  | 0 => do
    let _ ← expectAs .word "attribute name"
  | fuel + 1 => do
    let t ← expectAs .word "attribute name"
    if reserved.contains t.text then fail (.reservedTag t.text) t.location
    if (Attr.lookup t.text (← get).tags).isSome then fail (.repeatedTag t.text) t.location
    let _ ← expect .equal
    let value ← literal
    modify fun s => { s with tags := Attr.put t.text value s.tags }
    if (← optional .comma).isSome then tagEntries reserved fuel
    else
      let _ ← expect .closeBrace

/-- The tags in braces at the cursor, if there are any. The names in `reserved` belong to the
instruction format; a name may occur once. -/
def optionalTags (reserved : List String) : Parser Unit := do
  if (← optional .openBrace).isNone then return
  if (← optional .closeBrace).isSome then return
  tagEntries reserved (← get).rest.length

end Parser

end GateAsm
