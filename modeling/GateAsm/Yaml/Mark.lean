import GateAsm.Json.Reader
import GateAsm.Yaml.Cursor
import GateAsm.Yaml.Token

/-!
# Anchors, tags and directives

The tokens that say something about a node or about a document, each with a name or an address in it.
-/

namespace GateAsm.Yaml

def isNameChar (c : Char) : Bool := c.isAlphanum || c = '-' || c = '_'

def isAddressChar (c : Char) : Bool := c.isAlphanum || "-;/?:@&=+$,_.!~*'()[]%".contains c

def endsAnchor (cs : List Char) : Bool :=
  startsWhite cs || (cs.head?.map fun c => "?:,]\x7d%@`".contains c).getD false

def name : Reader String := do
  let cs ← passWhile isNameChar
  if cs.isEmpty then refuse
  return String.ofList cs

def anchorName : Reader String := do
  pass 1
  let s ← name
  if endsAnchor (← get).rest then return s else refuse

/-! ## Tags -/

def escapedBytes : List Char → Except YamlFault (List UInt8 × List Char)
  | '%' :: a :: b :: cs => match Json.hexValue? a, Json.hexValue? b with
    | some x, some y => do
      let (bytes, rest) ← escapedBytes cs
      return (UInt8.ofNat (16 * x + y) :: bytes, rest)
    | _, _ => .error .malformed
  | '%' :: _ => .error .malformed
  | cs => .ok ([], cs)

def addressChars : (fuel : Nat) → List Char → Except YamlFault (List Char × List Char)
  | 0, cs => .ok ([], cs)
  | _, [] => .ok ([], [])
  | fuel + 1, c :: cs =>
    if c = '%' then do
      let (bytes, rest) ← escapedBytes (c :: cs)
      match String.fromUTF8? ⟨bytes.toArray⟩ with
      | none => throw .malformed
      | some s => do
        let (more, rest) ← addressChars fuel rest
        return (s.toList ++ more, rest)
    else if isAddressChar c then do
      let (more, rest) ← addressChars fuel cs
      return (c :: more, rest)
    else .ok ([], c :: cs)

def address : Reader String := do
  let cs := (← get).rest
  match addressChars cs.length cs with
  | .error f => throw f
  | .ok (found, rest) => do
    if rest.length = cs.length then refuse
    goTo rest
    return String.ofList found

def handle : Reader String := do
  match (← get).rest with
  | '!' :: ' ' :: _ => do
    pass 1
    return "!"
  | '!' :: cs => do
    let word := cs.takeWhile isNameChar
    if (cs.drop word.length).head? != some '!' then refuse
    pass (word.length + 2)
    return "!" ++ String.ofList word ++ "!"
  | _ => refuse

def tag : Reader Token := do
  let cs := (← get).rest.drop 1
  let token ←
    if cs.head? = some '<' then do
      pass 2
      let s ← address
      if (← get).rest.head? != some '>' then refuse
      pass 1
      pure (Token.tag none s)
    else if startsWhite cs then do
      pass 1
      pure (Token.tag none "!")
    else do
      let handle ←
        if (cs.takeWhile fun c => c != ' ' && !isBreak c).contains '!' then handle
        else do
          pass 1
          pure "!"
      pure (Token.tag (some handle) (← address))
  if startsSpace (← get).rest then return token else refuse

/-! ## Directives -/

def number : Reader Nat := do
  let ds ← passWhile Char.isDigit
  if ds.isEmpty then refuse
  return ds.foldl (fun n d => 10 * n + (d.toNat - 48)) 0

def expectSpace : Reader Unit := do
  if startsSpace (← get).rest then return else refuse

def directive : Reader Token := do
  pass 1
  let kind ← name
  expectSpace
  let token ← match kind with
    | "YAML" => do
      let _ ← passWhile (· = ' ')
      let major ← number
      if (← get).rest.head? != some '.' then refuse
      pass 1
      let _ ← number
      expectSpace
      pure (Token.version major)
    | "TAG" => do
      let _ ← passWhile (· = ' ')
      let short ← handle
      if (← get).rest.head? != some ' ' then refuse
      let _ ← passWhile (· = ' ')
      let uri ← address
      expectSpace
      pure (Token.tagHandle short uri)
    | _ => do
      let _ ← passWhile (!isBreak ·)
      pure Token.directive
  endOfLine
  return token

end GateAsm.Yaml
