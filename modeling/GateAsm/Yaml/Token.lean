/-!
# Tokens of YAML

What the scanner finds in a text: marks, names and scalars, and the places where collections in block
context start and end, which only the columns of the text tell.
-/

namespace GateAsm.Yaml

inductive Token
  | streamEnd
  | version (major : Nat)
  | tagHandle (handle uri : String)
  | directive
  | documentStart
  | documentEnd
  | blockListStart
  | blockMappingStart
  | blockEnd
  | flowListStart
  | flowListEnd
  | flowMappingStart
  | flowMappingEnd
  | blockEntry
  | flowEntry
  | key
  | value
  | alias (name : String)
  | anchor (name : String)
  | tag (handle : Option String) (suffix : String)
  | scalar (text : String) (plain : Bool)
  deriving DecidableEq, Repr

end GateAsm.Yaml
