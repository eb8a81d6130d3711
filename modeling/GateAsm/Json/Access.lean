import GateAsm.Json.Basic

/-!
# Looking into a JSON value

Lenient access: what is absent, or of another shape, counts as null, as empty or as zero. It suits
requests whose shape is agreed on; whoever has to refuse a wrong shape matches on the value.
-/

namespace GateAsm.Json

def get? (j : Json) (key : String) : Option Json :=
  match j with
  | .obj fields => match lookup key fields with
    | some .null => none
    | found => found
  | _ => none

def get (j : Json) (key : String) : Json := (j.get? key).getD .null

def items : Json → List Json
  | .arr js => js
  | _ => []

def nth (j : Json) (i : Nat) : Json := ((j.items)[i]?).getD .null

def text? : Json → Option String
  | .str s => some s
  | _ => none

def text (j : Json) : String := (j.text?).getD ""

def texts (j : Json) : List String := j.items.map text

def asInt : Json → Int
  | .int n => n
  | _ => 0

def flag : Json → Bool
  | .bool b => b
  | _ => false

def ofText? (s : Option String) : Json := (s.map str).getD .null

def ofTexts (ss : List String) : Json := .arr (ss.map str)

def extend (j : Json) (more : List (String × Json)) : Json :=
  match j with
  | .obj fields => .obj (fields ++ more)
  | j => j

end GateAsm.Json
