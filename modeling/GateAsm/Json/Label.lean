import GateAsm.Json.Reader
import GateAsm.Text.Quoted

/-!
# Labels

Values, symbols and instruction kinds have texts for names. Serialized data may hold any other JSON
value where a name belongs; a `Label` keeps it, so that it is written back as it was.
-/

namespace GateAsm

namespace Json

mutual

def inspect : Json → String
  | null => "None"
  | bool b => if b then "True" else "False"
  | int n => toString n
  | float x => x.text
  | str s => Text.quoted s
  | arr items => "[" ++ ", ".intercalate (inspectItems items) ++ "]"
  | obj fields => "\x7b" ++ ", ".intercalate (inspectFields fields) ++ "\x7d"

def inspectItems : List Json → List String
  | [] => []
  | j :: js => inspect j :: inspectItems js

def inspectFields : List (String × Json) → List String
  | [] => []
  | (k, j) :: fields => (Text.quoted k ++ ": " ++ inspect j) :: inspectFields fields

end

def display : Json → String
  | str s => s
  | j => j.inspect

mutual

def isShowable : Json → Bool
  | int n => FewDigits n
  | arr items => areShowable items
  | obj fields => fieldsAreShowable fields
  | _ => true

def areShowable : List Json → Bool
  | [] => true
  | j :: js => isShowable j && areShowable js

def fieldsAreShowable : List (String × Json) → Bool
  | [] => true
  | (_, j) :: fields => isShowable j && fieldsAreShowable fields

end

end Json

inductive Label
  | text (s : String)
  | data (j : Json)
  deriving Repr

instance : Inhabited Label := ⟨.text ""⟩

instance : Coe String Label := ⟨.text⟩

namespace Label

def ofJson : Json → Label
  | .str s => .text s
  | j => .data j

def json : Label → Json
  | text s => .str s
  | data j => j

def text? : Label → Option String
  | text s => some s
  | data _ => none

def display : Label → String
  | text s => s
  | data j => j.display

def inspect : Label → String
  | text s => Text.quoted s
  | data j => j.inspect

def isShowable : Label → Bool
  | text _ => true
  | data j => j.isShowable

def number? : Label → Option Floating.Number
  | data (.bool b) => some (.finite false (if b then 1 else 0) 0)
  | data (.int n) => some (.finite (n < 0) n.natAbs 0)
  | data (.float x) => some x.number
  | _ => none

/-- Something can be looked up under a label: lists and objects are no keys. -/
def isKey : Label → Bool
  | data (.arr _) | data (.obj _) => false
  | _ => true

/-- Two labels are the same key: equal texts, or equal numbers. What is no number is the same key as
itself. -/
def same (a b : Label) : Bool :=
  match a, b with
  | text s, text t => s = t
  | data .null, data .null => true
  | a, b => match a.number?, b.number? with
    | some .nan, some .nan => true
    | some x, some y => x.equal y
    | _, _ => false

@[simp]
theorem same_text (s t : String) : (text s).same (text t) = decide (s = t) := rfl

@[simp]
theorem json_ofJson (j : Json) : (ofJson j).json = j := by cases j <;> rfl

end Label

end GateAsm
