import GateAsm.Floating.Double
import GateAsm.Json.Reader
import GateAsm.Text.Quoted

/-!
# Configuration documents

What a configuration text says before anyone asks whether it makes sense: scalars, lists and mappings.
Any scalar can be a key. Keys that are equal numbers are the same key, whatever their form, and of two
entries with the same key the later value stands in the place of the first.
-/

namespace GateAsm

inductive Document
  | null
  | bool (b : Bool)
  | int (n : Int)
  | float (x : Double)
  | text (s : String)
  | list (items : List Document)
  | mapping (entries : List (Document × Document))
  /-- A value of a further kind: the name of the kind, and the value inside a sentence and in a listing. -/
  | other (kind display inspect : String)
  deriving Repr

namespace Document

instance : Inhabited Document := ⟨null⟩

/-! ## Texts -/

mutual

def inspect : Document → String
  | null => "None"
  | bool b => if b then "True" else "False"
  | int n => toString n
  | float x => x.text
  | text s => Text.quoted s
  | list items => "[" ++ ", ".intercalate (inspectItems items) ++ "]"
  | mapping entries => "\x7b" ++ ", ".intercalate (inspectEntries entries) ++ "\x7d"
  | other _ _ shown => shown

def inspectItems : List Document → List String
  | [] => []
  | item :: items => inspect item :: inspectItems items

def inspectEntries : List (Document × Document) → List String
  | [] => []
  | (k, v) :: entries => (inspect k ++ ": " ++ inspect v) :: inspectEntries entries

end

/-- A document as a word of its own: a text without quotes. -/
def display : Document → String
  | text s => s
  | other _ shown _ => shown
  | d => d.inspect

mutual

def isShowable : Document → Bool
  | int n => n.natAbs < 10 ^ maxIntegerDigits
  | list items => areShowable items
  | mapping entries => entriesAreShowable entries
  | _ => true

def areShowable : List Document → Bool
  | [] => true
  | item :: items => isShowable item && areShowable items

def entriesAreShowable : List (Document × Document) → Bool
  | [] => true
  | (k, v) :: entries => isShowable k && isShowable v && entriesAreShowable entries

end

def kindName : Document → String
  | null => "NoneType"
  | bool _ => "bool"
  | int _ => "int"
  | float _ => "float"
  | text _ => "str"
  | list _ => "list"
  | mapping _ => "dict"
  | other kind _ _ => kind

/-! ## Keys -/

def number? : Document → Option Floating.Number
  | bool b => some (.finite false (if b then 1 else 0) 0)
  | int n => some (.finite (n < 0) n.natAbs 0)
  | float x => some x.number
  | _ => none

def sameKey (a b : Document) : Bool :=
  match a, b with
  | null, null => true
  | text s, text t => s = t
  | other kind shown _, other kind' shown' _ => kind = kind' && shown = shown'
  | a, b => match a.number?, b.number? with
    | some x, some y => x.equal y
    | _, _ => false

def lookup (name : String) : List (Document × Document) → Option Document
  | [] => none
  | (k, v) :: entries => if k.sameKey (text name) then some v else lookup name entries

def put (key value : Document) : List (Document × Document) → List (Document × Document)
  | [] => [(key, value)]
  | (k, v) :: entries => if k.sameKey key then (k, value) :: entries else (k, v) :: put key value entries

def otherKeys (names : List String) (entries : List (Document × Document)) : List Document :=
  (entries.map (·.1)).filter fun k => !names.any fun name => k.sameKey (text name)

/-- The sort of a key: keys of one sort have an order among each other. -/
def sortName (d : Document) : String := if d.number?.isSome then "" else d.kindName

def before (a b : Document) : Bool :=
  match a.number?, b.number? with
  | some x, some y => x.less y
  | _, _ => a.display < b.display

def unordered? : List Document → Option (Document × Document)
  | a :: b :: keys => if a.sortName = b.sortName then unordered? (b :: keys) else some (a, b)
  | _ => none

/-- Keys in ascending order, or two keys of different sorts that have none; numbers are compared first and
texts last. -/
def sortKeys (keys : List Document) : Except (Document × Document) (List Document) :=
  let ofSort (p : Document → Bool) : List Document := keys.filter p
  let isText (d : Document) : Bool := d.sortName = "str"
  let isNumber (d : Document) : Bool := d.sortName = ""
  match unordered? (ofSort isNumber ++ ofSort (fun d => !isNumber d && !isText d) ++ ofSort isText) with
  | some pair => .error pair
  | none => .ok (keys.mergeSort fun a b => !b.before a)

mutual

def ofJson : Json → Document
  | .null => null
  | .bool b => bool b
  | .int n => int n
  | .float x => float x
  | .str s => text s
  | .arr items => list (ofItems items)
  | .obj fields => mapping (ofFields fields)

def ofItems : List Json → List Document
  | [] => []
  | j :: js => ofJson j :: ofItems js

def ofFields : List (String × Json) → List (Document × Document)
  | [] => []
  | (k, v) :: fields => (text k, ofJson v) :: ofFields fields

end

end Document

end GateAsm
