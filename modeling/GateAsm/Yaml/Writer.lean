import GateAsm.Yaml.Scalar

/-!
# Writing YAML

Documents in block style: an entry of a mapping on a line of its own, the dashes of a list in the column
of the key that it belongs to, empty collections in brackets.
-/

namespace GateAsm.Yaml

/-- A text that needs no quotes: it starts with a letter, has letters, digits and a few marks only, and
would not be read as something else. -/
def isPlainText (s : String) : Bool :=
  (s.toList.head?.map Char.isAlpha).getD false
    && s.toList.all (fun c => c.isAlphanum || c = '_' || c = '.' || c = '-')
    && !truthWords.any (·.1 = s) && !nullWords.contains s

def singleQuoted (s : String) : String :=
  "'" ++ String.ofList (s.toList.flatMap fun c => if c = '\x27' then [c, c] else [c]) ++ "'"

def scalarText : Document → String
  | .null => "null"
  | .bool b => if b then "true" else "false"
  | .text s => if isPlainText s then s else singleQuoted s
  | d => d.display

/-- A scalar, or a collection without content, in a line; `none` for what takes lines of its own. -/
def inline? : Document → Option String
  | .list [] => some "[]"
  | .mapping [] => some "\x7b\x7d"
  | .list _ | .mapping _ => none
  | d => some (scalarText d)

def dashed : List String → List String
  | [] => ["-"]
  | first :: rest => ("- " ++ first) :: rest.map ("  " ++ ·)

mutual

def lines : Document → List String
  | .list [] => ["[]"]
  | .list items => itemLines items
  | .mapping [] => ["\x7b\x7d"]
  | .mapping entries => entryLines entries
  | d => [scalarText d]

def itemLines : List Document → List String
  | [] => []
  | item :: items => dashed (lines item) ++ itemLines items

def entryLines : List (Document × Document) → List String
  | [] => []
  | (key, value) :: entries =>
    let name := scalarText key ++ ":"
    (match value, inline? value with
      | _, some text => [name ++ " " ++ text]
      | .list items, none => name :: itemLines items
      | value, none => name :: (lines value).map ("  " ++ ·)) ++ entryLines entries

end

def write (d : Document) : String := String.join ((lines d).map (· ++ "\n"))

end GateAsm.Yaml
