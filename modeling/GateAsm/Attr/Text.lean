import GateAsm.Array.Listing
import GateAsm.Attr.Basic

/-!
# Attributes in messages

`Attr.inspect` shows a value so that its kind can be told: texts stand in quotes, a tuple of one item
keeps its comma. `Attr.display` shows a text as it is and a symbol with its sigil.
-/

namespace GateAsm

namespace Attr

mutual

def inspect : Attr → String
  | none => "None"
  | bool b => if b then "True" else "False"
  | int n => toString n
  | float x => x.text
  | str s => Text.quoted s
  | symbol name => "SymbolRef(name=" ++ name.inspect ++ ")"
  | constant n => "Constant(value=" ++ toString n ++ ")"
  | dynamic => "DYNAMIC"
  | accessors a => a.text
  | type t => t.text
  | list items => "[" ++ ", ".intercalate (inspectItems items) ++ "]"
  | tuple [item] => "(" ++ inspect item ++ ",)"
  | tuple items => "(" ++ ", ".intercalate (inspectItems items) ++ ")"
  | dict entries => "\x7b" ++ ", ".intercalate (inspectEntries entries) ++ "\x7d"
  | array a => a.inspect
  | int64 n => toString n
  | float64 x => x.text
  | float32 x =>
    Floating.Style.plain.text .single (Floating.Format.single.decode (Floating.Format.single.ofNumber x.number))
  | bool8 b => if b then "True" else "False"
  | block j => s!"Block({operationCount j} ops, {valueCount j} values)"
  | part _ shown => shown

def inspectItems : List Attr → List String
  | [] => []
  | item :: items => inspect item :: inspectItems items

def inspectEntries : List (Attr × Attr) → List String
  | [] => []
  | (k, v) :: entries => (inspect k ++ ": " ++ inspect v) :: inspectEntries entries

end

/-- A value as a message shows it when it is named inside a sentence. A block inside a tag, whose text
depends on the instruction kinds that are known, is shown by its size. -/
def display : Attr → String
  | str s => s
  | symbol name => "@" ++ name.display
  | constant n => toString n
  | array a => a.display
  | a => a.inspect

end Attr

end GateAsm
