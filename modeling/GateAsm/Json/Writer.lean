import GateAsm.Json.Basic
import GateAsm.Text.Quoted

/-!
# Writing JSON

The text is plain ASCII: a character outside it is written as an escape, two for a character beyond
the first plane. `Layout.compact` writes no blanks at all; `Layout.indented n` puts each item on a line
of its own, `n` blanks deeper than the bracket, and an empty list or object stays closed up.
-/

namespace GateAsm.Json

inductive Layout
  | compact
  | indented (width : Nat)
  deriving DecidableEq, Repr

def unitEscape (n : Nat) : List Char := '\\' :: 'u' :: Text.hexDigits 4 n

def shortEscape? (c : Char) : Option Char :=
  if c = '"' then some '"'
  else if c = '\\' then some '\\'
  else if c = '\n' then some 'n'
  else if c = '\r' then some 'r'
  else if c = '\t' then some 't'
  else if c = Char.ofNat 8 then some 'b'
  else if c = Char.ofNat 12 then some 'f'
  else none

def asciiChar (c : Char) : List Char :=
  match shortEscape? c with
  | some e => ['\\', e]
  | none =>
    if 0x20 ≤ c.toNat && c.toNat < 0x7f then [c]
    else if c.toNat < 0x10000 then unitEscape c.toNat
    else
      let n := c.toNat - 0x10000
      unitEscape (0xd800 + n / 0x400) ++ unitEscape (0xdc00 + n % 0x400)

def rawChar (c : Char) : List Char :=
  match shortEscape? c with
  | some e => ['\\', e]
  | none => if c.toNat < 0x20 then unitEscape c.toNat else [c]

def stringChars (s : String) : List Char := '"' :: s.toList.flatMap asciiChar ++ ['"']

def rawString (s : String) : String := String.ofList ('"' :: s.toList.flatMap rawChar ++ ['"'])

namespace Layout

def newline : Layout → (depth : Nat) → List Char
  | compact, _ => []
  | indented width, depth => '\n' :: List.replicate (width * depth) ' '

def colon : Layout → List Char
  | compact => [':']
  | indented _ => [':', ' ']

end Layout

mutual

def chars (l : Layout) (depth : Nat) : Json → List Char
  | null => "null".toList
  | bool b => if b then "true".toList else "false".toList
  | int n => (toString n).toList
  | float x => x.jsonText.toList
  | str s => stringChars s
  | arr [] => ['[', ']']
  | arr (item :: items) =>
    '[' :: l.newline (depth + 1) ++ chars l (depth + 1) item ++ itemChars l (depth + 1) items
      ++ l.newline depth ++ [']']
  | obj [] => ['{', '}']
  | obj ((k, v) :: fields) =>
    '{' :: l.newline (depth + 1) ++ stringChars k ++ l.colon ++ chars l (depth + 1) v
      ++ fieldChars l (depth + 1) fields ++ l.newline depth ++ ['}']

def itemChars (l : Layout) (depth : Nat) : List Json → List Char
  | [] => []
  | item :: items => ',' :: l.newline depth ++ chars l depth item ++ itemChars l depth items

def fieldChars (l : Layout) (depth : Nat) : List (String × Json) → List Char
  | [] => []
  | (k, v) :: fields =>
    ',' :: l.newline depth ++ stringChars k ++ l.colon ++ chars l depth v ++ fieldChars l depth fields

end

def write (l : Layout) (j : Json) : String := String.ofList (j.chars l 0)

end GateAsm.Json
