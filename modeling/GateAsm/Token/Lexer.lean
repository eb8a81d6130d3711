import GateAsm.Token.Basic
import GateAsm.Floating.Text

/-!
# From text to tokens

`Lexeme.at?` reads the token at the front of a text: its kind, its characters behind the first, and the
rest. A number with a point or an exponent is a float and is tried before an integer. Blanks and
comments separate tokens and are no tokens themselves.
-/

namespace GateAsm

def isNameChar (c : Char) : Bool := c.isAlphanum || c = '_' || c = '$' || c = '.'

def isNameStart (c : Char) : Bool := c.isAlpha || c = '_'

def isTokenSpace (c : Char) : Bool := c = ' ' || c = '\t' || c = '\x0c' || c = '\r' || c = '\n'

/-- The front of a text as a token: the characters behind the first one, and the rest of the text. -/
structure Lexeme where
  kind : TokenKind
  tail : List Char
  rest : List Char
  deriving DecidableEq

namespace Lexeme

def name (kind : TokenKind) (cs : List Char) : Lexeme :=
  ⟨kind, cs.takeWhile isNameChar, cs.dropWhile isNameChar⟩

def number? (cs : List Char) : Option Lexeme :=
  let whole := cs.takeWhile Char.isDigit
  if whole.isEmpty then none
  else match cs.dropWhile Char.isDigit with
    | '.' :: rest =>
      let (exponent, rest') := Floating.exponentPart (rest.dropWhile Char.isDigit)
      some ⟨.float, whole ++ '.' :: rest.takeWhile Char.isDigit ++ exponent, rest'⟩
    | rest =>
      let (exponent, rest') := Floating.exponentPart rest
      some ⟨if exponent.isEmpty then .int else .float, whole ++ exponent, rest'⟩

def string? : List Char → Option (List Char × List Char)
  | [] => none
  | '"' :: cs => some (['"'], cs)
  | '\n' :: _ => none
  | '\\' :: cs => match cs with
    | [] => none
    | c :: cs => if c = '\n' then none else (string? cs).map fun (body, rest) => ('\\' :: c :: body, rest)
  | c :: cs => (string? cs).map fun (body, rest) => (c :: body, rest)

def at? (c : Char) (cs : List Char) : Option Lexeme :=
  if isNameStart c then some (name .word cs)
  else if c = '%' then
    let found := name .valueName cs
    if found.tail.isEmpty then none else some found
  else if c = '@' then match cs with
    | d :: ds =>
      if isNameStart d then some { name .symbolName ds with tail := d :: (name .symbolName ds).tail } else none
    | [] => none
  else if c.isDigit then (number? (c :: cs)).map fun found => { found with tail := found.tail.drop 1 }
  else if c = '-' then match cs with
    | '>' :: rest => some ⟨.arrow, ['>'], rest⟩
    | cs => number? cs
  else if c = '"' then (string? cs).map fun (body, rest) => ⟨.string, body, rest⟩
  else (TokenKind.ofPunctuation? c).map fun kind => ⟨kind, [], cs⟩

end Lexeme

/-- The characters that separate tokens at the front of a text: one blank, or a whole comment. -/
def gapAt? (c : Char) (cs : List Char) : Option (List Char × List Char) :=
  if isTokenSpace c then some ([c], cs)
  else if c = '/' then match cs with
    | '/' :: rest => some ('/' :: '/' :: rest.takeWhile (· != '\n'), rest.dropWhile (· != '\n'))
    | _ => none
  else none

structure StrayCharacter where
  char : Char
  location : Location
  deriving DecidableEq, Repr

namespace TokenStream

def lexFrom : (fuel : Nat) → Location → List Char → Except StrayCharacter TokenStream
  | _, l, [] => .ok ⟨[], l⟩
  | 0, l, c :: _ => .error ⟨c, l⟩
  | fuel + 1, l, c :: cs => match gapAt? c cs with
    | some (gap, rest) => lexFrom fuel (l.advance gap) rest
    | none => match Lexeme.at? c cs with
      | none => .error ⟨c, l⟩
      | some found =>
        let text := c :: found.tail
        (lexFrom fuel (l.advance text) found.rest).map fun s =>
          { s with tokens := ⟨found.kind, String.ofList text, l⟩ :: s.tokens }

def ofText (s : String) : Except StrayCharacter TokenStream :=
  lexFrom s.length .start s.toList

end TokenStream

end GateAsm
