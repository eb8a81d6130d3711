import GateAsm.Source.Location

/-!
# Tokens

The words of assembly text. Every token knows where it starts; the end of the text is a token of its
own, behind all others.
-/

namespace GateAsm

inductive TokenKind
  | valueName
  | symbolName
  | word
  | float
  | int
  | string
  | arrow
  | openParen
  | closeParen
  | openBracket
  | closeBracket
  | openBrace
  | closeBrace
  | less
  | more
  | comma
  | colon
  | equal
  | endOfText
  deriving DecidableEq, Repr

namespace TokenKind

def names : List (String × TokenKind) :=
  [("VALUE_ID", valueName), ("SYMBOL_ID", symbolName), ("BARE_ID", word), ("FLOAT", float), ("INT", int),
   ("STRING", string), ("ARROW", arrow), ("LPAR", openParen), ("RPAR", closeParen), ("LSQB", openBracket),
   ("RSQB", closeBracket), ("LBRACE", openBrace), ("RBRACE", closeBrace), ("LESS", less), ("MORE", more),
   ("COMMA", comma), ("COLON", colon), ("EQUAL", equal), ("$END", endOfText)]

def name (k : TokenKind) : String := ((names.find? (·.2 = k)).map (·.1)).getD ""

def ofName? (s : String) : Option TokenKind := (names.find? (·.1 = s)).map (·.2)

def description : TokenKind → String
  | valueName => "SSA value"
  | symbolName => "symbol reference"
  | word => "identifier"
  | int => "integer"
  | float => "float"
  | string => "string"
  | arrow => "'->'"
  | openParen => "'('"
  | closeParen => "')'"
  | openBracket => "'['"
  | closeBracket => "']'"
  | openBrace => "'\x7b'"
  | closeBrace => "'\x7d'"
  | less => "'<'"
  | more => "'>'"
  | comma => "','"
  | colon => "':'"
  | equal => "'='"
  | endOfText => "end of input"

def isDelimiter : TokenKind → Bool
  | openParen | closeParen | openBracket | closeBracket | openBrace | closeBrace | less | more => true
  | _ => false

def ofPunctuation? (c : Char) : Option TokenKind :=
  match c with
  | '(' => some openParen
  | ')' => some closeParen
  | '[' => some openBracket
  | ']' => some closeBracket
  | '{' => some openBrace
  | '}' => some closeBrace
  | '<' => some less
  | '>' => some more
  | ',' => some comma
  | ':' => some colon
  | '=' => some equal
  | _ => none

end TokenKind

structure Token where
  kind : TokenKind
  text : String
  location : Location
  deriving DecidableEq, Repr

def Token.shown (t : Token) : String :=
  if t.kind = .endOfText then "end of input" else s!"'{t.text}'"

/-- The tokens of a text, and the position behind its last character. -/
structure TokenStream where
  tokens : List Token
  endLocation : Location
  deriving DecidableEq, Repr

namespace TokenStream

def endToken (s : TokenStream) : Token := ⟨.endOfText, "", s.endLocation⟩

def toList (s : TokenStream) : List Token := s.tokens ++ [s.endToken]

end TokenStream

end GateAsm
