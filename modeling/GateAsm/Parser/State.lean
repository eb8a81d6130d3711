import GateAsm.Block.Window
import GateAsm.Kind.Registry
import GateAsm.Log.Event
import GateAsm.Parser.Fault
import GateAsm.Token.Lexer
import GateAsm.Ty.Context

/-!
# The parser and its cursor

A parser works on a state: the tokens not read yet, the block and the type context that it fills, and
what it has reported. The state survives a failure, so that a caller sees what was left behind. The
token for the end of the text stands behind the last token and is never consumed.
-/

namespace GateAsm

structure ParserState where
  rest : List Token
  endLocation : Location
  block : Block
  context : TypeContext
  tags : List (String × Attr)
  diagnostics : List Diagnostic
  events : List Event

structure ParserEnv where
  registry : Registry
  allowMissingAngle : Bool

/-- A step of reading: an answer or a failure, and in both cases the state that it leaves. -/
abbrev Parser := ExceptT ParseFailure (StateM ParserState)

namespace ParserState

def start (s : TokenStream) (context : TypeContext) (block : Block) : ParserState :=
  ⟨s.tokens, s.endLocation, block, context, [], [], []⟩

def endToken (s : ParserState) : Token := ⟨.endOfText, "", s.endLocation⟩

def ahead (s : ParserState) (n : Nat) : Token := (s.rest[n]?).getD s.endToken

/-- The token at a distance from the current one in the whole text, the end token if it would lie behind
that. A negative distance looks back, and in front of the first token it goes on from the end. -/
def near? (all : TokenStream) (s : ParserState) (n : Int) : Option Token :=
  itemAt? all.toList (min (all.tokens.length - s.rest.length + n) all.tokens.length)

def report (s : ParserState) (d : Diagnostic) : ParserState :=
  { s with diagnostics := s.diagnostics ++ [d], events := s.events ++ [.diagnosed d] }

def record (s : ParserState) (e : Event) : ParserState := { s with events := s.events ++ [e] }

end ParserState

namespace Parser

/-! ## Cursor -/

def peek (n : Nat) : Parser Token := return (← get).ahead n

def advance : Parser Token := do
  let s ← get
  set { s with rest := s.rest.drop 1 }
  return s.ahead 0

def location : Parser Location := return (← peek 0).location

def atEnd : Parser Bool := return (← peek 0).kind = .endOfText

/-! ## Reports -/

def fail {α : Type} (cause : ParseCause) (l : Location) : Parser α := do
  modify (·.report ⟨.error, l, cause.message⟩)
  throw (.error ⟨cause, l⟩)

def require (ok : Bool) (cause : ParseCause) (l : Location) : Parser Unit :=
  if ok then return () else fail cause l

def warn (message : String) (l : Location) : Parser Unit := modify (·.report ⟨.warning, l, message⟩)

def record (e : Event) : Parser Unit := modify (·.record e)

/-! ## Single tokens -/

def optional (kind : TokenKind) : Parser (Option Token) := do
  if (← peek 0).kind = kind then return some (← advance) else return none

def missing (kind : TokenKind) (wanted : String) (found : Token) : ParseCause :=
  if kind.isDelimiter then .missingDelimiter wanted found else .unexpectedToken wanted found

/-- Consumes a token of the kind or fails; `wanted` is what a message calls it. -/
def expectAs (kind : TokenKind) (wanted : String) : Parser Token := do
  let t ← peek 0
  if t.kind = kind then advance else fail (missing kind wanted t) t.location

def expect (kind : TokenKind) : Parser Token := expectAs kind kind.description

def expectEnd : Parser Unit := do
  let _ ← expect .endOfText

def intern (t : Ty) : Parser Ty := do
  let s ← get
  let (kept, context) := s.context.intern t
  set { s with context := context }
  if context.size != s.context.size then record (.interned kept context.name)
  return kept

end Parser

end GateAsm
