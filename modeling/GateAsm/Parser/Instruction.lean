import GateAsm.Parser.Call

/-!
# Instructions and modules

An instruction may bind its results to names: `[%r0, %r1 =] mnemonic …`. A module is any number of
instructions. Nothing is added to the block by an instruction that has an error.
-/

namespace GateAsm

namespace Parser

/-- Reads with no tags at first, and puts the tags of before back whatever comes of it. -/
def withFreshTags {α : Type} (p : Parser α) : Parser α := fun s =>
  let (answer, s') := p { s with tags := [] }
  (answer, { s' with tags := s.tags })

def moreResultNames : (fuel : Nat) → Parser (List Token)
  | 0 => return []
  | fuel + 1 => do
    if (← optional .comma).isNone then return []
    let t ← expectAs .valueName "result name"
    let ts ← moreResultNames fuel
    return t :: ts

def resultNames : Parser (List Token) := do
  match ← optional .valueName with
  | none => return []
  | some t =>
    let ts ← moreResultNames (← get).rest.length
    let _ ← expect .equal
    return t :: ts

def mnemonic (env : ParserEnv) (expected : Option Kind) : Parser Kind := do
  let t ← expectAs .word "operation name"
  match expected with
  | some kind =>
    if t.text = kind.name then return kind else fail (.otherOperation kind.name t.text) t.location
  | none => match env.registry.kind? t.text with
    | some kind => return kind
    | none => fail (.unknownOperation t.text) t.location

/-- Fails unless there are as many result names as result types; there may be no names at all. -/
def checkResultCount (defined : Nat) : List Token → Parser Unit
  | [] => return
  | first :: others =>
    require ((first :: others).length = defined) (.resultCount defined (first :: others).length) first.location

def checkResultNames (seen : List String) : List Token → Parser Unit
  | [] => return
  | t :: ts => do
    require (!(seen.contains t.text || ((← get).block.lookup t.text).isSome)) (.redefinition t.text) t.location
    checkResultNames (t.text :: seen) ts

def resultLabels (names : List Token) : Option (List (Option Label)) :=
  if names.isEmpty then none else some (names.map fun t => some (Label.text t.text))

def operationBody (env : ParserEnv) (kind : Kind) : Parser OperationState :=
  if kind.callForm then callForm env kind else operandGroup env kind

def instructionBody (env : ParserEnv) (expected : Option Kind) : Parser Nat := do
  let names ← resultNames
  let kind ← mnemonic env expected
  let state ← operationBody env kind
  checkResultCount state.resultTypes.length names
  checkResultNames [] names
  let op ← changeBlock fun b => b.createOperation state (resultLabels names)
  record (.parsed state.opcode.display state.operands.length)
  return op

/-- The instruction at the cursor, appended to the block; the inputs that it added are discarded if it
has an error. -/
def instruction (env : ParserEnv) (expected : Option Kind) : Parser Nat := do
  let mark := (← get).block.inputs.length
  try withFreshTags (instructionBody env expected)
  catch e =>
    match e with
    | .error _ =>
      changeBlock fun b => b.discardInputs mark
      throw e
    | e => throw e

def instructions (env : ParserEnv) : (fuel : Nat) → Parser Unit
  | 0 => return
  | fuel + 1 => do
    if ← atEnd then return
    let _ ← instruction env none
    instructions env fuel

def module (env : ParserEnv) : Parser Unit := do instructions env (← get).rest.length

end Parser

/-- What reading a text comes to: the answer, and in any case the block, the context and the reports
that it leaves. -/
structure Reading (α : Type) where
  answer : Except ParseFailure α
  block : Block
  context : TypeContext
  diagnostics : List Diagnostic
  events : List Event

namespace Reading

def run {α : Type} (p : Parser α) (text : String) (context : TypeContext) (block : Block) : Reading α :=
  match TokenStream.ofText text with
  | .error stray =>
    let e : ParseError := ⟨.unexpectedCharacter stray.char, stray.location⟩
    let d : Diagnostic := ⟨.error, e.location, e.message⟩
    ⟨.error (.error e), block, context, [d], [.diagnosed d]⟩
  | .ok tokens =>
    let (answer, s) := p (.start tokens context block)
    ⟨answer, s.block, s.context, s.diagnostics, s.events⟩

def type (registry : Registry) (text : String) (context : TypeContext) : Reading Ty :=
  run (do let t ← Parser.typeExpr registry; Parser.expectEnd; return t) text context .empty

def instruction (env : ParserEnv) (expected : Option Kind) (text : String) (context : TypeContext)
    (block : Block) : Reading Nat :=
  run (do let op ← Parser.instruction env expected; Parser.expectEnd; return op) text context block

def module (env : ParserEnv) (text : String) (context : TypeContext) (block : Block) : Reading Unit :=
  run (Parser.module env) text context block

end Reading

end GateAsm
