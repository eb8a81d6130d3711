import GateAsm.Yaml.BlockScalar
import GateAsm.Yaml.FlowScalar
import GateAsm.Yaml.Mark

/-!
# Scanning YAML

The scanner turns a text into tokens. That something is the key of an entry shows only at the colon
behind it, so the scanner remembers where keys may have started, one for each depth of brackets; the
tokens in front of a key are entered when its colon is found. Outside brackets the columns of lists and
mappings are kept, so that their ends are found.
-/

namespace GateAsm.Yaml

structure PossibleKey where
  position : Nat
  /-- Nothing else can stand there. -/
  required : Bool
  line : Nat
  column : Nat
  index : Nat

structure ScanState where
  cursor : Cursor
  tokens : Array Token
  entered : List (Nat × List Token)
  /-- Possible keys by the depth of brackets. -/
  keys : List (Nat × PossibleKey)
  allowsKey : Bool
  /-- The column of the innermost collection in block context, -1 if there is none. -/
  indent : Int
  outer : List Int
  depth : Nat

/-- A step of scanning; what was found before a fault stays. -/
abbrev Scanner := ExceptT YamlFault (StateM ScanState)

namespace Scanner

def maxKeyLength : Nat := 1024

def ofReader {α : Type} (r : Reader α) : Scanner α := do
  match r (← get).cursor with
  | .ok (a, c) => do
    modify fun s => { s with cursor := c }
    return a
  | .error f => throw f

def push (t : Token) : Scanner Unit := modify fun s => { s with tokens := s.tokens.push t }

def allowKey (allowed : Bool) : Scanner Unit := modify fun s => { s with allowsKey := allowed }

def giveUp (k : PossibleKey) : Scanner Unit := do
  if k.required then throw .malformed

def dropStale : Scanner Unit := do
  let s ← get
  let isStale (k : PossibleKey) : Bool := k.line != s.cursor.line || maxKeyLength < s.cursor.index - k.index
  s.keys.forM fun (_, k) => do if isStale k then giveUp k
  modify fun s => { s with keys := s.keys.filter fun (_, k) => !isStale k }

def dropKey : Scanner Unit := do
  let s ← get
  match s.keys.lookup s.depth with
  | some k => giveUp k
  | none => return
  modify fun s => { s with keys := s.keys.filter (·.1 != s.depth) }

def saveKey : Scanner Unit := do
  let s ← get
  if s.allowsKey then
    dropKey
    let required := s.depth = 0 && s.indent = s.cursor.column
    let key : PossibleKey := ⟨s.tokens.size, required, s.cursor.line, s.cursor.column, s.cursor.index⟩
    modify fun s => { s with keys := (s.depth, key) :: s.keys }

def closed (column indent : Int) : List Int → Nat × Int × List Int
  | [] => (0, indent, [])
  | next :: outer =>
    if column < indent then
      let (count, indent, outer) := closed column next outer
      (count + 1, indent, outer)
    else (0, indent, next :: outer)

/-- Closes the collections beyond a column; inside brackets columns mean nothing. -/
def unwind (column : Int) : Scanner Unit := do
  let s ← get
  if s.depth = 0 then
    let (count, indent, outer) := closed column s.indent s.outer
    set { s with indent := indent, outer := outer }
    (List.replicate count Token.blockEnd).forM push

def openAt (column : Nat) : Scanner Bool := do
  let s ← get
  if s.indent < column then
    set { s with indent := column, outer := s.indent :: s.outer }
    return true
  return false

def mark (t : Token) : Scanner Unit := do
  ofReader (pass 1)
  push t

/-! ## Tokens -/

/-- A token that belongs to no collection: all collections are closed in front of it. -/
def topLevel (t : Scanner Token) : Scanner Unit := do
  unwind (-1)
  dropKey
  allowKey false
  push (← t)

def openBracket (t : Token) : Scanner Unit := do
  saveKey
  modify fun s => { s with depth := s.depth + 1 }
  allowKey true
  mark t

def closeBracket (t : Token) : Scanner Unit := do
  dropKey
  if (← get).depth = 0 then throw .malformed
  modify fun s => { s with depth := s.depth - 1 }
  allowKey false
  mark t

def comma : Scanner Unit := do
  allowKey true
  dropKey
  mark .flowEntry

def indicator (start t : Token) (allows : Bool) : Scanner Unit := do
  let s ← get
  if s.depth = 0 then
    if !s.allowsKey then throw .malformed
    if ← openAt s.cursor.column then push start
  allowKey allows
  dropKey
  mark t

/-- A colon: the possible key of this depth is one, or else there is no key in front of it. -/
def colon : Scanner Unit := do
  let s ← get
  match s.keys.lookup s.depth with
  | some k => do
    let opens ← if s.depth = 0 then openAt k.column else pure false
    let entered := if opens then [Token.blockMappingStart, .key] else [.key]
    modify fun s => { s with
      keys := s.keys.filter (·.1 != s.depth), entered := (k.position, entered) :: s.entered }
    allowKey false
    mark .value
  | none => indicator .blockMappingStart .value (s.depth = 0)

def keyLike (t : Reader Token) : Scanner Unit := do
  saveKey
  allowKey false
  push (← ofReader t)

def plain : Scanner Unit := do
  saveKey
  let s ← get
  let (text, leftLine) ← ofReader (plainScalar (s.depth != 0) (s.indent + 1))
  allowKey leftLine
  push (.scalar text true)

def block (isFolded : Bool) : Scanner Unit := do
  allowKey true
  dropKey
  let s ← get
  push (.scalar (← ofReader (blockScalar isFolded s.indent)) false)

def next : Scanner Bool := do
  if (← ofReader gap) && (← get).depth = 0 then allowKey true
  dropStale
  unwind (← get).cursor.column
  let s ← get
  let flow := s.depth != 0
  match s.cursor.rest with
  | [] => do
    topLevel (return .streamEnd)
    return true
  | c :: cs =>
    let atStart := s.cursor.column = 0
    let separated := flow || startsWhite cs
    if c = '%' && atStart then topLevel (ofReader directive)
    else if atStart && atAnyMark s.cursor.rest then topLevel do
      ofReader (pass 3)
      return if c = '-' then .documentStart else .documentEnd
    else if c = '[' then openBracket .flowListStart
    else if c = '\x7b' then openBracket .flowMappingStart
    else if c = ']' then closeBracket .flowListEnd
    else if c = '\x7d' then closeBracket .flowMappingEnd
    else if c = ',' then comma
    else if c = '-' && startsWhite cs then indicator .blockListStart .blockEntry true
    else if c = '?' && separated then indicator .blockMappingStart .key (!flow)
    else if c = ':' && separated then colon
    else if c = '*' then keyLike (return .alias (← anchorName))
    else if c = '&' then keyLike (return .anchor (← anchorName))
    else if c = '!' then keyLike tag
    else if (c = '|' || c = '>') && !flow then block (c = '>')
    else if c = '"' || c = '\x27' then keyLike (return .scalar (← quotedScalar c) false)
    else if startsPlain flow s.cursor.rest then plain
    else throw .malformed
    return false

def all : (fuel : Nat) → Scanner Unit
  | 0 => throw .malformed
  | fuel + 1 => do if !(← next) then all fuel

end Scanner

def withEntered (entered : List (Nat × List Token)) : (position : Nat) → List Token → List Token
  | _, [] => []
  | position, t :: ts => (entered.lookup position).getD [] ++ t :: withEntered entered (position + 1) ts

def scan (cs : List Char) : List Token × Option YamlFault :=
  let (answer, s) := (Scanner.all (cs.length + 1)).run ⟨.start cs, #[], [], [], true, -1, [], 0⟩
  let tokens := withEntered s.entered 0 s.tokens.toList
  match answer with
  | .ok () => (tokens, none)
  | .error f => (tokens, some f)

end GateAsm.Yaml
