import GateAsm.Yaml.Fault

/-!
# Places in a YAML text

Where reading stands in a text, the classes of characters, and the gaps between tokens. What ends a line
takes several forms, most of which count as a line feed.
-/

namespace GateAsm.Yaml

structure Cursor where
  rest : List Char
  line : Nat
  column : Nat
  index : Nat

abbrev Reader := StateT Cursor (Except YamlFault)

def refuse {α : Type} : Reader α := throw .malformed

/-! ## Characters -/

def isBreak (c : Char) : Bool :=
  c = '\n' || c = '\r' || c = '\x85' || c = '\u2028' || c = '\u2029'

def isBlank (c : Char) : Bool := c = ' ' || c = '\t'

def isWhite (c : Char) : Bool := isBlank c || isBreak c

def startsWhite : List Char → Bool
  | [] => true
  | c :: _ => isWhite c

def startsSpace : List Char → Bool
  | [] => true
  | c :: _ => c = ' ' || isBreak c

def startsBreak : List Char → Bool
  | [] => true
  | c :: _ => isBreak c

def isAllowed (c : Char) : Bool :=
  c = '\t' || c = '\n' || c = '\r' || (' ' ≤ c && c ≤ '~') || c = '\x85' || ('\xa0' ≤ c && c ≤ '\ufffd')
    || '\uffff' < c

/-- The line break at the front of a text and what follows it; most forms of it count as one. -/
def takeBreak? : List Char → Option (Char × List Char)
  | '\r' :: '\n' :: cs => some ('\n', cs)
  | c :: cs =>
    if isBreak c then some (if c = '\u2028' || c = '\u2029' then c else '\n', cs) else none
  | [] => none

def atMark (mark : Char) (cs : List Char) : Bool :=
  cs.take 3 = [mark, mark, mark] && startsWhite (cs.drop 3)

def atAnyMark (cs : List Char) : Bool := atMark '-' cs || atMark '.' cs

/-! ## Moving on -/

namespace Cursor

def start (cs : List Char) : Cursor := ⟨cs, 0, 0, 0⟩

def next (c : Cursor) : Cursor :=
  match c.rest with
  | [] => c
  | x :: rest =>
    if isBreak x && !(x = '\r' && rest.head? = some '\n') then ⟨rest, c.line + 1, 0, c.index + 1⟩
    else if x = '\ufeff' then ⟨rest, c.line, c.column, c.index + 1⟩
    else ⟨rest, c.line, c.column + 1, c.index + 1⟩

def skip (c : Cursor) : (count : Nat) → Cursor
  | 0 => c
  | count + 1 => c.next.skip count

def jump (c : Cursor) (rest : List Char) : Cursor := c.skip (c.rest.length - rest.length)

end Cursor

def pass (count : Nat) : Reader Unit := modify (·.skip count)

def goTo (rest : List Char) : Reader Unit := modify (·.jump rest)

def passWhile (p : Char → Bool) : Reader (List Char) := do
  let found := (← get).rest.takeWhile p
  pass found.length
  return found

/-! ## Gaps -/

def afterGap (comment : Bool) : List Char → List Char
  | [] => []
  | c :: cs =>
    if isBreak c then afterGap false cs
    else if comment || c = '#' then afterGap true cs
    else if c = ' ' then afterGap false cs
    else c :: cs

def gap : Reader Bool := do
  let line := (← get).line
  goTo (afterGap false (← get).rest)
  return (← get).line != line

def endOfLine : Reader Unit := do
  let _ ← passWhile (· = ' ')
  if (← get).rest.head? = some '#' then
    let _ ← passWhile (!isBreak ·)
  if !startsBreak (← get).rest then refuse
  match takeBreak? (← get).rest with
  | some (_, rest) => goTo rest
  | none => return

end GateAsm.Yaml
