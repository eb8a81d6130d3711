import GateAsm.Yaml.Cursor

/-!
# Block scalars

A block scalar stands on lines of its own that are indented alike. Its header says whether line breaks
count as they are or are folded, what becomes of those at its end, and how far it is indented if that is
not to be seen on its first line.
-/

namespace GateAsm.Yaml

inductive Chomping
  | strip
  | clip
  | keep
  deriving DecidableEq, Repr

def chomping? : List Char → Option Chomping
  | '+' :: _ => some .keep
  | '-' :: _ => some .strip
  | _ => none

def increment? : List Char → Option Nat
  | c :: _ => if c.isDigit then some (c.toNat - 48) else none
  | [] => none

def blockHeader : Reader (Chomping × Option Nat) := do
  let taken {α : Type} (x : Option α) : Reader (Option α) := do
    if x.isSome then pass 1
    return x
  let chomping ← taken (chomping? (← get).rest)
  let increment ← taken (increment? (← get).rest)
  let chomping ← if chomping.isSome then pure chomping else taken (chomping? (← get).rest)
  if increment = some 0 || !startsSpace (← get).rest then refuse
  return (chomping.getD .clip, increment)

def lineBreak : Reader (List Char) := do
  match takeBreak? (← get).rest with
  | some (c, rest) => do
    goTo rest
    return [c]
  | none => return []

/-- Reads spaces and line breaks in front of the first line, and gives the breaks and the greatest column
that spaces lead to. -/
def leadingBreaks : (fuel : Nat) → (column : Nat) → Reader (List Char × Nat)
  | 0, column => return ([], column)
  | fuel + 1, column => do
    match (← get).rest with
    | ' ' :: _ => do
      pass 1
      leadingBreaks fuel (max column (← get).column)
    | c :: _ => do
      if !isBreak c then return ([], column)
      let here ← lineBreak
      let (more, column) ← leadingBreaks fuel column
      return (here ++ more, column)
    | [] => return ([], column)

def passIndent (column : Nat) : Reader Unit := do
  let c ← get
  pass ((c.rest.take (column - c.column)).takeWhile (· = ' ')).length

def indentedBreaks (column : Nat) : (fuel : Nat) → Reader (List Char)
  | 0 => return []
  | fuel + 1 => do
    passIndent column
    let here ← lineBreak
    if here.isEmpty then return []
    return here ++ (← indentedBreaks column fuel)

def atLine (column : Nat) : Reader Bool := do
  let c ← get
  return c.column = column && !c.rest.isEmpty

def startsBlank (cs : List Char) : Bool := (cs.head?.map isBlank).getD false

def blockLines (isFolded : Bool) (column : Nat) : (fuel : Nat) → (before : List Char) →
    Reader (List Char × List Char × List Char)
  | 0, before => return (before, [], [])
  | fuel + 1, before => do
    let blank := startsBlank (← get).rest
    let line ← passWhile (!isBreak ·)
    let last ← lineBreak
    let breaks ← indentedBreaks column (fuel + 1)
    if ← atLine column then
      let glue :=
        if isFolded && last = ['\n'] && !blank && !startsBlank (← get).rest then
          if breaks.isEmpty then [' '] else []
        else last
      let (text, last, after) ← blockLines isFolded column fuel breaks
      return (before ++ line ++ glue ++ text, last, after)
    return (before ++ line, last, breaks)

/-- Reads a block scalar inside something that is indented to a column, which is -1 at the top. -/
def blockScalar (isFolded : Bool) (indent : Int) : Reader String := do
  pass 1
  let (chomping, increment) ← blockHeader
  endOfLine
  let fuel := (← get).rest.length + 1
  let least := max (indent + 1).toNat 1
  let (breaks, column) ← match increment with
    | none => do
      let (breaks, column) ← leadingBreaks fuel 0
      pure (breaks, max least column)
    | some n => do
      let column := least + n - 1
      pure (← indentedBreaks column fuel, column)
  let (text, last, after) ←
    if ← atLine column then blockLines isFolded column fuel breaks else pure ([], [], breaks)
  let tail := match chomping with
    | .strip => []
    | .clip => last
    | .keep => last ++ after
  return String.ofList (text ++ tail)

end GateAsm.Yaml
