import GateAsm.Json.Reader
import GateAsm.Yaml.Cursor

/-!
# Plain and quoted scalars

A scalar without quotes may go on over several lines, as may one between quotes. A line break inside
counts as a space; empty lines that follow it count as line breaks.
-/

namespace GateAsm.Yaml

def folded (first : Char) (breaks : List Char) : List Char :=
  (if first != '\n' then [first] else if breaks.isEmpty then [' '] else []) ++ breaks

/-! ## Plain scalars -/

def isFlowMark (c : Char) : Bool := c = ',' || c = '[' || c = ']' || c = '\x7b' || c = '\x7d'

def endsKey (flow : Bool) (cs : List Char) : Bool :=
  startsWhite cs || (flow && (cs.head?.map isFlowMark).getD false)

def plainRun (flow : Bool) : List Char → List Char
  | [] => []
  | c :: cs =>
    if isWhite c || (c = ':' && endsKey flow cs) || (flow && (isFlowMark c || c = '?')) then []
    else c :: plainRun flow cs

/-- Line breaks with spaces around them, and what follows; the breaks are `none` in front of a mark. -/
def moreBreaks : List Char → Option (List Char) × List Char
  | [] => (some [], [])
  | ' ' :: cs => moreBreaks cs
  | '\r' :: '\n' :: cs =>
    if atAnyMark cs then (none, cs)
    else match moreBreaks cs with
      | (breaks, rest) => (breaks.map ('\n' :: ·), rest)
  | c :: cs =>
    if !isBreak c then (some [], c :: cs)
    else if atAnyMark cs then (none, cs)
    else match moreBreaks cs with
      | (breaks, rest) => (breaks.map ((if c = '\u2028' || c = '\u2029' then c else '\n') :: ·), rest)

/-- The space between two runs of a plain scalar, as it counts, and what follows it; none if the scalar
ends here. -/
def plainSpace (cs : List Char) : List Char × List Char :=
  let rest := cs.dropWhile (· = ' ')
  match takeBreak? rest with
  | none => (cs.takeWhile (· = ' '), rest)
  | some (first, rest) =>
    if atAnyMark rest then ([], rest)
    else match moreBreaks rest with
      | (none, rest) => ([], rest)
      | (some breaks, rest) => (folded first breaks, rest)

/-- The runs of a plain scalar, from a space on that counts only if another run follows; in block context
its lines start at column `low` or further right. Also the line on which the scalar ends. -/
def plainRuns (flow : Bool) (low : Int) : (fuel : Nat) → (space : List Char) → (ends : Nat) →
    Reader (List Char × Nat)
  | 0, _, ends => return ([], ends)
  | fuel + 1, space, ends => do
    let c ← get
    let run := plainRun flow c.rest
    if run.isEmpty || c.rest.head? = some '#' then return ([], ends)
    let c := c.skip run.length
    let (space', rest) := plainSpace c.rest
    let c' := c.jump rest
    set c'
    if space'.isEmpty || (!flow && c'.column < low) then return (space ++ run, c.line)
    let (more, ends) ← plainRuns flow low fuel space' c.line
    return (space ++ run ++ more, ends)

def startsPlain (flow : Bool) (cs : List Char) : Bool :=
  match cs with
  | [] => false
  | c :: rest =>
    !(isWhite c || isFlowMark c || "-?:#&*!|>'\"%@`".contains c)
      || (!startsWhite rest && (c = '-' || (!flow && (c = '?' || c = ':'))))

def plainScalar (flow : Bool) (low : Int) : Reader (String × Bool) := do
  let c ← get
  let (text, ends) ← plainRuns flow low c.rest.length [] c.line
  return (String.ofList text, (← get).line != ends)

/-! ## Quoted scalars -/

def escapes : List (Char × Char) :=
  [('0', '\x00'), ('a', '\x07'), ('b', '\x08'), ('t', '\t'), ('\t', '\t'), ('n', '\n'), ('v', '\x0b'),
   ('f', '\x0c'), ('r', '\r'), ('e', '\x1b'), (' ', ' '), ('"', '"'), ('\\', '\\'), ('/', '/'), ('N', '\x85'),
   ('_', '\xa0'), ('L', '\u2028'), ('P', '\u2029')]

def escapeDigits (c : Char) : Nat :=
  match c with
  | 'x' => 2
  | 'u' => 4
  | 'U' => 8
  | _ => 0

def escapedChar (ds : List Char) : Except YamlFault Char :=
  if !ds.all (fun d => (Json.hexValue? d).isSome) then .error .malformed
  else
    let n := ds.foldl (fun n d => 16 * n + (Json.hexValue? d).getD 0) 0
    if 2 ^ 31 ≤ n then .error .overflow
    else if 0x10ffff < n then .error .badValue
    else .ok (Char.ofNat n)

def quotedBreaks : (fuel : Nat) → List Char → Except YamlFault (List Char × List Char)
  | 0, cs => .ok ([], cs)
  | fuel + 1, cs =>
    if atAnyMark cs then .error .malformed
    else match takeBreak? (cs.dropWhile isBlank) with
      | none => .ok ([], cs.dropWhile isBlank)
      | some (first, rest) => do
        let (breaks, rest) ← quotedBreaks fuel rest
        return (first :: breaks, rest)

def quotedText (mark : Char) : (fuel : Nat) → List Char → Except YamlFault (List Char × List Char)
  | 0, _ => .error .malformed
  | _, [] => .error .malformed
  | fuel + 1, c :: cs => do
    if c = mark then
      if mark = '"' || cs.head? != some mark then return ([], cs)
      let (text, rest) ← quotedText mark fuel (cs.drop 1)
      return (mark :: text, rest)
    else if mark = '"' && c = '\\' then
      match cs with
      | [] => .error .malformed
      | e :: after =>
        match escapes.lookup e, escapeDigits e, takeBreak? cs with
        | some x, _, _ => do
          let (text, rest) ← quotedText mark fuel after
          return (x :: text, rest)
        | none, width + 1, _ => do
          if after.length < width + 1 then throw .malformed
          let x ← escapedChar (after.take (width + 1))
          let (text, rest) ← quotedText mark fuel (after.drop (width + 1))
          return (x :: text, rest)
        | none, 0, some (_, after) => do
          let (breaks, after) ← quotedBreaks cs.length after
          let (text, rest) ← quotedText mark fuel after
          return (breaks ++ text, rest)
        | none, 0, none => .error .malformed
    else if isWhite c then
      let blanks := (c :: cs).takeWhile isBlank
      let after := (c :: cs).drop blanks.length
      match takeBreak? after with
      | none => do
        let (text, rest) ← quotedText mark fuel after
        return (blanks ++ text, rest)
      | some (first, after) => do
        let (breaks, after) ← quotedBreaks cs.length after
        let (text, rest) ← quotedText mark fuel after
        return (folded first breaks ++ text, rest)
    else do
      let (text, rest) ← quotedText mark fuel cs
      return (c :: text, rest)

def quotedScalar (mark : Char) : Reader String := do
  let c ← get
  match quotedText mark c.rest.length (c.rest.drop 1) with
  | .error f => throw f
  | .ok (text, rest) => do
    goTo rest
    return String.ofList text

end GateAsm.Yaml
