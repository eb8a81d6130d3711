import GateAsm.Log.Record
import GateAsm.Text.Quoted
import GateAsm.Power

/-!
# Formats of log lines

The pattern of a line names the parts of a record between `%(` and `)`, followed by a width and a
conversion. A pattern has to name one part at least.
-/

namespace GateAsm

structure LogFormat where
  pattern : String
  date : Option String
  deriving DecidableEq, Repr

namespace LogFormat

def defaultPattern : String := "%(asctime)s [%(levelname)s] %(name)s: %(message)s"

def standard : LogFormat := ⟨defaultPattern, none⟩

/-- What stands between a percent sign and the end of its conversion: the name of a part, if there is
one, flags, the least width, and the precision. -/
structure Conversion where
  name : Option String
  flags : List Char
  width : Nat
  precision : Option Nat
  mark : Char

def isFlag (c : Char) : Bool := c = '#' || c = '0' || c = '+' || c = ' ' || c = '-'

def isWordChar (c : Char) : Bool := c.isAlphanum || c = '_'

def number (digits : List Char) : Nat := digits.foldl (fun n c => 10 * n + (c.toNat - 48)) 0

/-- The conversion behind a percent sign, and what follows it. A letter for the size of a number may
stand in front of the mark and means nothing. -/
def conversion? (cs : List Char) : Option (Conversion × List Char) :=
  let (name, cs) := match cs with
    | '(' :: rest => match rest.dropWhile (· != ')') with
      | ')' :: after => (some (String.ofList (rest.takeWhile (· != ')'))), after)
      | _ => (none, cs)
    | cs => (none, cs)
  let flags := cs.takeWhile isFlag
  let cs := cs.dropWhile isFlag
  let width := number (cs.takeWhile Char.isDigit)
  let (precision, cs) := match cs.dropWhile Char.isDigit with
    | '.' :: cs => (some (number (cs.takeWhile Char.isDigit)), cs.dropWhile Char.isDigit)
    | cs => (none, cs)
  let cs := match cs with
    | 'h' :: cs | 'l' :: cs | 'L' :: cs => cs
    | cs => cs
  match cs with
  | mark :: rest => some (⟨name, flags, width, precision, mark⟩, rest)
  | [] => none

def afterCount (cs : List Char) : List Char :=
  match cs with
  | '*' :: cs => cs
  | cs => cs.dropWhile Char.isDigit

def takesPart (cs : List Char) : Bool :=
  match cs with
  | '(' :: cs => match cs.takeWhile isWordChar, cs.dropWhile isWordChar with
    | _ :: _, ')' :: cs =>
      let cs := afterCount (cs.dropWhile isFlag)
      let cs := match cs with
        | '.' :: rest => if (afterCount rest).length < rest.length then afterCount rest else cs
        | cs => cs
      (cs.head?.map fun mark => "diouxefgcrsa%".contains mark.toLower).getD false
    | _, _ => false
  | _ => false

def namesPart : List Char → Bool
  | [] => false
  | '%' :: cs => takesPart cs || namesPart cs
  | _ :: cs => namesPart cs

def Valid (f : LogFormat) : Prop := namesPart f.pattern.toList = true

instance (f : LogFormat) : Decidable f.Valid := by unfold Valid; infer_instance

inductive Part
  | text (s : String)
  | number (n : Nat)
  | other (shown : String)

def dateText (pattern : String) : String := pattern.replace "%%" "%"

def part? (f : LogFormat) (now : String) (r : LogRecord) (name : String) : Option Part :=
  match name with
  | "levelname" => some (.text r.level.text)
  | "levelno" => some (.number r.level.rank)
  | "name" => some (.text r.logger)
  | "message" => some (.text r.message)
  | "msg" => some (.text r.wording)
  | "args" => some (.other (match r.arguments with
    | [a] => "(" ++ a ++ ",)"
    | as => "(" ++ ", ".intercalate as ++ ")"))
  | "asctime" => some (.text ((f.date.map dateText).getD now))
  | "threadName" => some (.text "MainThread")
  | "processName" => some (.text "MainProcess")
  | "exc_info" | "exc_text" | "stack_info" => some (.other "None")
  | _ => none

def textField (c : Conversion) (s : String) : String :=
  let s := match c.precision with
    | some n => (s.take n).toString
    | none => s
  let fill := String.ofList (List.replicate (c.width - s.length) ' ')
  if c.flags.contains '-' then s ++ fill else fill ++ s

def zeros (length : Nat) (digits : String) : String :=
  String.ofList (List.replicate (length - digits.length) '0') ++ digits

/-- The leading digits of a number, as many as asked for, and the exponent of the first. What is cut off is
rounded, a half to the even digit. -/
def leading (count n : Nat) : List Char × Nat :=
  let length := (toString n).length
  if length ≤ count then ((toString n).toList ++ List.replicate (count - length) '0', length - 1)
  else
    let unit := 10 ^ (length - count)
    let kept := n / unit
    let rest := n % unit
    let rounded := if unit < 2 * rest || (2 * rest = unit && kept % 2 = 1) then kept + 1 else kept
    if rounded = 10 ^ count then ((toString (rounded / 10)).toList, length) else ((toString rounded).toList, length - 1)

def pointed (always : Bool) (whole fraction : List Char) : String :=
  String.ofList (whole ++ if always || !fraction.isEmpty then '.' :: fraction else [])

def scientific (always : Bool) (digits : List Char) (exponent : Nat) : String :=
  pointed always (digits.take 1) (digits.drop 1) ++ "e+" ++ zeros 2 (toString exponent)

/-- A number in as many digits as asked for, with an exponent only if it has more; zeros at its end are
left out unless the point is wanted always. -/
def general (always : Bool) (count n : Nat) : String :=
  let (digits, exponent) := leading count n
  let trimmed := if always then digits else (digits.reverse.dropWhile (· = '0')).reverse
  if exponent < count then pointed always (digits.take (exponent + 1)) (trimmed.drop (exponent + 1))
  else scientific always (if trimmed.isEmpty then digits.take 1 else trimmed) exponent

/-- The digits of a number in a conversion, behind the mark of their base if one is asked for. The
precision is the least count of digits, the count behind the point, or the count of all of them. -/
def digits? (c : Conversion) (n : Nat) : Option (String × String) :=
  let always := c.flags.contains '#'
  let based (base : Nat) (mark : String) : Option (String × String) :=
    some (if always then mark else "",
      zeros (c.precision.getD 0) (String.ofList (Nat.toDigits base n)))
  match c.mark with
  | 'd' | 'i' | 'u' => based 10 ""
  | 'o' => based 8 "0o"
  | 'x' => based 16 "0x"
  | 'X' => (based 16 "0X").map fun (mark, digits) => (mark, digits.toUpper)
  | 'f' | 'F' => some ("", pointed always (toString n).toList (List.replicate (c.precision.getD 6) '0'))
  | 'e' | 'E' =>
    let (digits, exponent) := leading (c.precision.getD 6 + 1) n
    let text := scientific always digits exponent
    some ("", if c.mark = 'E' then text.toUpper else text)
  | 'g' | 'G' =>
    let text := general always (max 1 (c.precision.getD 6)) n
    some ("", if c.mark = 'G' then text.toUpper else text)
  | _ => none

def numberField? (c : Conversion) (n : Nat) : Option String := do
  let (mark, digits) ← digits? c n
  let sign := (if c.flags.contains '+' then "+" else if c.flags.contains ' ' then " " else "") ++ mark
  some (if c.flags.contains '0' && !c.flags.contains '-' then sign ++ zeros (c.width - sign.length) digits
    else textField { c with precision := none } (sign ++ digits))

def convert? (c : Conversion) (p : Part) : Option String :=
  match c.mark, p with
  | 's', .text s => some (textField c s)
  | 'r', .text s => some (textField c (Text.quoted s))
  | 'a', .text s => some (textField c (Text.asciiOnly (Text.quoted s)))
  | 'c', .text s => if s.length = 1 then some (textField { c with precision := none } s) else none
  | 's', .other s | 'r', .other s => some (textField c s)
  | 'a', .other s => some (textField c (Text.asciiOnly s))
  | 's', .number n | 'r', .number n | 'a', .number n => some (textField c (toString n))
  | 'c', .number n => some (textField { c with precision := none } (Char.ofNat n).toString)
  | _, .number n => numberField? c n
  | _, _ => none

def renderFrom (f : LogFormat) (now : String) (r : LogRecord) : (fuel : Nat) → List Char → Option String
  | _, [] => some ""
  | 0, _ => none
  | fuel + 1, '%' :: '%' :: cs => return "%" ++ (← renderFrom f now r fuel cs)
  | fuel + 1, '%' :: cs => do
    let (c, rest) ← conversion? cs
    let here ← convert? c (← f.part? now r (← c.name))
    return here ++ (← renderFrom f now r fuel rest)
  | fuel + 1, c :: cs => return c.toString ++ (← renderFrom f now r fuel cs)

def line? (f : LogFormat) (now : String) (r : LogRecord) : Option String :=
  (f.renderFrom now r f.pattern.length f.pattern.toList).map (· ++ "\n")

end LogFormat

end GateAsm
