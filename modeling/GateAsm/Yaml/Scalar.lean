import GateAsm.Config.Document
import GateAsm.Text.Integer
import GateAsm.Yaml.Fault
import GateAsm.Yaml.Timestamp

/-!
# Scalars of YAML

A scalar without quotes is a text unless it has the form of something else: a truth value, a number, a
time, or nothing. Underscores may stand between the digits of a number; an integer can be binary, octal,
hexadecimal or a colon-separated number of base sixty. A tag may ask for a reading of a scalar that has
not its form.
-/

namespace GateAsm.Yaml

inductive Tag
  | null
  | bool
  | int
  | float
  | binary
  | timestamp
  | text
  | list
  | mapping
  | set
  | orderedMapping
  | pairs
  | merge
  | value
  | unknown
  deriving DecidableEq, Repr

namespace Tag

def home : String := "tag:yaml.org,2002:"

def words : List (String × Tag) :=
  [("null", null), ("bool", bool), ("int", int), ("float", float), ("binary", binary), ("timestamp", timestamp),
   ("str", text), ("seq", list), ("map", mapping), ("set", set), ("omap", orderedMapping), ("pairs", pairs),
   ("merge", merge), ("value", value)]

def ofName (name : String) : Tag := ((words.find? fun w => home ++ w.1 = name).map (·.2)).getD unknown

def isCollection (t : Tag) : Bool :=
  [list, mapping, set, orderedMapping, pairs].contains t

end Tag

/-! ## Forms -/

def truthWords : List (String × Bool) :=
  [("yes", true), ("Yes", true), ("YES", true), ("no", false), ("No", false), ("NO", false),
   ("true", true), ("True", true), ("TRUE", true), ("false", false), ("False", false), ("FALSE", false),
   ("on", true), ("On", true), ("ON", true), ("off", false), ("Off", false), ("OFF", false)]

def nullWords : List String := ["~", "null", "Null", "NULL", ""]

def infinityWords : List String := [".inf", ".Inf", ".INF"]

def nanWords : List String := [".nan", ".NaN", ".NAN"]

def isDigitMark (c : Char) : Bool := c.isDigit || c = '_'

def isDigits : List Char → Bool
  | c :: cs => c.isDigit && cs.all isDigitMark
  | [] => false

def isCount (cs : List Char) : Bool := isDigits cs && cs.head? != some '0'

def isSixtieth : List Char → Bool
  | [c] => c.isDigit
  | [a, b] => '0' ≤ a && a ≤ '5' && b.isDigit
  | _ => false

def colonParts (cs : List Char) : List (List Char) :=
  match cs with
  | [] => [[]]
  | c :: cs => match c, colonParts cs with
    | ':', parts => [] :: parts
    | c, part :: parts => (c :: part) :: parts
    | c, [] => [[c]]

def areMarks (isDigit : Char → Bool) (cs : List Char) : Bool :=
  !cs.isEmpty && cs.all fun c => isDigit c || c = '_'

def isInteger (s : String) : Bool :=
  match (Floating.splitSign s.toList).2 with
  | ['0'] => true
  | '0' :: 'b' :: ds => areMarks (fun c => c = '0' || c = '1') ds
  | '0' :: 'x' :: ds => areMarks (fun c => (Json.hexValue? c).isSome) ds
  | '0' :: ds => areMarks (fun c => '0' ≤ c && c ≤ '7') ds
  | cs => match colonParts cs with
    | ds :: parts => isCount ds && parts.all isSixtieth
    | [] => false

def isExponent : List Char → Bool
  | [] => true
  | e :: sign :: ds => (e = 'e' || e = 'E') && (sign = '+' || sign = '-') && !ds.isEmpty && ds.all Char.isDigit
  | _ => false

def isDecimal (signed : Bool) (cs : List Char) : Bool :=
  let whole := cs.takeWhile isDigitMark
  match cs.dropWhile isDigitMark with
  | '.' :: rest =>
    let fraction := rest.takeWhile isDigitMark
    isExponent (rest.dropWhile isDigitMark)
      && (isDigits whole || (whole.isEmpty && !signed && isDigits fraction))
  | _ => false

def isSixtyReal (cs : List Char) : Bool :=
  match (colonParts cs).reverse with
  | last :: middle@(_ :: _) =>
    match middle.reverse, last.dropWhile Char.isDigit with
    | first :: parts, '.' :: fraction =>
      isDigits first && parts.all isSixtieth && isSixtieth (last.takeWhile Char.isDigit)
        && fraction.all isDigitMark
    | _, _ => false
  | _ => false

def isReal (s : String) : Bool :=
  let (_, body) := Floating.splitSign s.toList
  infinityWords.contains (String.ofList body) || nanWords.contains s
    || isDecimal (body.length != s.length) body || isSixtyReal body

def plainTag (s : String) : Tag :=
  if (truthWords.lookup s).isSome then .bool
  else if isReal s then .float
  else if isInteger s then .int
  else if s = "<<" then .merge
  else if nullWords.contains s then .null
  else if Timestamp.isPlain s then .timestamp
  else if s = "=" then .value
  else if s = "!" || s = "&" || s = "*" then .unknown
  else .text

/-! ## Readings -/

def orBad {α : Type} (x : Option α) : Except YamlFault α :=
  match x with
  | some a => .ok a
  | none => .error .badValue

def sixtyValue (digits : List Int) : Int := digits.foldl (fun n d => 60 * n + d) 0

def integerOf (s : String) : Except YamlFault Int := do
  let cs := s.toList.filter (· != '_')
  let (negative, body) := Floating.splitSign cs
  let text (cs : List Char) : String := String.ofList cs
  let n ← match body with
    | [] => throw .noDigits
    | ['0'] => pure 0
    | '0' :: 'b' :: ds => orBad (Text.integerInBase? 2 'b' (text ds))
    | '0' :: 'x' :: ds => orBad (Text.integerInBase? 16 'x' (text ds))
    | '0' :: _ => orBad (Text.integerInBase? 8 'o' (text body))
    | body => do
      let parts ← (colonParts body).mapM fun part => orBad (Text.integer? (text part))
      pure (sixtyValue parts)
  return if negative then -n else n

/-- A finite double as a signed mantissa and an exponent; anything else counts as zero. -/
def exactly (x : Double) : Int × Int :=
  match x.number with
  | .finite negative m e => (if negative then -(m : Int) else m, e)
  | _ => (0, 0)

def rounded (m e : Int) : Double :=
  ⟨Floating.Format.double.round (m < 0) (m.natAbs * 2 ^ e.toNat) (2 ^ (-e).toNat)⟩

def sum (x y : Double) : Double :=
  let (m, e) := exactly x
  let (n, f) := exactly y
  let low := min e f
  rounded (m * 2 ^ (e - low).toNat + n * 2 ^ (f - low).toNat) low

def product (x y : Double) : Double :=
  let (m, e) := exactly x
  let (n, f) := exactly y
  rounded (m * n) (e + f)

def sixtySum : (done : Double) → (base : Nat) → List Double → Except YamlFault Double
  | done, _, [] => .ok done
  | done, base, d :: ds =>
    let weight := Double.ofInt base
    if weight.isFinite then sixtySum (sum done (product d weight)) (60 * base) ds else .error .overflow

def realOf (s : String) : Except YamlFault Double := do
  let cs := (s.toList.filter (· != '_')).map Char.toLower
  if cs.isEmpty then throw .noDigits
  let (negative, body) := Floating.splitSign cs
  let text := String.ofList body
  let format := Floating.Format.double
  if text = ".nan" then return ⟨format.quietNaN⟩
  let x ← if text = ".inf" then pure ⟨format.infinity false⟩
    else match colonParts body with
      | [_] => orBad (Double.ofText? text)
      | parts => do
        let digits ← parts.mapM fun part => orBad (Double.ofText? (String.ofList part))
        sixtySum (.ofInt 0) 1 digits.reverse
  if !negative then return x
  return if x.isSignSet then ⟨x.bits - format.signWeight⟩ else ⟨x.bits + format.signWeight⟩

def truthOf (s : String) : Except YamlFault Bool :=
  let word := String.ofList (s.toList.map Char.toLower)
  match truthWords.lookup word with
  | some b => .ok b
  | none => .error (.noTruth word)

def timeOf (s : String) : Except YamlFault Timestamp :=
  match Timestamp.ofText? s with
  | none => .error .noTime
  | some t => if t.isValid then .ok t else .error .badValue

end GateAsm.Yaml
