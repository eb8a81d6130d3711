import GateAsm.Json.Basic

/-!
# Reading JSON

`Json.read` reads a whole text. Beside the standard it takes the words `NaN`, `Infinity` and
`-Infinity`; it refuses raw control characters in strings and a byte order mark, and an integer of more
digits than `maxIntegerDigits` is a fault of its own.
-/

namespace GateAsm

/-- The most digits that an integer may have to be read from a text or written as one. -/
def maxIntegerDigits : Nat := 4300

def FewDigits (n : Int) : Prop := n.natAbs < 10 ^ maxIntegerDigits

instance (n : Int) : Decidable (FewDigits n) := inferInstanceAs (Decidable (_ < _))

namespace Json

inductive ReadFault
  | malformed
  | integerTooLong
  deriving DecidableEq, Repr

def isSpace (c : Char) : Bool := c = ' ' || c = '\t' || c = '\n' || c = '\r'

def skipSpace (cs : List Char) : List Char := cs.dropWhile isSpace

def hexValue? (c : Char) : Option Nat :=
  if '0' ≤ c && c ≤ '9' then some (c.toNat - 48)
  else if 'a' ≤ c && c ≤ 'f' then some (c.toNat - 87)
  else if 'A' ≤ c && c ≤ 'F' then some (c.toNat - 55)
  else none

def unit? : List Char → Option (Nat × List Char)
  | a :: b :: c :: d :: cs => do
    let a ← hexValue? a
    let b ← hexValue? b
    let c ← hexValue? c
    let d ← hexValue? d
    some (((a * 16 + b) * 16 + c) * 16 + d, cs)
  | _ => none

def unescape? (c : Char) : Option Char :=
  if c = '"' || c = '\\' || c = '/' then some c
  else if c = 'n' then some '\n'
  else if c = 'r' then some '\r'
  else if c = 't' then some '\t'
  else if c = 'b' then some (Char.ofNat 8)
  else if c = 'f' then some (Char.ofNat 12)
  else none

def unitChar (n : Nat) : Char := if 0xd800 ≤ n && n < 0xe000 then Char.ofNat 0xfffd else Char.ofNat n

/-- The escape behind a backslash: its character and what follows it. Two escapes that make a pair
are one character. -/
def escape? : List Char → Option (Char × List Char)
  | [] => none
  | c :: cs =>
    if c = 'u' then
      match unit? cs with
      | none => none
      | some (high, rest) =>
        match if 0xd800 ≤ high && high < 0xdc00 then rest else [] with
        | '\\' :: 'u' :: more => match unit? more with
          | some (low, after) =>
            if 0xdc00 ≤ low && low < 0xe000 then
              some (Char.ofNat (0x10000 + (high - 0xd800) * 0x400 + (low - 0xdc00)), after)
            else some (unitChar high, rest)
          | none => some (unitChar high, rest)
        | _ => some (unitChar high, rest)
    else (unescape? c).map (·, cs)

def stringBody? : (fuel : Nat) → List Char → Option (List Char × List Char)
  | 0, _ => none
  | _, [] => none
  | fuel + 1, c :: cs =>
    if c = '"' then some ([], cs)
    else if c = '\\' then
      match escape? cs with
      | none => none
      | some (e, rest) => (stringBody? fuel rest).map fun (body, after) => (e :: body, after)
    else if c.toNat < 0x20 then none
    else (stringBody? fuel cs).map fun (body, after) => (c :: body, after)

def afterWord? : (word : List Char) → List Char → Option (List Char)
  | [], cs => some cs
  | _ :: _, [] => none
  | w :: word, c :: cs => if c = w then afterWord? word cs else none

def wholePart : List Char → List Char × List Char
  | '0' :: cs => (['0'], cs)
  | cs => (cs.takeWhile Char.isDigit, cs.dropWhile Char.isDigit)

def fractionPart : List Char → List Char × List Char
  | '.' :: cs =>
    let ds := cs.takeWhile Char.isDigit
    if ds.isEmpty then ([], '.' :: cs) else ('.' :: ds, cs.dropWhile Char.isDigit)
  | cs => ([], cs)

def signed (negative : Bool) (ds : List Char) : Int :=
  let n : Int := Floating.natOfDigits ds
  if negative then -n else n

def numberAt (negative : Bool) (cs : List Char) : Except ReadFault (Json × List Char) :=
  let (whole, rest) := wholePart cs
  if whole.isEmpty then .error .malformed
  else
    let (fraction, rest) := fractionPart rest
    let (exponent, rest) := Floating.exponentPart rest
    if fraction.isEmpty && exponent.isEmpty then
      if maxIntegerDigits < whole.length then .error .integerTooLong
      else .ok (.int (signed negative whole), rest)
    else
      match Floating.ofLiteral? Floating.Format.double (whole ++ fraction ++ exponent) with
      | some bits => .ok (.float ⟨bits + if negative then Floating.Format.double.signWeight else 0⟩, rest)
      | none => .error .malformed

def words : List (List Char × Json) :=
  [("null".toList, null), ("true".toList, bool true), ("false".toList, bool false),
   ("NaN".toList, float ⟨Floating.Format.double.quietNaN⟩),
   ("Infinity".toList, float ⟨Floating.Format.double.infinity false⟩),
   ("-Infinity".toList, float ⟨Floating.Format.double.infinity true⟩)]

def scalarAt (cs : List Char) : Except ReadFault (Json × List Char) :=
  match words.findSome? fun (word, value) => (afterWord? word cs).map (value, ·) with
  | some found => .ok found
  | none => match cs with
    | '-' :: cs => numberAt true cs
    | cs => numberAt false cs

mutual

def valueAt : (fuel : Nat) → List Char → Except ReadFault (Json × List Char)
  | 0, _ => .error .malformed
  | _ + 1, '"' :: cs => match stringBody? (cs.length + 1) cs with
    | some (body, rest) => .ok (.str (String.ofList body), rest)
    | none => .error .malformed
  | fuel + 1, '[' :: cs => match skipSpace cs with
    | ']' :: rest => .ok (.arr [], rest)
    | rest => itemsAt fuel [] rest
  | fuel + 1, '{' :: cs => match skipSpace cs with
    | '}' :: rest => .ok (.obj [], rest)
    | rest => fieldsAt fuel [] rest
  | _ + 1, cs => scalarAt cs

def itemsAt : (fuel : Nat) → (done : List Json) → List Char → Except ReadFault (Json × List Char)
  | 0, _, _ => .error .malformed
  | fuel + 1, done, cs => match valueAt fuel cs with
    | .error e => .error e
    | .ok (item, rest) => match skipSpace rest with
      | ',' :: rest => itemsAt fuel (item :: done) (skipSpace rest)
      | ']' :: rest => .ok (.arr (item :: done).reverse, rest)
      | _ => .error .malformed

def fieldsAt : (fuel : Nat) → (done : List (String × Json)) → List Char →
    Except ReadFault (Json × List Char)
  | 0, _, _ => .error .malformed
  | fuel + 1, done, '"' :: cs => match stringBody? (cs.length + 1) cs with
    | none => .error .malformed
    | some (key, rest) => match skipSpace rest with
      | ':' :: rest => match valueAt fuel (skipSpace rest) with
        | .error e => .error e
        | .ok (value, rest) =>
          let done := put (String.ofList key) value done
          match skipSpace rest with
          | ',' :: rest => fieldsAt fuel done (skipSpace rest)
          | '}' :: rest => .ok (.obj done, rest)
          | _ => .error .malformed
      | _ => .error .malformed
  | _ + 1, _, _ => .error .malformed

end

def read (s : String) : Except ReadFault Json :=
  match valueAt (s.length + 1) (skipSpace s.toList) with
  | .error e => .error e
  | .ok (value, rest) => if (skipSpace rest).isEmpty then .ok value else .error .malformed

def readString? (s : String) : Option String :=
  match s.toList with
  | '"' :: cs => match stringBody? (cs.length + 1) cs with
    | some (body, []) => some (String.ofList body)
    | _ => none
  | _ => none

end Json

end GateAsm
