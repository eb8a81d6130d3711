import GateAsm.Floating.Shortest
import GateAsm.Text.Blank

/-!
# Floating point numbers as text

`Style` fixes how the digits of a number are laid out; `Style.text` writes a number with the fewest
digits that read back. `readDecimal` is the other direction: the number nearest to a decimal.
-/

namespace GateAsm.Floating

structure Style where
  /-- Decimal exponents from `lowest` to `highest` are written without an exponent. -/
  lowest : Int
  highest : Int
  exponentWidth : Nat
  nan : String
  infinity : String

def Style.plain : Style := ⟨-4, 15, 2, "nan", "inf"⟩

def Style.json : Style := ⟨-4, 15, 2, "NaN", "Infinity"⟩

namespace Style

def exponentText (s : Style) (a : Int) : String :=
  let digits := toString a.natAbs
  let pad := String.ofList (List.replicate (s.exponentWidth - digits.length) '0')
  (if a < 0 then "e-" else "e+") ++ pad ++ digits

def layout (s : Style) (ds : List Char) (a : Int) : String :=
  if s.lowest ≤ a && a ≤ s.highest then
    if a < 0 then
      "0." ++ String.ofList (List.replicate ((-a).toNat - 1) '0' ++ ds)
    else
      let whole := a.toNat + 1
      let front := ds.take whole ++ List.replicate (whole - ds.length) '0'
      let back := ds.drop whole
      String.ofList front ++ "." ++ (if back.isEmpty then "0" else String.ofList back)
  else
    String.ofList (ds.take 1) ++ (if ds.length ≤ 1 then "" else "." ++ String.ofList (ds.drop 1))
      ++ s.exponentText a

def decimalText (s : Style) (d : Decimal) : String :=
  let ds := (toString d.digits).toList
  let kept := (ds.reverse.dropWhile (· == '0')).reverse
  s.layout kept (d.exponent + ds.length - 1)

def text (s : Style) (f : Format) : Number → String
  | .nan => s.nan
  | .infinite negative => (if negative then "-" else "") ++ s.infinity
  | .finite negative m e =>
    (if negative then "-" else "") ++ (if m = 0 then "0.0" else s.decimalText (shortest f m e))

end Style

def readDecimal (f : Format) (negative : Bool) (digits : Nat) (exponent : Int) : Nat :=
  let magnitude : Int := exponent + (digits.log2 : Int) * 30103 / 100000
  if digits = 0 then f.round negative 0 1
  else if 400 < magnitude then f.infinity negative
  else if magnitude < -400 then f.round negative 0 1
  else f.round negative (digits * 10 ^ exponent.toNat) (10 ^ (-exponent).toNat)

def natOfDigits (cs : List Char) : Nat :=
  cs.foldl (fun n c => 10 * n + (c.toNat - 48)) 0

def splitSign : List Char → Bool × List Char
  | '-' :: cs => (true, cs)
  | '+' :: cs => (false, cs)
  | cs => (false, cs)

def signPart : List Char → List Char × List Char
  | '+' :: rest => (['+'], rest)
  | '-' :: rest => (['-'], rest)
  | rest => ([], rest)

def exponentPart : List Char → List Char × List Char
  | [] => ([], [])
  | c :: cs =>
    if c = 'e' || c = 'E' then
      let (mark, rest) := signPart cs
      let ds := rest.takeWhile Char.isDigit
      if ds.isEmpty then ([], c :: cs) else (c :: mark ++ ds, rest.dropWhile Char.isDigit)
    else ([], c :: cs)

/-- The exponent that a text `e±d…` spells; `none` if it is anything else than empty or that. -/
def exponentPart? : List Char → Option Int
  | [] => some 0
  | c :: cs =>
    let (negative, ds) := splitSign cs
    if (c == 'e' || c == 'E') && !ds.isEmpty && ds.all Char.isDigit then
      let n := natOfDigits ds
      some (if negative then -(n : Int) else n)
    else none

def ofLiteral? (f : Format) (text : List Char) : Option Nat :=
  let (negative, cs) := splitSign text
  let whole := cs.takeWhile Char.isDigit
  let rest := cs.dropWhile Char.isDigit
  let (fraction, tail) := match rest with
    | '.' :: rest => (rest.takeWhile Char.isDigit, rest.dropWhile Char.isDigit)
    | rest => ([], rest)
  if whole.isEmpty && fraction.isEmpty then none
  else (exponentPart? tail).map fun e =>
    readDecimal f negative (natOfDigits (whole ++ fraction)) (e - fraction.length)

end GateAsm.Floating
