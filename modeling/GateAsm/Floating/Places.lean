import GateAsm.Floating.Shortest

/-!
# Digits up to a place

`digitsTo` writes a positive number with the fewest digits that read back, but with no digit behind a
last place and with all digits up to a least place. Where the last place cuts digits off, the number is
rounded to the nearest, a tie going to the even digit.
-/

namespace GateAsm.Floating

/-- Decimal digits, the first of them of weight `10 ^ exponent`. -/
structure PlacedDigits where
  digits : List Nat
  exponent : Int
  deriving DecidableEq, Repr

/-- What is left of a number behind the digits written so far, in units of the next place: the rest, and
how far it may be changed downwards and upwards without reading back as another number. -/
structure Remainder where
  rest : Nat
  below : Nat
  above : Nat

namespace Remainder

def tenfold (r : Remainder) : Remainder := ⟨10 * r.rest, 10 * r.below, 10 * r.above⟩

def mayDrop (closed : Bool) (r : Remainder) : Bool := if closed then r.rest ≤ r.below else r.rest < r.below

def mayRaise (closed : Bool) (unit : Nat) (r : Remainder) : Bool :=
  if closed then unit ≤ r.rest + r.above else unit < r.rest + r.above

def drops (closed : Bool) (unit digit : Nat) (r : Remainder) : Bool :=
  if r.mayDrop closed != r.mayRaise closed unit then r.mayDrop closed
  else 2 * r.rest < unit || (2 * r.rest = unit && digit % 2 = 0)

end Remainder

/-- The digits of a number from the place `10 ^ place` on, in units of which the rest is given. A last
digit that is rounded up may come out as ten. -/
def digitsFrom (closed : Bool) (unit : Nat) (least last : Int) :
    (fuel : Nat) → (place : Int) → Remainder → List Nat
  | 0, _, _ => []
  | fuel + 1, place, r =>
    let digit := r.rest / unit
    let left : Remainder := { r with rest := r.rest % unit }
    if ((left.mayDrop closed || left.mayRaise closed unit) && place ≤ least) || place = last then
      [if left.drops closed unit digit then digit else digit + 1]
    else digit :: digitsFrom closed unit least last fuel (place - 1) left.tenfold

def carried (d : PlacedDigits) : PlacedDigits :=
  if d.digits.getLast? != some 10 then d
  else match d.digits.dropLast.reverse.dropWhile (· = 9) with
    | [] => ⟨[1], d.exponent + 1⟩
    | x :: xs => ⟨((x + 1) :: xs).reverse, d.exponent⟩

def mostDigits : Nat := 64

/-- The digits of the positive number `m * 2 ^ e` of a format: the fewest that read back, but all up to
the place `10 ^ least`, and none behind the place `10 ^ last`. Both places are given with the place of
the first digit known. -/
def digitsTo (f : Format) (m : Nat) (e : Int) (least last : Int → Int) : PlacedDigits :=
  let i := roundingInterval f m e
  let a := i.decimalExponent
  let up := 10 ^ (-a).toNat
  carried ⟨digitsFrom i.closed (i.scale * 10 ^ a.toNat) (least a) (last a) mostDigits a
    ⟨i.value * up, (i.value - i.low) * up, (i.high - i.value) * up⟩, a⟩

namespace PlacedDigits

def zero : PlacedDigits := ⟨[0], 0⟩

def chars (ds : List Nat) : List Char := ds.map fun d => Char.ofNat (48 + d)

def whole (d : PlacedDigits) : List Char :=
  if d.exponent < 0 then ['0']
  else
    let count := d.exponent.toNat + 1
    chars (d.digits.take count) ++ List.replicate (count - d.digits.length) '0'

def fraction (d : PlacedDigits) : List Char :=
  let cs :=
    if d.exponent < 0 then List.replicate ((-d.exponent).toNat - 1) '0' ++ chars d.digits
    else chars (d.digits.drop (d.exponent.toNat + 1))
  (cs.reverse.dropWhile (· == '0')).reverse

def tail (d : PlacedDigits) : List Char := ((chars (d.digits.drop 1)).reverse.dropWhile (· == '0')).reverse

end PlacedDigits

end GateAsm.Floating
