import GateAsm.Floating.Basic

/-!
# The fewest digits that read back

A decimal text stands for a number when it lies in the interval of reals that round to it. `shortest`
finds the decimal with the fewest digits in that interval, and of those the one nearest to the number,
an exact tie going to the even last digit.
-/

namespace GateAsm.Floating

structure Decimal where
  digits : Nat
  exponent : Int
  deriving DecidableEq, Repr

/-- The reals that round to a number, as `[low, high] / scale`, with the number itself between them. -/
structure RoundingInterval where
  low : Nat
  value : Nat
  high : Nat
  scale : Nat
  closed : Bool

/-- The interval of a positive number `m * 2 ^ e`; below a power of two the grid is twice as fine. -/
def roundingInterval (f : Format) (m : Nat) (e : Int) : RoundingInterval :=
  let lowGap := if m = 2 ^ f.mantissaBits && f.minExponent < e then 1 else 2
  let up := 2 ^ e.toNat
  { low := (4 * m - lowGap) * up, value := 4 * m * up, high := (4 * m + 2) * up
    scale := 4 * 2 ^ (-e).toNat, closed := m % 2 = 0 }

namespace RoundingInterval

def holds (i : RoundingInterval) (d : Decimal) : Bool :=
  let x := d.digits * 10 ^ d.exponent.toNat * i.scale
  let ten := 10 ^ (-d.exponent).toNat
  if i.closed then i.low * ten ≤ x && x ≤ i.high * ten
  else i.low * ten < x && x < i.high * ten

def decimalExponent (i : RoundingInterval) : Int :=
  let guess := ((i.value.log2 : Int) - i.scale.log2 - 1) * 30103 / 100000
  let fits (a : Int) : Bool := i.scale * 10 ^ a.toNat ≤ i.value * 10 ^ (-a).toNat
  if fits (guess + 1) then guess + 1 else if fits guess then guess else guess - 1

def neighbours (i : RoundingInterval) (a : Int) : Decimal × Decimal :=
  let below := i.value * 10 ^ (-a).toNat / (i.scale * 10 ^ a.toNat)
  (⟨below, a⟩, ⟨below + 1, a⟩)

/-- The neighbour on the grid of `10 ^ a` that reads back, the nearer one if both do. -/
def onGrid? (i : RoundingInterval) (a : Int) : Option Decimal :=
  let (below, above) := i.neighbours a
  match i.holds below && below.digits != 0, i.holds above with
  | false, false => none
  | true, false => some below
  | false, true => some above
  | true, true =>
    let twice := 2 * i.value * 10 ^ (-a).toNat
    let middle := (2 * below.digits + 1) * i.scale * 10 ^ a.toNat
    if twice < middle then some below
    else if middle < twice then some above
    else if below.digits % 2 = 0 then some below else some above

def coarsest? (i : RoundingInterval) : (grids : Nat) → (a : Int) → Option Decimal
  | 0, _ => none
  | grids + 1, a => match i.onGrid? a with
    | some d => some d
    | none => i.coarsest? grids (a - 1)

end RoundingInterval

/-- The fewest digits that read back as the positive number `m * 2 ^ e` of a format. -/
def shortest (f : Format) (m : Nat) (e : Int) : Decimal :=
  let i := roundingInterval f m e
  (i.coarsest? 18 i.decimalExponent).getD ⟨i.value / i.scale, 0⟩

end GateAsm.Floating
