import GateAsm.Power

/-!
# Binary floating point numbers

A floating point number is kept as the bits of its interchange format, so that equality is decidable
and nothing is rounded unless it is asked for. `Format.decode` reads bits as a number, `Format.encode`
is its inverse on finite numbers in range, and `Format.round` gives the nearest number to a quotient of
natural numbers, a tie going to the even mantissa.
-/

namespace GateAsm.Floating

/-- What the bits of a floating point number stand for: `mantissa * 2 ^ exponent` if finite. -/
inductive Number
  | nan
  | infinite (negative : Bool)
  | finite (negative : Bool) (mantissa : Nat) (exponent : Int)
  deriving DecidableEq, Repr

namespace Number

def isFinite : Number → Bool
  | finite .. => true
  | _ => false

def isNegative : Number → Bool
  | nan => false
  | infinite s => s
  | finite s .. => s

def toInt? : Number → Option Int
  | finite s m e =>
    let magnitude? : Option Nat :=
      if 0 ≤ e then some (m * 2 ^ e.toNat)
      else if m % 2 ^ (-e).toNat = 0 then some (m / 2 ^ (-e).toNat) else none
    magnitude?.map fun n => if s then -(n : Int) else n
  | _ => none

def truncate? : Number → Option Int
  | finite s m e =>
    let magnitude := if 0 ≤ e then m * 2 ^ e.toNat else m / 2 ^ (-e).toNat
    some (if s then -(magnitude : Int) else magnitude)
  | _ => none

def isZero : Number → Bool
  | finite _ 0 _ => true
  | _ => false

def compareFinite (s : Bool) (m : Nat) (e : Int) (s' : Bool) (m' : Nat) (e' : Int) : Ordering :=
  let low := min e e'
  let scaled (s : Bool) (m : Nat) (e : Int) : Int := (if s then -1 else 1) * (m * 2 ^ (e - low).toNat : Nat)
  compare (scaled s m e) (scaled s' m' e')

def compare? : Number → Number → Option Ordering
  | nan, _ | _, nan => none
  | infinite s, infinite s' => some (if s = s' then .eq else if s then .lt else .gt)
  | infinite s, _ => some (if s then .lt else .gt)
  | _, infinite s => some (if s then .gt else .lt)
  | finite s m e, finite s' m' e' => some (compareFinite s m e s' m' e')

/-- Two numbers are equal; zeros of both signs are, NaN equals nothing. -/
def equal (x y : Number) : Bool := x.compare? y = some .eq

def less (x y : Number) : Bool := x.compare? y = some .lt

end Number

structure Format where
  mantissaBits : Nat
  exponentBits : Nat
  deriving DecidableEq, Repr

namespace Format

def half : Format := ⟨10, 5⟩

def single : Format := ⟨23, 8⟩

def double : Format := ⟨52, 11⟩

def reserved (f : Format) : Nat := 2 ^ f.exponentBits - 1

def minExponent (f : Format) : Int :=
  2 - (2 ^ (f.exponentBits - 1) : Nat) - f.mantissaBits

def signWeight (f : Format) : Nat := 2 ^ (f.mantissaBits + f.exponentBits)

def decode (f : Format) (bits : Nat) : Number :=
  let negative := bits / f.signWeight % 2 = 1
  let field := bits / 2 ^ f.mantissaBits % 2 ^ f.exponentBits
  let fraction := bits % 2 ^ f.mantissaBits
  if field = f.reserved then
    if fraction = 0 then .infinite negative else .nan
  else if field = 0 then .finite negative fraction f.minExponent
  else .finite negative (2 ^ f.mantissaBits + fraction) (f.minExponent + (field - 1 : Nat))

def infinity (f : Format) (negative : Bool) : Nat :=
  (if negative then f.signWeight else 0) + f.reserved * 2 ^ f.mantissaBits

def quietNaN (f : Format) : Nat :=
  f.reserved * 2 ^ f.mantissaBits + 2 ^ (f.mantissaBits - 1)

def encode (f : Format) (negative : Bool) (mantissa : Nat) (exponent : Int) : Nat :=
  let sign := if negative then f.signWeight else 0
  let field := (exponent - f.minExponent).toNat
  if mantissa < 2 ^ f.mantissaBits then sign + mantissa
  else sign + (field + 1) * 2 ^ f.mantissaBits + (mantissa - 2 ^ f.mantissaBits)

/-- The quotient rounded to the nearest integer, a tie going to the even one. -/
def roundDiv (num den : Nat) : Nat :=
  let q := num / den
  let r := num % den
  if 2 * r < den then q else if den < 2 * r then q + 1 else q + q % 2

/-- The largest `a` with `2 ^ a ≤ num / den`, for positive arguments. -/
def floorLog2 (num den : Nat) : Int :=
  let a : Int := (num.log2 : Int) - den.log2
  if num * 2 ^ (-a).toNat < den * 2 ^ a.toNat then a - 1 else a

/-- The bits of the number nearest to `num / den`, infinity from half a unit past the largest. -/
def round (f : Format) (negative : Bool) (num den : Nat) : Nat :=
  if num = 0 then f.encode negative 0 f.minExponent
  else
    let e := max (floorLog2 num den - f.mantissaBits) f.minExponent
    let m := roundDiv (num * 2 ^ (-e).toNat) (den * 2 ^ e.toNat)
    let (m, e) := if m = 2 ^ (f.mantissaBits + 1) then (2 ^ f.mantissaBits, e + 1) else (m, e)
    if (f.reserved : Int) ≤ e - f.minExponent + 1 then f.infinity negative
    else f.encode negative m e

def ofNumber (f : Format) : Number → Nat
  | .nan => f.quietNaN
  | .infinite s => f.infinity s
  | .finite s m e => f.round s (m * 2 ^ e.toNat) (2 ^ (-e).toNat)

end Format

end GateAsm.Floating
