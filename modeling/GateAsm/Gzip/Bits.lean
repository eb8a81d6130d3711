/-!
# Bits of compressed data

Compressed data are a stream of bits, the lowest bit of each byte first. A `BitReader` takes bits from
the front of the stream; numbers have their lowest bit first as well.
-/

namespace GateAsm.Gzip

inductive Fault
  | notGzip
  | cutShort
  | broken
  deriving DecidableEq, Repr

def bitsOf (bytes : List UInt8) : List Bool :=
  bytes.flatMap fun b => (List.range 8).map b.toNat.testBit

def numberOf : List Bool → Nat
  | [] => 0
  | b :: bits => b.toNat + 2 * numberOf bits

def bytesOf : List Bool → List UInt8
  | b₀ :: b₁ :: b₂ :: b₃ :: b₄ :: b₅ :: b₆ :: b₇ :: bits =>
    UInt8.ofNat (numberOf [b₀, b₁, b₂, b₃, b₄, b₅, b₆, b₇]) :: bytesOf bits
  | _ => []

abbrev BitReader := StateT (List Bool) (Except Fault)

namespace BitReader

def bit : BitReader Bool := fun
  | [] => .error .cutShort
  | b :: bits => .ok (b, bits)

def number : (size : Nat) → BitReader Nat
  | 0 => return 0
  | size + 1 => do
    let b ← bit
    return b.toNat + 2 * (← number size)

def align : BitReader Unit := modify fun bits => bits.drop (bits.length % 8)

end BitReader

end GateAsm.Gzip
