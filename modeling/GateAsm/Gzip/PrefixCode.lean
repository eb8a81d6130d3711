import GateAsm.Gzip.Bits

/-!
# Prefix codes

A prefix code is given by the length of the code of each symbol: shorter codes come before longer ones,
and codes of one length follow each other in the order of their symbols. So it is enough to keep the
symbols by the lengths of their codes.
-/

namespace GateAsm.Gzip

structure PrefixCode where
  groups : List (List Nat)
  deriving DecidableEq, Repr

namespace PrefixCode

def symbolsOf (lengths : List Nat) (length : Nat) : List Nat :=
  (lengths.zipIdx.filter (·.1 = length)).map (·.2)

def ofLengths (lengths : List Nat) : PrefixCode :=
  ⟨(List.range (max 1 (lengths.foldl max 0))).map fun i => symbolsOf lengths (i + 1)⟩

def spare? (c : PrefixCode) : Option Nat :=
  c.groups.foldlM (fun free symbols =>
    if 2 * free < symbols.length then none else some (2 * free - symbols.length)) 1

def isComplete (c : PrefixCode) : Bool := c.spare? = some 0

/-- The code can be used: it is complete, or it has no code of more than one bit. -/
def isUsable (c : PrefixCode) : Bool :=
  c.isComplete || (c.groups.length = 1 && c.spare?.isSome)

/-- Reads a symbol whose code is longer than those passed: `code` is what was read of it, `first` the
first code of the length before that belonged to no shorter one, and behind it. -/
def readLonger : (groups : List (List Nat)) → (code first : Nat) → BitReader Nat
  | [], _, _ => throw .broken
  | symbols :: longer, code, first => do
    let code := 2 * code + (← BitReader.bit).toNat
    match symbols[code - first]? with
    | some symbol => return symbol
    | none => readLonger longer code (2 * (first + symbols.length))

def read (c : PrefixCode) : BitReader Nat := readLonger c.groups 0 0

end PrefixCode

end GateAsm.Gzip
