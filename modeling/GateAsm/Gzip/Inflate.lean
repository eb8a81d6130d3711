import GateAsm.Gzip.PrefixCode
import GateAsm.Power

/-!
# Compressed content

The content is a sequence of blocks. A block holds plain bytes, or symbols in prefix codes: bytes, and
copies of bytes that came before. A block brings its codes along in compressed form, or uses fixed ones.
-/

namespace GateAsm.Gzip

/-- What is fixed for the symbols of copies: the least number that a symbol stands for, and the bits
behind it that are added. -/
abbrev Ranges := List (Nat × Nat)

def rangesFrom : (start : Nat) → (sizes : List Nat) → Ranges
  | _, [] => []
  | start, size :: sizes => (start, size) :: rangesFrom (start + 2 ^ size) sizes

/-- The lengths of copies. The greatest one has a symbol of its own, though the range before reaches it. -/
def lengthRanges : Ranges :=
  rangesFrom 3 [0, 0, 0, 0, 0, 0, 0, 0, 1, 1, 1, 1, 2, 2, 2, 2, 3, 3, 3, 3, 4, 4, 4, 4, 5, 5, 5, 5] ++ [(258, 0)]

def distanceRanges : Ranges :=
  rangesFrom 1 [0, 0, 0, 0, 1, 1, 2, 2, 3, 3, 4, 4, 5, 5, 6, 6, 7, 7, 8, 8, 9, 9, 10, 10, 11, 11, 12, 12, 13, 13]

/-- The symbol that ends a block; those above it are lengths, those below are bytes. -/
def endSymbol : Nat := 256

def inRange (ranges : Ranges) (symbol : Nat) : BitReader Nat := do
  match ranges[symbol]? with
  | some (start, size) => return start + (← BitReader.number size)
  | none => throw .broken

/-- Appends bytes that stand some way back, the copy itself included if it is that long. -/
def copyBack (distance : Nat) : (count : Nat) → Array UInt8 → Array UInt8
  | 0, out => out
  | count + 1, out => copyBack distance count (out.push (out[out.size - distance]?.getD 0))

/-- Reads symbols up to the end of a block. Each takes at least one bit, so the bits bound their number. -/
def symbols (bytes distances : PrefixCode) : (fuel : Nat) → Array UInt8 → BitReader (Array UInt8)
  | 0, _ => throw .cutShort
  | fuel + 1, out => do
    let symbol ← bytes.read
    if symbol < endSymbol then symbols bytes distances fuel (out.push (UInt8.ofNat symbol))
    else if symbol = endSymbol then return out
    else
      let count ← inRange lengthRanges (symbol - endSymbol - 1)
      let distance ← inRange distanceRanges (← distances.read)
      if out.size < distance then throw .broken
      symbols bytes distances fuel (copyBack distance count out)

def plainBytes : (count : Nat) → Array UInt8 → BitReader (Array UInt8)
  | 0, out => return out
  | count + 1, out => do plainBytes count (out.push (UInt8.ofNat (← BitReader.number 8)))

def plainBlock (out : Array UInt8) : BitReader (Array UInt8) := do
  BitReader.align
  let count ← BitReader.number 16
  let check ← BitReader.number 16
  if count + check != 0xffff then throw .broken
  plainBytes count out

def fixedBytes : PrefixCode :=
  .ofLengths (List.replicate 144 8 ++ List.replicate 112 9 ++ List.replicate 24 7 ++ List.replicate 8 8)

def fixedDistances : PrefixCode := .ofLengths (List.replicate 32 5)

def lengthOrder : List Nat := [16, 17, 18, 0, 8, 7, 9, 6, 10, 5, 11, 4, 12, 3, 13, 2, 14, 1, 15]

def smallNumbers : (count : Nat) → BitReader (List Nat)
  | 0 => return []
  | count + 1 => do
    let n ← BitReader.number 3
    return n :: (← smallNumbers count)

/-- Reads the code in which code lengths are written. Without any symbol in it, each bit is a zero. -/
def lengthCode (count : Nat) : BitReader PrefixCode := do
  let given := lengthOrder.zip (← smallNumbers count)
  let lengths := (List.range lengthOrder.length).map fun symbol => (given.lookup symbol).getD 0
  if lengths.all (· = 0) then return ⟨[[0, 0]]⟩
  let code := PrefixCode.ofLengths lengths
  if code.isComplete then return code else throw .broken

/-- Reads code lengths behind those that are `done`: a symbol is a length, or says how often the last one
or a zero is repeated. -/
def codeLengths (code : PrefixCode) (total : Nat) : (fuel : Nat) → (done : List Nat) → BitReader (List Nat)
  | 0, _ => throw .cutShort
  | fuel + 1, done =>
    if done.length = total then return done
    else do
      let symbol ← code.read
      let more ← if symbol < 16 then pure [symbol]
        else if symbol = 16 then do
          let count ← BitReader.number 2
          match done.getLast? with
          | some last => pure (List.replicate (count + 3) last)
          | none => throw .broken
        else if symbol = 17 then do pure (List.replicate ((← BitReader.number 3) + 3) 0)
        else do pure (List.replicate ((← BitReader.number 7) + 11) 0)
      if total < done.length + more.length then throw .broken
      codeLengths code total fuel (done ++ more)

def ownCodes : BitReader (PrefixCode × PrefixCode) := do
  let byteCount := (← BitReader.number 5) + 257
  let distanceCount := (← BitReader.number 5) + 1
  let lengthCount := (← BitReader.number 4) + 4
  if 286 < byteCount || 30 < distanceCount then throw .broken
  let total := byteCount + distanceCount
  let lengths ← codeLengths (← lengthCode lengthCount) total (total + 1) []
  let bytes := PrefixCode.ofLengths (lengths.take byteCount)
  let distances := PrefixCode.ofLengths (lengths.drop byteCount)
  if lengths[endSymbol]? = some 0 || !bytes.isUsable || !distances.isUsable then throw .broken
  return (bytes, distances)

def blocks : (fuel : Nat) → Array UInt8 → BitReader (Array UInt8)
  | 0, _ => throw .cutShort
  | fuel + 1, out => do
    let last ← BitReader.bit
    let kind ← BitReader.number 2
    let bound := (← get).length + 1
    let out ← match kind with
      | 0 => plainBlock out
      | 1 => symbols fixedBytes fixedDistances bound out
      | 2 => do
        let (bytes, distances) ← ownCodes
        symbols bytes distances bound out
      | _ => throw .broken
    if last then return out else blocks fuel out

def inflate (bytes : List UInt8) : Except Fault (List UInt8 × List UInt8) := do
  let bits := bitsOf bytes
  let (out, rest) ← blocks (bits.length + 1) #[] bits
  return (out.toList, bytesOf (rest.drop (rest.length % 8)))

end GateAsm.Gzip
