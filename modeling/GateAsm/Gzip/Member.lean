import GateAsm.Gzip.Inflate

/-!
# Compressed files

A compressed file is a sequence of members. Each has a header, compressed content, and behind it the
check sum and the length of the content. The contents of all members stand one behind the other.
-/

namespace GateAsm.Gzip

def crcStep (crc : UInt32) : UInt32 :=
  if crc &&& 1 = 1 then (0xedb88320 : UInt32) ^^^ (crc >>> 1) else crc >>> 1

def crcByte (crc : UInt32) (byte : UInt8) : UInt32 := Nat.repeat crcStep 8 (crc ^^^ byte.toUInt32)

def crc32 (bytes : List UInt8) : UInt32 := ~~~ (bytes.foldl crcByte 0xffffffff)

def littleEndian : List UInt8 → Nat
  | [] => 0
  | b :: bytes => b.toNat + 256 * littleEndian bytes

def cut (count : Nat) (bytes : List UInt8) : Except Fault (List UInt8 × List UInt8) :=
  if bytes.length < count then .error .cutShort else .ok (bytes.splitAt count)

def afterText (bytes : List UInt8) : List UInt8 := (bytes.dropWhile (· != 0)).drop 1

def flag (fixed : List UInt8) (bit : Nat) : Bool := (fixed[1]?.getD 0).toNat.testBit bit

/-- The bytes behind a header. The bits of its fourth byte tell what else is in it: a check sum, a field
with its length in front, the name of a file and a comment. -/
def afterHeader (bytes : List UInt8) : Except Fault (List UInt8) := do
  if bytes.take 2 != [0x1f, 0x8b] then throw .notGzip
  let (fixed, bytes) ← cut 8 (bytes.drop 2)
  if fixed[0]? != some 8 then throw .notGzip
  let bytes ← if flag fixed 2 then do
      let (size, bytes) ← cut 2 bytes
      pure (← cut (littleEndian size) bytes).2
    else pure bytes
  let bytes := if flag fixed 3 then afterText bytes else bytes
  let bytes := if flag fixed 4 then afterText bytes else bytes
  if flag fixed 1 then return (← cut 2 bytes).2 else return bytes

def member (bytes : List UInt8) : Except Fault (List UInt8 × List UInt8) := do
  let (content, rest) ← inflate (← afterHeader bytes)
  let (check, rest) ← cut 8 rest
  if littleEndian (check.take 4) != (crc32 content).toNat then throw .notGzip
  if littleEndian (check.drop 4) != content.length % 2 ^ 32 then throw .notGzip
  return (content, rest)

/-- The contents of all members; zeros may stand between them. A member takes some bytes, so the bytes
bound their number. -/
def members : (fuel : Nat) → List UInt8 → Except Fault (List UInt8)
  | _, [] => .ok []
  | 0, _ => .error .cutShort
  | fuel + 1, bytes => do
    let (content, rest) ← member bytes
    return content ++ (← members fuel (rest.dropWhile (· = 0)))

def decompress (bytes : ByteArray) : Except Fault ByteArray :=
  (members bytes.size bytes.toList).map fun content => ⟨content.toArray⟩

end GateAsm.Gzip
