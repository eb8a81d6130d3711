import GateAsm.Array.Element
import GateAsm.Array.Base64

/-!
# Numeric arrays

An array has an element type, a shape and its cells in row order. `NumArray.ofBuffer` builds one from
raw bytes and a stated shape, in which one extent may be left open.
-/

namespace GateAsm

structure NumArray where
  element : Element
  /-- The highest byte of a cell comes first in memory. -/
  highFirst : Bool
  shape : List Nat
  /-- The bits of the cells, the last index running fastest. -/
  cells : List Nat
  deriving DecidableEq, Repr

namespace NumArray

def ofInts (e : Element) (ns : List Int) : NumArray := ⟨e, false, [ns.length], ns.map e.ofInt⟩

def values (a : NumArray) : List Element.Cell := a.cells.map a.element.read

def typeName (a : NumArray) : String :=
  if a.highFirst then ">" ++ a.element.code else a.element.name

def bytes (a : NumArray) : List Nat :=
  a.cells.flatMap fun bits =>
    let bs := Element.bytes a.element.size bits
    if a.highFirst then bs.reverse else bs

def groups (size : Nat) : (fuel : Nat) → List Nat → Option (List (List Nat))
  | _, [] => some []
  | 0, _ => none
  | fuel + 1, bs =>
    if bs.length < size then none
    else (groups size fuel (bs.drop size)).map (bs.take size :: ·)

def maxRank : Nat := 32

def maxBytes : Nat := 2 ^ 63 - 1

def product? : (done : Nat) → List Nat → Option Nat
  | done, [] => some done
  | done, n :: ns => if maxBytes < done * n then none else product? (done * n) ns

/-- The shape of `count` cells, an open extent (a negative one) being what the others leave. -/
def fitShape? (count : Nat) (extents : List Int) : Option (List Nat) := do
  let known ← product? 1 ((extents.filter (0 ≤ ·)).map Int.toNat)
  let opens := (extents.filter (· < 0)).length
  if opens = 0 then
    if known = count then some (extents.map Int.toNat) else none
  else if opens = 1 && known != 0 && count % known = 0 then
    some (extents.map fun n => if n < 0 then count / known else n.toNat)
  else none

def ofCells (e : Element) (highFirst : Bool) (extents : List Int) (cells : List Nat) : Option NumArray := do
  let shape ← fitShape? cells.length extents
  let _ ← product? e.size (shape.filter (· != 0))
  if maxRank < shape.length then none else some ⟨e, highFirst, shape, cells⟩

def ofBuffer (e : Element) (highFirst : Bool) (extents : List Int) (buffer : List Nat) : Option NumArray := do
  let cells ← groups e.size buffer.length buffer
  ofCells e highFirst extents (cells.map fun bs => Element.ofBytes (if highFirst then bs.reverse else bs))

def rows (a : NumArray) : Option (List NumArray) :=
  match a.shape with
  | [] => none
  | n :: shape =>
    let size := shape.foldl (· * ·) 1
    some ((List.range n).map fun i => { a with shape := shape, cells := (a.cells.drop (i * size)).take size })

end NumArray

end GateAsm
