import GateAsm.Array.Basic
import GateAsm.Floating.Places
import GateAsm.Floating.Text
import GateAsm.Text.Blank

/-!
# Arrays in messages

`NumArray.inspect` shows an array with its element type, `NumArray.display` its bare cells. All cells of
an array are laid out alike: points and exponents stand below each other, and numbers of very different
size are written with exponents. Long lines are broken, and of a large array only the first and the last
cells along each extent are shown.
-/

namespace GateAsm

def Element.Cell.text : Element.Cell → String
  | .boolean b => if b then "True" else "False"
  | .int n => toString n
  | .float f x => Floating.Style.plain.text f x

namespace Floating

structure Layout where
  exponentDigits : Option Nat
  left : Nat
  right : Nat
  deriving DecidableEq, Repr

namespace Layout

def maxPlaces : Nat := 8

def largest : Number := .finite false (10 ^ 8) 0

def smallest : Number := Format.double.decode (readDecimal Format.double false 1 (-4))

/-- A number more than this many times as large as another is written with an exponent. -/
def widest : Number := .finite false 1000 0

def quotient (f : Format) (x y : Number) : Number :=
  match x, y with
  | .finite _ m e, .finite _ m' e' =>
    f.decode (f.round false (m * 2 ^ (e - e').toNat) (m' * 2 ^ (e' - e).toNat))
  | x, _ => x

def magnitude : Number → Number
  | .finite _ m e => .finite false m e
  | .infinite _ => .infinite false
  | .nan => .nan

def needsExponent (f : Format) (xs : List Number) : Bool :=
  match xs.filter fun x => x.isFinite && !x.isZero with
  | [] => false
  | x :: xs =>
    let sizes := (x :: xs).map magnitude
    let most := sizes.foldl (fun a b => if a.less b then b else a) (magnitude x)
    let least := sizes.foldl (fun a b => if b.less a then b else a) (magnitude x)
    !most.less largest || least.less smallest || widest.less (quotient f most least)

def placed (f : Format) (behindFirst : Bool) (least : Option Nat) (most : Nat) : Number → PlacedDigits
  | .finite _ m e =>
    if m = 0 then .zero
    else
      let place (n : Nat) (a : Int) : Int := if behindFirst then a - n else -(n : Int)
      digitsTo f m e (fun a => (least.map fun n => min (a + 1) (place n a)).getD (a + 1)) (place most)
  | _ => .zero

def signText (x : Number) : String := if x.isNegative then "-" else ""

def exponentText (width : Nat) (a : Int) : String :=
  let ds := toString a.natAbs
  (if a < 0 then "e-" else "e+") ++ String.ofList (List.replicate (width - ds.length) '0') ++ ds

def widenFor (xs : List Number) (l : Layout) : Layout :=
  if xs.all Number.isFinite then l
  else
    let infinity := if xs.any (fun x => !x.isFinite && x.isNegative) then 4 else 3
    { l with left := max l.left (infinity - (l.right + 1)) }

def scientific (f : Format) (finite : List Number) : Layout :=
  let ds := finite.map fun x => (x, placed f true none maxPlaces x)
  let width := ds.foldl (fun w (_, d) => max w (toString d.exponent.natAbs).length) 2
  ⟨some width, ds.foldl (fun w (x, _) => max w ((signText x).length + 1)) 0,
    ds.foldl (fun w (_, d) => max w d.tail.length) 0⟩

def positional (f : Format) (finite : List Number) : Layout :=
  let ds := finite.map fun x => (x, placed f false none maxPlaces x)
  ⟨none, ds.foldl (fun w (x, d) => max w ((signText x).length + d.whole.length)) 0,
    ds.foldl (fun w (_, d) => max w d.fraction.length) 0⟩

def ofNumbers (f : Format) (xs : List Number) : Layout :=
  let finite := xs.filter Number.isFinite
  if needsExponent f xs then
    let l := scientific f finite
    { widenFor xs { l with right := l.exponentDigits.getD 0 + 2 + l.right } with right := l.right }
  else widenFor xs (positional f finite)

def behindPoint (l : Layout) : Nat := l.right + (l.exponentDigits.map (· + 2)).getD 0

def padded (width : Nat) (s : String) : String :=
  String.ofList (List.replicate (width - s.length) ' ') ++ s

def text (l : Layout) (f : Format) (x : Number) : String :=
  match x, l.exponentDigits with
  | .nan, _ => padded (l.left + l.behindPoint + 1) "nan"
  | .infinite _, _ => padded (l.left + l.behindPoint + 1) (signText x ++ "inf")
  | x, some width =>
    let d := placed f true (some l.right) l.right x
    padded l.left (signText x ++ String.ofList (PlacedDigits.chars (d.digits.take 1))) ++ "."
      ++ String.ofList (d.tail ++ List.replicate (l.right - d.tail.length) '0') ++ exponentText width d.exponent
  | x, none =>
    let d := placed f false (some 0) maxPlaces x
    padded l.left (signText x ++ String.ofList d.whole) ++ "."
      ++ String.ofList (d.fraction ++ List.replicate (l.right - d.fraction.length) ' ')

end Layout

end Floating

namespace NumArray

/-! ## Cells -/

def intWidth (cells : List Element.Cell) : Nat := cells.foldl (fun w c => max w c.text.length) 0

/-- How the cells of an array are written, all alike; `bare` tells that the array is one number. -/
def cellText (bare : Bool) (cells : List Element.Cell) : Element.Cell → String :=
  let numbers := cells.filterMap fun c => match c with
    | .float _ x => some x
    | _ => none
  let format := (cells.findSome? fun c => match c with
    | .float f _ => some f
    | _ => none).getD .double
  let layout := Floating.Layout.ofNumbers format numbers
  let width := intWidth cells
  fun c => match c with
    | .boolean true => if bare then "True" else " True"
    | .boolean false => "False"
    | .int n => Floating.Layout.padded width (toString n)
    | .float f x => layout.text f x

/-! ## Rows -/

def maxShown : Nat := 1000

def edge : Nat := 3

def maxLine : Nat := 75

def shownAlong (large : Bool) (n : Nat) : List Nat × List Nat :=
  if large && 2 * edge < n then (List.range edge, (List.range edge).map (n - edge + ·))
  else ([], List.range n)

def part {α : Type} (shape : List Nat) (cells : List α) (i : Nat) : List α :=
  let size := shape.foldl (· * ·) 1
  (cells.drop (i * size)).take size

def shownCells {α : Type} : (shape : List Nat) → List α → List α
  | [], cells => cells
  | n :: shape, cells =>
    let (front, back) := shownAlong true n
    (front ++ back).flatMap fun i => shownCells shape (part shape cells i)

structure Lines where
  done : String
  line : String

def Lines.add (width indent : Nat) (l : Lines) (word : String) : Lines :=
  if width < l.line.length + word.length && indent < l.line.length then
    ⟨l.done ++ String.ofList (Text.trimEnd l.line.toList) ++ "\n", String.ofList (List.replicate indent ' ') ++ word⟩
  else { l with line := l.line ++ word }

def wrapped (separator : String) (width indent : Nat) (words : List String) : String :=
  let start : Lines := ⟨"", String.ofList (List.replicate indent ' ')⟩
  let last := words.length - 1
  let l := words.zipIdx.foldl (fun (l : Lines) (word, i) =>
    let l := l.add width indent word
    if i < last then { l with line := l.line ++ separator } else l) start
  ((l.done ++ l.line).drop indent).toString

def bracketed (write : Element.Cell → String) (large : Bool) (separator : String) :
    (shape : List Nat) → List Element.Cell → (indent width : Nat) → String
  | [], cells, _, _ => (cells.head?.map write).getD ""
  | [n], cells, indent, width =>
    let (front, back) := shownAlong large n
    let words (is : List Nat) : List String := is.filterMap fun i => (cells[i]?).map write
    let gap := if front.isEmpty then [] else ["..."]
    "[" ++ wrapped separator (width - 1) indent (words front ++ gap ++ words back) ++ "]"
  | n :: shape, cells, indent, width =>
    let (front, back) := shownAlong large n
    let mark := String.ofList (Text.trimEnd separator.toList) ++ String.ofList (List.replicate shape.length '\n')
      ++ String.ofList (List.replicate indent ' ')
    let rows (is : List Nat) : List String :=
      is.map fun i => bracketed write large separator shape (part shape cells i) (indent + 1) (width - 1)
    let gap := if front.isEmpty then [] else ["..."]
    "[" ++ mark.intercalate (rows front ++ gap ++ rows back) ++ "]"

def listed (separator : String) (a : NumArray) (indent width : Nat) : String :=
  if a.cells.isEmpty then "[]"
  else
    let large := maxShown < a.cells.length
    let cells := a.values
    let write := cellText a.shape.isEmpty (if large then shownCells a.shape cells else cells)
    bracketed write large separator a.shape cells indent width

/-! ## Listings -/

def isImplied (a : NumArray) : Bool :=
  !a.cells.isEmpty && !a.highFirst && (a.element = .boolean || a.element = .signed 8 || a.element = .double)

def shapeText (shape : List Nat) : String :=
  match shape with
  | [n] => s!"({n},)"
  | ns => "(" ++ ", ".intercalate (ns.map toString) ++ ")"

def inspect (a : NumArray) : String :=
  let opening := "array("
  let cells :=
    if a.cells.isEmpty && a.shape.length != 1 then "[], shape=" ++ shapeText a.shape
    else listed ", " a (opening.length + 1) (maxLine - 1)
  if a.isImplied then opening ++ cells ++ ")"
  else
    let text := opening ++ cells ++ ","
    let type := "dtype=" ++ (if a.highFirst then "'" ++ a.typeName ++ "'" else a.typeName) ++ ")"
    let last := (text.splitOn "\n").getLastD ""
    text ++ (if maxLine < last.length + type.length + 1 then "\n" ++ String.ofList (List.replicate opening.length ' ')
      else " ") ++ type

def display (a : NumArray) : String :=
  match a.shape, a.values with
  | [], [cell] => cell.text
  | _, _ => listed " " a 1 maxLine

end NumArray

end GateAsm
