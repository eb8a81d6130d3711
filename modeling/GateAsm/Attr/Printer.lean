import GateAsm.Attr.Basic
import GateAsm.Json.Writer

/-!
# Attributes as literals

`Attr.literal` writes a value so that reading it back gives the same value, a list coming back as a
tuple. Values without a literal are refused.
-/

namespace GateAsm

inductive LiteralFault
  | nonFinite (x : Double)
  | noLiteral (kind : String)
  | integerTooLong
  deriving DecidableEq, Repr

def LiteralFault.message : LiteralFault → String
  | nonFinite x => s!"cannot print non-finite float {x.text}"
  | noLiteral kind => s!"cannot print attribute of type {kind}"
  | integerTooLong => s!"Exceeds the limit ({maxIntegerDigits} digits) for integer string conversion"

namespace Attr

def boolLiteral (b : Bool) : String := if b then "true" else "false"

def integerLiteral (n : Int) : Except LiteralFault String :=
  if FewDigits n then .ok (toString n) else .error .integerTooLong

def floatLiteral (x : Double) : Except LiteralFault String :=
  if x.isFinite then .ok x.text else .error (.nonFinite x)

mutual

def literal : Attr → Except LiteralFault String
  | bool b => .ok (boolLiteral b)
  | bool8 b => .ok (boolLiteral b)
  | int n => integerLiteral n
  | int64 n => integerLiteral n
  | float x => floatLiteral x
  | float64 x => floatLiteral x
  | float32 x => floatLiteral x
  | str s => .ok (Json.rawString s)
  | symbol name => if name.isShowable then .ok ("@" ++ name.display) else .error .integerTooLong
  | list items => (literals items).map fun ts => "[" ++ ", ".intercalate ts ++ "]"
  | tuple items => (literals items).map fun ts => "[" ++ ", ".intercalate ts ++ "]"
  | a => .error (.noLiteral a.kindName)

/-- The literals of several values; the first value without one decides the fault. -/
def literals : List Attr → Except LiteralFault (List String)
  | [] => .ok []
  | a :: items => do
    let t ← literal a
    let ts ← literals items
    return t :: ts

end

theorem literal_int {n : Int} (h : FewDigits n) : (int n).literal = .ok (toString n) := by
  rw [literal, integerLiteral, if_pos h]

end Attr

end GateAsm
