import GateAsm.Power

/-!
# Accessors

An accessor selects a part of a register by start, length and stride. Each component that was written is
a constant of sixty-four bits or is supplied by a reference operand; there are at most three.
-/

namespace GateAsm

def int64Min : Int := -(2 ^ 63)

def int64Max : Int := 2 ^ 63 - 1

def InInt64 (n : Int) : Prop := int64Min ≤ n ∧ n ≤ int64Max

instance (n : Int) : Decidable (InInt64 n) := by unfold InInt64; infer_instance

inductive Component
  | constant (n : Int)
  | dynamic
  deriving DecidableEq, Repr

namespace Component

def text : Component → String
  | constant n => toString n
  | dynamic => "DYNAMIC"

def Legal : Component → Prop
  | constant n => InInt64 n
  | dynamic => True

instance (c : Component) : Decidable c.Legal := by
  unfold Legal
  split <;> infer_instance

end Component

/-- The components of an accessor that were written, at most three. -/
structure Accessors where
  components : List Component
  size_le : components.length ≤ 3
  legal : ∀ c ∈ components, c.Legal
  deriving DecidableEq, Repr

namespace Accessors

def maxSize : Nat := 3

def empty : Accessors := ⟨[], by simp, by simp⟩

def ofComponents? (cs : List Component) : Option Accessors :=
  if h : cs.length ≤ 3 ∧ ∀ c ∈ cs, c.Legal then some ⟨cs, h.1, h.2⟩ else none

def dynamicCount (a : Accessors) : Nat := a.components.count .dynamic

def text (a : Accessors) : String :=
  "AccessorArray([" ++ ", ".intercalate (a.components.map Component.text) ++ "])"

theorem ofComponents?_eq_some_iff {cs : List Component} {a : Accessors} :
    ofComponents? cs = some a ↔ a.components = cs := by
  unfold ofComponents?
  constructor
  · intro h
    split at h
    · cases h; rfl
    · cases h
  · rintro rfl
    rw [dif_pos ⟨a.size_le, a.legal⟩]

end Accessors

end GateAsm
