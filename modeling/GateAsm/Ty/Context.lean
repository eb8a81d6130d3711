import GateAsm.Attr.Equality

/-!
# Type contexts

A context owns types: it keeps one type for each list of parameters, in the order in which they were
first asked for. `TypeContext.intern` gives the type that the context keeps for one that is asked for,
and adds it only if there was none.
-/

namespace GateAsm

/-- A parameter as a part of a key: a plain value, or a type with the surplus parameters that it has. -/
inductive Surplus
  | value (a : Attr)
  | type (t : Ty) (surplus : List Surplus)
  deriving Repr

namespace Surplus

def attr : Surplus → Attr
  | value a => a
  | type t _ => .type t

mutual

def agree : Surplus → Surplus → Bool
  | value a, value b => a.agree b
  | type t ps, type u qs => t.same u && allAgree ps qs
  | _, _ => false

def allAgree : List Surplus → List Surplus → Bool
  | [], [] => true
  | p :: ps, q :: qs => agree p q && allAgree ps qs
  | _, _ => false

end

end Surplus

/-- A type as a context keeps it. Classes without parameters take any values for parameters all the same;
these surplus ones tell types of such a class apart. A controlled gate has those of its base. -/
structure StoredType where
  type : Ty
  surplus : List Surplus
  deriving Repr

namespace StoredType

def same (a b : StoredType) : Bool := a.type.same b.type && Surplus.allAgree a.surplus b.surplus

@[simp]
theorem same_plain (a b : Ty) : same ⟨a, []⟩ ⟨b, []⟩ = a.same b := by simp [same, Surplus.allAgree]

end StoredType

structure TypeContext where
  name : String
  stored : List StoredType
  deriving Repr

namespace TypeContext

def empty (name : String) : TypeContext := ⟨name, []⟩

def size (c : TypeContext) : Nat := c.stored.length

def types (c : TypeContext) : List Ty := c.stored.map (·.type)

def text (c : TypeContext) : String := s!"TypeContext({Text.quoted c.name}, {c.size} types)"

def find? (c : TypeContext) (t : StoredType) : Option StoredType := c.stored.find? (·.same t)

def store (c : TypeContext) (t : StoredType) : StoredType × TypeContext :=
  match c.find? t with
  | some kept => (kept, c)
  | none => (t, { c with stored := c.stored ++ [t] })

def intern (c : TypeContext) (t : Ty) : Ty × TypeContext :=
  let (kept, c) := c.store ⟨t, []⟩
  (kept.type, c)

/-- The context that is used where no other is named, with the types it owns from the start. -/
def default : TypeContext :=
  ⟨"default", [.index, .integer (.ofNat 1), .integer (.ofNat 32), .integer (.ofNat 64), .float (.ofNat 32),
    .float (.ofNat 64), .qubit, .gate1, .gate2, .circuit].map (⟨·, []⟩)⟩

theorem store_of_find? {c : TypeContext} {t kept : StoredType} (h : c.find? t = some kept) :
    c.store t = (kept, c) := by simp [store, h]

theorem store_of_find?_none {c : TypeContext} {t : StoredType} (h : c.find? t = none) :
    c.store t = (t, { c with stored := c.stored ++ [t] }) := by simp [store, h]

theorem stored_prefix_store (c : TypeContext) (t : StoredType) : c.stored <+: (c.store t).2.stored := by
  cases h : c.find? t with
  | some kept => simp [store_of_find? h]
  | none => simp [store_of_find?_none h]

theorem store_mem (c : TypeContext) (t : StoredType) : (c.store t).1 ∈ (c.store t).2.stored := by
  cases h : c.find? t with
  | some kept => rw [store_of_find? h]; exact List.mem_of_find?_eq_some h
  | none => simp [store_of_find?_none h]

theorem intern_same (c : TypeContext) (t : Ty) : (c.intern t).1.same t = true := by
  unfold intern
  cases h : c.find? ⟨t, []⟩ with
  | some kept =>
    have hs := List.find?_some h
    rw [store_of_find? h]
    simp only [StoredType.same, Bool.and_eq_true] at hs
    exact hs.1
  | none => simp [store_of_find?_none h]

end TypeContext

end GateAsm
