import GateAsm.Proofs.Content
import GateAsm.Proofs.Scope

/-!
# Statements

A statement is what the text of an instruction comes to, apart from the names of its results: its
content over names, the types of the operands outside of brackets, the user's tags, and the types of the
results. The types are looked up in a context in the order in which they are written, index between the
types of operands and those of results.
-/

namespace GateAsm

/-- What the context keeps for a type that is read; the base of a controlled gate is read first. -/
def TypeContext.keep (c : TypeContext) : Ty → Ty × TypeContext
  | .controlled b n => (c.intern b.ty).2.intern (.controlled b n)
  | t => c.intern t

def TypeContext.keepAll (c : TypeContext) : List Ty → List Ty × TypeContext
  | [] => ([], c)
  | t :: ts => ((c.keep t).1 :: ((c.keep t).2.keepAll ts).1, ((c.keep t).2.keepAll ts).2)

def indexAfter (c : TypeContext) (types : List Ty) : Ty × TypeContext := (c.keepAll types).2.intern .index

def typedUses (c : TypeContext) (operands : List (String × Bool)) (types : List Ty) : List (String × Ty) :=
  (operands.map (·.1)).zip (Parser.operandTypes (operands.map (·.2)) (indexAfter c types).1 (c.keepAll types).1)

/-- What the text of an instruction comes to, apart from the names of its results. -/
structure Statement where
  content : Content String
  types : List Ty
  tags : List (String × Attr)
  results : List Ty

namespace Statement

variable (m : Statement) (c : TypeContext)

def uses : List (String × Ty) := typedUses c m.content.flagged m.types

def state (k : Kind) (b : Block) : OperationState :=
  ⟨k.name, (m.content.physical.map fun n => (b.lookup n).getD 0).map some, m.content.structural k ++ m.tags,
    (((indexAfter c m.types).2.keepAll m.results).1).map .type⟩

def context : TypeContext := ((indexAfter c m.types).2.keepAll m.results).2

/-- The statement is one of the kind: its content fits, its tags are the user's own, and each operand
outside of brackets has a type. -/
structure Lawful (k : Kind) : Prop where
  fits : m.content.Fits k
  tags : Addable k.structuralTags [] m.tags
  types : m.types.length = m.content.mains.length

end Statement

/-! ## Types of operands -/

namespace Parser

theorem length_operandTypes {pinned : List Bool} {i : Ty} {types : List Ty}
    (h : (pinned.filter (!·)).length = types.length) : (operandTypes pinned i types).length = pinned.length := by
  induction pinned generalizing types with
  | nil => rfl
  | cons p pinned ih =>
    cases p with
    | true =>
      have h' : (pinned.filter (!·)).length = types.length := by simpa using h
      simp [operandTypes, ih h']
    | false =>
      cases types with
      | nil => simp at h
      | cons t types =>
        have h' : (pinned.filter (!·)).length = types.length := by simpa using h
        simp [operandTypes, ih h']

end Parser

theorem Content.length_mains {ρ : Type} (c : Content ρ) :
    c.mains.length = ((c.flagged.map (·.2)).filter (!·)).length := by
  rw [c.mains_eq_filter, List.length_map, List.filter_map, List.length_map]
  rfl

end GateAsm
