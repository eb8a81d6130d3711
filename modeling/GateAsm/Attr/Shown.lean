import GateAsm.Attr.Coercion
import GateAsm.Attr.Text

/-!
# Values that cannot be shown

An integer of more than `maxIntegerDigits` digits is not written out, and the abstract type has no text. What
one of them stands in cannot be shown either; `Attr.unshown?` is what comes of it then.
-/

namespace GateAsm

def Ty.unshown? (t : Ty) : Option Mismatch :=
  if t = .abstract then some .wrongKind
  else if t.number?.all fun (n : Nat) => FewDigits n then none else some .badValue

theorem Ty.unshown?_eq_of_same {a b : Ty} (h : a.same b = true) : a.unshown? = b.unshown? := by
  have plain : ∀ t : Ty, (t.plain = .abstract ↔ t = .abstract) ∧ t.plain.number? = t.number? := by
    intro t
    cases t <;> exact ⟨by simp [Ty.plain], rfl⟩
  rw [Ty.same_iff] at h
  have abstract : a = .abstract ↔ b = .abstract := by rw [← (plain a).1, h, (plain b).1]
  unfold unshown?
  rw [← (plain a).2, h, (plain b).2]
  simp only [abstract]

namespace Attr

mutual

/-- Why a value cannot be shown; the first part that cannot be decides it. -/
def unshown? : Attr → Option Mismatch
  | int n | int64 n | constant n => if FewDigits n then Option.none else some .badValue
  | symbol name => if name.isShowable then Option.none else some .badValue
  | type t => t.unshown?
  | list items | tuple items => unshownAmong? items
  | dict entries => unshownEntries? entries
  | _ => Option.none

def unshownAmong? : List Attr → Option Mismatch
  | [] => Option.none
  | item :: items => (unshown? item).or (unshownAmong? items)

def unshownEntries? : List (Attr × Attr) → Option Mismatch
  | [] => Option.none
  | (k, v) :: entries => ((unshown? k).or (unshown? v)).or (unshownEntries? entries)

end

def shown (a : Attr) : Except Mismatch String :=
  match a.unshown? with
  | some m => .error m
  | Option.none => .ok a.display

end Attr

end GateAsm
