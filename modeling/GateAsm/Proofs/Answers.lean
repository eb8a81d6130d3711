import GateAsm.Operation.Fault

/-!
# Steps that can fail

An answer comes from steps that all answer. `bind_eq_ok` takes a success apart, and the other lemmas run
steps that are known to succeed.
-/

namespace GateAsm

section
variable {ε α β : Type}

@[simp]
theorem ok_bind (a : α) (f : α → Except ε β) : (Except.ok a >>= f) = f a := rfl

@[simp]
theorem error_bind (e : ε) (f : α → Except ε β) : (Except.error e >>= f) = .error e := rfl

theorem pure_eq_ok (a : α) : (pure a : Except ε α) = .ok a := rfl

theorem bind_eq_ok {x : Except ε α} {f : α → Except ε β} {b : β} :
    (x >>= f) = .ok b ↔ ∃ a, x = .ok a ∧ f a = .ok b := by
  cases x with
  | error e => simp
  | ok a => simp

theorem eq_ok_of_isOk {x : Except ε Unit} (h : x.isOk = true) : x = .ok () := by
  cases x with
  | error e => cases h
  | ok _ => rfl

end

namespace Readback

variable {α : Type}

@[simp]
theorem ofAttr_ok (a : α) : ofAttr (.ok a) = .ok a := rfl

@[simp]
theorem ofLiteral_ok (a : α) : ofLiteral (.ok a) = .ok a := rfl

end Readback

end GateAsm
