import GateAsm.Block.Printer
import GateAsm.Proofs.Scope

/-!
# Free names

The names of anonymous values and those that the printer gives them are found in the same way: a stem with
the first number that makes it free. There are as many tries as there are names in scope, so that the name
that is found is free.
-/

namespace GateAsm.Block

variable {b : Block} {name : Nat → String}

def firstFree (b : Block) (name : Nat → String) : (tries : Nat) → (n : Nat) → Nat
  | 0, n => n
  | tries + 1, n => if (b.inScope? (name n)).isNone then n else b.firstFree name tries (n + 1)

theorem firstFree_free (hname : Function.Injective name) {tries n : Nat} {used : List String}
    (hlen : used.length ≤ tries) (hused : ∀ m, n ≤ m → (b.inScope? (name m)).isSome = true → name m ∈ used) :
    b.inScope? (name (b.firstFree name tries n)) = none := by
  induction tries generalizing n used with
  | zero =>
    rw [List.length_eq_zero_iff.mp (Nat.le_zero.mp hlen)] at hused
    exact Option.not_isSome_iff_eq_none.mp fun h => List.not_mem_nil (hused n (Nat.le_refl n) h)
  | succ tries ih =>
    rw [firstFree]
    by_cases hfree : (b.inScope? (name n)).isNone = true
    · rw [if_pos hfree]
      exact Option.isNone_iff_eq_none.mp hfree
    · rw [if_neg hfree]
      have here : name n ∈ used := hused n (Nat.le_refl n) (by simpa [Option.isSome_iff_ne_none] using hfree)
      apply @ih (n + 1) (used.erase (name n))
      · rw [List.length_erase_of_mem here]
        omega
      · intro m hm hs
        have apart : name m ≠ name n := fun he => by have := hname he; omega
        exact (List.mem_erase_of_ne apart).mpr (hused m (by omega) hs)

theorem mem_scope_of_isSome {n : String} (h : (b.inScope? (.text n)).isSome = true) :
    Label.text n ∈ b.scope.map (·.1) := by
  obtain ⟨id, hid⟩ := Option.isSome_iff_exists.mp h
  obtain ⟨e, he, -⟩ := Option.map_eq_some_iff.mp hid
  have same : e.1.same (.text n) = true := List.find?_some (p := fun x : Label × Nat => x.1.same (.text n)) he
  exact same_text_iff.mp same ▸ List.mem_map_of_mem (List.mem_of_find?_eq_some he)

theorem firstFree_scope (hname : Function.Injective name) (n : Nat) :
    b.inScope? (name (b.firstFree name b.scope.length n)) = none := by
  have taken : ∀ m, n ≤ m → (b.inScope? (name m)).isSome = true →
      name m ∈ (b.scope.map (·.1)).map fun l => l.text?.getD "" := fun m _ hs =>
    List.mem_map.mpr ⟨_, mem_scope_of_isSome hs, rfl⟩
  exact firstFree_free hname (by simp) taken

theorem stem_injective (stem : String) : Function.Injective fun n : Nat => stem ++ toString n := by
  intro m n h
  have chars := congrArg String.toList h
  simp only [String.toList_append, Nat.toString_eq_repr, Nat.toList_repr] at chars
  have digits := congrArg (fun cs => Nat.ofDigitChars 10 cs 0) (List.append_cancel_left chars)
  simpa using digits

/-! ## Names for display -/

theorem freeNumber_eq (b : Block) (tries n : Nat) : b.freeNumber tries n = b.firstFree numberedName tries n := by
  induction tries generalizing n with
  | zero => rfl
  | succ tries ih => rw [freeNumber, firstFree, ih]

theorem numberedName_injective : Function.Injective numberedName := stem_injective "%"

/-! ## Anonymous values -/

theorem freshName_eq (b : Block) (tries n : Nat) :
    (b.freshName tries n).1 = anonymousMark ++ toString (b.firstFree (anonymousMark ++ toString ·) tries n) := by
  induction tries generalizing n with
  | zero => rfl
  | succ tries ih =>
    rw [freshName, firstFree]
    split
    · rfl
    · exact ih (n + 1)

theorem freshName_scope (b : Block) (n : Nat) : b.inScope? (.text (b.freshName b.scope.length n).1) = none := by
  rw [freshName_eq]
  exact firstFree_scope (stem_injective anonymousMark) n

end GateAsm.Block
