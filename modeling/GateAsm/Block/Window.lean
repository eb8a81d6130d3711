/-!
# Windows of a list

Bounds may be negative, and then count from the end; a bound beyond either end stands for that end.
-/

namespace GateAsm

def boundIn (n : Nat) (i : Int) : Nat :=
  if i < 0 then (n + i).toNat else min i.toNat n

def window {α : Type} (xs : List α) (low high : Int) : List α :=
  (xs.take (boundIn xs.length high)).drop (boundIn xs.length low)

def itemAt? {α : Type} (xs : List α) (i : Int) : Option α :=
  let j := if i < 0 then xs.length + i else i
  if j < 0 then none else xs[j.toNat]?

theorem boundIn_natCast (n i : Nat) : boundIn n i = min i n := by
  unfold boundIn
  split <;> omega

end GateAsm
