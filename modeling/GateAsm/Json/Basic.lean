import GateAsm.Floating.Double

/-!
# JSON values

Integers are exact and kept apart from floating point numbers; the fields of an object keep their
order. A field written twice keeps its first place and takes the last value (`Json.put`).
-/

namespace GateAsm

inductive Json
  | null
  | bool (b : Bool)
  | int (n : Int)
  | float (x : Double)
  | str (s : String)
  | arr (items : List Json)
  | obj (fields : List (String × Json))
  deriving Repr

instance : Inhabited Json := ⟨.null⟩

namespace Json

def lookup (key : String) : List (String × Json) → Option Json
  | [] => none
  | (k, v) :: fields => if k = key then some v else lookup key fields

def put (key : String) (value : Json) : List (String × Json) → List (String × Json)
  | [] => [(key, value)]
  | (k, v) :: fields => if k = key then (k, value) :: fields else (k, v) :: put key value fields

@[simp]
theorem lookup_put_self (key : String) (value : Json) (fields : List (String × Json)) :
    lookup key (put key value fields) = some value := by
  induction fields with
  | nil => simp [put, lookup]
  | cons f fields ih =>
    by_cases h : f.1 = key <;> simp [put, lookup, h, ih]

theorem lookup_put_ne {key other : String} (h : other ≠ key) (value : Json)
    (fields : List (String × Json)) : lookup other (put key value fields) = lookup other fields := by
  induction fields with
  | nil => simp [put, lookup, Ne.symm h]
  | cons f fields ih =>
    by_cases hf : f.1 = key
    · subst hf; simp [put, lookup, Ne.symm h]
    · simp [put, lookup, hf, ih]

mutual

def depth : Json → Nat
  | arr items => depthItems items + 1
  | obj fields => depthFields fields + 1
  | _ => 0

def depthItems : List Json → Nat
  | [] => 0
  | j :: js => max (depth j) (depthItems js)

def depthFields : List (String × Json) → Nat
  | [] => 0
  | (_, j) :: fields => max (depth j) (depthFields fields)

end

def truthy : Json → Bool
  | null => false
  | bool b => b
  | int n => n != 0
  | float x => !x.number.isZero
  | str s => !s.isEmpty
  | arr items => !items.isEmpty
  | obj fields => !fields.isEmpty

end Json

end GateAsm
