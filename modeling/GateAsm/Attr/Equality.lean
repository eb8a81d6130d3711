import GateAsm.Attr.Basic

/-!
# Equal attributes

Where attributes are keys, numbers are equal by their values whatever their form, texts by their
characters and types by their parameters. Lists, dictionaries and arrays are no keys.
-/

namespace GateAsm.Attr

def bitNumber (b : Bool) : Floating.Number := .finite false (if b then 1 else 0) 0

def number? : Attr → Option Floating.Number
  | bool b | bool8 b => some (bitNumber b)
  | int n | int64 n => some (.finite (n < 0) n.natAbs 0)
  | float x | float64 x | float32 x => some x.number
  | _ => Option.none

mutual

def isKey : Attr → Bool
  | list _ | dict _ | array _ => false
  | tuple items => areKeys items
  | symbol name => name.isKey
  | _ => true

def areKeys : List Attr → Bool
  | [] => true
  | a :: as => isKey a && areKeys as

end

mutual

def agree (a b : Attr) : Bool :=
  match a, b with
  | none, none => true
  | str s, str t => s = t
  | symbol s, symbol t => s.same t
  | constant m, constant n => m = n
  | dynamic, dynamic => true
  | accessors s, accessors t => s = t
  | type s, type t => s.same t
  | tuple as, tuple bs => allAgree as bs
  | a, b => match a.number?, b.number? with
    | some x, some y => x.equal y
    | _, _ => false

def allAgree : List Attr → List Attr → Bool
  | [], [] => true
  | a :: as, b :: bs => agree a b && allAgree as bs
  | _, _ => false

end

def entry? (key : Attr) (entries : List (Attr × Attr)) : Option Attr :=
  (entries.find? fun e => e.1.agree key).map (·.2)

def putEntry (key value : Attr) : List (Attr × Attr) → List (Attr × Attr)
  | [] => [(key, value)]
  | (k, v) :: entries => if k.agree key then (k, value) :: entries else (k, v) :: putEntry key value entries

end GateAsm.Attr
