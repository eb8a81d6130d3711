import GateAsm.Kind.Standard

/-!
# Registries

What the parser and the printer look up by name: the instruction kind of a mnemonic, and the type
grammar that a keyword introduces.
-/

namespace GateAsm

inductive TypeGrammar
  | qubit
  | register
  | gate1
  | gate2
  | cgate
  | circuit
  deriving DecidableEq, Repr

structure Registry where
  kinds : List (String × Kind)
  /-- The keywords; one may be reserved without a grammar. -/
  keywords : List (String × Option TypeGrammar)
  deriving Repr

inductive RegistryFault
  | kindExists (name : String)
  | keywordExists (keyword : String)
  deriving DecidableEq, Repr

def RegistryFault.message : RegistryFault → String
  | kindExists name => s!"instruction kind '{name}' is already registered"
  | keywordExists keyword => s!"type keyword '{keyword}' is already registered"

def sortTexts (ss : List String) : List String := ss.mergeSort fun a b => !decide (b < a)

namespace Registry

def standard : Registry :=
  { kinds := Kind.standard.map fun k => (k.name, k)
    keywords := [("qubit", some .qubit), ("register", some .register), ("gate1", some .gate1),
      ("gate2", some .gate2), ("cgate", some .cgate), ("circuit", some .circuit)] }

def kind? (r : Registry) (name : String) : Option Kind := (r.kinds.find? (·.1 = name)).map (·.2)

def keyword? (r : Registry) (keyword : String) : Option TypeGrammar :=
  (r.keywords.find? (·.1 = keyword)).bind (·.2)

def setKind (r : Registry) (k : Kind) : Registry :=
  { r with kinds := (r.kinds.filter (·.1 != k.name)) ++ [(k.name, k)] }

def registerKind (r : Registry) (k : Kind) (replace : Bool) : Except RegistryFault Registry :=
  if (r.kind? k.name).isSome && !replace then .error (.kindExists k.name) else .ok (r.setKind k)

def unregisterKind (r : Registry) (name : String) : Registry :=
  { r with kinds := r.kinds.filter (·.1 != name) }

def mnemonics (r : Registry) : List String := sortTexts (r.kinds.map (·.1))

/-- Registers a keyword for a type grammar, or reserves it without one; a keyword that is there with
another grammar is refused. -/
def registerKeyword (r : Registry) (keyword : String) (g : Option TypeGrammar) : Except RegistryFault Registry :=
  match r.keywords.find? (·.1 = keyword) with
  | none => .ok { r with keywords := r.keywords ++ [(keyword, g)] }
  | some (_, g') => if g' = g then .ok r else .error (.keywordExists keyword)

def keywordNames (r : Registry) : List String := sortTexts (r.keywords.map (·.1))

end Registry

end GateAsm
