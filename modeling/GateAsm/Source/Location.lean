/-!
# Positions in a text

Lines and columns count from one, offsets from zero, all in characters; only a line feed starts a line.
-/

namespace GateAsm

structure Location where
  line : Nat
  column : Nat
  offset : Nat
  deriving DecidableEq, Repr

namespace Location

def start : Location := ⟨1, 1, 0⟩

def step (l : Location) (c : Char) : Location :=
  if c = '\n' then ⟨l.line + 1, 1, l.offset + 1⟩ else ⟨l.line, l.column + 1, l.offset + 1⟩

def advance (l : Location) (cs : List Char) : Location := cs.foldl step l

def text (l : Location) : String := s!"{l.line}:{l.column}"

def inspect (l : Location) : String :=
  s!"SourceLocation(line={l.line}, column={l.column}, offset={l.offset})"

@[simp]
theorem advance_nil (l : Location) : l.advance [] = l := rfl

theorem advance_cons (l : Location) (c : Char) (cs : List Char) :
    l.advance (c :: cs) = (l.step c).advance cs := rfl

theorem advance_append (l : Location) (cs ds : List Char) :
    l.advance (cs ++ ds) = (l.advance cs).advance ds := List.foldl_append ..

theorem offset_advance (l : Location) (cs : List Char) :
    (l.advance cs).offset = l.offset + cs.length := by
  induction cs generalizing l with
  | nil => rfl
  | cons c cs ih =>
    rw [advance_cons, ih]
    unfold step
    split <;> simp only [List.length_cons] <;> omega

end Location

end GateAsm
