/-!
# Command line descriptions

What a command takes: options, and either one value or a choice of subcommands. The texts for the user
and the reading of arguments both follow the description.
-/

namespace GateAsm.CommandLine

structure Flag where
  names : List String
  key : String
  takesValue : Bool
  choices : List String
  help : String
  deriving DecidableEq, Repr

inductive Operand
  | nothing
  | value (name help : String)
  | choice (key help : String) (commands : List (String × String))
  deriving DecidableEq, Repr

/-- A command. Its name is that of the program with the names of the subcommands behind it. -/
structure Spec where
  name : String
  description : Option String
  flags : List Flag
  operand : Operand
  deriving DecidableEq, Repr

def helpFlag : Flag := ⟨["-h", "--help"], "help", false, [], "show this help message and exit"⟩

def Spec.allFlags (s : Spec) : List Flag := helpFlag :: s.flags

def braced (words : List String) : String := "\x7b" ++ ",".intercalate words ++ "\x7d"

namespace Flag

def placeholder (f : Flag) : String := if f.choices.isEmpty then f.key.toUpper else braced f.choices

def withValue (f : Flag) (name : String) : String := if f.takesValue then name ++ " " ++ f.placeholder else name

def shown (f : Flag) : String := "/".intercalate f.names

end Flag

/-! ## Usage -/

def screenWidth : Nat := 78

def Operand.usage : Operand → List String
  | nothing => []
  | value name _ => [name]
  | choice _ _ commands => [braced (commands.map (·.1)) ++ " ..."]

def fill (width : Nat) (start : String) : List String → (line : List String) → List String
  | [], [] => []
  | [], line => [start ++ " ".intercalate line]
  | w :: ws, line =>
    let used := start.length + (line.map (·.length + 1)).sum
    if width < used + w.length && !line.isEmpty then
      (start ++ " ".intercalate line) :: fill width start ws [w]
    else fill width start ws (line ++ [w])

def Spec.usage (s : Spec) : String :=
  let lead := "usage: " ++ s.name
  let flags := s.allFlags.map fun f => "[" ++ f.withValue (f.names.headD "") ++ "]"
  let whole := " ".intercalate (lead :: flags ++ s.operand.usage)
  if whole.length ≤ screenWidth then whole ++ "\n"
  else
    let indent := String.ofList (List.replicate (lead.length + 1) ' ')
    let lines := fill screenWidth indent flags [] ++ fill screenWidth indent s.operand.usage []
    let lines := match lines with
      | first :: rest => (lead ++ " " ++ (first.drop indent.length).toString) :: rest
      | [] => [lead]
    "\n".intercalate lines ++ "\n"

/-! ## Help -/

structure Entry where
  indent : Nat
  head : String
  help : String

def Operand.entries : Operand → List Entry
  | nothing => []
  | value name help => [⟨2, name, help⟩]
  | choice _ help commands =>
    ⟨2, braced (commands.map (·.1)), help⟩ :: commands.map fun (name, help) => ⟨4, name, help⟩

def Flag.entry (f : Flag) : Entry := ⟨2, ", ".intercalate (f.names.map f.withValue), f.help⟩

def spaces (n : Nat) : String := String.ofList (List.replicate n ' ')

def Entry.text (column : Nat) (e : Entry) : String :=
  let head := spaces e.indent ++ e.head
  if head.length + 2 ≤ column then head ++ spaces (column - head.length) ++ e.help ++ "\n"
  else head ++ "\n" ++ spaces column ++ e.help ++ "\n"

/-- The column of the explanations: behind the longest head, but not beyond a limit. Subcommands are
measured as if they were not indented further than the rest. -/
def helpColumn (entries : List Entry) : Nat :=
  min 24 ((entries.map (2 + ·.head.length)).foldl max 0 + 2)

def group (title : String) (column : Nat) (entries : List Entry) : String :=
  if entries.isEmpty then "" else "\n" ++ title ++ ":\n" ++ String.join (entries.map (Entry.text column))

def Spec.help (s : Spec) : String :=
  let operands := s.operand.entries
  let flags := s.allFlags.map Flag.entry
  let column := helpColumn (operands ++ flags)
  s.usage ++ (s.description.map fun d => "\n" ++ d ++ "\n").getD ""
    ++ group "positional arguments" column operands ++ group "options" column flags

end GateAsm.CommandLine
