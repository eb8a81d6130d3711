import GateAsm.CommandLine.Arguments
import GateAsm.Log.Record

/-!
# The commands of the program

The descriptions of all commands, and the invocation that arguments ask for.
-/

namespace GateAsm.CommandLine

inductive Command
  | format (file : String) (output : Option String) (check : Bool)
  | showType (text : String)
  | listKinds
  | dump (file : String)
  | writeSample (output : Option String)
  | incomplete
  deriving DecidableEq, Repr

structure Invocation where
  config : Option String
  logLevel : Option String
  command : Command
  deriving DecidableEq, Repr

namespace Tool

def levels : List String := [LogLevel.debug, .info, .warning, .error, .critical].map LogLevel.text

def outputFlag : Flag := ⟨["-o", "--output"], "output", true, [], "Output file path"⟩

def fileOperand : Operand := .value "file" "Input file ('-' for stdin)"

def spec : Spec :=
  ⟨"quantir", some "quantir assembly tools",
   [⟨["-c", "--config"], "config", true, [], "Config YAML"⟩,
    ⟨["--log-level"], "log_level", true, levels, "Enable logging at this level"⟩],
   .choice "command" "Available commands"
    [("fmt", "Reprint in canonical form"), ("type", "Parse and print a type"), ("ops", "List instruction kinds"),
     ("dump", "Dump a module as JSON"), ("config", "Configuration management")]⟩

def commands : List Spec :=
  [⟨"quantir fmt", none,
    [outputFlag, ⟨["--check"], "check", false, [], "Exit with 1 if the file is not in canonical form"⟩],
    fileOperand⟩,
   ⟨"quantir type", none, [], .value "text" "Type text, e.g. 'register<4>'"⟩,
   ⟨"quantir ops", none, [], .nothing⟩,
   ⟨"quantir dump", none, [], fileOperand⟩,
   ⟨"quantir config", none, [], .choice "config_command" "Config commands" [("gen", "Generate sample config")]⟩,
   ⟨"quantir config gen", none, [outputFlag], .nothing⟩]

def command (r : Reading) : Command :=
  let value (key : String) : String := (r.value? key).getD ""
  match r.value? "command", r.value? "config_command" with
  | some "fmt", _ => .format (value "file") (r.value? "output") (r.value? "check").isSome
  | some "type", _ => .showType (value "text")
  | some "ops", _ => .listKinds
  | some "dump", _ => .dump (value "file")
  | some "config", some "gen" => .writeSample (r.value? "output")
  | _, _ => .incomplete

def read (texts : List String) : Except Stop Invocation := do
  let r ← Spec.read (fun name => commands.find? (·.name = name)) 2 spec texts []
  if r.extras.isEmpty then return ⟨r.value? "config", (r.value? "log_level").filter (· != ""), command r⟩
  else throw (.fault spec (.unknown r.extras))

end Tool

end GateAsm.CommandLine
