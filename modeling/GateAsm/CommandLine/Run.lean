import GateAsm.Block.Printer
import GateAsm.CommandLine.Host
import GateAsm.CommandLine.Tool
import GateAsm.Config.Basic
import GateAsm.Log.Logging
import GateAsm.Parser.Instruction
import GateAsm.Wire.Bytes
import GateAsm.Yaml.Writer

/-!
# Running a command

`run` does what the arguments ask for and gives the exit code. Errors in the text, in the configuration
and of the file system are reported on standard error and lead to exit code 1; any other failure ends
the program, and is the answer itself.
-/

namespace GateAsm.CommandLine

variable {m : Type → Type} [Monad m]

inductive Halt
  | parse (e : ParseError)
  | config (f : ConfigFault)
  | file (f : FileFault) (path : String)
  | failure (f : Failure)

abbrev Step (m : Type → Type) := ExceptT Halt m

def orHalt {ε α : Type} [FailureCause ε] (x : Except ε α) : Step m α :=
  match x with
  | .ok a => pure a
  | .error e => throw (.failure (toFailure e))

def orRefused {α : Type} (path : String) (x : Except FileFault α) : Step m α :=
  match x with
  | .ok a => pure a
  | .error f => throw (.file f path)

def lineFeeds : List Char → List Char
  | [] => []
  | '\r' :: '\n' :: cs => '\n' :: lineFeeds cs
  | '\r' :: cs => '\n' :: lineFeeds cs
  | c :: cs => c :: lineFeeds cs

def readable (text : String) : String := String.ofList (lineFeeds text.toList)

structure Desk (m : Type → Type) where
  host : Host m
  logging : Logging

namespace Desk

def record (d : Desk m) (es : List Event) : m Unit := do
  let text := d.logging.textFor (← d.host.now) .errors (es.map Event.record)
  if text != "" then d.host.printError text

def answer {α : Type} (d : Desk m) (r : GateAsm.Reading α) : Step m α := do
  d.record r.events
  match r.answer with
  | .ok a => return a
  | .error (.error e) => throw (.parse e)
  | .error e => throw (.failure (toFailure e))

def source (d : Desk m) (path : String) : Step m String := do
  if path = "-" then return readable (← d.host.readInput)
  return readable (← orRefused path (← d.host.readFile path))

def load (d : Desk m) (path : Option String) : Step m (Config × Registry) := do
  match path with
  | none | some "" => return (.default, .standard)
  | some path =>
    let text ← match ← d.host.readFile path with
      | .ok text => pure (readable text)
      | .error f => match f.system? with
        | some _ => throw (.config (.unreadable path (f.message path)))
        | none => throw (.failure (toFailure f))
    match Config.ofText path text with
    | .error f => throw (.config f)
    | .ok c =>
      let (answer, registry, events) := c.register false .standard
      d.record events
      match answer with
      | .ok () => return (c, registry)
      | .error f => throw (.config f)

def readBlock (d : Desk m) (c : Config) (registry : Registry) (text : String) : Step m Block := do
  let r := GateAsm.Reading.module ⟨registry, c.allowMissingAngle⟩ text .default .empty
  d.answer r
  return r.block

def kindLine (k : Kind) : String :=
  let field (width : Nat) (s : String) : String := s ++ spaces (width - s.length)
  String.ofList (Text.trimEnd (field 20 k.name ++ " " ++ field 28 k.describe ++ " " ++ k.summary).toList) ++ "\n"

def perform (d : Desk m) (config : Option String) (command : Command) : Step m Nat := do
  let (c, registry) ← d.load config
  match command with
  | .format file output check =>
    let text ← d.source file
    let b ← d.readBlock c registry text
    let canonical ← if b.operations.isEmpty then pure "" else (· ++ "\n") <$> orHalt (b.format registry 0)
    if check then
      if canonical = text then return 0
      d.host.printError s!"{file}: not in canonical form\n"
      return 1
    match output.filter (· != "") with
    | some path => orRefused path (← d.host.writeFile path canonical)
    | none => d.host.print canonical
    return 0
  | .showType text =>
    let t ← d.answer (GateAsm.Reading.type registry text .default)
    d.host.print (t.text ++ "\n")
    return 0
  | .listKinds =>
    d.host.print (String.join ((registry.mnemonics.filterMap registry.kind?).map kindLine))
    return 0
  | .dump file =>
    let b ← d.readBlock c registry (← d.source file)
    let text ← orHalt (Wire.dumpBlock (.indented 2) b)
    d.host.print (text ++ "\n")
    return 0
  | _ => return 0

def writeSample (d : Desk m) (output : Option String) : m (Except Failure Nat) := do
  let text := Yaml.write Config.sample.document
  match output.filter (· != "") with
  | none => do
    d.host.print (text ++ "\n")
    return .ok 0
  | some path => match ← d.host.writeFile path text with
    | .ok () => do
      d.host.print s!"Config written to {path}\n"
      return .ok 0
    | .error f => return .error (toFailure f)

def report (d : Desk m) (source : String) (h : Halt) : m (Except Failure Nat) := do
  let say (text : String) : m (Except Failure Nat) := do
    d.host.printError (text ++ "\n")
    return .ok 1
  match h with
  | .parse e => say s!"{source}:{e.location.text}: error: {e.message}"
  | .config f => match f.message? with
    | some text => say s!"error: {text}"
    | none => return .error (toFailure f)
  | .file f path => match f.system? with
    | some _ => say s!"error: {f.message path}"
    | none => return .error (toFailure f)
  | .failure f => return .error f

end Desk

def Command.source : Command → String
  | format file _ _ | dump file => if file = "" then "<text>" else file
  | _ => "<text>"

def loggingAt (level : Option String) : Logging :=
  match level with
  | none => .start
  | some level => (Logging.start.setup ⟨level, none, none, none, none, some .errors, true, true, false⟩).2

def run (host : Host m) (arguments : List String) : m (Except Failure Nat) := do
  match Tool.read arguments with
  | .error (.help s) => do
    host.print s.help
    return .ok 0
  | .error (.fault s f) => do
    host.printError (s.usage ++ s!"{s.name}: error: {f.message}\n")
    return .ok 2
  | .ok i =>
    let d : Desk m := ⟨host, loggingAt i.logLevel⟩
    match i.command with
    | .incomplete => do
      host.print Tool.spec.help
      return .ok 1
    | .writeSample output => d.writeSample output
    | command => match ← (d.perform i.config command).run with
      | .ok code => return .ok code
      | .error h => d.report command.source h

end GateAsm.CommandLine
