import GateAsm.CommandLine.Run
import Std.Time.Format

/-!
# The program

The system that the program really runs on, and its entry point.
-/

namespace GateAsm.CommandLine

def faultOf : IO.Error → FileFault
  | .noFileOrDirectory .. | .noSuchThing .. => .notFound
  | .permissionDenied .. => .denied
  | .inappropriateType .. => .isDirectory
  | .invalidArgument .. => .nameTooLong
  | _ => .notDirectory

def attempt {α : Type} (action : IO α) : IO (Except FileFault α) := do
  match ← action.toBaseIO with
  | .ok a => return .ok a
  | .error e => return .error (faultOf e)

def systemHost : Host IO where
  readFile path := do
    if path.contains '\x00' then return .error .noPath
    match ← attempt (IO.FS.readBinFile path) with
    | .error f => return .error f
    | .ok bytes => match String.fromUTF8? bytes with
      | some text => return .ok text
      | none => return .error .notText
  writeFile path text :=
    if path.contains '\x00' then return .error .noPath else attempt (IO.FS.writeFile path text)
  readInput := do (← IO.getStdin).readToEnd
  print text := do
    let out ← IO.getStdout
    out.putStr text
    out.flush
  printError text := do
    let err ← IO.getStderr
    err.putStr text
    err.flush
  now := do
    let t ← Std.Time.PlainDateTime.now
    return t.format "uuuu-MM-dd HH:mm:ss"

end GateAsm.CommandLine

def main (arguments : List String) : IO UInt32 := do
  match ← GateAsm.CommandLine.run GateAsm.CommandLine.systemHost arguments with
  | .ok code => return UInt32.ofNat code
  | .error f => do
    (← IO.getStderr).putStrLn (f.message?.getD "the program failed")
    return 1
