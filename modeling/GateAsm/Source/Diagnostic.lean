import GateAsm.Source.Location
import GateAsm.Text.Quoted

/-!
# Diagnostics

What the parser reports while it reads a text, in the order of the reports.
-/

namespace GateAsm

inductive Severity
  | error
  | warning
  deriving DecidableEq, Repr

def Severity.text : Severity → String
  | error => "error"
  | warning => "warning"

structure Diagnostic where
  severity : Severity
  location : Location
  message : String
  deriving DecidableEq, Repr

def Diagnostic.text (d : Diagnostic) : String :=
  s!"{d.location.text}: {d.severity.text}: {d.message}"

def Diagnostic.inspect (d : Diagnostic) : String :=
  "Diagnostic(severity=" ++ Text.quoted d.severity.text ++ ", location=" ++ d.location.inspect ++ ", message="
    ++ Text.quoted d.message ++ ")"

end GateAsm
