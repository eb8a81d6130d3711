/-!
# Log records

What happens is recorded with a level and the name of the part of the program that it happened in.
-/

namespace GateAsm

inductive LogLevel
  | debug
  | info
  | warning
  | error
  | critical
  deriving DecidableEq, Repr

namespace LogLevel

def rank : LogLevel → Nat
  | debug => 10
  | info => 20
  | warning => 30
  | error => 40
  | critical => 50

def text : LogLevel → String
  | debug => "DEBUG"
  | info => "INFO"
  | warning => "WARNING"
  | error => "ERROR"
  | critical => "CRITICAL"

end LogLevel

structure LogRecord where
  level : LogLevel
  logger : String
  message : String
  wording : String
  arguments : List String
  deriving DecidableEq, Repr

def LogRecord.plain (level : LogLevel) (logger message : String) : LogRecord :=
  ⟨level, logger, message, message, []⟩

end GateAsm
