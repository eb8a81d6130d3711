import GateAsm.Log.Format
import GateAsm.Source.FileFault

/-!
# Logging

The logger of the library stands above the loggers of its parts and below the root logger of the
program. It has a level, handlers that write lines, and may pass records on to the root. At the start it
only has a handler that discards everything, so that a program which never asks for logging sees none.
-/

namespace GateAsm

inductive LogTarget
  | errors
  | stream
  | file (name : String)
  deriving DecidableEq, Repr

inductive LogHandler
  | discard
  | write (target : LogTarget) (level : Option LogLevel) (format : LogFormat)
  deriving DecidableEq, Repr

def LogHandler.className : LogHandler → String
  | discard => "NullHandler"
  | write (.file _) .. => "FileHandler"
  | write .. => "StreamHandler"

structure Logging where
  handlers : List LogHandler
  level : Option LogLevel
  propagate : Bool
  deriving DecidableEq, Repr

structure LogSetup where
  level : String
  pattern : Option String
  date : Option String
  file : Option String
  fileFault : Option FileFault
  target : Option LogTarget
  targetDefaulted : Bool
  force : Bool
  propagate : Bool

inductive LogFault
  | unknownLevel
  | patternForLevel
  | stylesForLevel
  | badPattern
  | file (f : FileFault)
  deriving DecidableEq, Repr

def foreignUpper : List (Char × String) :=
  [('\u0131', "I"), ('\u017f', "S"), ('\u00df', "SS"), ('\ufb00', "FF"), ('\ufb01', "FI"), ('\ufb02', "FL"),
   ('\ufb03', "FFI"), ('\ufb04', "FFL"), ('\ufb05', "ST"), ('\ufb06', "ST")]

def upperWord (word : String) : String :=
  String.join (word.toList.map fun c => (foreignUpper.lookup c).getD c.toUpper.toString)

def LogLevel.ofWord (word : String) : Except LogFault (Option LogLevel) :=
  match upperWord word with
  | "DEBUG" => .ok (some debug)
  | "INFO" => .ok (some info)
  | "WARNING" | "WARN" => .ok (some warning)
  | "ERROR" => .ok (some error)
  | "CRITICAL" | "FATAL" => .ok (some critical)
  | "NOTSET" => .ok none
  | "BASIC_FORMAT" => .error .patternForLevel
  | "_STYLES" => .error .stylesForLevel
  | _ => .error .unknownLevel

namespace Logging

def root : String := "quantir"

def start : Logging := ⟨[.discard], none, true⟩

def levelName (l : Logging) : String := (l.level.map LogLevel.text).getD "NOTSET"

def newHandlers (s : LogSetup) (level : Option LogLevel) (format : LogFormat) :
    Except LogFault Unit × List LogHandler :=
  let handlers (targets : List LogTarget) : List LogHandler := targets.map fun t => .write t level format
  match s.file.filter (· != ""), s.fileFault with
  | none, _ => (.ok (), handlers s.target.toList)
  | some name, none => (.ok (), handlers (s.target.toList ++ [.file name]))
  | some _, some f => (.error (.file f), handlers s.target.toList)

def formatOf (s : LogSetup) : LogFormat :=
  let given (x : Option String) : Option String := x.filter (· != "")
  ⟨(given s.pattern).getD LogFormat.defaultPattern, given s.date⟩

/-- Sets logging up. What was changed before a fault stays. -/
def setup (l : Logging) (s : LogSetup) : Except LogFault Unit × Logging :=
  match LogLevel.ofWord s.level with
  | .error f => (.error f, l)
  | .ok level =>
    let force := s.force || (s.propagate && l.handlers = [.discard])
    let l : Logging := ⟨if force then [] else l.handlers, level, s.propagate⟩
    let fileGiven := (s.file.map (· != "")).getD false
    let format := formatOf s
    if s.propagate && !fileGiven && s.targetDefaulted then (.ok (), l)
    else if format.Valid then
      let (answer, handlers) := newHandlers s level format
      (answer, { l with handlers := l.handlers ++ handlers })
    else (.error .badPattern, l)

def disable (l : Logging) : Logging := { l with handlers := [.discard], propagate := false }

def owns (logger : String) : Bool := logger = root || logger.startsWith (root ++ ".")

def passes (level : Option LogLevel) (r : LogRecord) : Bool := (level.map LogLevel.rank).getD 0 ≤ r.level.rank

/-- The record is made at all: where no level is set, that of the root logger applies, which is warning. -/
def enabled (l : Logging) (r : LogRecord) : Bool :=
  passes (some ((if owns r.logger then l.level else none).getD .warning)) r

def emit (l : Logging) (now : String) (r : LogRecord) : List (LogTarget × String) × Bool :=
  if !l.enabled r then ([], false)
  else if !owns r.logger then ([], true)
  else
    (l.handlers.filterMap fun h => match h with
      | .discard => none
      | .write target level format => if passes level r then (format.line? now r).map (target, ·) else none,
     l.propagate)

def textFor (l : Logging) (now : String) (target : LogTarget) (rs : List LogRecord) : String :=
  String.join (rs.flatMap fun r => ((l.emit now r).1.filter (·.1 = target)).map (·.2))

end Logging

end GateAsm
