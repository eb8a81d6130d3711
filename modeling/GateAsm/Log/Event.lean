import GateAsm.Log.Record
import GateAsm.Source.Diagnostic
import GateAsm.Ty.Basic

/-!
# Events

The events of the library that are worth a log record, and the record of each.
-/

namespace GateAsm

inductive Event
  | diagnosed (d : Diagnostic)
  | acceptedWithoutAngle (kind : String)
  | interned (t : Ty) (context : String)
  | parsed (opcode : String) (operands : Nat)
  | registered (kind : String)
  | configured (kind : String)
  deriving DecidableEq, Repr

def Event.record : Event → LogRecord
  | diagnosed d => match d.severity with
    | .error => ⟨.debug, "quantir.ir.diagnostics", "diagnostic: " ++ d.text, "diagnostic: %s", [d.inspect]⟩
    | .warning => ⟨.warning, "quantir.ir.diagnostics", d.text, "%s", [d.inspect]⟩
  | acceptedWithoutAngle kind =>
    ⟨.warning, "quantir.dialects.quantum.operands", s!"accepted '{kind}' without rotation angle",
      "accepted '%s' without rotation angle", [Text.quoted kind]⟩
  | interned t context =>
    ⟨.debug, "quantir.ir.typing", s!"interned {t.text} in context '{context}'", "interned %s in context '%s'",
      [t.text, Text.quoted context]⟩
  | parsed opcode operands =>
    ⟨.debug, "quantir.ir.parser", s!"parsed {opcode} with {operands} operands", "parsed %s with %d operands",
      [Text.quoted opcode, toString operands]⟩
  | registered kind =>
    ⟨.debug, "quantir.ir.registry", s!"registered instruction kind {kind}", "registered instruction kind %s",
      [Text.quoted kind]⟩
  | configured kind =>
    ⟨.info, "quantir.config", s!"registered instruction kind {kind} from config",
      "registered instruction kind %s from config", [Text.quoted kind]⟩

end GateAsm
