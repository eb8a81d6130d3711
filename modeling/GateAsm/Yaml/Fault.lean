/-!
# Faults of YAML texts

A text can break the rules of the language, or a scalar in it can say what it is and not be that.
-/

namespace GateAsm.Yaml

inductive YamlFault
  | malformed
  | badValue
  | overflow
  | noDigits
  | noTime
  | noTruth (word : String)
  deriving DecidableEq, Repr

end GateAsm.Yaml
