import GateAsm.Kind.Basic

/-!
# The instruction set

The instruction kinds that are known from the start.
-/

namespace GateAsm.Kind

private def target (name : String) : Slot := ⟨name, true, false⟩

private def plainSlot (name : String) : Slot := ⟨name, false, false⟩

private def unary (name summary : String) : Kind := ⟨name, [target "trgt"], false, false, summary⟩

private def binary (name summary : String) : Kind :=
  ⟨name, [target "ctrl", target "trgt"], false, false, summary⟩

private def turn (name summary : String) : Kind :=
  ⟨name, [plainSlot "phi", target "trgt"], true, false, summary⟩

def standard : List Kind :=
  [⟨"quantum.alloc", [], false, false, "allocate a qubit or a register"⟩,
   ⟨"quantum.dealloc", [target "reg"], false, false, "release qubits"⟩,
   unary "quantum.h" "Hadamard",
   unary "quantum.x" "Pauli X",
   unary "quantum.y" "Pauli Y",
   unary "quantum.z" "Pauli Z",
   unary "quantum.s" "phase",
   unary "quantum.t" "pi/8",
   turn "quantum.rx" "rotation about X",
   turn "quantum.ry" "rotation about Y",
   turn "quantum.rz" "rotation about Z",
   binary "quantum.cx" "controlled X",
   binary "quantum.cz" "controlled Z",
   binary "quantum.swap" "swap two qubits",
   unary "quantum.measure" "measure in the Z basis",
   ⟨"quantum.apply", [plainSlot "gate", target "trgt", ⟨"ctrl", true, true⟩], false, false, "apply a gate value"⟩,
   ⟨"quantum.ctrl", [plainSlot "gate", target "ctrl", target "trgt"], false, false,
    "apply a gate value under control qubits"⟩,
   ⟨"quantum.pcircuit", [], false, true, "instantiate a parametric circuit"⟩]

end GateAsm.Kind
