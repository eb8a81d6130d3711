import GateAsm.Parser.Operands

/-!
# Calls

The call form of an instruction is

    mnemonic @callee(N, %a[accessor], %b, …) [{tags}] [: types] -> type

All arguments come first among the physical operands, then the references of all accessors.
-/

namespace GateAsm

structure Argument where
  main : Reference
  accessors : Accessors
  references : List Reference

namespace Parser

def arguments : (fuel : Nat) → Parser (List Argument)
  | 0 => return []
  | fuel + 1 => do
    if (← optional .comma).isNone then return []
    let r ← operand
    let (accessors, references) ← accessorList
    let others ← arguments fuel
    return ⟨r, accessors, references⟩ :: others

def callAttrs (callee : String) (count : Int) (args : List Argument) : List (String × Attr) :=
  [(calleeTag, .symbol (.text callee)), (countTag, .int count),
   (callAccessorsTag, .tuple (args.map fun a => .accessors a.accessors)),
   (segmentSizesTag, segmentSizesAttr [args.length, (args.flatMap (·.references)).length])]

/-- The physical operands of a call, and whether the type of each is fixed to be index. -/
def callOperands (args : List Argument) : List (Reference × Bool) :=
  args.map (fun a => (a.main, false)) ++ (args.flatMap (·.references)).map (·, true)

def checkSegments (sizes : List Nat) : Parser Unit :=
  if sizes.all (· < segmentLimit) then return else throw .segmentTooLarge

def callForm (env : ParserEnv) (kind : Kind) : Parser OperationState := do
  let callee ← symbol
  let _ ← expect .openParen
  let count ← integer "argument count"
  let args ← arguments (← get).rest.length
  let _ ← expect .closeParen
  checkSegments [args.length, (args.flatMap (·.references)).length]
  modify fun s => { s with tags := callAttrs callee count args }
  let values ← boundOperands env kind (callOperands args)
  let _ ← expect .arrow
  let result ← typeExpr env.registry
  return ⟨kind.name, values.map some, (← get).tags, [.type result]⟩

end Parser

end GateAsm
