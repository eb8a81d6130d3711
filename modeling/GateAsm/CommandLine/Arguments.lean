import GateAsm.CommandLine.Spec
import GateAsm.Text.Blank
import GateAsm.Text.Quoted

/-!
# Reading arguments

Arguments are told apart before any is used: those that look like options, the two dashes behind which
none does, and all others. An option may be spelled by the start of its long name, and its value may
follow in the same argument. Options that a command does not know are collected and reported when the
rest has been read.
-/

namespace GateAsm.CommandLine

inductive UsageFault
  | invalidChoice (argument value : String) (choices : List String)
  | noValue (argument : String)
  | unwantedValue (argument value : String)
  | missingOperand (name : String)
  | unknown (arguments : List String)
  | ambiguous (argument : String) (names : List String)
  deriving DecidableEq, Repr

def UsageFault.message : UsageFault → String
  | invalidChoice argument value choices =>
    s!"argument {argument}: invalid choice: {Text.quoted value} (choose from "
      ++ ", ".intercalate (choices.map Text.quoted) ++ ")"
  | noValue argument => s!"argument {argument}: expected one argument"
  | unwantedValue argument value => s!"argument {argument}: ignored explicit argument {Text.quoted value}"
  | missingOperand name => s!"the following arguments are required: {name}"
  | unknown arguments => "unrecognized arguments: " ++ " ".intercalate arguments
  | ambiguous argument names => s!"ambiguous option: {argument} could match " ++ ", ".intercalate names

inductive Stop
  | help (s : Spec)
  | fault (s : Spec) (f : UsageFault)
  deriving Repr

inductive Argument
  | plain (text : String)
  | dashes
  | option (text : String) (flag : Option Flag) (name : String) (value : Option String)
  deriving Repr

def Argument.text : Argument → String
  | plain text => text
  | dashes => "--"
  | option text _ _ _ => text

def Argument.isOption : Argument → Bool
  | option .. => true
  | _ => false

/-! ## Telling arguments apart -/

def Spec.flag? (s : Spec) (name : String) : Option Flag := s.allFlags.find? (·.names.contains name)

def cutAtEqual (text : String) : String × Option String :=
  let cs := text.toList
  match cs.dropWhile (· != '=') with
  | _ :: value => (String.ofList (cs.takeWhile (· != '=')), some (String.ofList value))
  | [] => (text, none)

def Spec.candidates (s : Spec) (text : String) : List (Flag × String × Option String) :=
  let all := s.allFlags.flatMap fun f => f.names.map (f, ·)
  if text.startsWith "--" then
    let (start, value) := cutAtEqual text
    (all.filter (·.2.startsWith start)).map fun (f, name) => (f, name, value)
  else
    all.filterMap fun (f, name) =>
      if name = (text.take 2).toString then some (f, name, some (text.drop 2).toString)
      else if name.startsWith text then some (f, name, none) else none

def withoutLineEnd (cs : List Char) : List Char := if cs.getLast? = some '\n' then cs.dropLast else cs

def isNegativeNumber (text : String) : Bool :=
  let isDigit (c : Char) : Bool := (Text.decimalDigit? c).isSome
  match withoutLineEnd text.toList with
  | '-' :: cs =>
    let whole := cs.takeWhile isDigit
    match cs.dropWhile isDigit with
    | [] => !whole.isEmpty
    | '.' :: fraction => !fraction.isEmpty && fraction.all isDigit
    | _ => false
  | _ => false

def Spec.argument (s : Spec) (text : String) : Except UsageFault Argument :=
  let exact (name : String) (value : Option String) : Option Argument :=
    (s.flag? name).map fun f => .option text (some f) name value
  let (start, value) := cutAtEqual text
  if !text.startsWith "-" || text = "-" then .ok (.plain text)
  else match exact text none, value.bind fun v => exact start (some v) with
    | some a, _ | none, some a => .ok a
    | none, none => match s.candidates text with
      | [(f, name, value)] => .ok (.option text (some f) name value)
      | _ :: _ :: _ => .error (.ambiguous text ((s.candidates text).map (·.2.1)))
      | [] =>
        if isNegativeNumber text || text.contains ' ' then .ok (.plain text)
        else .ok (.option text none text none)

def Spec.arguments (s : Spec) : List String → Except UsageFault (List Argument)
  | [] => .ok []
  | "--" :: rest => .ok (.dashes :: rest.map .plain)
  | text :: rest => do return (← s.argument text) :: (← s.arguments rest)

/-! ## Using arguments -/

/-- What was read: values by key, the latest first, and the arguments that nobody knows. -/
structure Reading where
  values : List (String × String)
  extras : List String
  deriving DecidableEq, Repr

namespace Reading

def value? (r : Reading) (key : String) : Option String := r.values.lookup key

def set (r : Reading) (key value : String) : Reading := { r with values := (key, value) :: r.values }

def leave (r : Reading) (texts : List String) : Reading := { r with extras := r.extras ++ texts }

end Reading

/-- Uses an option, with its value if it takes one. Two dashes attached to an option stand for no value:
it counts as given with an empty one, whatever its choices. -/
def Spec.use (s : Spec) (f : Flag) (value : Option String) (r : Reading) : Except Stop Reading :=
  if f = helpFlag then .error (.help s)
  else match value with
    | none | some "--" => .ok (r.set f.key "")
    | some v =>
      if f.choices.isEmpty || f.choices.contains v then .ok (r.set f.key v)
      else .error (.fault s (.invalidChoice f.shown v f.choices))

/-- An option and the letters behind it in its argument, each of which is an option again as long as none
takes a value. One that does takes the rest of the argument or, at its end, the argument that follows. -/
def Spec.cluster (s : Spec) (f : Flag) : (letters : List Char) → List Argument →
    Except UsageFault (List (Flag × Option String) × List Argument)
  | [], rest =>
    match f.takesValue, rest with
    | false, rest => .ok ([(f, none)], rest)
    | true, .plain v :: rest => .ok ([(f, some v)], rest)
    | true, _ => .error (.noValue f.shown)
  | c :: cs, rest =>
    if f.takesValue then .ok ([(f, some (String.ofList (c :: cs)))], rest)
    else match s.flag? ("-" ++ c.toString) with
      | none => .error (.unwantedValue f.shown (String.ofList (c :: cs)))
      | some g => do
        let (more, rest) ← s.cluster g cs rest
        return ((f, none) :: more, rest)

def Spec.spelled (s : Spec) (f : Flag) (name : String) (value : Option String) (rest : List Argument) :
    Except UsageFault (List (Flag × Option String) × List Argument) :=
  match value with
  | none => s.cluster f [] rest
  | some v =>
    if f.takesValue then .ok ([(f, some v)], rest)
    else if v.isEmpty || name.startsWith "--" then .error (.unwantedValue f.shown v)
    else s.cluster f v.toList rest

def Spec.useOption (s : Spec) (f : Flag) (name : String) (value : Option String) (rest : List Argument)
    (r : Reading) : Except Stop (Reading × List Argument) := do
  let (found, rest) ← (s.spelled f name value rest).mapError (.fault s)
  let r ← found.foldlM (fun r (f, value) => s.use f value r) r
  return (r, rest)

def takeOperand (o : Operand) (args : List Argument) : Option (List String × List Argument) :=
  match o, args with
  | .nothing, _ => none
  | .value .., .dashes :: .plain v :: rest => some ([v], rest)
  | .value .., .plain v :: .dashes :: rest => some ([v], rest)
  | .value .., .plain v :: rest => some ([v], rest)
  | .value .., _ => none
  | .choice .., .dashes :: .plain v :: rest => some ("--" :: v :: rest.map Argument.text, [])
  | .choice .., .plain v :: rest => some (v :: rest.map Argument.text, [])
  | .choice .., _ => none

def Spec.useAll (s : Spec) (choose : List String → Reading → Except Stop Reading) :
    (fuel : Nat) → (awaits : Bool) → List Argument → Reading → Except Stop (Bool × Reading)
  | 0, awaits, _, r => .ok (awaits, r)
  | fuel + 1, awaits, args, r =>
    match args with
    | .option text flag name value :: rest => match flag with
      | none => s.useAll choose fuel awaits rest (r.leave [text])
      | some f => do
        let (r, rest) ← s.useOption f name value rest r
        s.useAll choose fuel awaits rest r
    | args =>
      match if awaits then takeOperand s.operand args else none with
      | some (texts, rest) => do
        let r ← match s.operand with
          | .choice .. => choose texts r
          | .value name _ => .ok (r.set name (texts.headD ""))
          | .nothing => .ok r
        s.useAll choose fuel false rest r
      | none =>
        let skipped := args.takeWhile (!·.isOption)
        let rest := args.dropWhile (!·.isOption)
        let r := r.leave (skipped.map Argument.text)
        if rest.isEmpty then .ok (awaits, r) else s.useAll choose fuel awaits rest r

def Spec.readWith (s : Spec) (choose : List String → Reading → Except Stop Reading) (texts : List String)
    (values : List (String × String)) : Except Stop Reading := do
  let args ← (s.arguments texts).mapError (.fault s)
  let (awaits, r) ← s.useAll choose (2 * args.length + 1) true args ⟨values, []⟩
  match s.operand, awaits with
  | .value name _, true => .error (.fault s (.missingOperand name))
  | _, _ => .ok r

def Spec.read (commands : String → Option Spec) : (depth : Nat) → Spec → List String →
    List (String × String) → Except Stop Reading
  | depth, s, texts, values => s.readWith (fun texts r =>
      match s.operand, texts, depth with
      | .choice key _ names, command :: rest, depth + 1 =>
        match commands (s.name ++ " " ++ command) with
        | some sub => do
          let inner ← Spec.read commands depth sub rest ((key, command) :: r.values)
          return ⟨inner.values, r.extras ++ inner.extras⟩
        | none => .error (.fault s (.invalidChoice key command (names.map (·.1))))
      | _, _, _ => .ok r) texts values

end GateAsm.CommandLine
