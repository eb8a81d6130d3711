import GateAsm.Config.Document
import GateAsm.Failure
import GateAsm.Log.Event
import GateAsm.Yaml.Reader

/-!
# Configurations

A configuration sets what the parser lets pass and describes further instruction kinds.
`Config.ofDocument` reads one from a document and refuses everything that it does not know;
`Config.register` enters its kinds into a registry.
-/

namespace GateAsm

structure Config where
  allowMissingAngle : Bool
  kinds : List Kind
  deriving DecidableEq, Repr

/-- Why a configuration is refused. Names are kept as the message shows them. -/
inductive ConfigFault
  | notMapping
  | unknownSections (shown : String)
  | parserNotMapping
  | unknownOptions (shown : String)
  | optionNotFlag (key : String)
  | kindsNotList
  | unnamedKind
  | unknownKeys (kind shown : String)
  | slotsNotList (kind : String)
  | unnamedSlot (kind : String)
  | unknownSlotKeys (kind shown : String)
  | notFlag (kind key : String)
  | kind (f : KindFault)
  | duplicateKinds
  | alreadyRegistered (kind : String)
  /-- Unknown keys of two kinds that have no order among each other. -/
  | unorderedKeys (kind other : String)
  | integerTooLong
  /-- An integer that a message is about has too many digits. -/
  | integerTooLongToTell
  | unreadable (path reason : String)
  | invalidText (path : String)
  | scalar (f : Yaml.YamlFault)
  deriving DecidableEq, Repr

namespace ConfigFault

def message? : ConfigFault → Option String
  | notMapping => some "configuration must be a mapping"
  | unknownSections shown => some s!"unknown configuration sections: {shown}"
  | parserNotMapping => some "'parser' section must be a mapping"
  | unknownOptions shown => some s!"unknown parser options: {shown}"
  | optionNotFlag key => some s!"parser option '{key}' must be true or false"
  | kindsNotList => some "'ops' section must be a list"
  | unnamedKind => some "each entry of 'ops' needs a 'name'"
  | unknownKeys name shown => some s!"{name}: unknown keys {shown}"
  | slotsNotList name => some s!"{name}: 'slots' must be a list"
  | unnamedSlot name => some s!"{name}: each slot needs a 'name'"
  | unknownSlotKeys name shown => some s!"{name}: unknown slot keys {shown}"
  | notFlag name key => some s!"{name}: '{key}' must be true or false"
  | kind f => some f.message
  | duplicateKinds => some "duplicate instruction kind in 'ops'"
  | alreadyRegistered name => some s!"instruction kind '{name}' is already registered"
  | unreadable path reason => some s!"cannot read config {path}: {reason}"
  | invalidText path => some s!"invalid YAML in {path}: not one well-formed document"
  | unorderedKeys a b => some s!"'<' not supported between instances of '{a}' and '{b}'"
  | integerTooLongToTell => some (s!"Exceeds the limit ({maxIntegerDigits} digits) for integer string conversion; "
      ++ "use sys.set_int_max_str_digits() to increase the limit")
  | integerTooLong | scalar _ => none

end ConfigFault

instance : FailureCause ConfigFault where
  toFailure
    | .unorderedKeys a b => .other .wrongKind (ConfigFault.unorderedKeys a b).message?
    | .integerTooLongToTell => .other .badValue ConfigFault.integerTooLongToTell.message?
    | .integerTooLong | .scalar .badValue => .silent .badValue
    | .scalar .overflow => .silent .overflow
    | .scalar .noDigits => .silent .outOfRange
    | .scalar .noTime => .silent .noComponent
    | .scalar (.noTruth word) => .noEntry word
    | f => .other .configuration f.message?

namespace Config

/-! ## From documents -/

def angleOption : String := "allow_missing_rotation_parameter"

def default : Config := ⟨false, []⟩

def about (d : Document) (fault : String → ConfigFault) : ConfigFault :=
  if d.isShowable then fault d.display else .integerTooLongToTell

def textOf (d : Document) : Except ConfigFault String :=
  if d.isShowable then .ok d.display else .error .integerTooLong

def unknownKeys (keys : List Document) (fault : String → ConfigFault) : ConfigFault :=
  match Document.sortKeys keys with
  | .ok keys => about (.list keys) fault
  | .error (earlier, later) => .unorderedKeys later.kindName earlier.kindName

def known (names : List String) (fault : List Document → ConfigFault) (entries : List (Document × Document)) :
    Except ConfigFault Unit :=
  match Document.otherKeys names entries with
  | [] => .ok ()
  | keys => .error (fault keys)

def sectionOf (fault : ConfigFault) (section? : Option Document) :
    Except ConfigFault (List (Document × Document)) :=
  match section? with
  | none | some .null => .ok []
  | some (.mapping entries) => .ok entries
  | _ => .error fault

def listOf (fault : ConfigFault) (list? : Option Document) : Except ConfigFault (List Document) :=
  match list? with
  | none | some .null => .ok []
  | some (.list items) => .ok items
  | _ => .error fault

def flagOf (kind : Document) (key : String) (entries : List (Document × Document)) : Except ConfigFault Bool :=
  match Document.lookup key entries with
  | none => .ok false
  | some (.bool b) => .ok b
  | _ => .error (about kind (.notFlag · key))

def named (fault : ConfigFault) (d : Document) : Except ConfigFault (Document × List (Document × Document)) :=
  match d with
  | .mapping entries => match Document.lookup "name" entries with
    | some name => .ok (name, entries)
    | none => .error fault
  | _ => .error fault

def slotOf (kind d : Document) : Except ConfigFault Slot := do
  let (name, entries) ← named (about kind .unnamedSlot) d
  known ["name", "register", "optional"]
    (fun keys => about kind fun kind => unknownKeys keys (.unknownSlotKeys kind)) entries
  return ⟨← textOf name, ← flagOf kind "register" entries, ← flagOf kind "optional" entries⟩

def kindOf (d : Document) : Except ConfigFault Kind := do
  let (name, entries) ← named .unnamedKind d
  known ["name", "slots", "rotation", "summary"]
    (fun keys => about name fun name => unknownKeys keys (.unknownKeys name)) entries
  let slots ← (← listOf (about name .slotsNotList) (Document.lookup "slots" entries)).mapM (slotOf name)
  let text ← textOf name
  let rotation ← flagOf name "rotation" entries
  let summary ← textOf ((Document.lookup "summary" entries).getD (.text ""))
  (Kind.make ⟨text, slots, rotation, false, summary⟩).mapError .kind

def optionsOf (entries : List (Document × Document)) : Except ConfigFault Bool := do
  known [angleOption] (unknownKeys · .unknownOptions) entries
  match entries.find? fun e => match e.2 with
      | .bool _ => false
      | _ => true with
  | some (key, _) => .error (.optionNotFlag key.display)
  | none => match Document.lookup angleOption entries with
    | some (.bool b) => .ok b
    | _ => .ok false

def ofDocument (d : Document) : Except ConfigFault Config :=
  match d with
  | .null => .ok default
  | .mapping entries => do
    known ["parser", "ops"] (unknownKeys · .unknownSections) entries
    let allow ← optionsOf (← sectionOf .parserNotMapping (Document.lookup "parser" entries))
    let kinds ← (← listOf .kindsNotList (Document.lookup "ops" entries)).mapM kindOf
    if (kinds.map (·.name)).Nodup then .ok ⟨allow, kinds⟩ else .error .duplicateKinds
  | _ => .error .notMapping

def ofText (path text : String) : Except ConfigFault Config :=
  match Yaml.read text with
  | .ok d => ofDocument d
  | .error .malformed => .error (.invalidText path)
  | .error f => .error (.scalar f)

/-! ## To documents -/

def slotDocument (s : Slot) : Document :=
  .mapping [(.text "name", .text s.name), (.text "register", .bool s.register),
    (.text "optional", .bool s.optional)]

def kindDocument (k : Kind) : Document :=
  .mapping ([(.text "name", .text k.name)]
    ++ (if k.summary = "" then [] else [(.text "summary", .text k.summary)])
    ++ [(.text "slots", .list (k.slots.map slotDocument)), (.text "rotation", .bool k.rotation)])

def document (c : Config) : Document :=
  .mapping [(.text "parser", .mapping [(.text angleOption, .bool c.allowMissingAngle)]),
    (.text "ops", .list (c.kinds.map kindDocument))]

def sample : Config :=
  ⟨false, [⟨"quantum.ccx", [⟨"c0", true, false⟩, ⟨"c1", true, false⟩, ⟨"trgt", true, false⟩], false, false,
    "Toffoli"⟩]⟩

/-! ## Registration -/

/-- Registers kinds one by one; one that is registered already, with the same description, is passed
over. Kinds registered before one that is refused stay. -/
def registerKinds (replace : Bool) : List Kind → Registry → Except ConfigFault Unit × Registry × List Event
  | [], r => (.ok (), r, [])
  | k :: ks, r =>
    let existing := r.kind? k.name
    if existing = some k then registerKinds replace ks r
    else if existing.isSome && !replace then (.error (.alreadyRegistered k.name), r, [])
    else
      let (answer, r, events) := registerKinds replace ks (r.setKind k)
      (answer, r, .registered k.name :: .configured k.name :: events)

def register (c : Config) (replace : Bool) (r : Registry) : Except ConfigFault Unit × Registry × List Event :=
  registerKinds replace c.kinds r

end Config

end GateAsm
