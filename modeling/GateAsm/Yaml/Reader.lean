import GateAsm.Array.Base64
import GateAsm.Yaml.Composer

/-!
# Reading YAML

Nodes are read as documents by their tags. All nodes are checked before: level by level from the outside,
since the first fault in that order is the one that is reported. A mapping can take in the entries of
others; its own entries come behind those and win.
-/

namespace GateAsm.Yaml

namespace Node

mutual

def size : Node → Nat
  | scalar .. | within _ => 1
  | list _ items => sizeOf items + 1
  | mapping _ entries => entriesSize entries + 1

def sizeOf : List Node → Nat
  | [] => 0
  | n :: ns => size n + sizeOf ns

def entriesSize : List (Node × Node) → Nat
  | [] => 0
  | (k, v) :: entries => size k + size v + entriesSize entries

end

mutual

/-- The text of a scalar, or of the scalar that a mapping names as its value. -/
def text? : Node → Option String
  | scalar _ s => some s
  | mapping _ entries => valueText? entries
  | _ => none

def valueText? : List (Node × Node) → Option String
  | [] => none
  | (k, v) :: entries => if k.tag = .value then text? v else valueText? entries

end

def scalarDocument (n : Node) : Except YamlFault Document :=
  match n.text? with
  | none => .error .malformed
  | some s => match n.tag with
    | .null => .ok .null
    | .bool => (truthOf s).map .bool
    | .int => (integerOf s).map .int
    | .float => (realOf s).map .float
    | .text => .ok (.text s)
    | .timestamp => (timeOf s).map fun t => .other t.kindName t.display t.inspect
    | .binary =>
      if !s.toList.all fun c => c.toNat < 0x80 then .error .malformed
      else match Base64.decode s.toList with
        | none => .error .malformed
        | some bytes =>
          let shown := "b" ++ Text.asciiOnly (Text.quoted (String.ofList (bytes.map Char.ofNat)))
          .ok (.other "bytes" shown shown)
    | _ => .error .malformed

/-! ## Entries of mappings -/

/-- The key of an entry, which is a text where it would stand for a value. -/
def asKey (n : Node) : Node :=
  match n with
  | scalar .value s => scalar .text s
  | n => n

mutual

def entries : Node → Except YamlFault (List (Node × Node))
  | mapping _ es => do
    let (taken, own) ← splitEntries es
    return taken ++ own
  | within _ => .ok []
  | _ => .error .malformed

def splitEntries : List (Node × Node) → Except YamlFault (List (Node × Node) × List (Node × Node))
  | [] => .ok ([], [])
  | (k, v) :: es => do
    if k.tag = .merge then
      let here ← takenIn v
      let (taken, own) ← splitEntries es
      return (here ++ taken, own)
    else
      let (taken, own) ← splitEntries es
      return (taken, (k.asKey, v) :: own)

def takenIn : Node → Except YamlFault (List (Node × Node))
  | mapping _ es => do
    let (taken, own) ← splitEntries es
    return taken ++ own
  | list _ items => takenFrom items
  | within _ => .ok []
  | scalar .. => .error .malformed

/-- The entries of mappings, those of the last in front. -/
def takenFrom : List Node → Except YamlFault (List (Node × Node))
  | [] => .ok []
  | n :: ns => do
    let here ← match n with
      | mapping _ es => do
        let (taken, own) ← splitEntries es
        pure (taken ++ own)
      | within _ => pure []
      | _ => throw .malformed
    let later ← takenFrom ns
    return later ++ here

end

def pair (n : Node) : Except YamlFault (Node × Node) :=
  match n with
  | mapping _ [e] => .ok e
  | _ => .error .malformed

/-! ## Checking -/

def checkOuter (n : Node) : Except YamlFault Unit :=
  if n.tag.isCollection then .ok () else n.scalarDocument.map fun _ => ()

/-- Fails if keys and values cannot be read, apart from what is in collections; keys are no collections
unless they may be. -/
def checkEntries (anyKey : Bool) : List (Node × Node) → Except YamlFault Unit
  | [] => .ok ()
  | (k, v) :: es => do
    k.checkOuter
    if !anyKey && k.tag.isCollection then throw .malformed
    v.checkOuter
    checkEntries anyKey es

def flat (es : List (Node × Node)) : List Node := es.flatMap fun (k, v) => [k, v]

def checkInner (n : Node) : Except YamlFault (List Node) := do
  let inner ← match n, n.tag with
    | within _, _ => pure []
    | list _ items, .list => do
      items.forM checkOuter
      pure items
    | list _ items, .pairs | list _ items, .orderedMapping => do
      let es ← items.mapM fun item => do
        let e ← item.pair
        checkEntries true [e]
        return e
      pure (flat es)
    | mapping .., .mapping | mapping .., .set => do
      let es ← n.entries
      checkEntries false es
      pure (flat es)
    | _, _ => throw .malformed
  return inner.filter (·.tag.isCollection)

def checkAll : (fuel : Nat) → List Node → Except YamlFault Unit
  | _, [] => .ok ()
  | 0, _ => .ok ()
  | fuel + 1, n :: ns => do checkAll fuel (ns ++ (← n.checkInner))

def check (n : Node) : Except YamlFault Unit := do
  n.checkOuter
  if n.tag.isCollection then checkAll n.size [n]

/-! ## Reading -/

def bracketed (opening closing : String) (words : List String) : String :=
  opening ++ ", ".intercalate words ++ closing

def pairsDocument (es : List (Document × Document)) : Document :=
  .list (es.map fun (k, v) =>
    let shown := bracketed "(" ")" [k.inspect, v.inspect]
    .other "tuple" shown shown)

def setDocument (es : List (Document × Document)) : Document :=
  let shown := if es.isEmpty then "set()" else bracketed "\x7b" "\x7d" (es.map (·.1.inspect))
  .other "set" shown shown

def document : (fuel : Nat) → Node → Document
  | 0, _ => .null
  | fuel + 1, n =>
    let both (e : Node × Node) : Document × Document := (document fuel e.1, document fuel e.2)
    let put (done : List (Document × Document)) (e : Node × Node) : List (Document × Document) :=
      Document.put (both e).1 (both e).2 done
    match n, n.tag with
    | within _, .mapping => .other "dict" "\x7b...\x7d" "\x7b...\x7d"
    | within _, _ => .other "list" "[...]" "[...]"
    | list _ items, .list => .list (items.map (document fuel))
    | list _ items, .pairs | list _ items, .orderedMapping =>
      pairsDocument (items.filterMap fun item => item.pair.toOption.map both)
    | mapping .., .mapping => .mapping ((n.entries.toOption.getD []).foldl put [])
    | mapping .., .set => setDocument ((n.entries.toOption.getD []).foldl put [])
    | _, _ => n.scalarDocument.toOption.getD .null

end Node

def read (text : String) : Except YamlFault Document := do
  let cs := text.toList
  if !cs.all isAllowed then throw .malformed
  match ← compose (if cs.head? = some '\ufeff' then String.ofList (cs.drop 1) else text) with
  | none => return .null
  | some n => do
    n.check
    return n.document (n.size + 1)

end GateAsm.Yaml
