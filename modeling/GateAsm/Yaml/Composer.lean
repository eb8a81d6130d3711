import GateAsm.Yaml.Scalar
import GateAsm.Yaml.Scanner

/-!
# Nodes of YAML

Tokens are composed to nodes, each with its tag. A node can be given a name, under which it is used again
further on. A collection that is used inside itself is not a tree any more; the inner use is kept as a
node of its own.
-/

namespace GateAsm.Yaml

inductive Node
  | scalar (tag : Tag) (text : String)
  | list (tag : Tag) (items : List Node)
  | mapping (tag : Tag) (entries : List (Node × Node))
  | within (tag : Tag)
  deriving Repr

namespace Node

instance : Inhabited Node := ⟨.scalar .null ""⟩

def tag : Node → Tag
  | scalar t _ | list t _ | mapping t _ | within t => t

def nothing : Node := scalar .null ""

end Node

structure ComposeState where
  tokens : List Token
  fault : YamlFault
  handles : List (String × String)
  named : List (String × Node)
  opened : List (String × Tag)

abbrev Composer := StateT ComposeState (Except YamlFault)

namespace Composer

def peek : Composer Token := do
  let s ← get
  match s.tokens with
  | t :: _ => return t
  | [] => throw s.fault

def pass : Composer Unit := modify fun s => { s with tokens := s.tokens.drop 1 }

def isAt (ts : List Token) : Composer Bool := return ts.contains (← peek)

def named (name : String) : Composer Node := do
  let s ← get
  match s.named.lookup name, s.opened.lookup name with
  | some n, _ => return n
  | none, some tag => return .within tag
  | none, none => throw .malformed

def properties : (room : Nat) → (anchor : Option String) → (tag : Option (Option String × String)) →
    Composer (Option String × Option (Option String × String))
  | 0, anchor, tag => return (anchor, tag)
  | room + 1, anchor, tag => do
    match ← peek, anchor, tag with
    | .anchor name, none, tag => do
      pass
      properties room (some name) tag
    | .tag handle suffix, anchor, none => do
      pass
      properties room anchor (some (handle, suffix))
    | _, anchor, tag => return (anchor, tag)

def fullName (tag : Option String × String) : Composer String := do
  match tag with
  | (none, suffix) => return suffix
  | (some handle, suffix) => match (← get).handles.lookup handle with
    | some uri => return uri ++ suffix
    | none => throw .malformed

def collectionTag (name : Option String) (usual : Tag) : Tag :=
  match name with
  | none | some "!" => usual
  | some name => .ofName name

def scalarTag (name : Option String) (text : String) (plain : Bool) : Tag :=
  match name with
  | none => if plain then plainTag text else .text
  | some "!" => plainTag text
  | some name => .ofName name

def collection (anchor : Option String) (tag : Tag) (content : Composer Node) : Composer Node := do
  match anchor with
  | none => content
  | some name => do
    modify fun s => { s with opened := (name, tag) :: s.opened }
    let node ← content
    modify fun s => { s with named := (name, node) :: s.named, opened := s.opened.filter (·.1 != name) }
    return node

def scalar (anchor : Option String) (node : Node) : Composer Node := do
  match anchor with
  | none => return node
  | some name => do
    modify fun s => { s with named := (name, node) :: s.named }
    return node

mutual

/-- A node. Collections in block context can start here only if `block`, and the dashes of a list without
a column of its own only if `dashes`. -/
def node : (fuel : Nat) → (block dashes : Bool) → Composer Node
  | 0, _, _ => throw .malformed
  | fuel + 1, block, dashes => do
    match ← peek with
    | .alias name => do
      pass
      named name
    | _ => do
      let (anchor, tag) ← properties 2 none none
      let name ← tag.mapM fullName
      let s ← get
      if (anchor.map fun a => (s.named.lookup a).isSome || (s.opened.lookup a).isSome).getD false then
        throw .malformed
      let asList := collectionTag name .list
      let asMapping := collectionTag name .mapping
      match ← peek with
      | .scalar text plain => do
        pass
        scalar anchor (.scalar (scalarTag name text plain) text)
      | .flowListStart => do
        pass
        collection anchor asList (return .list asList (← flowItems fuel true))
      | .flowMappingStart => do
        pass
        collection anchor asMapping (return .mapping asMapping (← flowEntries fuel true))
      | .blockListStart => do
        if !block then throw .malformed
        pass
        collection anchor asList (return .list asList (← blockItems fuel))
      | .blockMappingStart => do
        if !block then throw .malformed
        pass
        collection anchor asMapping (return .mapping asMapping (← blockEntries fuel))
      | t =>
        if t = .blockEntry && dashes then collection anchor asList (return .list asList (← dashedItems fuel))
        else if anchor.isSome || name.isSome then
          scalar anchor (.scalar (scalarTag name "" true) "")
        else throw .malformed

def nodeBefore (ts : List Token) : (fuel : Nat) → (block dashes : Bool) → Composer Node
  | 0, _, _ => throw .malformed
  | fuel + 1, block, dashes => do
    if ← isAt ts then return .nothing
    node fuel block dashes

def blockItems : (fuel : Nat) → Composer (List Node)
  | 0 => throw .malformed
  | fuel + 1 => do
    match ← peek with
    | .blockEntry => do
      pass
      let item ← nodeBefore [.blockEntry, .blockEnd] fuel true false
      return item :: (← blockItems fuel)
    | .blockEnd => do
      pass
      return []
    | _ => throw .malformed

def dashedItems : (fuel : Nat) → Composer (List Node)
  | 0 => throw .malformed
  | fuel + 1 => do
    if !(← isAt [.blockEntry]) then return []
    pass
    let item ← nodeBefore [.blockEntry, .key, .value, .blockEnd] fuel true false
    return item :: (← dashedItems fuel)

def blockEntries : (fuel : Nat) → Composer (List (Node × Node))
  | 0 => throw .malformed
  | fuel + 1 => do
    match ← peek with
    | .key => do
      pass
      let key ← nodeBefore [.key, .value, .blockEnd] fuel true true
      let value ← valueBefore [.key, .value, .blockEnd] fuel true
      return (key, value) :: (← blockEntries fuel)
    | .blockEnd => do
      pass
      return []
    | _ => throw .malformed

def valueBefore (ts : List Token) : (fuel : Nat) → (block : Bool) → Composer Node
  | 0, _ => throw .malformed
  | fuel + 1, block => do
    if !(← isAt [.value]) then return .nothing
    pass
    nodeBefore ts fuel block block

def flowItems : (fuel : Nat) → (first : Bool) → Composer (List Node)
  | 0, _ => throw .malformed
  | fuel + 1, first => do
    if !(← isAt [.flowListEnd]) && !first then
      if !(← isAt [.flowEntry]) then throw .malformed
      pass
    match ← peek with
    | .flowListEnd => do
      pass
      return []
    | .key => do
      pass
      let key ← nodeBefore [.value, .flowEntry, .flowListEnd] fuel false false
      let value ← valueBefore [.flowEntry, .flowListEnd] fuel false
      return .mapping .mapping [(key, value)] :: (← flowItems fuel false)
    | _ => do
      let item ← node fuel false false
      return item :: (← flowItems fuel false)

def flowEntries : (fuel : Nat) → (first : Bool) → Composer (List (Node × Node))
  | 0, _ => throw .malformed
  | fuel + 1, first => do
    if !(← isAt [.flowMappingEnd]) && !first then
      if !(← isAt [.flowEntry]) then throw .malformed
      pass
    match ← peek with
    | .flowMappingEnd => do
      pass
      return []
    | .key => do
      pass
      let key ← nodeBefore [.value, .flowEntry, .flowMappingEnd] fuel false false
      let value ← valueBefore [.flowEntry, .flowMappingEnd] fuel false
      return (key, value) :: (← flowEntries fuel false)
    | _ => do
      let key ← node fuel false false
      return (key, .nothing) :: (← flowEntries fuel false)

end

/-! ## Documents -/

def usualHandles : List (String × String) := [("!", "!"), ("!!", Tag.home)]

def directives : (fuel : Nat) → (version : Bool) → (handles : List (String × String)) →
    Composer (List (String × String))
  | 0, _, _ => throw .malformed
  | fuel + 1, version, handles => do
    match ← peek with
    | .version major => do
      if version || major != 1 then throw .malformed
      pass
      directives fuel true handles
    | .tagHandle handle uri => do
      if (handles.lookup handle).isSome then throw .malformed
      pass
      directives fuel version ((handle, uri) :: handles)
    | .directive => do
      pass
      directives fuel version handles
    | _ => return handles

def endMarks : (fuel : Nat) → Composer Unit
  | 0 => throw .malformed
  | fuel + 1 => do
    if ← isAt [.documentEnd] then
      pass
      endMarks fuel

def isOutside : Token → Bool
  | .version _ | .tagHandle .. | .directive | .documentStart | .streamEnd => true
  | _ => false

def document (fuel : Nat) : Composer (Option Node) := do
  let root ←
    if !isOutside (← peek) then
      modify fun s => { s with handles := usualHandles }
      some <$> node fuel true false
    else if ← isAt [.streamEnd] then pure none
    else do
      let own ← directives fuel false []
      modify fun s => { s with handles := own ++ usualHandles }
      if !(← isAt [.documentStart]) then throw .malformed
      pass
      let t ← peek
      if isOutside t || t = .documentEnd then pure (some .nothing) else some <$> node fuel true false
  endMarks fuel
  if ← isAt [.streamEnd] then return root else throw .malformed

end Composer

def compose (text : String) : Except YamlFault (Option Node) := do
  let (tokens, fault) := scan text.toList
  let fuel := 4 * (tokens.length + 1)
  (Composer.document fuel ⟨tokens, fault.getD .malformed, [], [], []⟩).map (·.1)

end GateAsm.Yaml
