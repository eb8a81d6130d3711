import GateAsm.Proofs.Json.Ascii
import GateAsm.Proofs.Serial.Arrays
import GateAsm.Proofs.Written.Types

/-!
# Values up to serialization

A value that is read from its serialized form is the one that was written, but for two things that are left open: one
NaN may stand for another, and a context may have a type with equal parameters in the place of one that it is asked
for. `Attr.settled` settles both, so that two values are the same up to them exactly if they have one settled form.
`Attr.Serializable` says which values the serialized form is for.
-/

namespace GateAsm

/-- The type has integers for parameters, not too long; a truth value is an integer as well. -/
def Ty.Integral (t : Ty) : Prop := t.Readable ∨ t = .integer ⟨1, .bool⟩

namespace Attr

mutual

def map (f : Double → Double) (g : Ty → Ty) : Attr → Attr
  | float x => float (f x)
  | type t => type (g t)
  | list items => list (mapItems f g items)
  | tuple items => tuple (mapItems f g items)
  | dict entries => dict (mapEntries f g entries)
  | a => a

def mapItems (f : Double → Double) (g : Ty → Ty) : List Attr → List Attr
  | [] => []
  | a :: items => map f g a :: mapItems f g items

def mapEntries (f : Double → Double) (g : Ty → Ty) : List (Attr × Attr) → List (Attr × Attr)
  | [] => []
  | (k, v) :: entries => (k, map f g v) :: mapEntries f g entries

end

def quiet (a : Attr) : Attr := a.map Double.quiet id

/-- The value with every NaN in it quiet, and integers for the parameters of every type. -/
def settled (a : Attr) : Attr := a.map Double.quiet Ty.plain

section
variable (f f' : Double → Double) (g g' : Ty → Ty)

theorem mapItems_eq (items : List Attr) : mapItems f g items = items.map (map f g) := by
  induction items with
  | nil => rfl
  | cons a items ih => rw [mapItems, ih, List.map_cons]

theorem mapEntries_eq (entries : List (Attr × Attr)) :
    mapEntries f g entries = entries.map fun e => (e.1, e.2.map f g) := by
  induction entries with
  | nil => rfl
  | cons e entries ih => rw [mapEntries, ih, List.map_cons]

mutual

theorem map_map : (a : Attr) → (a.map f' g').map f g = a.map (f ∘ f') (g ∘ g')
  | none | bool _ | int _ | float _ | str _ | symbol _ | constant _ | dynamic | accessors _ | type _ | array _ | int64 _
  | float64 _ | float32 _ | bool8 _ | block _ | part _ _ => rfl
  | list items => congrArg list (mapItems_mapItems items)
  | tuple items => congrArg tuple (mapItems_mapItems items)
  | dict entries => congrArg dict (mapEntries_mapEntries entries)

theorem mapItems_mapItems : (items : List Attr) → mapItems f g (mapItems f' g' items) = mapItems (f ∘ f') (g ∘ g') items
  | [] => rfl
  | a :: items => by rw [mapItems, mapItems, mapItems, map_map a, mapItems_mapItems items]

theorem mapEntries_mapEntries : (entries : List (Attr × Attr)) →
    mapEntries f g (mapEntries f' g' entries) = mapEntries (f ∘ f') (g ∘ g') entries
  | [] => rfl
  | (k, v) :: entries => by rw [mapEntries, mapEntries, mapEntries, map_map v, mapEntries_mapEntries entries]

end

end

theorem quiet_settled (a : Attr) : a.settled.quiet = a.settled := by
  rw [quiet, settled, map_map, show Double.quiet ∘ Double.quiet = Double.quiet from funext Double.quiet_quiet]
  rfl

theorem settled_quiet (a : Attr) : a.quiet.settled = a.settled := by
  rw [quiet, settled, map_map, show Double.quiet ∘ Double.quiet = Double.quiet from funext Double.quiet_quiet]
  rfl

mutual

/-- The value is one that the serialized form is for. A dictionary has texts for keys, no two of them the same. -/
def Serializable : Attr → Prop
  | none | bool _ | str _ | dynamic | accessors _ => True
  | int n => FewDigits n
  | float x => x.bits < 2 ^ 64
  | symbol name => ∃ s, name = .text s
  | constant n => InInt64 n
  | type t => t.Integral
  | array a => a.WellFormed
  | list items => AllSerializable items
  | tuple items => AllSerializable items
  | dict entries => EntriesSerializable entries
  | _ => False

def AllSerializable : List Attr → Prop
  | [] => True
  | a :: items => Serializable a ∧ AllSerializable items

def EntriesSerializable : List (Attr × Attr) → Prop
  | [] => True
  | (k, v) :: entries => (∃ s, k = str s) ∧ (∀ e ∈ entries, e.1 ≠ k) ∧ Serializable v ∧ EntriesSerializable entries

end

end Attr

end GateAsm
