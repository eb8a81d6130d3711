import GateAsm.Operation.Build
import GateAsm.Parser.Call
import GateAsm.Proofs.Tags

/-!
# What an instruction says

The operands of an instruction by slot or argument, with the angle or the callee in front. The same
content is written with names, kept with numbers of values, and carried from one block to another by a
renaming; physical operands, segment sizes and structural tags are read off it.
-/

namespace GateAsm

inductive Part (ρ : Type)
  | number (n : Int)
  | reference (r : ρ)
  deriving DecidableEq, Repr

structure Filler (ρ : Type) where
  main : ρ
  parts : List (Part ρ)
  deriving DecidableEq, Repr

inductive AngleOf (ρ : Type)
  | absent
  | literal (x : Double)
  | reference (r : ρ)
  deriving DecidableEq, Repr

inductive Head (ρ : Type)
  | generic (angle : AngleOf ρ)
  | call (callee : String) (count : Int)
  deriving DecidableEq, Repr

structure Content (ρ : Type) where
  head : Head ρ
  operands : List (Filler ρ)
  deriving DecidableEq, Repr

variable {ρ σ : Type}

namespace Part

def component : Part ρ → Component
  | number n => .constant n
  | reference _ => .dynamic

def reference? : Part ρ → Option ρ
  | number _ => none
  | reference r => some r

def map (f : ρ → σ) : Part ρ → Part σ
  | number n => number n
  | reference r => reference (f r)

@[simp]
theorem component_map (f : ρ → σ) (p : Part ρ) : (p.map f).component = p.component := by cases p <;> rfl

@[simp]
theorem reference?_map (f : ρ → σ) (p : Part ρ) : (p.map f).reference? = p.reference?.map f := by
  cases p <;> rfl

theorem map_map {τ : Type} (f : ρ → σ) (g : σ → τ) (p : Part ρ) : (p.map f).map g = p.map (g ∘ f) := by
  cases p <;> rfl

theorem map_congr {f g : ρ → σ} {p : Part ρ} (h : ∀ r, p.reference? = some r → f r = g r) : p.map f = p.map g := by
  cases p with
  | number n => rfl
  | reference r => exact congrArg reference (h r rfl)

end Part

def accessorsOf (ps : List (Part ρ)) : Accessors := (Accessors.ofComponents? (ps.map Part.component)).getD .empty

/-- At most three components, and only numbers of sixty-four bits. -/
def LegalParts (ps : List (Part ρ)) : Prop := ps.length ≤ 3 ∧ ∀ p ∈ ps, p.component.Legal

theorem components_accessorsOf {ps : List (Part ρ)} (h : LegalParts ps) :
    (accessorsOf ps).components = ps.map Part.component := by
  have hl : (ps.map Part.component).length ≤ 3 ∧ ∀ c ∈ ps.map Part.component, c.Legal := by
    refine ⟨by rw [List.length_map]; exact h.1, fun c hc => ?_⟩
    obtain ⟨p, hp, rfl⟩ := List.mem_map.mp hc
    exact h.2 p hp
  rw [accessorsOf, Accessors.ofComponents?, dif_pos hl]
  rfl

namespace Filler

def references (f : Filler ρ) : List ρ := f.parts.filterMap Part.reference?

def accessors (f : Filler ρ) : Accessors := accessorsOf f.parts

def map (g : ρ → σ) (f : Filler ρ) : Filler σ := ⟨g f.main, f.parts.map (·.map g)⟩

@[simp]
theorem main_map (g : ρ → σ) (f : Filler ρ) : (f.map g).main = g f.main := rfl

@[simp]
theorem references_map (g : ρ → σ) (f : Filler ρ) : (f.map g).references = f.references.map g := by
  simp only [references, map, List.filterMap_map, List.map_filterMap]
  congr 1
  funext p
  simp

@[simp]
theorem accessors_map (g : ρ → σ) (f : Filler ρ) : (f.map g).accessors = f.accessors := by
  simp [accessors, accessorsOf, map, Function.comp_def]

theorem legal_map {g : ρ → σ} {f : Filler ρ} : LegalParts (f.map g).parts ↔ LegalParts f.parts := by
  simp [LegalParts, map]

theorem map_map {τ : Type} (g : ρ → σ) (g' : σ → τ) (f : Filler ρ) : (f.map g).map g' = f.map (g' ∘ g) := by
  simp [map, Part.map_map]

theorem map_congr {g g' : ρ → σ} {f : Filler ρ} (h : ∀ r ∈ f.main :: f.references, g r = g' r) :
    f.map g = f.map g' := by
  have parts : f.parts.map (·.map g) = f.parts.map (·.map g') := List.map_congr_left fun p hp =>
    Part.map_congr fun r hr => h r (List.mem_cons_of_mem _ (List.mem_filterMap.mpr ⟨p, hp, hr⟩))
  rw [map, map, h _ List.mem_cons_self, parts]

end Filler

namespace AngleOf

def references : AngleOf ρ → List ρ
  | reference r => [r]
  | _ => []

def tags : AngleOf ρ → List (String × Attr)
  | literal x => [(angleTag, .float x)]
  | _ => []

def map (f : ρ → σ) : AngleOf ρ → AngleOf σ
  | absent => absent
  | literal x => literal x
  | reference r => reference (f r)

@[simp]
theorem references_map (f : ρ → σ) (a : AngleOf ρ) : (a.map f).references = a.references.map f := by
  cases a <;> rfl

@[simp]
theorem tags_map (f : ρ → σ) (a : AngleOf ρ) : (a.map f).tags = a.tags := by cases a <;> rfl

theorem map_map {τ : Type} (f : ρ → σ) (g : σ → τ) (a : AngleOf ρ) : (a.map f).map g = a.map (g ∘ f) := by
  cases a <;> rfl

theorem map_congr {f g : ρ → σ} {a : AngleOf ρ} (h : ∀ r ∈ a.references, f r = g r) : a.map f = a.map g := by
  cases a with
  | reference r => exact congrArg reference (h r List.mem_cons_self)
  | _ => rfl

end AngleOf

/-! ## Slots -/

def slotTags : List Slot → List (Filler ρ) → List (String × Attr)
  | [], _ => []
  | s :: ss, [] => (if s.register then [(s.accessorTag, .accessors .empty)] else []) ++ slotTags ss []
  | s :: ss, f :: fs => (if s.register then [(s.accessorTag, .accessors f.accessors)] else []) ++ slotTags ss fs

def slotSizes : List Slot → List (Filler ρ) → List Nat
  | [], _ => []
  | s :: ss, [] => s.absentSizes ++ slotSizes ss []
  | s :: ss, f :: fs => (if s.register then [1, f.references.length] else [1]) ++ slotSizes ss fs

/-- The operands can fill the slots in order: only a register carries an accessor. -/
def FillSlots : List Slot → List (Filler ρ) → Prop
  | _, [] => True
  | [], _ :: _ => False
  | s :: ss, f :: fs => (LegalParts f.parts ∧ (s.register = false → f.parts = [])) ∧ FillSlots ss fs

theorem slotTags_map (g : ρ → σ) (ss : List Slot) (fs : List (Filler ρ)) :
    slotTags ss (fs.map (·.map g)) = slotTags ss fs := by
  induction ss generalizing fs with
  | nil => rfl
  | cons s ss ih =>
    cases fs with
    | nil => simpa [slotTags] using ih []
    | cons f fs => simp [slotTags, ih]

theorem slotSizes_map (g : ρ → σ) (ss : List Slot) (fs : List (Filler ρ)) :
    slotSizes ss (fs.map (·.map g)) = slotSizes ss fs := by
  induction ss generalizing fs with
  | nil => rfl
  | cons s ss ih =>
    cases fs with
    | nil => simpa [slotSizes] using ih []
    | cons f fs => simp [slotSizes, ih]

theorem fillSlots_map {g : ρ → σ} {ss : List Slot} {fs : List (Filler ρ)} :
    FillSlots ss (fs.map (·.map g)) ↔ FillSlots ss fs := by
  induction fs generalizing ss with
  | nil => cases ss <;> simp [FillSlots]
  | cons f fs ih =>
    cases ss with
    | nil => simp [FillSlots]
    | cons s ss =>
      simp only [List.map_cons, FillSlots, ih, Filler.legal_map]
      simp [Filler.map]

theorem FillSlots.length_le {ss : List Slot} {fs : List (Filler ρ)} (h : FillSlots ss fs) :
    fs.length ≤ ss.length := by
  induction fs generalizing ss with
  | nil => exact Nat.zero_le _
  | cons f fs ih =>
    cases ss with
    | nil => cases h
    | cons s ss => exact Nat.succ_le_succ (ih h.2)

namespace Content

/-! ## Operands -/

/-- The physical operands in order, and whether the type of each is fixed to be index. -/
def flagged (c : Content ρ) : List (ρ × Bool) :=
  match c.head with
  | .generic a => a.references.map (·, false) ++
      c.operands.flatMap fun f => (f.main, false) :: f.references.map (·, true)
  | .call .. => c.operands.map (fun f => (f.main, false)) ++ (c.operands.flatMap Filler.references).map (·, true)

def physical (c : Content ρ) : List ρ := c.flagged.map (·.1)

/-- The operands that stand outside of brackets. -/
def mains (c : Content ρ) : List ρ :=
  match c.head with
  | .generic a => a.references ++ c.operands.map (·.main)
  | .call .. => c.operands.map (·.main)

def map (f : ρ → σ) (c : Content ρ) : Content σ :=
  ⟨match c.head with
    | .generic a => .generic (a.map f)
    | .call callee count => .call callee count, c.operands.map (·.map f)⟩

def structural (k : Kind) (c : Content ρ) : List (String × Attr) :=
  match c.head with
  | .generic a => a.tags ++ slotTags k.operandSlots c.operands ++
      [(segmentSizesTag, segmentSizesAttr
        ((if k.rotation then [a.references.length] else []) ++ slotSizes k.operandSlots c.operands))]
  | .call callee count =>
      [(calleeTag, .symbol (.text callee)), (countTag, .int count),
       (callAccessorsTag, .tuple (c.operands.map fun f => .accessors f.accessors)),
       (segmentSizesTag, segmentSizesAttr [c.operands.length, (c.operands.flatMap Filler.references).length])]

/-- There are not too many operands, nor too many references, for the segments of a call. -/
def Small (c : Content ρ) : Prop :=
  c.operands.length < segmentLimit ∧ (c.operands.flatMap Filler.references).length < segmentLimit

def Fits (k : Kind) (c : Content ρ) : Prop :=
  match c.head with
  | .generic a => k.callForm = false ∧ (k.rotation = false → a = .absent) ∧
      FillSlots k.operandSlots c.operands ∧ k.leastOperands ≤ c.operands.length
  | .call .. => k.callForm = true ∧ (∀ f ∈ c.operands, LegalParts f.parts) ∧ c.Small

@[simp]
theorem flagged_map (f : ρ → σ) (c : Content ρ) :
    (c.map f).flagged = c.flagged.map fun x => (f x.1, x.2) := by
  unfold flagged map
  cases c.head <;>
    simp [List.flatMap_map, List.map_flatMap, Function.comp_def]

@[simp]
theorem physical_map (f : ρ → σ) (c : Content ρ) : (c.map f).physical = c.physical.map f := by
  simp [physical, Function.comp_def]

@[simp]
theorem mains_map (f : ρ → σ) (c : Content ρ) : (c.map f).mains = c.mains.map f := by
  unfold mains map
  cases c.head <;> simp [Function.comp_def]

@[simp]
theorem structural_map (f : ρ → σ) (k : Kind) (c : Content ρ) :
    (c.map f).structural k = c.structural k := by
  unfold structural map
  cases c.head <;>
    simp [slotTags_map, slotSizes_map, List.flatMap_map, List.length_flatMap, Function.comp_def]

theorem fits_map {f : ρ → σ} {k : Kind} {c : Content ρ} : (c.map f).Fits k ↔ c.Fits k := by
  unfold Fits map
  cases c.head with
  | generic a => cases a <;> simp [fillSlots_map, AngleOf.map]
  | call => simp [Filler.legal_map, Small, List.flatMap_map, List.length_flatMap]

theorem map_map {τ : Type} (f : ρ → σ) (g : σ → τ) (c : Content ρ) : (c.map f).map g = c.map (g ∘ f) := by
  unfold map
  cases c.head <;> simp [AngleOf.map_map, Filler.map_map]

theorem mem_physical {c : Content ρ} {r : ρ} : r ∈ c.physical ↔
    (∃ a, c.head = .generic a ∧ r ∈ a.references) ∨ ∃ f ∈ c.operands, r ∈ f.main :: f.references := by
  unfold physical flagged
  cases c.head with
  | generic a => simp [and_or_left, exists_or]
  | call callee count =>
    simp only [List.map_append, List.map_map, List.mem_append, List.mem_map, List.mem_flatMap, List.mem_cons]
    constructor
    · rintro (⟨f, hf, rfl⟩ | ⟨r, ⟨f, hf, hr⟩, rfl⟩)
      · exact .inr ⟨f, hf, .inl rfl⟩
      · exact .inr ⟨f, hf, .inr hr⟩
    · rintro (⟨a, ha, -⟩ | ⟨f, hf, rfl | hr⟩)
      · cases ha
      · exact .inl ⟨f, hf, rfl⟩
      · exact .inr ⟨r, ⟨f, hf, hr⟩, rfl⟩

theorem map_congr {f g : ρ → σ} {c : Content ρ} (h : ∀ r ∈ c.physical, f r = g r) : c.map f = c.map g := by
  have operands : c.operands.map (·.map f) = c.operands.map (·.map g) := List.map_congr_left fun x hx =>
    Filler.map_congr fun r hr => h r (mem_physical.mpr (.inr ⟨x, hx, hr⟩))
  unfold map
  rw [operands]
  cases hc : c.head with
  | call callee count => rfl
  | generic a =>
    have angle : a.map f = a.map g := AngleOf.map_congr fun r hr => h r (mem_physical.mpr (.inl ⟨a, hc, hr⟩))
    simp only [angle]

theorem map_id (c : Content ρ) : c.map (fun r => r) = c := by
  have part : (fun p : Part ρ => p.map fun r => r) = fun p => p := by funext p; cases p <;> rfl
  have filler : (fun f : Filler ρ => f.map fun r => r) = fun f => f := by funext f; simp [Filler.map, part]
  obtain ⟨head, fs⟩ := c
  unfold map
  simp only [filler, List.map_id']
  cases head with
  | generic a => cases a <;> rfl
  | call => rfl

theorem map_eq_self {f : ρ → ρ} {c : Content ρ} (h : ∀ r ∈ c.physical, f r = r) : c.map f = c :=
  (map_congr h).trans c.map_id

theorem mains_eq_filter (c : Content ρ) : c.mains = (c.flagged.filter (!·.2)).map (·.1) := by
  have all : ∀ l : List ρ, l.filter (fun _ => true) = l := fun l => List.filter_eq_self.mpr fun _ _ => rfl
  have nothing : ∀ l : List ρ, l.filter (fun _ => false) = [] := fun l => by simp
  unfold mains flagged
  cases c.head with
  | generic a =>
    simp [List.filter_flatMap, List.map_flatMap, List.filter_map, Function.comp_def, all, nothing]
    rw [List.map_eq_flatMap]
  | call callee count =>
    simp [List.filter_map, Function.comp_def, nothing, List.filter_eq_self.mpr]

end Content

/-! ## Structural tags -/

theorem accessorTag_inj {s s' : Slot} (h : s.accessorTag = s'.accessorTag) : s.name = s'.name := by
  have := congrArg String.toList h
  simp only [Slot.accessorTag, String.toList_append] at this
  exact String.toList_inj.mp (List.append_cancel_right this)

theorem accessorTag_ne {s : Slot} {other : String} (h : ¬ "_accessors".toList <:+ other.toList) :
    s.accessorTag ≠ other := by
  rintro rfl
  exact h (by simp [Slot.accessorTag, String.toList_append])

theorem keys_slotTags (ss : List Slot) (fs : List (Filler ρ)) :
    (slotTags ss fs).map (·.1) = (ss.filter (·.register)).map Slot.accessorTag := by
  induction ss generalizing fs with
  | nil => rfl
  | cons s ss ih =>
    cases fs with
    | nil => cases hr : s.register <;> simp [slotTags, hr, ih]
    | cons f fs => cases hr : s.register <;> simp [slotTags, hr, ih]

namespace Kind

variable {k : Kind}

theorem Valid.nodup (h : k.Valid) : (k.slots.map (·.name)).Nodup := by
  unfold Valid fault? at h
  split at h
  · cases h
  · split at h
    · cases h
    · split at h
      · cases h
      · next hn => simpa using hn

theorem operandSlots_sublist (k : Kind) : k.operandSlots.Sublist k.slots := by
  unfold operandSlots
  split
  · exact List.drop_sublist ..
  · exact List.Sublist.refl _

theorem Valid.nodup_accessorTags (h : k.Valid) :
    ((k.operandSlots.filter (·.register)).map Slot.accessorTag).Nodup := by
  have hs : ((k.operandSlots.filter (·.register)).map (·.name)).Nodup :=
    List.Nodup.sublist ((List.filter_sublist.trans k.operandSlots_sublist).map _) h.nodup
  rw [List.Nodup, List.pairwise_map] at hs ⊢
  exact hs.imp fun hne he => hne (accessorTag_inj he)

end Kind

namespace Content

theorem structural_reserved {k : Kind} {c : Content ρ} (h : c.Fits k) :
    ∀ key ∈ (c.structural k).map (·.1), key ∈ k.structuralTags := by
  intro key hkey
  unfold Fits at h
  unfold structural at hkey
  unfold Kind.structuralTags
  cases hc : c.head with
  | call callee count =>
    rw [hc] at h hkey
    rw [if_pos h.1]
    simpa using hkey
  | generic a =>
    rw [hc] at h hkey
    rw [if_neg (by simp [h.1])]
    simp only [List.map_append, keys_slotTags, List.map_cons, List.map_nil, List.mem_append, List.mem_singleton]
      at hkey
    rcases hkey with (ha | hs) | rfl
    · have hrot : k.rotation = true := by
        cases hr : k.rotation with
        | true => rfl
        | false => rw [h.2.1 hr] at ha; cases ha
      cases a with
      | literal x => simp [AngleOf.tags] at ha; simp [hrot, ha]
      | _ => cases ha
    · have : key ∈ k.accessorTags := by
        refine List.Sublist.subset (List.Sublist.map _ ?_) hs
        exact k.operandSlots_sublist.filter _
      simp [this]
    · simp

theorem nodup_structural {k : Kind} {c : Content ρ} (hk : k.Valid) : ((c.structural k).map (·.1)).Nodup := by
  unfold structural
  cases c.head with
  | call callee count => simp [calleeTag, countTag, callAccessorsTag, segmentSizesTag]
  | generic a =>
    have hne : ∀ s : Slot, s.accessorTag ≠ angleTag ∧ s.accessorTag ≠ segmentSizesTag := fun s =>
      ⟨accessorTag_ne (by decide), accessorTag_ne (by decide)⟩
    have hslots : ((k.operandSlots.filter (·.register)).map Slot.accessorTag ++ [segmentSizesTag]).Nodup := by
      rw [List.nodup_append]
      refine ⟨hk.nodup_accessorTags, by simp, ?_⟩
      intro x hx y hy he
      obtain ⟨s, -, rfl⟩ := List.mem_map.mp hx
      rw [List.mem_singleton] at hy
      exact (hne s).2 (he.trans hy)
    simp only [List.map_append, keys_slotTags, List.map_cons, List.map_nil, List.append_assoc]
    cases a with
    | literal x =>
      simp only [AngleOf.tags, List.map_cons, List.map_nil, List.singleton_append, List.nodup_cons]
      refine ⟨?_, hslots⟩
      rw [List.mem_append, List.mem_singleton, not_or]
      refine ⟨fun hx => ?_, by decide⟩
      obtain ⟨s, -, he⟩ := List.mem_map.mp hx
      exact (hne s).1 he
    | absent => simpa [AngleOf.tags] using hslots
    | reference r => simpa [AngleOf.tags] using hslots

end Content

end GateAsm
