import GateAsm.Proofs.Serial.Blocks
import GateAsm.Proofs.Written.Recovered

/-!
# Records in serialized form

The tags of a record are those that the instruction format keeps and those of the user. The former come back from
their serialized form whatever the instruction says, so that a record comes back if the tags of the user do.
-/

namespace GateAsm

/-! ## Values that are written -/

theorem Double.number_ne_nan {x : Double} (h : x.isFinite = true) : x.number ≠ .nan := by
  intro hx
  rw [isFinite, hx] at h
  cases h

namespace Attr

mutual

theorem portable_of_writable : ∀ {a : Attr}, a.Writable → a.Portable
  | bool _, _ => trivial
  | int _, h => h
  | float _, h => ⟨Double.number_ne_nan h.finite, (Double.readsBack_iff.mp h).2⟩
  | str _, _ => trivial
  | symbol (.text n), _ => ⟨n, rfl⟩
  | list _, h => allPortable_of_allWritable h
  | tuple _, h => allPortable_of_allWritable h

theorem allPortable_of_allWritable : ∀ {items : List Attr}, AllWritable items → AllPortable items
  | [], _ => trivial
  | _ :: _, h => ⟨portable_of_writable h.1, allPortable_of_allWritable h.2⟩

end

theorem allPortable_of_forall {items : List Attr} (h : ∀ a ∈ items, a.Portable) : AllPortable items := by
  induction items with
  | nil => trivial
  | cons a items ih =>
    obtain ⟨ha, hrest⟩ := List.forall_mem_cons.mp h
    exact ⟨ha, ih hrest⟩

theorem portable_sizes {sizes : List Nat} (h : 4 * sizes.length ≤ NumArray.maxBytes) :
    (segmentSizesAttr sizes).Portable where
  element := show Element.signed 4 ∈ Element.standard by decide
  order := nofun
  cells := by
    intro bits hbits
    obtain ⟨n, -, rfl⟩ := List.mem_map.mp hbits
    have low : (n % 2 ^ 32).toNat < 2 ^ 32 := by omega
    exact low
  filled := by simp [NumArray.ofInts]
  rank := by simp [NumArray.ofInts, NumArray.maxRank]
  room := by
    by_cases hs : sizes.length = 0
    · simp [NumArray.ofInts, hs]
      decide
    · simpa [NumArray.ofInts, Element.size, hs] using h

end Attr

/-! ## Structural tags -/

structure Kind.Storable (k : Kind) : Prop where
  valid : k.Valid
  room : 4 * k.segmentCount ≤ NumArray.maxBytes

def Head.Portable {ρ : Type} : Head ρ → Prop
  | .generic a => ∀ x, a = .literal x → x.isFinite = true ∧ x.bits < 2 ^ 64
  | .call _ n => FewDigits n

theorem Head.Writable.portable {h : Head String} (hw : h.Writable) : h.Portable := by
  cases h with
  | generic a =>
    rintro x rfl
    exact Double.readsBack_iff.mp hw
  | call callee n => exact hw.2

section
variable {ρ : Type} {k : Kind} {c : Content ρ} {user attrs : List (String × Attr)}

theorem portable_slotTags (ss : List Slot) (fs : List (Filler ρ)) : ∀ e ∈ slotTags ss fs, e.2.Portable := by
  induction ss generalizing fs with
  | nil => exact nofun
  | cons s ss ih =>
    have own : ∀ (a : Accessors),
        ∀ e ∈ (if s.register then [(s.accessorTag, Attr.accessors a)] else []), e.2.Portable := by
      intro a e he
      split at he
      · rw [List.mem_singleton.mp he]
        trivial
      · cases he
    cases fs with
    | nil => exact List.forall_mem_append.mpr ⟨own _, ih []⟩
    | cons f fs => exact List.forall_mem_append.mpr ⟨own _, ih fs⟩

theorem AngleOf.portable_tags {a : AngleOf ρ} (h : (Head.generic a).Portable) : ∀ e ∈ a.tags, e.2.Portable := by
  cases a with
  | literal x =>
    obtain ⟨finite, bits⟩ := h x rfl
    exact List.forall_mem_singleton.mpr ⟨Double.number_ne_nan finite, bits⟩
  | _ => exact nofun

theorem Content.portable_structural (hk : k.Storable) (hc : c.Fits k) (hhead : c.head.Portable) :
    ∀ e ∈ c.structural k, e.2.Portable := by
  obtain ⟨head, fs⟩ := c
  cases head with
  | generic a =>
    have sizes := length_genericSizes hk.valid hc.1 a fs
    refine List.forall_mem_append.mpr
      ⟨List.forall_mem_append.mpr ⟨AngleOf.portable_tags hhead, portable_slotTags _ _⟩, ?_⟩
    refine List.forall_mem_singleton.mpr (Attr.portable_sizes ?_)
    show 4 * (genericSizes k a fs).length ≤ _
    rw [sizes]
    exact hk.room
  | call callee n =>
    have accessors : Attr.AllPortable (fs.map fun f => .accessors f.accessors) :=
      Attr.allPortable_of_forall fun a ha => by
      obtain ⟨f, -, rfl⟩ := List.mem_map.mp ha
      trivial
    simp only [structural, List.forall_mem_cons]
    exact ⟨⟨callee, rfl⟩, hhead, accessors, Attr.portable_sizes (show 4 * 2 ≤ NumArray.maxBytes by decide), nofun⟩

/-- A record comes back if the tags of the user do, wherever they stand. -/
theorem Operation.portable_of_record {operands results : List Nat} {name : String} (hk : k.Storable) (hc : c.Fits k)
    (hhead : c.head.Portable) (hkeys : (user.map (·.1)).Nodup) (hfree : ∀ key ∈ user.map (·.1), key ∉ k.structuralTags)
    (htags : ∀ e ∈ user, e.2.Portable) (hattrs : attrs.Perm (c.structural k ++ user)) :
    (Operation.mk (.text k.name) operands results attrs name).Portable where
  opcode := ⟨k.name, rfl⟩
  distinct := by
    refine (hattrs.map _).nodup_iff.mpr ?_
    rw [List.map_append, List.nodup_append]
    refine ⟨Content.nodup_structural hk.valid, hkeys, fun key hkey other hother heq => ?_⟩
    exact hfree other hother (heq ▸ Content.structural_reserved hc key hkey)
  tags e he := by
    rcases List.mem_append.mp (hattrs.mem_iff.mp he) with he | he
    · exact Content.portable_structural hk hc hhead e he
    · exact htags e he

end

end GateAsm
