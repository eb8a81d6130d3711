import GateAsm.Proofs.Answers
import GateAsm.Proofs.Written.Statements

/-!
# Operations as they are printed

The record of an operation determines its content over values. The printer writes the statement that the
content is under the names of the values (`Printer.operation_eq`): it regroups the operands by the
segment sizes of the record, and shows the accessors that the structural tags hold.
-/

namespace GateAsm

/-! ## Records -/

theorem Attr.lookup_of_mem {tags : List (String × Attr)} (hn : (tags.map (·.1)).Nodup) {k : String} {v : Attr}
    (h : (k, v) ∈ tags) : Attr.lookup k tags = some v := by
  induction tags with
  | nil => cases h
  | cons e tags ih =>
    rw [List.map_cons, List.nodup_cons] at hn
    rcases List.mem_cons.mp h with rfl | h
    · exact if_pos rfl
    · have hne : e.1 ≠ k := fun he => hn.1 (he ▸ List.mem_map_of_mem h)
      exact (if_neg hne).trans (ih hn.2 h)

structure Operation.Structured (op : Operation) (k : Kind) (c : Content Nat) : Prop where
  opcode : op.opcode = .text k.name
  operands : op.operands = c.physical
  fits : c.Fits k
  structural : ∀ key ∈ k.structuralTags, op.tag? key = Attr.lookup key (c.structural k)

/-- The record of an operation is that of content over values, with the user's tags besides. -/
structure Operation.Records (op : Operation) (k : Kind) (c : Content Nat) (user : List (String × Attr)) : Prop
    extends op.Structured k c where
  others : op.attrs.filter (fun t => !k.structuralTags.contains t.1) = user
  distinct : (user.map (·.1)).Nodup

section
variable {op : Operation} {k : Kind} {c : Content Nat} {user : List (String × Attr)}

theorem Operation.Structured.tag?_eq (h : op.Structured k c) (hk : k.Valid) {e : String × Attr}
    (he : e ∈ c.structural k) : op.tag? e.1 = some e.2 :=
  (h.structural _ (Content.structural_reserved h.fits _ (List.mem_map_of_mem he))).trans
    (Attr.lookup_of_mem (Content.nodup_structural hk) he)

theorem Operation.Records.addable (h : op.Records k c user) : Addable k.structuralTags [] user := by
  refine ⟨h.distinct, fun key hkey => ⟨?_, nofun⟩⟩
  obtain ⟨e, he, rfl⟩ := List.mem_map.mp hkey
  rw [← h.others] at he
  simpa using (List.mem_filter.mp he).2

theorem Operation.Records.of_append {results : List Nat} {name : String} (hc : c.Fits k)
    (hu : Addable k.structuralTags [] user) :
    (Operation.mk (.text k.name) c.physical results (c.structural k ++ user) name).Records k c user := by
  refine ⟨⟨rfl, rfl, hc, fun key hkey => ?_⟩, Addable.filter_append (Content.structural_reserved hc) hu, hu.nodup⟩
  have : Attr.lookup key user = none := Attr.lookup_eq_none_iff.mpr fun h => (hu.free key h).1 hkey
  rw [Operation.tag?, Attr.lookup_append, this, Option.or_none]

end

/-! ## Segment sizes -/

theorem ofCell_read_ofInt {n : Nat} (h : n < segmentLimit) :
    (Attr.ofCell ((Element.signed 4).read ((Element.signed 4).ofInt (Int.ofNat n)))).toInt = .ok (Int.ofNat n) := by
  unfold segmentLimit at h
  have hmod : (Int.ofNat n % 2 ^ (8 * 4)).toNat = n := by
    rw [Int.ofNat_eq_natCast]; omega
  simp only [Element.ofInt, Element.read, hmod]
  rw [if_pos (by omega)]
  rfl

theorem mapM_toInt_cells {ns : List Nat} (hn : ∀ n ∈ ns, n < segmentLimit) :
    ((((ns.map Int.ofNat).map (Element.signed 4).ofInt).map (Element.signed 4).read).map Attr.ofCell).mapM Attr.toInt =
      .ok (ns.map Int.ofNat) := by
  induction ns with
  | nil => rfl
  | cons n ns ih =>
    simp only [List.map_cons, List.mapM_cons, ofCell_read_ofInt (hn n List.mem_cons_self),
      ih fun m hm => hn m (List.mem_cons_of_mem _ hm)]
    rfl

theorem segmentSizes_eq {op : Operation} {ns : List Nat} (h : op.tag? segmentSizesTag = some (segmentSizesAttr ns))
    (hn : ∀ n ∈ ns, n < segmentLimit) : op.segmentSizes = .ok (ns.map Int.ofNat) := by
  have items : (segmentSizesAttr ns).items =
      .ok ((((ns.map Int.ofNat).map (Element.signed 4).ofInt).map (Element.signed 4).read).map Attr.ofCell) := rfl
  unfold Operation.segmentSizes
  rw [h]
  show Readback.ofAttr ((segmentSizesAttr ns).items >>= fun cells => cells.mapM Attr.toInt) = _
  rw [items, ok_bind, mapM_toInt_cells hn, Readback.ofAttr_ok]

theorem slotSizes_le {ρ : Type} {ss : List Slot} {fs : List (Filler ρ)} (h : FillSlots ss fs) :
    ∀ n ∈ slotSizes ss fs, n ≤ 3 := by
  induction ss generalizing fs with
  | nil => nofun
  | cons s ss ih =>
    cases fs with
    | nil =>
      intro n hn
      rcases List.mem_append.mp hn with hn | hn
      · unfold Slot.absentSizes at hn
        split at hn <;> simp at hn <;> omega
      · exact @ih [] (by cases ss <;> trivial) n hn
    | cons f fs =>
      have few : f.references.length ≤ 3 := Nat.le_trans (List.length_filterMap_le ..) h.1.1.1
      intro n hn
      rcases List.mem_append.mp hn with hn | hn
      · split at hn <;> simp at hn <;> omega
      · exact ih h.2 n hn

def genericSizes {ρ : Type} (k : Kind) (a : AngleOf ρ) (fs : List (Filler ρ)) : List Nat :=
  (if k.rotation then [a.references.length] else []) ++ slotSizes k.operandSlots fs

theorem length_slotSizes {ρ : Type} (ss : List Slot) (fs : List (Filler ρ)) :
    (slotSizes ss fs).length = (ss.map Kind.slotSegments).sum := by
  induction ss generalizing fs with
  | nil => rfl
  | cons s ss ih =>
    cases fs <;> cases hr : s.register <;> simp [slotSizes, Slot.absentSizes, Kind.slotSegments, hr, ih] <;> omega

theorem Kind.Valid.angleSlot {k : Kind} (h : k.Valid) (hr : k.rotation = true) :
    ∃ s, k.slots = s :: k.operandSlots ∧ s.register = false := by
  unfold Valid fault? at h
  split at h
  · cases h
  split at h
  · cases h
  split at h
  · cases h
  split at h
  · cases h
  · next hn =>
    cases hs : k.slots with
    | nil => simp [hr, hs] at hn
    | cons s ss => exact ⟨s, by simp [operandSlots, hr, hs], by simpa [hr, hs] using hn⟩

theorem length_genericSizes {ρ : Type} {k : Kind} (hk : k.Valid) (hc : k.callForm = false) (a : AngleOf ρ)
    (fs : List (Filler ρ)) : (genericSizes k a fs).length = k.segmentCount := by
  unfold genericSizes Kind.segmentCount
  simp only [hc, Bool.false_eq_true, if_false, List.length_append, length_slotSizes]
  cases hr : k.rotation with
  | true =>
    obtain ⟨s, hs, hreg⟩ := hk.angleSlot hr
    rw [hs, List.map_cons, List.sum_cons]
    simp [Kind.slotSegments, hreg]
  | false => simp [Kind.operandSlots, hr]

theorem genericSizes_lt {ρ : Type} {k : Kind} {a : AngleOf ρ} {fs : List (Filler ρ)}
    (hf : FillSlots k.operandSlots fs) :
    ∀ n ∈ genericSizes k a fs, n < segmentLimit := by
  intro n hn
  have few : n ≤ 3 := by
    rcases List.mem_append.mp hn with hn | hn
    · split at hn
      · cases a <;> simp [AngleOf.references] at hn <;> omega
      · cases hn
    · exact slotSizes_le hf n hn
  unfold segmentLimit
  omega

section
variable {op : Operation} {k : Kind} {user : List (String × Attr)}

theorem Operation.Structured.genericSizes_eq {a : AngleOf Nat} {fs : List (Filler Nat)} (hk : k.Valid)
    (h : op.Structured k ⟨.generic a, fs⟩) : op.segmentSizes = .ok ((genericSizes k a fs).map Int.ofNat) :=
  segmentSizes_eq (h.tag?_eq hk (e := (segmentSizesTag, _)) (List.mem_append_right _ List.mem_cons_self))
    (genericSizes_lt h.fits.2.2.1)

theorem Operation.Structured.angleTag_eq {a : AngleOf Nat} {fs : List (Filler Nat)}
    (h : op.Structured k ⟨.generic a, fs⟩)
    (hr : k.rotation = true) : op.tag? angleTag = Attr.lookup angleTag a.tags := by
  have others : ∀ v, Attr.lookup angleTag (slotTags k.operandSlots fs ++ [(segmentSizesTag, v)]) = none := by
    intro v
    rw [Attr.lookup_eq_none_iff, List.map_append, keys_slotTags, List.mem_append, not_or]
    refine ⟨fun hm => ?_, by simp [angleTag, segmentSizesTag]⟩
    obtain ⟨s, -, he⟩ := List.mem_map.mp hm
    exact accessorTag_ne (by decide) he
  rw [h.structural angleTag (by simp [Kind.structuralTags, h.fits.1, hr])]
  show Attr.lookup angleTag (a.tags ++ slotTags _ _ ++ _) = _
  rw [List.append_assoc, Attr.lookup_append]
  exact (congrArg _ (others _)).trans Option.or_none

theorem Operation.Structured.generic_operands {a : AngleOf Nat} {fs : List (Filler Nat)}
    (h : op.Structured k ⟨.generic a, fs⟩) :
    op.operands = a.references ++ fs.flatMap fun f => f.main :: f.references := by
  rw [h.operands]; simp [Content.physical, Content.flagged, List.map_flatMap, Function.comp_def]

theorem Operation.Structured.callSizes_eq {callee : String} {n : Int} {fs : List (Filler Nat)} (hk : k.Valid)
    (h : op.Structured k ⟨.call callee n, fs⟩) :
    op.segmentSizes = .ok [Int.ofNat fs.length, Int.ofNat (fs.flatMap Filler.references).length] := by
  obtain ⟨-, -, hsmall, hsmall'⟩ := h.fits
  have tagged := h.tag?_eq hk
    (e := (segmentSizesTag, segmentSizesAttr [fs.length, (fs.flatMap Filler.references).length]))
    (List.mem_cons_of_mem _ (List.mem_cons_of_mem _ (List.mem_cons_of_mem _ List.mem_cons_self)))
  show op.segmentSizes = .ok ([fs.length, (fs.flatMap Filler.references).length].map Int.ofNat)
  refine segmentSizes_eq tagged fun m hm => ?_
  rcases List.mem_cons.mp hm with rfl | hm
  · exact hsmall
  · obtain rfl := List.mem_singleton.mp hm
    exact hsmall'

theorem Operation.Structured.call_operands {callee : String} {n : Int} {fs : List (Filler Nat)}
    (h : op.Structured k ⟨.call callee n, fs⟩) : op.operands = fs.map (·.main) ++ fs.flatMap Filler.references := by
  rw [h.operands]; simp [Content.physical, Content.flagged, Function.comp_def]

end

/-! ## Accessors and slots -/

namespace Printer

variable {shown : Nat → Label} {name : Nat → String}

theorem texts_map (ns : List String) : texts (ns.map .text) = .ok ns := by
  have : (ns.map Label.text).mapM Label.text? = some ns := by
    induction ns with
    | nil => rfl
    | cons n ns ih => rw [List.map_cons, List.mapM_cons, ih]; rfl
  rw [texts, this]

theorem componentTexts_eq {ps : List (Part Nat)} (rest : List Nat)
    (hs : ∀ id ∈ ps.filterMap Part.reference?, shown id = .text (name id)) :
    componentTexts shown (ps.map fun p => Attr.ofComponent p.component) (ps.filterMap Part.reference? ++ rest) =
      .ok (ps.map (fun p => .text (p.map name).written), rest) := by
  induction ps with
  | nil => rfl
  | cons p ps ih =>
    cases p with
    | number n =>
      have tail := ih hs
      rw [List.map_cons,
        show List.filterMap Part.reference? (Part.number n :: ps) = ps.filterMap Part.reference? from rfl]
      show (componentTexts shown _ _ >>= fun x => pure (Label.text (toString n) :: x.1, x.2)) = _
      rw [tail, ok_bind]
      rfl
    | reference r =>
      have tail := ih fun id hid => hs id (List.mem_cons_of_mem _ hid)
      rw [List.map_cons,
        show List.filterMap Part.reference? (Part.reference r :: ps) = r :: ps.filterMap Part.reference? from rfl,
        List.cons_append]
      show (componentTexts shown _ _ >>= fun x => pure (shown r :: x.1, x.2)) = _
      rw [tail, ok_bind, hs r List.mem_cons_self]
      rfl

theorem nameList_map (ns : List String) : nameList (ns.map .text) = .ok (", ".intercalate ns) := by
  rw [nameList, texts_map]; rfl

theorem accessors_eq (ps : List (Part Nat)) (rest : List Nat) (hl : LegalParts ps)
    (hs : ∀ id ∈ ps.filterMap Part.reference?, shown id = .text (name id)) :
    accessors shown (.accessors (accessorsOf ps)) (ps.filterMap Part.reference? ++ rest) =
      .ok (accessorText (ps.map (·.map name)), rest) := by
  have components := components_accessorsOf hl
  have truthy : (Attr.accessors (accessorsOf ps)).truthy = .ok (!ps.isEmpty) := by
    rw [Attr.truthy, components]; cases ps <;> rfl
  have items : (Attr.accessors (accessorsOf ps)).items = .ok (ps.map fun p => Attr.ofComponent p.component) := by
    rw [Attr.items, Attr.items?, components, List.map_map]; rfl
  have written : ps.map (fun p => Label.text (p.map name).written) =
      ((ps.map (·.map name)).map Part.written).map .text := by simp [Function.comp_def]
  unfold accessors
  simp only [truthy, items, Readback.ofAttr_ok, ok_bind, componentTexts_eq rest hs, written, nameList_map]
  cases ps <;> rfl

theorem slots_eq {op : Operation} {ss : List Slot} {fs : List (Filler Nat)} (mark : String) (hf : FillSlots ss fs)
    (ht : ∀ e ∈ slotTags ss fs, op.tag? e.1 = some e.2)
    (hs : ∀ f ∈ fs, ∀ id ∈ f.main :: f.references, shown id = .text (name id)) :
    slots shown op ss ((slotSizes ss fs).map Int.ofNat) (fs.flatMap fun f => f.main :: f.references) mark =
      .ok (operandsText mark (fs.map (·.map name)), fs.map (·.main)) := by
  induction ss generalizing fs mark with
  | nil =>
    cases fs with
    | nil => rfl
    | cons f fs => cases hf
  | cons s ss ih =>
    cases fs with
    | nil =>
      have rest := @ih [] mark (by cases ss <;> trivial)
        (fun e he => ht e (List.mem_append_right _ he)) (List.forall_mem_nil _)
      unfold slots
      cases hr : s.register <;> simpa [slotSizes, Slot.absentSizes, Kind.slotSegments, hr] using rest
    | cons f fs =>
      have rest := @ih fs ", " hf.2 (fun e he => ht e (List.mem_append_right _ he))
        (fun g hg => hs g (List.mem_cons_of_mem _ hg))
      have here := hs f List.mem_cons_self
      have sizes : (slotSizes (s :: ss) (f :: fs)).map Int.ofNat =
          1 :: ((if s.register then [f.references.length] else []) ++ slotSizes ss fs).map Int.ofNat := by
        cases hr : s.register <;> simp [slotSizes, hr]
      -- the sizes that a slot takes leave those of the slots behind it
      have later : ((slotSizes (s :: ss) (f :: fs)).map Int.ofNat).drop (Kind.slotSegments s) =
          (slotSizes ss fs).map Int.ofNat := by
        cases hr : s.register <;> simp [slotSizes, Kind.slotSegments, hr]
      have present : ¬ ((slotSizes (s :: ss) (f :: fs)).map Int.ofNat).headD 0 = 0 := by
        rw [sizes]; exact one_ne_zero
      unfold slots
      simp only [later, List.flatMap_cons, List.cons_append, if_neg present]
      cases hr : s.register with
      | false =>
        have hparts : f.parts = [] := hf.1.2 hr
        have hrefs : f.references = [] := by rw [Filler.references, hparts]; rfl
        rw [if_neg (by decide)]
        simp only [hrefs, List.nil_append, pure_eq_ok, ok_bind, rest, here f.main List.mem_cons_self]
        simp [operandsText, Filler.written, Filler.map, hparts, accessorText, Label.display]
      | true =>
        have tag : op.tag? s.accessorTag = some (.accessors f.accessors) :=
          ht (s.accessorTag, .accessors f.accessors) (by simp [slotTags, hr])
        have accessor := accessors_eq f.parts (fs.flatMap fun f => f.main :: f.references) hf.1.1
          fun id hid => here id (List.mem_cons_of_mem _ hid)
        rw [if_pos rfl, tag, Option.getD_some]
        show (accessors shown (.accessors (accessorsOf f.parts)) (f.parts.filterMap Part.reference? ++ _) >>= _) = _
        rw [accessor, ok_bind]
        simp only [rest, ok_bind, here f.main List.mem_cons_self]
        simp [operandsText, Filler.written, Filler.map, Label.display, pure_eq_ok, String.append_assoc]

/-! ## The two forms -/

theorem angle_eq {op : Operation} {a : AngleOf Nat} (rest : List Nat) (ho : op.operands = a.references ++ rest)
    (ht : op.tag? angleTag = Attr.lookup angleTag a.tags) (hw : (a.map name).Writable)
    (hs : ∀ id ∈ a.references, shown id = .text (name id)) :
    angle shown op (Int.ofNat a.references.length) = .ok ((a.map name).written, a.references, rest) := by
  unfold angle
  rw [ht]
  cases a with
  | absent => simpa [AngleOf.tags, AngleOf.references, Attr.lookup, AngleOf.map, AngleOf.written] using ho
  | literal x =>
    have finite : Attr.floatLiteral x = .ok x.text := if_pos (Double.ReadsBack.finite hw)
    have real : (Attr.float x).toFloat = .ok x := rfl
    simp only [AngleOf.tags, Attr.lookup, if_true, real, finite, Readback.ofAttr_ok, Readback.ofLiteral_ok, ok_bind,
      ho, AngleOf.references, List.nil_append]
    rfl
  | reference r =>
    simp only [AngleOf.tags, Attr.lookup, AngleOf.references, List.length_singleton, ho, List.cons_append,
      hs r List.mem_cons_self]
    rfl

theorem arguments_eq (done : List (Filler Nat)) {fs : List (Filler Nat)} (hl : ∀ f ∈ fs, LegalParts f.parts)
    (hs : ∀ f ∈ fs, ∀ id ∈ f.main :: f.references, shown id = .text (name id)) :
    arguments shown (.tuple ((done ++ fs).map fun f => .accessors f.accessors)) done.length (fs.map (·.main))
      (fs.flatMap Filler.references) = .ok (operandsText ", " (fs.map (·.map name))) := by
  induction fs generalizing done with
  | nil => rfl
  | cons f fs ih =>
    have here := hs f List.mem_cons_self
    have rest := ih (done ++ [f]) (fun g hg => hl g (List.mem_cons_of_mem _ hg))
      (fun g hg => hs g (List.mem_cons_of_mem _ hg))
    rw [List.append_assoc, List.singleton_append, List.length_append, List.length_singleton] at rest
    have length : (Attr.tuple ((done ++ f :: fs).map fun f => .accessors f.accessors)).length =
        .ok (done.length + (fs.length + 1)) := by
      simp [Attr.length, Attr.items, Attr.items?, Except.map]
    have item : (Attr.tuple ((done ++ f :: fs).map fun f => .accessors f.accessors)).item done.length =
        .ok (.accessors f.accessors) := by
      simp [Attr.item, Attr.items?]
    have accessor := accessors_eq f.parts (fs.flatMap Filler.references) (hl f List.mem_cons_self)
      fun id hid => here id (List.mem_cons_of_mem _ hid)
    rw [List.map_cons, List.flatMap_cons]
    unfold arguments
    simp only [length, item, Readback.ofAttr_ok, ok_bind,
      if_pos (show done.length < done.length + (fs.length + 1) by omega)]
    show (accessors shown (.accessors (accessorsOf f.parts)) (f.parts.filterMap Part.reference? ++ _) >>= _) = _
    rw [accessor, ok_bind]
    simp only [rest, ok_bind, here f.main List.mem_cons_self]
    simp [operandsText, Filler.written, Filler.map, Label.display, pure_eq_ok, String.append_assoc]

theorem withNames_eq {ids : List Nat} (hs : ∀ id ∈ ids, shown id = .text (name id)) (text : String) :
    withNames (ids.map shown) text = .ok text := by
  have : ids.map shown = (ids.map name).map .text := by
    rw [List.map_map]; exact List.map_congr_left hs
  rw [withNames, this, texts_map]; rfl

section
variable {env : PrintEnv} {b : Block} {names : ShownNames} {k : Kind} {op : Operation} {user : List (String × Attr)}
  {types results : List Ty}

variable (env) in
theorem genericTail_eq {attrs : List (String × Attr)} {elided : List String} {mains res : List Nat} (front : String)
    (hf : attrs.filter (fun t => !elided.contains t.1) = user) (hu : WritableTags user)
    (ht : b.typesOf mains = types.map .type) (hr : b.typesOf res = results.map .type)
    (htr : ∀ t ∈ types, t.Readable) (hrr : ∀ t ∈ results, t.Readable)
    (hs : ∀ id ∈ mains, shown id = .text (name id)) :
    (do
      let tagText ← Readback.ofLiteral (tags attrs elided)
      let operandTypes ← colonTypes env (b.typesOf mains)
      let resultTypes ← arrowTypes env (b.typesOf res)
      withNames (mains.map shown) (front ++ tagText ++ operandTypes ++ resultTypes)) =
      .ok (front ++ tagsText user ++ typesText " : " types ++ typesText " -> " results) := by
  rw [printer_tags_eq hf hu, Readback.ofLiteral_ok, ok_bind, ht, colonTypes_eq htr, ok_bind, hr, arrowTypes_eq hrr,
    ok_bind, withNames_eq hs]

theorem generic_eq {a : AngleOf Nat} {fs : List (Filler Nat)} (hk : k.Valid) (h : op.Records k ⟨.generic a, fs⟩ user)
    (hs : ∀ id ∈ op.operands, b.shownName names id = .text (name id))
    (ht : b.typesOf (Content.mk (.generic a) fs).mains = types.map .type)
    (hr : b.typesOf op.results = results.map .type) (htr : ∀ t ∈ types, t.Readable)
    (hrr : ∀ t ∈ results, t.Readable) (hw : (a.map name).Writable) (hu : WritableTags user) :
    generic env b names k op =
      .ok (Statement.text k ⟨(Content.mk (.generic a) fs).map name, types, user, results⟩) := by
  obtain ⟨hcall, hrot, hfill, -⟩ := h.fits
  have operands := h.generic_operands
  have named : ∀ f ∈ fs, ∀ id ∈ f.main :: f.references, b.shownName names id = .text (name id) := fun f hf id hid =>
    hs id (operands ▸ List.mem_append_right _ (List.mem_flatMap.mpr ⟨f, hf, hid⟩))
  have mained : ∀ id ∈ a.references ++ fs.map (·.main), b.shownName names id = .text (name id) := by
    intro id hid
    rcases List.mem_append.mp hid with hid | hid
    · exact hs id (operands ▸ List.mem_append_left _ hid)
    · obtain ⟨f, hf, rfl⟩ := List.mem_map.mp hid
      exact named f hf _ List.mem_cons_self
  have slotted : slots (b.shownName names) op k.operandSlots ((slotSizes k.operandSlots fs).map Int.ofNat)
      (fs.flatMap fun f => f.main :: f.references) " " =
      .ok (operandsText " " (fs.map (·.map name)), fs.map (·.main)) :=
    slots_eq " " hfill (fun e he => h.tag?_eq hk (List.mem_append_left _ (List.mem_append_right _ he))) named
  have count : ((genericSizes k a fs).map Int.ofNat).length = k.segmentCount := by
    rw [List.length_map, length_genericSizes hk hcall]
  have tail := fun front => genericTail_eq env front h.others hu ht hr htr hrr mained
  unfold generic
  rw [h.genericSizes_eq hk, ok_bind]
  simp only [count, bne_self_eq_false, Bool.false_eq_true, if_false]
  -- a rotation has the size of its angle in front of the sizes of the other slots
  cases hrotation : k.rotation with
  | true =>
    have angled : angle (b.shownName names) op (Int.ofNat a.references.length) =
        .ok ((a.map name).written, a.references, fs.flatMap fun f => f.main :: f.references) :=
      angle_eq _ operands (h.angleTag_eq hrotation) hw fun id hid => hs id (operands ▸ List.mem_append_left _ hid)
    have sizes : (genericSizes k a fs).map Int.ofNat =
        Int.ofNat a.references.length :: (slotSizes k.operandSlots fs).map Int.ofNat := by
      simp [genericSizes, hrotation]
    simp only [if_true, sizes, List.headD_cons, List.drop_one, List.tail_cons, angled, ok_bind, slotted]
    exact tail _
  | false =>
    obtain rfl := hrot hrotation
    have sizes : (genericSizes k .absent fs).map Int.ofNat = (slotSizes k.operandSlots fs).map Int.ofNat := by
      simp [genericSizes, hrotation]
    simp only [Bool.false_eq_true, if_false, sizes, pure_eq_ok, ok_bind, operands, AngleOf.references, List.nil_append,
      slotted]
    exact tail _

theorem window_front {α : Type} (xs ys : List α) : window (xs ++ ys) 0 (Int.ofNat xs.length) = xs := by
  have zero : boundIn (xs ++ ys).length 0 = 0 := boundIn_natCast _ 0 |>.trans (Nat.zero_min _)
  rw [window, zero, show boundIn (xs ++ ys).length (Int.ofNat xs.length) = _ from boundIn_natCast _ xs.length,
    List.length_append, Nat.min_eq_left (Nat.le_add_right _ _), List.take_left, List.drop_zero]

theorem window_back {α : Type} (xs ys : List α) :
    window (xs ++ ys) (Int.ofNat xs.length) (Int.ofNat (xs ++ ys).length) = ys := by
  rw [window, show boundIn (xs ++ ys).length (Int.ofNat xs.length) = _ from boundIn_natCast _ xs.length,
    show boundIn (xs ++ ys).length (Int.ofNat (xs ++ ys).length) = _ from boundIn_natCast _ _, Nat.min_self,
    List.take_length, List.length_append, Nat.min_eq_left (Nat.le_add_right _ _), List.drop_left]

theorem requiredTag_eq {key : String} {a : Attr} (h : op.tag? key = some a) : requiredTag op key = .ok a := by
  rw [requiredTag, h]

theorem call_eq {callee : String} {n : Int} {fs : List (Filler Nat)} {result : Ty} (hk : k.Valid)
    (h : op.Records k ⟨.call callee n, fs⟩ user)
    (hs : ∀ id ∈ op.operands, b.shownName names id = .text (name id))
    (ht : b.typesOf (Content.mk (.call callee n) fs).mains = types.map .type)
    (hr : b.typesOf op.results = [.type result]) (htr : ∀ t ∈ types, t.Readable) (hrr : result.Readable)
    (hn : FewDigits n) (hu : WritableTags user) :
    call env b names k op =
      .ok (Statement.text k ⟨(Content.mk (.call callee n) fs).map name, types, user, [result]⟩) := by
  obtain ⟨-, hlegal, -⟩ := h.fits
  obtain ⟨id, hres, hid⟩ := List.map_eq_singleton_iff.mp hr
  have operands := h.call_operands
  have named : ∀ f ∈ fs, ∀ id ∈ f.main :: f.references, b.shownName names id = .text (name id) := by
    intro f hf id hid
    refine hs id (operands ▸ ?_)
    rcases List.mem_cons.mp hid with rfl | hid
    · exact List.mem_append_left _ (List.mem_map_of_mem hf)
    · exact List.mem_append_right _ (List.mem_flatMap.mpr ⟨f, hf, hid⟩)
  have mained : ∀ id ∈ fs.map (·.main), b.shownName names id = .text (name id) := by
    intro id hid
    obtain ⟨f, hf, rfl⟩ := List.mem_map.mp hid
    exact named f hf _ List.mem_cons_self
  -- the two windows of the operands are the arguments and their references
  have front : window op.operands 0 (Int.ofNat fs.length) = fs.map (·.main) := by
    rw [operands]
    simpa using window_front (fs.map (·.main)) (fs.flatMap Filler.references)
  have back : window op.operands (Int.ofNat fs.length) (op.operands.length : Int) = fs.flatMap Filler.references := by
    rw [operands]
    simpa using window_back (fs.map (·.main)) (fs.flatMap Filler.references)
  have calleeTagged : requiredTag op calleeTag = .ok (.symbol (.text callee)) :=
    requiredTag_eq (h.tag?_eq hk (e := (_, _)) List.mem_cons_self)
  have countTagged : requiredTag op countTag = .ok (.int n) :=
    requiredTag_eq (h.tag?_eq hk (e := (_, _)) (List.mem_cons_of_mem _ List.mem_cons_self))
  have arrays : op.tag? callAccessorsTag = some (.tuple (fs.map fun f => .accessors f.accessors)) :=
    h.tag?_eq hk (e := (_, _)) (List.mem_cons_of_mem _ (List.mem_cons_of_mem _ List.mem_cons_self))
  have args : arguments (b.shownName names) (.tuple (fs.map fun f => .accessors f.accessors)) 0 (fs.map (·.main))
      (fs.flatMap Filler.references) = .ok (operandsText ", " (fs.map (·.map name))) :=
    arguments_eq [] hlegal named
  have symbol : env.shown (.symbol (.text callee)) = .ok ("@" ++ callee) := rfl
  have integer : (Attr.int n).toInt = .ok n := rfl
  have typed : env.shown (b.typeOf id) = .ok result.text := by rw [hid, shown_type hrr]
  have mains : b.typesOf (fs.map (·.main)) = types.map .type := ht
  unfold call
  rw [h.callSizes_eq hk, ok_bind]
  simp only [List.length_cons, List.length_nil, bne_self_eq_false, Bool.false_eq_true, if_false, List.headD_cons, hres]
  rw [calleeTagged, ok_bind, symbol, ok_bind, countTagged, ok_bind, integer, Readback.ofAttr_ok, ok_bind, shown_int hn,
    ok_bind, arrays, Option.getD_some, front, back, args, ok_bind, printer_tags_eq h.others hu, Readback.ofLiteral_ok,
    ok_bind, mains, colonTypes_eq htr, ok_bind, typed, ok_bind, withNames_eq mained]
  have text : ∀ s : String, toString s = s := fun _ => rfl
  have arrow : typesText " -> " [result] = " -> " ++ result.text := by simp [typesText]
  simp only [Statement.text, Content.map, arrow, String.append_assoc, text]

/-- An operation is printed as the statement that its content is under the names of its values. -/
theorem operation_eq {c : Content Nat} (hreg : env.registry.kind? k.name = some k) (hk : k.Valid)
    (h : op.Records k c user) (hs : ∀ id ∈ op.operands, b.shownName names id = .text (name id))
    (ht : b.typesOf c.mains = types.map .type) (hr : b.typesOf op.results = results.map .type)
    (hw : Statement.Writable k ⟨c.map name, types, user, results⟩) :
    operation env b names op = .ok (Statement.text k ⟨c.map name, types, user, results⟩) := by
  have hhead := hw.head
  have hfits := h.fits
  have found : env.registry.find op.opcode = .ok (some k) := by rw [h.opcode, Registry.find, hreg]
  unfold operation
  rw [found, ok_bind]
  obtain ⟨head, fs⟩ := c
  cases head with
  | generic a =>
    simp only [hfits.1, Bool.false_eq_true, if_false]
    exact generic_eq hk h hs ht hr hw.readable hw.results hhead hw.own
  | call callee n =>
    obtain ⟨result, rfl⟩ := hw.single hfits.1
    simp only [hfits.1, if_true]
    exact call_eq hk h hs ht hr hw.readable (hw.results result List.mem_cons_self) hhead.2 hw.own

end

end Printer

end GateAsm
