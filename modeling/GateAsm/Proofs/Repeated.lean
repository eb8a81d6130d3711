import GateAsm.Proofs.Created

/-!
# Instructions that are repeated

An operation that was appended to a block, be it read or built, can be printed there, and the text can be
read again in the same block: it appends an operation with the same operands, the same structural tags, the
user's tags with tuples for lists, and results of the same types.
-/

namespace GateAsm

/-! ## Operations that were appended -/

/-- An operation of a kind was appended to a block: it was read from a text, built in the generic form, or
built as a call. No two tags that a caller hands in have the same name. -/
inductive Block.Appends (registry : Registry) (k : Kind) (op : Operation) : Block → Block → Prop
  | read {allow : Bool} {expected : Option Kind} {text : String} {tokens : TokenStream} {s t : ParserState} {n : Nat}
      (htokens : TokenStream.ofText text = .ok tokens) (hrest : s.rest <:+ tokens.tokens)
      (hexpected : KindFor registry expected k.name k)
      (hread : Parser.Yields (Parser.instruction ⟨registry, allow⟩ expected) s n t) (hop : op.opcode = .text k.name)
      (hops : t.block.operations = s.block.operations ++ [op]) : Appends registry k op s.block t.block
  | built {b b' : Block} {r : BuildRequest} {n : Nat} (hbuilt : k.build b r = (.ok n, b'))
      (hkeys : (r.attrs.map (·.1)).Nodup) (hops : b'.operations = b.operations ++ [op]) : Appends registry k op b b'
  | called {b b' : Block} {r : CallRequest} {n : Nat} (hbuilt : k.buildCall b r = (.ok n, b'))
      (hkeys : (r.attrs.map (·.1)).Nodup) (hops : b'.operations = b.operations ++ [op]) : Appends registry k op b b'

/-- The operation is the record of content in the block, and has one result if it is a call. -/
structure Block.Holds (b : Block) (k : Kind) (op : Operation) (c : Content Nat) (user : List (String × Attr)) : Prop
    extends op.Records k c user where
  indexed : c.Indexed b
  single : k.callForm = true → op.results.length = 1

section
variable {registry : Registry} {k : Kind} {op : Operation} {b b' : Block}

theorem KindFor.valid {expected : Option Kind} (hr : registry.Sound) (hk : k.Valid)
    (h : KindFor registry expected k.name k) :
    ∀ x k', KindFor registry expected x k' → k'.Valid := by
  intro x k' h'
  cases expected with
  | none => exact hr.valid_of_kind? h'
  | some e => rw [h'.2, ← h.2]; exact hk

theorem KindFor.unique {expected : Option Kind} {k' : Kind} {x : String} (hr : registry.Sound)
    (h : KindFor registry expected k.name k) (h' : KindFor registry expected x k') (hname : k'.name = k.name) :
    k' = k := by
  cases expected with
  | none =>
    have same : registry.kind? k.name = some k' := by
      rw [← hname, hr.name_of_kind? h']
      exact h'
    exact Option.some.inj (same.symm.trans h)
  | some e => exact h'.2.trans h.2.symm

theorem Block.Holds.extend {c : Content Nat} {user : List (String × Attr)} (h : b.Holds k op c user)
    (hb : b.Extends b') :
    b'.Holds k op c user :=
  ⟨h.toRecords, fun f hf id hid => Kind.isIndex_extend hb (h.indexed f hf id hid), h.single⟩

theorem last_eq {α : Type} {xs ys : List α} {x y : α} (h : ys = xs ++ [x]) (h' : ys = xs ++ [y]) : x = y := by
  simpa using h.symm.trans h'

/-- What was appended is the record of content. The callee of a call that was built has to be a text, and
the operands to have types. -/
theorem Block.Appends.holds (h : Block.Appends registry k op b b') (hr : registry.Sound) (hk : k.Valid)
    (hb : b.WellScoped) (hcallee : ∀ n, op.tag? calleeTag = some (.symbol n) → ∃ s, n = .text s)
    (htyped : ∀ id ∈ op.operands, id < b'.values.length → ∃ t, b'.typeOf id = .type t) :
    ∃ c user, b'.Holds k op c user := by
  cases h with
  | read htokens hrest hexpected hread hop hops =>
    have visible := (Reading.visible_of_spelled (lexes_of_ofText htokens).2).sublist hrest.sublist
    obtain ⟨x, l, hs, -, hx, hrun, -, -⟩ := Parser.instruction_sound (hexpected.valid hr hk) hb visible hread
    have lawful := hx.body.lawful
    have named : ∀ n ∈ l.statement.content.physical, Block.Visible n := fun n hn =>
      visible.of_splits hs (List.mem_append_right _ (List.mem_cons_of_mem _ (hx.body.written hn)))
    obtain ⟨op', hops', hrec, hres⟩ := hrun.recorded lawful
    obtain rfl : op' = op := last_eq hops' hops
    have name : l.kind.name = k.name := by
      have := hrec.opcode.symm.trans hop
      simpa using this
    obtain rfl : l.kind = k := hexpected.unique hr hx.kind name
    refine ⟨_, _, hrec, hrun.indexed lawful named hb fun n hn => Attr.not_isBlank_of_type (htyped _ ?_ ?_),
      fun hcall => ?_⟩
    · rw [hrec.operands, Content.physical_map]
      exact List.mem_map_of_mem hn
    · obtain ⟨operands, hc⟩ := hrun.creates
      have inside := Block.lookup_lt (Block.wellScoped_mentionAll hb _) (hrun.lookup_valueOf lawful named hb n hn)
      exact Nat.lt_of_lt_of_le inside hc.extends_.length_le
    · rw [hres, List.length_range', hx.body.result hcall]
  | built hbuilt hkeys hops =>
    obtain ⟨s, hs, hc⟩ := Kind.append_ok hbuilt
    obtain ⟨a, fs, fits, hindex, -, -, -, free, rfl⟩ := Kind.buildState_ok hk hs
    obtain ⟨-, operands, hc⟩ := Block.createOperation_ok hc
    obtain ⟨name, hops'⟩ := hc.operations
    obtain rfl : operands = (Content.mk (.generic a) fs).physical :=
      ((List.map_inj_right fun _ _ => Option.some.inj).mp hc.present).symm
    obtain rfl := last_eq hops hops'
    refine ⟨_, _, .of_built fits free hkeys, fun f hf id hid => Kind.isIndex_extend hc.extends_ (hindex f hf id hid),
      fun hcall => ?_⟩
    exact absurd (fits.1.symm.trans hcall) (by decide)
  | @called _ _ r _ hbuilt hkeys hops =>
    obtain ⟨s, hs, hc⟩ := Kind.append_ok hbuilt
    obtain ⟨-, operands, hc⟩ := Block.createOperation_ok hc
    obtain ⟨m, fs, hcall, -, -, hlegal, small, small', hindex, free, rfl, rfl⟩ := Kind.callState_ok hs hc.present
    obtain ⟨name, hops'⟩ := hc.operations
    obtain rfl := last_eq hops hops'
    obtain ⟨callee, hcallee⟩ := hcallee r.callee
      (Kind.lookup_callTags hk ⟨hcall, hlegal, small, small'⟩ free _ List.mem_cons_self)
    have fits : (Content.mk (.call callee m) fs).Fits k := ⟨hcall, hlegal, small, small'⟩
    rw [hcallee, ← Kind.structural_call k, ← Content.physical_call callee m]
    refine ⟨_, _, .of_built fits free hkeys, fun f hf id hid => Kind.isIndex_extend hc.extends_ (hindex f hf id hid),
      fun _ => List.length_range'⟩

/-! ## What an operation in a block says -/

theorem Block.exists_types {ids : List Nat} (h : ∀ id ∈ ids, ∃ t : Ty, b.typeOf id = .type t ∧ t.Readable) :
    ∃ ts : List Ty, b.typesOf ids = ts.map .type ∧ ∀ t ∈ ts, t.Readable := by
  induction ids with
  | nil => exact ⟨[], rfl, nofun⟩
  | cons id ids ih =>
    obtain ⟨t, ht, readable⟩ := h id List.mem_cons_self
    obtain ⟨ts, hts, all⟩ := ih fun x hx => h x (List.mem_cons_of_mem _ hx)
    refine ⟨t :: ts, ?_, List.forall_mem_cons.mpr ⟨readable, all⟩⟩
    rw [Block.typesOf, List.map_cons, List.map_cons, ht, ← hts]
    rfl

theorem Content.mains_subset {ρ : Type} {c : Content ρ} : ∀ r ∈ c.mains, r ∈ c.physical := by
  intro r hr
  rw [c.mains_eq_filter] at hr
  obtain ⟨x, hx, rfl⟩ := List.mem_map.mp hr
  exact List.mem_map_of_mem (List.mem_filter.mp hx).1

theorem Content.reference_of_flagged {ρ : Type} {c : Content ρ} {x : ρ × Bool} (hx : x ∈ c.flagged) (hp : x.2 = true) :
    ∃ f ∈ c.operands, x.1 ∈ f.references := by
  unfold flagged at hx
  cases hc : c.head with
  | generic a =>
    rw [hc] at hx
    rcases List.mem_append.mp hx with hx | hx
    · obtain ⟨r, -, rfl⟩ := List.mem_map.mp hx
      cases hp
    · obtain ⟨f, hf, hx⟩ := List.mem_flatMap.mp hx
      rcases List.mem_cons.mp hx with rfl | hx
      · cases hp
      · obtain ⟨r, hr, rfl⟩ := List.mem_map.mp hx
        exact ⟨f, hf, hr⟩
  | call callee n =>
    rw [hc] at hx
    rcases List.mem_append.mp hx with hx | hx
    · obtain ⟨f, -, rfl⟩ := List.mem_map.mp hx
      cases hp
    · obtain ⟨r, hr, rfl⟩ := List.mem_map.mp hx
      exact List.mem_flatMap.mp hr

theorem Attr.eq_index {a : Attr} (h : a.isIndex = true) : a = .type .index := by
  unfold isIndex at h
  split at h
  · rfl
  · cases h

def Block.Reaches (b : Block) (op : Operation) : Prop := ∀ id ∈ op.operands, ∃ n, IsValueName n ∧ b.lookup n = some id

theorem Block.Reaches.shown (h : b.Reaches op) (hb : b.WellScoped) : ∀ id ∈ op.operands,
    IsValueName (b.shownText [] id) ∧ b.nameOf id = .text (b.shownText [] id) ∧
    b.lookup (b.shownText [] id) = some id := by
  intro id hid
  obtain ⟨n, hn, hl⟩ := h id hid
  have name := nameOf_of_lookup hb hl
  rw [shownText_eq [] name]
  exact ⟨hn, name, hl⟩

theorem Block.Holds.says {names : ShownNames} {c : Content Nat} {user : List (String × Attr)} (h : b.Holds k op c user)
    (hname : IsName k.name)
    (hshown : ∀ id ∈ op.operands,
      IsValueName (b.shownText names id) ∧ b.shownName names id = .text (b.shownText names id))
    (htyped : ∀ id ∈ op.operands ++ op.results, ∃ t, b.typeOf id = .type t ∧ t.Readable)
    (hhead : (c.map (b.shownText names)).head.Writable) (hown : WritableTags user) :
    ∃ m, b.Says names op k c m ∧ m.Writable k ∧ m.tags = user := by
  have inside : ∀ id ∈ c.mains, id ∈ op.operands := fun id hid => h.operands ▸ Content.mains_subset id hid
  obtain ⟨types, htypes, readable⟩ := @exists_types b c.mains fun id hid =>
    htyped id (List.mem_append_left _ (inside id hid))
  obtain ⟨results, hresults, readable'⟩ := @exists_types b op.results fun id hid =>
    htyped id (List.mem_append_right _ hid)
  have count : types.length = (c.map (b.shownText names)).mains.length := by
    have := congrArg List.length htypes
    rw [Content.mains_map, List.length_map]
    simpa [typesOf] using this.symm
  have named : ∀ f ∈ (c.map (b.shownText names)).operands, f.Named := by
    intro g hg
    obtain ⟨f, hf, rfl⟩ := List.mem_map.mp hg
    have physical : ∀ id ∈ f.main :: f.references, IsValueName (b.shownText names id) := fun id hid =>
      (hshown id (h.operands ▸ Content.mem_physical.mpr (.inr ⟨f, hf, hid⟩))).1
    refine ⟨physical _ List.mem_cons_self, fun n hn => ?_⟩
    rw [Filler.references_map] at hn
    obtain ⟨id, hid, rfl⟩ := List.mem_map.mp hn
    exact physical id (List.mem_cons_of_mem _ hid)
  refine ⟨⟨c.map (b.shownText names), types, user, results⟩,
    ⟨h.toRecords, rfl, fun id hid => (hshown id hid).2, htypes, fun x hx hp => ?_, hresults⟩,
    ⟨⟨Content.fits_map.mpr h.fits, h.addable, count⟩, hname, hhead, named, hown, readable, readable',
      fun hcall => ?_⟩, rfl⟩
  · obtain ⟨f, hf, hr⟩ := Content.reference_of_flagged hx hp
    exact Attr.eq_index (h.indexed f hf _ hr)
  · have single := h.single hcall
    have := congrArg List.length hresults
    rw [typesOf, List.length_map, List.length_map, single] at this
    exact List.length_eq_one_iff.mp this.symm

/-! ## Running it again -/

theorem TypeContext.plain_keepAll (c : TypeContext) (ts : List Ty) :
    (c.keepAll ts).1.map Ty.plain = ts.map Ty.plain := by
  induction ts generalizing c with
  | nil => rfl
  | cons t ts ih => rw [keepAll, List.map_cons, List.map_cons, Ty.same_iff.mp (keep_same c t), ih]

/-- Operands are used at types as given if those in brackets are used at the fixed type, and the others at
the types of the list. -/
theorem forall_uses {ρ : Type} {P : ρ → Ty → Prop} {flagged : List (ρ × Bool)} {types : List Ty} {i : Ty}
    (hi : ∀ x ∈ flagged, x.2 = true → P x.1 i) (ht : ∀ x ∈ ((flagged.filter (!·.2)).map (·.1)).zip types, P x.1 x.2) :
    ∀ x ∈ (flagged.map (·.1)).zip (Parser.operandTypes (flagged.map (·.2)) i types), P x.1 x.2 := by
  induction flagged generalizing types with
  | nil => nofun
  | cons x flagged ih =>
    obtain ⟨r, pinned⟩ := x
    have later := fun y hy => hi y (List.mem_cons_of_mem _ hy)
    cases pinned with
    | true =>
      rw [List.filter_cons_of_neg (by simp)] at ht
      exact List.forall_mem_cons.mpr ⟨hi _ List.mem_cons_self rfl, ih later ht⟩
    | false =>
      rw [List.filter_cons_of_pos (by simp)] at ht
      cases types with
      | nil => simp [Parser.operandTypes]
      | cons t types =>
        rw [List.map_cons, List.zip_cons_cons, List.forall_mem_cons] at ht
        exact List.forall_mem_cons.mpr ⟨ht.1, ih later ht.2⟩

theorem Block.mentionAll_of_known {uses : List (String × Ty)} (h : ∀ u ∈ uses, (b.lookup u.1).isSome = true) :
    b.mentionAll uses = b := by
  induction uses with
  | nil => rfl
  | cons u uses ih =>
    rw [mentionAll_cons, mention, if_pos (h u List.mem_cons_self)]
    exact ih fun x hx => h x (List.mem_cons_of_mem _ hx)

theorem Block.typesOf_zip {ids : List Nat} {types types' : List Ty} (h : b.typesOf ids = types.map .type)
    (hp : types'.map Ty.plain = types.map Ty.plain) : ∀ x ∈ ids.zip types', b.HasType x.1 x.2 := by
  induction ids generalizing types types' with
  | nil => nofun
  | cons id ids ih =>
    cases types with
    | nil => cases h
    | cons t types =>
      cases types' with
      | nil => nofun
      | cons t' types' =>
        obtain ⟨first, rest⟩ := List.cons.inj h
        obtain ⟨same, others⟩ := List.cons.inj hp
        exact List.forall_mem_cons.mpr ⟨(hasType_type first).mpr (Ty.same_iff.mpr same.symm), ih rest others⟩

theorem Block.Says.uses_eq {names : ShownNames} {c : Content Nat} {m : Statement} (h : b.Says names op k c m)
    (hm : m.Lawful k) (ctx : TypeContext) : ∃ types : List Ty, types.length = op.operands.length ∧
      m.uses ctx = (op.operands.zip types).map (fun x => (b.shownText names x.1, x.2)) ∧
      ∀ x ∈ op.operands.zip types, b.HasType x.1 x.2 := by
  have flags : m.content.flagged = c.flagged.map fun x => (b.shownText names x.1, x.2) := by
    rw [h.content, Content.flagged_map]
  have operands : op.operands = c.flagged.map (·.1) := h.records.operands
  have pinned : m.content.flagged.map (·.2) = c.flagged.map (·.2) := by rw [flags, List.map_map]; rfl
  refine ⟨Parser.operandTypes (c.flagged.map (·.2)) (indexAfter ctx m.types).1 (ctx.keepAll m.types).1, ?_, ?_, ?_⟩
  · rw [Parser.length_operandTypes, operands, List.length_map, List.length_map]
    rw [Parser.length_keepAll, hm.types, Content.length_mains, pinned]
  · have names : m.content.flagged.map (·.1) = op.operands.map (b.shownText names) := by
      rw [flags, operands, List.map_map, List.map_map]; rfl
    rw [Statement.uses, typedUses, pinned, names, List.zip_map_left]
    rfl
  · rw [operands]
    refine forall_uses (fun x hx hp => ?_) ?_
    · exact (hasType_type (h.indices x hx hp)).mpr (Ty.same_iff.mpr (Ty.same_iff.mp (TypeContext.intern_same _ _)).symm)
    · rw [← Content.mains_eq_filter]
      exact typesOf_zip h.types (TypeContext.plain_keepAll ctx m.types)

/-- What an operation says can be run in its block again, whatever the context of types is. -/
theorem Block.Says.runs {c : Content Nat} {m : Statement} (h : b.Says [] op k c m) (hm : m.Lawful k)
    (hlook : ∀ id ∈ op.operands, Visible (b.shownText [] id) ∧ b.lookup (b.shownText [] id) = some id)
    (ctx : TypeContext) : ∃ b', (Line.mk [] k m.tupled).Runs ctx b b' ∧ b.Extends b' ∧
      ∃ op', b'.operations = b.operations ++ [op'] ∧ op'.Records k c (tupledTags m.tags) ∧
        ∃ ts : List Ty, b'.typesOf op'.results = ts.map .type ∧ ts.map Ty.plain = m.results.map Ty.plain := by
  have content : m.content = c.map (b.shownText []) := h.content
  have names : m.content.physical = op.operands.map (b.shownText []) := by
    rw [content, Content.physical_map, h.records.operands]
  have found : ∀ n ∈ m.content.physical, ∃ id ∈ op.operands, b.shownText [] id = n ∧ Visible n ∧
      b.lookup n = some id := by
    intro n hn
    rw [names] at hn
    obtain ⟨id, hid, rfl⟩ := List.mem_map.mp hn
    exact ⟨id, hid, rfl, hlook id hid⟩
  -- all operands are in scope already, so no input comes up
  have known : ∀ u ∈ m.uses ctx, (b.lookup u.1).isSome = true := by
    intro u hu
    obtain ⟨id, -, -, -, hl⟩ := found u.1 (List.of_mem_zip hu).1
    rw [hl]; rfl
  have front : b.mentionAll (m.uses ctx) = b := mentionAll_of_known known
  have uses : ∀ u ∈ m.uses ctx, ∀ id, b.lookup u.1 = some id → b.HasType id u.2 := by
    obtain ⟨types, -, used, typed⟩ := h.uses_eq hm ctx
    intro u hu id hid
    rw [used] at hu
    obtain ⟨x, hx, rfl⟩ := List.mem_map.mp hu
    obtain rfl := Option.some.inj (hid.symm.trans (hlook x.1 (List.of_mem_zip hx).1).2)
    exact typed x hx
  have present : (m.tupled.state ctx k b).operands = op.operands.map some := by
    show (m.content.physical.map fun n => (b.lookup n).getD 0).map some = _
    rw [names, List.map_map, List.map_map]
    exact List.map_congr_left fun id hid => congrArg (fun o : Option Nat => some (o.getD 0)) (hlook id hid).2
  obtain ⟨b', hcreate⟩ := @createOperation_texts b (m.tupled.state ctx k b)
    ((m.tupled.state ctx k b).resultTypes.map fun _ => none) _ present (List.length_map ..)
    (fun l hl => by simp at hl) (by simp)
  have hrun : (Line.mk [] k m.tupled).Runs ctx b b' := by
    refine ⟨⟨uses, fun u hu _ _ _ hl => ?_⟩, .inl rfl, List.nodup_nil, nofun, b.operations.length, ?_⟩
    · have := known u hu
      rw [hl] at this
      cases this
    · rw [Line.front, show m.tupled.uses ctx = m.uses ctx from rfl, front]
      exact hcreate
  have lawful : m.tupled.Lawful k := ⟨hm.fits, addable_tupledTags hm.tags, hm.types⟩
  obtain ⟨op', hops, hrec, hres⟩ := hrun.recorded lawful
  obtain ⟨operands, hc⟩ := hrun.creates
  -- reading gives the names back to the values that they were printed for
  have same : m.content.map ((Line.mk [] k m.tupled).valueOf ctx b) = c := by
    rw [content, Content.map_map]
    refine Content.map_eq_self fun id hid => ?_
    show ((b.mentionAll (m.uses ctx)).lookup (b.shownText [] id)).getD 0 = id
    rw [front, (hlook id (h.records.operands ▸ hid)).2]
    rfl
  have results := hc.typesOf_results
  rw [Parser.length_resultTypes, ← hres] at results
  refine ⟨b', hrun, hrun.extends, op', hops, same ▸ hrec, _, results, TypeContext.plain_keepAll _ _⟩

/-! ## Reading the text again -/

def Operation.WritableTags (op : Operation) (k : Kind) : Prop :=
  ∀ e ∈ op.attrs, (e.1 ∉ k.structuralTags → IsName e.1) ∧
    (e.1 ∉ k.structuralTags ∨ e.1 ∈ [angleTag, calleeTag, countTag] → e.2.Writable)

theorem Attr.mem_of_lookup {key : String} {v : Attr} {tags : List (String × Attr)} (h : Attr.lookup key tags = some v) :
    (key, v) ∈ tags := by
  induction tags with
  | nil => cases h
  | cons e tags ih =>
    unfold lookup at h
    split at h
    · next he => cases h; exact he ▸ List.mem_cons_self
    · exact List.mem_cons_of_mem _ (ih h)

theorem Operation.WritableTags.tag? (h : op.WritableTags k) {key : String} {v : Attr} (hv : op.tag? key = some v)
    (hkey : key ∈ [angleTag, calleeTag, countTag]) : v.Writable :=
  (h _ (Attr.mem_of_lookup hv)).2 (.inr hkey)

theorem Operation.Records.user_writable {c : Content Nat} {user : List (String × Attr)} (h : op.Records k c user)
    (hw : op.WritableTags k) : GateAsm.WritableTags user := by
  intro e he
  rw [← h.others] at he
  obtain ⟨hmem, hfree⟩ := List.mem_filter.mp he
  have free : e.1 ∉ k.structuralTags := by simpa using hfree
  exact ⟨(hw e hmem).1 free, (hw e hmem).2 (.inl free)⟩

theorem Operation.Records.head_writable {c : Content Nat} {user : List (String × Attr)} (h : op.Records k c user)
    (hk : k.Valid) (hw : op.WritableTags k) (hnamed : ∀ id ∈ op.operands, IsValueName (b.shownText [] id)) :
    (c.map (b.shownText [])).head.Writable := by
  obtain ⟨head, fs⟩ := c
  cases head with
  | generic a =>
    cases a with
    | absent => trivial
    | literal x =>
      have tag := h.tag?_eq hk (e := (angleTag, .float x))
        (List.mem_append_left _ (List.mem_append_left _ List.mem_cons_self))
      exact hw.tag? tag List.mem_cons_self
    | reference r => exact hnamed r (h.generic_operands ▸ List.mem_append_left _ List.mem_cons_self)
  | call callee n =>
    have callee_tag := h.tag?_eq hk (e := (calleeTag, _)) List.mem_cons_self
    have count_tag := h.tag?_eq hk (e := (countTag, _)) (List.mem_cons_of_mem _ List.mem_cons_self)
    exact ⟨hw.tag? callee_tag (by simp), hw.tag? count_tag (by simp)⟩

end

theorem Kind.sizesTag_structural (k : Kind) : segmentSizesTag ∈ k.structuralTags := by
  unfold structuralTags
  split <;> simp

theorem Operation.segmentSizes_congr {op op' : Operation} (hopcode : op'.opcode = op.opcode)
    (htag : op'.tag? segmentSizesTag = op.tag? segmentSizesTag) : op'.segmentSizes = op.segmentSizes := by
  unfold segmentSizes mnemonic
  rw [htag, hopcode]

/-- **Instructions are repeated by their text.** An operation that was appended to a block can be printed as
long as its operands are in scope under names and its types and tags can be written. Reading the text in the
block appends an operation with the same operands, segment sizes and structural tags, with the user's tags,
and with results of the same types. -/
theorem Reading.instruction_repeats {env : ParserEnv} {expected : Option Kind} {k : Kind} {op : Operation}
    {b b' d : Block} (hr : env.registry.Sound) (hreg : env.registry.kind? k.name = some k) (hname : IsName k.name)
    (hexpected : KindFor env.registry expected k.name k) (hb : b.WellScoped)
    (happend : Block.Appends env.registry k op b b') (hd : b'.Extends d) (hscoped : d.WellScoped)
    (hreach : d.Reaches op)
    (htyped : ∀ id ∈ op.operands ++ op.results, ∃ t, d.typeOf id = .type t ∧ t.Readable) (htags : op.WritableTags k)
    (penv : PrintEnv) (hpenv : penv.registry = env.registry) (ctx : TypeContext) :
    ∃ text, Printer.operation penv d [] op = .ok text ∧
      (Reading.instruction env expected text ctx d).answer = .ok d.operations.length ∧
      ∃ op', (Reading.instruction env expected text ctx d).block.operations = d.operations ++ [op'] ∧
        op'.opcode = op.opcode ∧ op'.operands = op.operands ∧ op'.segmentSizes = op.segmentSizes ∧
        (∀ key ∈ k.structuralTags, op'.tag? key = op.tag? key) ∧
        op'.attrs.filter (fun t => !k.structuralTags.contains t.1) =
          tupledTags (op.attrs.filter fun t => !k.structuralTags.contains t.1) ∧
        ∃ ts ts' : List Ty, d.typesOf op.results = ts.map .type ∧
          (Reading.instruction env expected text ctx d).block.typesOf op'.results = ts'.map .type ∧
          ts'.map Ty.plain = ts.map Ty.plain := by
  have hk := hr.valid_of_kind? hreg
  have callee : ∀ n, op.tag? calleeTag = some (.symbol n) → ∃ s, n = .text s := by
    intro n hn
    have written := htags.tag? hn (by simp)
    cases n with
    | text s => exact ⟨s, rfl⟩
    | data j => cases written
  have typed : ∀ id ∈ op.operands, id < b'.values.length → ∃ t, b'.typeOf id = .type t := by
    intro id hid hlt
    obtain ⟨t, ht, -⟩ := htyped id (List.mem_append_left _ hid)
    exact ⟨t, (hd.typeOf id hlt).symm.trans ht⟩
  obtain ⟨c, user, holds⟩ := happend.holds hr hk hb callee typed
  have holds := holds.extend hd
  have shown := hreach.shown hscoped
  have head := holds.head_writable hk htags fun id hid => (shown id hid).1
  obtain ⟨m, said, writable, rfl⟩ : ∃ m, d.Says [] op k c m ∧ m.Writable k ∧ m.tags = user :=
    holds.says hname (fun id hid => ⟨(shown id hid).1, (shown id hid).2.1⟩) htyped head (holds.user_writable htags)
  obtain ⟨e, hrun, -, op', hops, hrec, ts', htypes, hplain⟩ := said.runs writable.toLawful
    (fun id hid => ⟨(shown id hid).1.visible, (shown id hid).2.2⟩) ctx
  obtain ⟨answer, block⟩ := instruction_text hr hk writable hexpected hscoped hrun
  have tags : ∀ key ∈ k.structuralTags, op'.tag? key = op.tag? key := fun key hkey =>
    (hrec.structural key hkey).trans (holds.structural key hkey).symm
  have opcode : op'.opcode = op.opcode := hrec.opcode.trans holds.opcode.symm
  refine ⟨m.text k, said.print hk (hpenv ▸ hreg) writable, answer, op', block ▸ hops, opcode, ?_,
    Operation.segmentSizes_congr opcode (tags _ k.sizesTag_structural), tags, ?_, m.results, ts', said.results,
    block ▸ htypes, hplain⟩
  · rw [hrec.operands, holds.operands]
  · rw [hrec.others, holds.others]

/-- A measurement that is built is printed and read again. -/
theorem Reading.instruction_repeats_measurement :
    ∃ b' op text, Block.Appends .standard Kind.measurement op prepared b' ∧
      Printer.operation Registry.standard.printEnv b' [] op = .ok text ∧
      (Reading.instruction ⟨.standard, false⟩ none text .default b').answer = .ok 1 := by
  obtain ⟨n, h⟩ := exists_answer (x := Kind.measurement.build prepared
    ⟨[some 0], [("trgt", [.value 1])], .attr .none, [], [], none⟩) (by decide +kernel)
  obtain ⟨op, hops, -⟩ := Kind.build_verify (by decide) h
  obtain ⟨s, -, hc⟩ := Kind.append_ok h
  obtain ⟨-, operands, hc⟩ := Block.createOperation_ok hc
  have start : prepared.WellScoped := Block.wellScoped_withInput (Block.wellScoped_withInput Block.wellScoped_empty)
  have hscoped := hc.wellScoped start
  have hext := hc.extends_
  have ids : ∀ o ∈ (Kind.measurement.build prepared
      ⟨[some 0], [("trgt", [.value 1])], .attr .none, [], [], none⟩).2.operations,
      (∀ id ∈ o.operands ++ o.results, id = 0 ∨ id = 1) ∧
        ∀ e ∈ o.attrs, e.1 ∈ Kind.measurement.structuralTags ∧ e.1 ∉ [angleTag, calleeTag, countTag] := by
      decide +kernel
  have names : ∀ e ∈ [("%q", 0), ("%i", 1)], (Kind.measurement.build prepared
      ⟨[some 0], [("trgt", [.value 1])], .attr .none, [], [], none⟩).2.lookup e.1 = some e.2 := by decide +kernel
  generalize (Kind.measurement.build prepared ⟨[some 0], [("trgt", [.value 1])], .attr .none, [], [], none⟩).2 = b'
    at h hops hscoped hext ids names
  obtain ⟨values, attrs⟩ := ids op (hops ▸ List.mem_append_right _ List.mem_cons_self)
  have named : IsValueName "%q" ∧ IsValueName "%i" := ⟨⟨'q', [], rfl, List.forall_mem_singleton.mpr rfl⟩,
    ⟨'i', [], rfl, List.forall_mem_singleton.mpr rfl⟩⟩
  have reach : b'.Reaches op := by
    intro id hid
    rcases values id (List.mem_append_left _ hid) with rfl | rfl
    · exact ⟨"%q", named.1, names _ List.mem_cons_self⟩
    · exact ⟨"%i", named.2, names _ (List.mem_cons_of_mem _ List.mem_cons_self)⟩
  have typed : ∀ id ∈ op.operands ++ op.results, ∃ t, b'.typeOf id = .type t ∧ t.Readable := by
    intro id hid
    rcases values id hid with rfl | rfl
    · exact ⟨.register none, hext.typeOf 0 (by decide), rfl, trivial, nofun, nofun⟩
    · exact ⟨.index, hext.typeOf 1 (by decide), rfl, trivial, nofun, nofun⟩
  have tags : op.WritableTags Kind.measurement := fun e he =>
    ⟨fun free => absurd (attrs e he).1 free, fun h => absurd h (not_or.mpr ⟨not_not.mpr (attrs e he).1,
      (attrs e he).2⟩)⟩
  have registered : Registry.standard.kind? Kind.measurement.name = some Kind.measurement := by decide
  obtain ⟨text, printed, answer, -⟩ := @Reading.instruction_repeats ⟨.standard, false⟩ none _ _ _ _ _
    Registry.sound_standard registered ⟨'q', _, rfl, rfl, List.all_eq_true.mp (by decide)⟩ registered start
    (.built h List.nodup_nil hops) (.refl b') hscoped reach typed tags Registry.standard.printEnv rfl .default
  have one : b'.operations.length = 1 := by rw [hops]; rfl
  exact ⟨b', op, text, .built h List.nodup_nil hops, printed, one ▸ answer⟩

end GateAsm
