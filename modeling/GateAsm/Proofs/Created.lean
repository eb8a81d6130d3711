import GateAsm.Proofs.Built
import GateAsm.Proofs.Running
import GateAsm.Proofs.Verdict
import GateAsm.Proofs.Written.Reading

/-!
# Created operations

Whatever the library appends to a block is the record of content over values, with references of type
index in the brackets: what the parser reads, and what is built in the generic form or as a call. Such an
operation is legal, so that `Kind.verify` accepts it.
-/

namespace GateAsm

/-! ## Content as an assignment -/

theorem count_dynamic {ρ : Type} (ps : List (Part ρ)) :
    (ps.map Part.component).count .dynamic = (ps.filterMap Part.reference?).length := by
  induction ps with
  | nil => rfl
  | cons p ps ih =>
    cases p with
    | number n =>
      rw [List.map_cons, List.count_cons_of_ne (by simp [Part.component]), ih]
      rfl
    | reference r =>
      rw [List.map_cons, show (Part.reference r).component = .dynamic from rfl, List.count_cons_self, ih]
      rfl

theorem Filler.length_references {ρ : Type} {f : Filler ρ} (h : LegalParts f.parts) :
    f.references.length = f.accessors.dynamicCount := by
  rw [Filler.accessors, Accessors.dynamicCount, components_accessorsOf h, count_dynamic]
  rfl

def slotChoices : List Slot → List (Filler Nat) → List SlotChoice
  | [], _ => []
  | _ :: ss, [] => ⟨none, .empty, []⟩ :: slotChoices ss []
  | _ :: ss, f :: fs => ⟨some f.main, f.accessors, f.references⟩ :: slotChoices ss fs

section
variable {b : Block} {op : Operation} {ss : List Slot} {fs : List (Filler Nat)}

theorem slotChoices_legal (hfill : FillSlots ss fs) (htags : ∀ e ∈ slotTags ss fs, op.tag? e.1 = some e.2)
    (hindex : ∀ f ∈ fs, ∀ id ∈ f.references, (b.typeOf id).isIndex = true) :
    Paired (SlotChoice.Legal b op) ss (slotChoices ss fs) := by
  induction ss generalizing fs with
  | nil => trivial
  | cons s ss ih =>
    cases fs with
    | nil =>
      refine ⟨⟨fun _ => rfl, fun hs => ?_, rfl, nofun, fun _ => rfl⟩, ih (by cases ss <;> trivial) ?_ nofun⟩
      · exact htags (s.accessorTag, _) (List.mem_append_left _ (by rw [if_pos hs]; exact List.mem_cons_self))
      · exact fun e he => htags e (List.mem_append_right _ he)
    | cons f fs =>
      obtain ⟨⟨legal, plain⟩, rest⟩ := hfill
      refine ⟨⟨fun hs => ?_, fun hs => ?_, Filler.length_references legal, hindex f List.mem_cons_self, nofun⟩,
        ih rest ?_ fun x hx => hindex x (List.mem_cons_of_mem _ hx)⟩
      · show accessorsOf f.parts = .empty
        rw [plain hs]
        rfl
      · exact htags (s.accessorTag, _) (List.mem_append_left _ (by rw [if_pos hs]; exact List.mem_cons_self))
      · exact fun e he => htags e (List.mem_append_right _ he)

theorem slotChoices_nil_operands (ss : List Slot) : (slotChoices ss []).flatMap SlotChoice.operands = [] := by
  induction ss with
  | nil => rfl
  | cons s ss ih => rw [slotChoices, List.flatMap_cons, ih]; rfl

theorem slotChoices_operands (hfill : FillSlots ss fs) :
    (slotChoices ss fs).flatMap SlotChoice.operands = fs.flatMap fun f => f.main :: f.references := by
  induction ss generalizing fs with
  | nil => cases fs with
    | nil => rfl
    | cons f fs => cases hfill
  | cons s ss ih =>
    cases fs with
    | nil => exact slotChoices_nil_operands _
    | cons f fs =>
      rw [slotChoices, List.flatMap_cons, List.flatMap_cons, ih hfill.2]
      rfl

theorem slotChoices_sizes (ss : List Slot) (fs : List (Filler Nat)) :
    ((ss.zip (slotChoices ss fs)).flatMap fun x => x.2.sizes x.1) = slotSizes ss fs := by
  induction ss generalizing fs with
  | nil => rfl
  | cons s ss ih =>
    cases fs with
    | nil =>
      rw [slotChoices, List.zip_cons_cons, List.flatMap_cons, ih, slotSizes]
      rfl
    | cons f fs =>
      rw [slotChoices, List.zip_cons_cons, List.flatMap_cons, ih, slotSizes]
      rfl

theorem slotChoices_tail {absent : Bool} (ha : absent = true → fs = [])
    (hopt : ∀ s ∈ ss.drop fs.length, s.optional = true) : Kind.TailAbsent absent ss (slotChoices ss fs) := by
  induction ss generalizing fs absent with
  | nil => trivial
  | cons s ss ih =>
    cases fs with
    | nil =>
      have later : ∀ x ∈ ss.drop 0, x.optional = true := fun x hx => hopt x (List.mem_cons_of_mem _ hx)
      exact ⟨fun _ => hopt s List.mem_cons_self, fun _ => rfl, ih (fun _ => rfl) later⟩
    | cons f fs =>
      have : absent = false := by
        cases absent with
        | true => cases ha rfl
        | false => rfl
      subst this
      exact ⟨nofun, nofun, ih nofun hopt⟩

end

/-! ## Kinds -/

theorem Kind.Valid.optional {k : Kind} (h : k.Valid) {n : Nat} (hn : k.leastOperands ≤ n) :
    ∀ s ∈ k.operandSlots.drop n, s.optional = true := by
  have none : misplacedSlot? k.operandSlots = none := by
    unfold Valid fault? at h
    split at h
    · cases h
    split at h
    · cases h
    split at h
    · cases h
    split at h
    · cases h
    · exact Option.map_eq_none_iff.mp h
  unfold leastOperands at hn
  unfold misplacedSlot? at none
  generalize k.operandSlots = ss at hn none
  induction ss generalizing n with
  | nil => intro s hs; simp at hs
  | cons s ss ih =>
    cases ho : s.optional with
    | true =>
      rw [List.dropWhile_cons_of_neg (by simp [ho])] at none
      intro x hx
      have := List.find?_eq_none.mp none x (List.mem_of_mem_drop hx)
      simpa using this
    | false =>
      rw [List.dropWhile_cons_of_pos (by simp [ho])] at none
      rw [List.filter_cons_of_pos (by simp [ho]), List.length_cons] at hn
      cases n with
      | zero => cases hn
      | succ n => exact ih (Nat.le_of_succ_le_succ hn) none

/-! ## Verdicts -/

section
variable {b : Block} {op : Operation} {k : Kind} {c : Content Nat}

theorem generic_legal {a : AngleOf Nat} {fs : List (Filler Nat)} (hk : k.Valid)
    (h : op.Structured k ⟨.generic a, fs⟩) (hindex : (Content.mk (.generic a) fs).Indexed b) :
    ∃ x : Assignment, x.Legal k b op ((genericSizes k a fs).map Int.ofNat) := by
  obtain ⟨hcall, hrot, hfill, hleast⟩ := h.fits
  have tags : ∀ e ∈ slotTags k.operandSlots fs, op.tag? e.1 = some e.2 := fun e he =>
    h.tag?_eq hk (List.mem_append_left _ (List.mem_append_right _ he))
  have legal := slotChoices_legal hfill tags hindex
  have tail : Kind.TailAbsent false k.operandSlots (slotChoices k.operandSlots fs) :=
    slotChoices_tail (by simp) (hk.optional hleast)
  have present := ((Kind.tailAbsent_iff (Kind.length_of_legal legal).1).mp tail).2
  have operands := h.generic_operands
  rw [← slotChoices_operands hfill] at operands
  cases hr : k.rotation with
  | false =>
    obtain rfl := hrot hr
    have slots : k.operandSlots = k.slots := by rw [Kind.operandSlots, hr]; rfl
    refine ⟨.slots (slotChoices k.slots fs), hcall, ?_⟩
    rw [slots] at legal present operands
    refine ⟨legal, ?_, ?_, operands, ?_⟩
    · rw [hr, slots]; exact present
    · rw [hr]; exact fun h => absurd h (by simp)
    · rw [slotChoices_sizes, genericSizes, hr, slots]; rfl
  | true =>
    obtain ⟨s, hs, hplain⟩ := hk.angleSlot hr
    refine ⟨.slots (⟨a.references.head?, .empty, []⟩ :: slotChoices k.operandSlots fs), hcall, ?_⟩
    have one : a.references.head?.toList = a.references := by cases a <;> rfl
    refine ⟨?_, ?_, ?_, ?_, ?_⟩
    · rw [hs]
      exact ⟨⟨fun _ => rfl, fun h => absurd h (by simp [hplain]), rfl, List.forall_mem_nil _, fun _ => rfl⟩, legal⟩
    · rw [hr]; exact present
    · intro _ ht x hx
      cases hx
      rw [h.angleTag_eq hr] at ht
      cases a with
      | reference r => cases ht
      | _ => rfl
    · rw [operands, List.flatMap_cons]
      simp [SlotChoice.operands, one]
    · rw [hs, List.zip_cons_cons, List.flatMap_cons, slotChoices_sizes, genericSizes, hr]
      simp [SlotChoice.sizes, hplain, one]

theorem Kind.verify_of_call {callee : Label} {n : Int} {fs : List (Filler Nat)} (hk : k.Valid)
    (hopcode : op.opcode = .text k.name) (hcall : k.callForm = true) (hlegal : ∀ f ∈ fs, LegalParts f.parts)
    (hsmall : fs.length < segmentLimit ∧ (fs.flatMap Filler.references).length < segmentLimit)
    (hindex : ∀ f ∈ fs, ∀ id ∈ f.references, (b.typeOf id).isIndex = true)
    (hoperands : op.operands = fs.map (·.main) ++ fs.flatMap Filler.references)
    (htags : ∀ e ∈ callTags callee n fs, op.tag? e.1 = some e.2) (hresult : op.results.length = 1) :
    k.verify b op = .ok () := by
  simp only [callTags, List.forall_mem_cons] at htags
  obtain ⟨callee_tag, -, accessors_tag, sizes_tag, -⟩ := htags
  have sizes : op.segmentSizes = .ok ([fs.length, (fs.flatMap Filler.references).length].map Int.ofNat) :=
    segmentSizes_eq sizes_tag (List.forall_mem_cons.mpr ⟨hsmall.1, List.forall_mem_singleton.mpr hsmall.2⟩)
  refine (verify_iff hk hopcode sizes).1.mpr
    ⟨.arguments (fs.map fun f => ⟨f.main, f.accessors, f.references⟩), hcall, ?_, ⟨_, callee_tag⟩, ?_, ?_, ?_, hresult⟩
  · intro x hx
    obtain ⟨f, hf, rfl⟩ := List.mem_map.mp hx
    exact ⟨Filler.length_references (hlegal f hf), hindex f hf⟩
  · rw [accessors_tag, List.map_map]; rfl
  · rw [hoperands, List.map_map, List.flatMap_map]; rfl
  · rw [List.length_map, List.flatMap_map]; rfl

/-- An operation that is the record of content is accepted. -/
theorem Kind.verify_of_structured (hk : k.Valid) (h : op.Structured k c) (hindex : c.Indexed b)
    (hresult : k.callForm = true → op.results.length = 1) : k.verify b op = .ok () := by
  obtain ⟨head, fs⟩ := c
  cases head with
  | generic a => exact (verify_iff hk h.opcode (h.genericSizes_eq hk)).1.mpr (generic_legal hk h hindex)
  | call callee n =>
    obtain ⟨hcall, hlegal, hsmall⟩ := h.fits
    exact verify_of_call hk h.opcode hcall hlegal hsmall hindex h.call_operands
      (fun e he => h.tag?_eq hk (structural_call k callee n fs ▸ he)) (hresult hcall)

end

/-! ## What is read -/

def Block.HoldsTypes (b : Block) : Prop := ∀ e ∈ b.scope, ∃ t : Ty, b.typeOf e.2 = .type t

theorem Block.holdsTypes_empty : Block.empty.HoldsTypes := List.forall_mem_nil _

/-- What stands in the place of the types of the values in scope satisfies `P`. -/
def Block.TypedAs (P : Attr → Prop) (b : Block) : Prop := ∀ e ∈ b.scope, P (b.typeOf e.2)

section
variable {b : Block} {P : Attr → Prop}

theorem Block.TypedAs.lookup (h : b.TypedAs P) {n : String} {id : Nat} (hl : b.lookup n = some id) :
    P (b.typeOf id) := by
  unfold Block.lookup at hl
  split at hl
  · cases hl
  · obtain ⟨e, he, rfl⟩ := Option.map_eq_some_iff.mp hl
    exact h e (List.mem_of_find?_eq_some he)

theorem Block.TypedAs.withInput (h : b.TypedAs P) (hb : b.WellScoped) {n : String} {t : Ty} (ht : P (.type t)) :
    (b.withInput n t).TypedAs P := by
  intro e he
  rcases List.mem_append.mp he with he | he
  · rw [extends_withInput.typeOf e.2 (hb e he).1]
    exact h e he
  · obtain rfl := List.mem_singleton.mp he
    rw [typeOf_withInput]
    exact ht

theorem Block.TypedAs.mentionAll (h : b.TypedAs P) (hb : b.WellScoped) (hP : ∀ t : Ty, P (.type t))
    (uses : List (String × Ty)) : (b.mentionAll uses).TypedAs P :=
  (mentionAll_induction (P := fun c => c.WellScoped ∧ c.TypedAs P) ⟨hb, h⟩
    fun _ hc u _ _ => ⟨wellScoped_withInput hc.1, hc.2.withInput hc.1 (hP u.2)⟩).2

end

theorem Block.HoldsTypes.typedAs {b : Block} (h : b.HoldsTypes) : b.TypedAs fun a => ∃ t : Ty, a = .type t := h

theorem Block.HoldsTypes.mentionAll {b : Block} (h : b.HoldsTypes) (hb : b.WellScoped) (uses : List (String × Ty)) :
    (b.mentionAll uses).HoldsTypes :=
  h.typedAs.mentionAll hb (fun t => ⟨t, rfl⟩) uses

/-- An array without elements, which passes for every type. -/
def Attr.IsBlank (a : Attr) : Prop := ∃ x : NumArray, a = .array x ∧ x.cells = []

theorem Attr.not_isBlank_of_type {a : Attr} (h : ∃ t : Ty, a = .type t) : ¬ a.IsBlank := by
  obtain ⟨t, rfl⟩ := h
  intro ⟨x, hx, _⟩
  cases hx

theorem Attr.type_of_isType {a : Attr} {t : Ty} (h : a.isType t = .ok true) (ha : ¬ a.IsBlank) :
    ∃ u : Ty, a = .type u ∧ u.same t = true := by
  unfold Attr.isType at h
  split at h
  · exact ⟨_, rfl, Except.ok.inj h⟩
  · split at h
    · next none => exact absurd ⟨_, rfl, none⟩ ha
    · cases h
    · cases h
  · cases h

/-- Operands in brackets are used at the type that is fixed for them. -/
theorem forall_pinned {ρ : Type} {P : ρ → Ty → Prop} {flagged : List (ρ × Bool)} {types : List Ty} {i : Ty}
    (hlen : (flagged.filter (!·.2)).length = types.length)
    (h : ∀ x ∈ (flagged.map (·.1)).zip (Parser.operandTypes (flagged.map (·.2)) i types), P x.1 x.2) :
    ∀ x ∈ flagged, x.2 = true → P x.1 i := by
  induction flagged generalizing types with
  | nil => exact List.forall_mem_nil _
  | cons x flagged ih =>
    obtain ⟨r, pinned⟩ := x
    cases pinned with
    | true =>
      simp only [List.map_cons, Parser.operandTypes, List.zip_cons_cons, List.forall_mem_cons] at h
      rw [List.filter_cons_of_neg (by simp)] at hlen
      exact List.forall_mem_cons.mpr ⟨fun _ => h.1, ih hlen h.2⟩
    | false =>
      cases types with
      | nil => simp at hlen
      | cons t types =>
        simp only [List.map_cons, Parser.operandTypes, List.zip_cons_cons, List.forall_mem_cons] at h
        rw [List.filter_cons_of_pos (by simp)] at hlen
        exact List.forall_mem_cons.mpr ⟨by simp, ih (Nat.succ.inj hlen) h.2⟩

theorem Content.mem_flagged {ρ : Type} {c : Content ρ} {f : Filler ρ} {r : ρ} (hf : f ∈ c.operands)
    (hr : r ∈ f.references) : (r, true) ∈ c.flagged := by
  have found : (r, true) ∈ c.operands.flatMap fun f => f.references.map fun r => (r, true) :=
    List.mem_flatMap.mpr ⟨f, hf, List.mem_map_of_mem hr⟩
  unfold flagged
  cases c.head with
  | generic a =>
    obtain ⟨g, hg, hr⟩ := List.mem_flatMap.mp found
    exact List.mem_append_right _ (List.mem_flatMap.mpr ⟨g, hg, List.mem_cons_of_mem _ hr⟩)
  | call callee n =>
    refine List.mem_append_right _ (List.mem_map.mpr ⟨r, List.mem_flatMap.mpr ⟨f, hf, hr⟩, rfl⟩)

theorem Ty.eq_index_of_same {t u : Ty} (h : t.same u = true) (hu : u.same .index = true) : t = .index := by
  rw [Ty.same_iff] at h hu
  have := h.trans hu
  cases t <;> cases this
  rfl

theorem Statement.Lawful.names_uses {m : Statement} {k : Kind} (h : m.Lawful k) (c : TypeContext) :
    (m.uses c).map (·.1) = m.content.physical := by
  have lengths : (Parser.operandTypes (m.content.flagged.map (·.2)) (indexAfter c m.types).1
      (c.keepAll m.types).1).length = m.content.physical.length := by
    rw [Parser.length_operandTypes, List.length_map, Content.physical, List.length_map]
    rw [Parser.length_keepAll, ← h.flags, List.filter_map, List.length_map]
    rfl
  exact List.map_fst_zip (Nat.le_of_eq lengths.symm)

theorem Line.Runs.lookup_valueOf {l : Line} {c : TypeContext} {b b' : Block} (h : l.Runs c b b')
    (hm : l.statement.Lawful l.kind) (hv : ∀ n ∈ l.statement.content.physical, Block.Visible n) (hb : b.WellScoped) :
    ∀ n ∈ l.statement.content.physical, (l.front c b).lookup n = some (l.valueOf c b n) := by
  intro n hn
  rw [← hm.names_uses c] at hn
  obtain ⟨u, hu, rfl⟩ := List.mem_map.mp hn
  obtain ⟨id, hl, -⟩ := h.consistent.found hb (fun u hu => hv _ (List.of_mem_zip hu).1) u hu
  have hl : (l.front c b).lookup u.1 = some id := hl
  rw [Line.valueOf, hl]
  rfl

theorem Line.Runs.indexed {l : Line} {c : TypeContext} {b b' : Block} (h : l.Runs c b b')
    (hm : l.statement.Lawful l.kind) (hv : ∀ n ∈ l.statement.content.physical, Block.Visible n) (hb : b.WellScoped)
    (ht : ∀ n ∈ l.statement.content.physical, ¬ (b'.typeOf (l.valueOf c b n)).IsBlank) :
    (l.statement.content.map (l.valueOf c b)).Indexed b' := by
  obtain ⟨operands, hc⟩ := h.creates
  have used : ∀ u ∈ l.statement.uses c, ∃ id, (l.front c b).lookup u.1 = some id ∧ (l.front c b).HasType id u.2 :=
    h.consistent.found hb fun u hu => hv _ (List.of_mem_zip hu).1
  have pinned := forall_pinned (P := fun n t => ∃ id, (l.front c b).lookup n = some id ∧ (l.front c b).HasType id t)
    (hm.flags.trans (Parser.length_keepAll c _).symm) used
  intro g hg id hid
  obtain ⟨f, hf, rfl⟩ := List.mem_map.mp hg
  rw [Filler.references_map] at hid
  obtain ⟨n, hn, rfl⟩ := List.mem_map.mp hid
  have flagged := Content.mem_flagged hf hn
  obtain ⟨id, hl, hty⟩ := pinned _ flagged rfl
  have value : l.valueOf c b n = id := by rw [Line.valueOf, hl]; rfl
  have inside := Block.lookup_lt (Block.wellScoped_mentionAll hb _) hl
  have sound := ht n (List.mem_map_of_mem flagged)
  rw [value, hc.extends_.typeOf id inside] at sound ⊢
  obtain ⟨t, hte, same⟩ := Attr.type_of_isType hty sound
  rw [hte, Ty.eq_index_of_same same (TypeContext.intern_same _ _)]
  rfl

theorem Line.Runs.typedAs {l : Line} {c : TypeContext} {b b' : Block} {P : Attr → Prop} (h : l.Runs c b b')
    (hm : l.statement.Lawful l.kind) (hv : ∀ n ∈ l.statement.content.physical, Block.Visible n) (hb : b.WellScoped)
    (hP : ∀ t : Ty, P (.type t)) (ht : b.TypedAs P) :
    ∀ n ∈ l.statement.content.physical, P (b'.typeOf (l.valueOf c b n)) := by
  obtain ⟨operands, hc⟩ := h.creates
  intro n hn
  have hl := h.lookup_valueOf hm hv hb n hn
  rw [hc.extends_.typeOf _ (Block.lookup_lt (Block.wellScoped_mentionAll hb _) hl)]
  exact (ht.mentionAll hb hP _).lookup hl

theorem BodySyntax.States.written {env : ParserEnv} {k : Kind} {g : BodySyntax} {m : Statement} {n : String}
    (h : g.States env k m) (hn : n ∈ m.content.physical) : ⟨.valueName, n⟩ ∈ g.words := by
  cases g with
  | generic g =>
    obtain ⟨a, fs, ha, hfs, hc⟩ := h.2.content
    rw [hc] at hn
    rcases Parser.physical_words ha hfs hn with hw | hw
    · exact List.mem_append_left _ hw
    · exact List.mem_append_right _ (List.mem_append_left _ hw)
  | call g =>
    obtain ⟨c, fs, -, hfs, hc⟩ := h.2.content
    rw [hc] at hn
    have hw := Parser.argument_words hfs hn
    unfold words CallSyntax.words CallSyntax.front
    simp [hw]

/-- What the parser appends is accepted. -/
theorem Parser.instruction_creates {env : ParserEnv} {expected : Option Kind} {s t : ParserState} {n : Nat}
    (hk : ∀ x k, KindFor env.registry expected x k → k.Valid) (hb : s.block.WellScoped)
    (ht : s.block.TypedAs fun a => ¬ a.IsBlank)
    (hv : VisibleTokens s.rest) (h : Yields (instruction env expected) s n t) :
    ∃ op x k, t.block.operations = s.block.operations ++ [op] ∧ KindFor env.registry expected x k ∧
      k.verify t.block op = .ok () := by
  obtain ⟨x, l, hs, -, hx, hrun, -, -⟩ := instruction_sound hk hb hv h
  have lawful := hx.body.lawful
  have visible : ∀ n ∈ l.statement.content.physical, Block.Visible n := fun n hn =>
    hv.of_splits hs (List.mem_append_right _ (List.mem_cons_of_mem _ (hx.body.written hn)))
  obtain ⟨op, hops, hrec, hres⟩ := hrun.recorded lawful
  have typed := hrun.typedAs lawful visible hb (fun t => Attr.not_isBlank_of_type ⟨t, rfl⟩) ht
  refine ⟨op, _, _, hops, hx.kind, Kind.verify_of_structured (hk _ _ hx.kind) hrec.toStructured
    (hrun.indexed lawful visible hb typed) fun hcall => ?_⟩
  rw [hres, List.length_range', hx.body.result hcall]

/-! ## What is built -/

namespace Kind

variable {k : Kind} {b b' : Block} {n : Nat}

theorem append_ok {state : Except BuildError OperationState} {names : Option (List (Option Label))}
    (h : append b state names = (.ok n, b')) : ∃ s, state = .ok s ∧ b.createOperation s names = (.ok n, b') := by
  unfold append at h
  cases state with
  | error e => cases h
  | ok s =>
    simp only at h
    split at h
    · cases h
    · next hc => cases h; exact ⟨s, rfl, hc⟩

theorem isIndex_extend {id : Nat} (hb : b.Extends b') (h : (b.typeOf id).isIndex = true) :
    (b'.typeOf id).isIndex = true := by
  rcases Nat.lt_or_ge id b.values.length with hid | hid
  · rw [hb.typeOf id hid]; exact h
  · rw [Block.typeOf, Block.value?, List.getElem?_eq_none hid] at h
    cases h

theorem build_verify {r : BuildRequest} (hk : k.Valid) (h : k.build b r = (.ok n, b')) :
    ∃ op, b'.operations = b.operations ++ [op] ∧ k.verify b' op = .ok () := by
  obtain ⟨s, hs, hc⟩ := append_ok h
  obtain ⟨a, fs, fits, hindex, -, -, -, free, rfl⟩ := buildState_ok hk hs
  obtain ⟨-, operands, hc⟩ := Block.createOperation_ok hc
  obtain ⟨name, hops⟩ := hc.operations
  obtain rfl : operands = (Content.mk (.generic a) fs).physical :=
    ((List.map_inj_right fun _ _ => Option.some.inj).mp hc.present).symm
  refine ⟨_, hops, verify_of_structured hk (.of_built fits free)
    (fun f hf id hid => isIndex_extend hc.extends_ (hindex f hf id hid)) fun hcall => ?_⟩
  exact absurd (fits.1.symm.trans hcall) (by decide)

theorem buildCall_verify {r : CallRequest} (hk : k.Valid) (h : k.buildCall b r = (.ok n, b')) :
    ∃ op, b'.operations = b.operations ++ [op] ∧ k.verify b' op = .ok () := by
  obtain ⟨s, hs, hc⟩ := append_ok h
  obtain ⟨-, operands, hc⟩ := Block.createOperation_ok hc
  obtain ⟨m, fs, hcall, -, -, hlegal, small, small', hindex, free, rfl, rfl⟩ := callState_ok hs hc.present
  obtain ⟨name, hops⟩ := hc.operations
  have fits : (Content.mk (.call "" m) fs).Fits k := ⟨hcall, hlegal, small, small'⟩
  exact ⟨_, hops, verify_of_call hk rfl hcall hlegal ⟨small, small'⟩
    (fun f hf id hid => isIndex_extend hc.extends_ (hindex f hf id hid)) rfl
    (lookup_callTags hk fits free) List.length_range'⟩

end Kind

/-! ## Everything that is created -/

/-- **Every operation that the library appends is accepted.** Reading an instruction, building one in the
generic form and building a call each append an operation that the verifier of its kind accepts. An instruction is
read over a block without blank values, which pass for references of accessors. -/
theorem verify_created :
    (∀ (env : ParserEnv) (expected : Option Kind) (text : String) (tokens : TokenStream) (s t : ParserState) (n : Nat),
      (∀ x k, KindFor env.registry expected x k → k.Valid) → TokenStream.ofText text = .ok tokens →
      s.rest <:+ tokens.tokens → s.block.WellScoped → s.block.TypedAs (fun a => ¬ a.IsBlank) →
      Parser.Yields (Parser.instruction env expected) s n t →
      ∃ op x k, t.block.operations = s.block.operations ++ [op] ∧ KindFor env.registry expected x k ∧
        k.verify t.block op = .ok ()) ∧
    (∀ (k : Kind) (b b' : Block) (r : BuildRequest) (n : Nat), k.Valid → k.build b r = (.ok n, b') →
      ∃ op, b'.operations = b.operations ++ [op] ∧ k.verify b' op = .ok ()) ∧
    (∀ (k : Kind) (b b' : Block) (r : CallRequest) (n : Nat), k.Valid → k.buildCall b r = (.ok n, b') →
      ∃ op, b'.operations = b.operations ++ [op] ∧ k.verify b' op = .ok ()) := by
  refine ⟨?_, fun k b b' r n hk => Kind.build_verify hk, fun k b b' r n hk => Kind.buildCall_verify hk⟩
  intro env expected text tokens s t n hk htokens hrest hb ht h
  have visible := Reading.visible_of_spelled (lexes_of_ofText htokens).2
  exact Parser.instruction_creates hk hb ht (visible.sublist hrest.sublist) h

def invocation : Kind := ⟨"quantum.call", [], false, true, "call a circuit"⟩

theorem exists_answer {ε α β : Type} {x : Except ε α × β} (h : x.1.isOk = true) : ∃ a, x = (.ok a, x.2) := by
  obtain ⟨answer, y⟩ := x
  cases answer with
  | error e => cases h
  | ok a => exact ⟨a, rfl⟩

def prepared : Block := (Block.empty.withInput "%q" (.register none)).withInput "%i" .index

/-- A measurement that is read, one that is built, and a call that is built. -/
theorem verify_created_measured :
    (∃ (t : ParserState) (op : Operation), t.block.operations = [op] ∧ ∃ x k,
      KindFor Registry.standard (some Kind.measurement) x k ∧ k.verify t.block op = .ok ()) ∧
    (∃ (b : Block) (op : Operation), b.operations = [op] ∧ Kind.measurement.verify b op = .ok ()) ∧
    (∃ (b : Block) (op : Operation), b.operations = [op] ∧ invocation.verify b op = .ok ()) := by
  obtain ⟨reads, builds, calls⟩ := verify_created
  refine ⟨?_, ?_, ?_⟩
  · obtain ⟨tokens, htokens⟩ : ∃ tokens, TokenStream.ofText "quantum.measure %q[%i] : register<>" = .ok tokens := by
      have : (TokenStream.ofText "quantum.measure %q[%i] : register<>").isOk = true := by decide +kernel
      cases h : TokenStream.ofText "quantum.measure %q[%i] : register<>" with
      | error stray => rw [h] at this; cases this
      | ok tokens => exact ⟨tokens, rfl⟩
    have valid : ∀ x k, KindFor Registry.standard (some Kind.measurement) x k → k.Valid := by
      rintro x k ⟨-, rfl⟩
      decide
    have answered : ((TokenStream.ofText "quantum.measure %q[%i] : register<>").toOption.map fun tokens =>
        (Parser.instruction ⟨.standard, false⟩ (some Kind.measurement) (.start tokens .default .empty)).1.isOk) =
          some true := by decide +kernel
    rw [htokens] at answered
    obtain ⟨n, h⟩ := exists_answer (Option.some.inj answered)
    obtain ⟨op, x, k, hops, hk, hv⟩ := reads ⟨.standard, false⟩ (some Kind.measurement) _ tokens
      (.start tokens .default .empty) _ n valid htokens (List.suffix_refl _) Block.wellScoped_empty
      (List.forall_mem_nil _) h
    exact ⟨_, op, hops, x, k, hk, hv⟩
  · obtain ⟨n, h⟩ := exists_answer (x := Kind.measurement.build prepared
      ⟨[some 0], [("trgt", [.value 1])], .attr .none, [], [], none⟩) (by decide +kernel)
    obtain ⟨op, hops, hv⟩ := builds _ _ _ _ n (by decide) h
    exact ⟨_, op, hops, hv⟩
  · obtain ⟨n, h⟩ := exists_answer (x := invocation.buildCall prepared
      ⟨.text "sub", .int 1, [some 0], some [[.value 1]], [], .type .circuit, none⟩) (by decide +kernel)
    obtain ⟨op, hops, hv⟩ := calls _ _ _ _ n (by decide) h
    exact ⟨_, op, hops, hv⟩

/-- A register, and a name that stands for a value with an empty array in the place of its type. -/
def arrayTyped : Block :=
  ⟨[⟨"%q", .type (.register none), none, []⟩, ⟨"%i", .array (.ofInts (.signed 4) []), none, []⟩],
    [("%q", 0), ("%i", 1)], [0, 1], [], 0, 0⟩

def arrayIndexed : Reading Nat :=
  .instruction ⟨.standard, false⟩ none "quantum.measure %q[%i] : register<>" .default arrayTyped

/-- An array without elements passes for every type, so that the measurement is appended, and is not accepted. -/
theorem not_verify_created_arrayTyped :
    arrayTyped.WellScoped ∧ Registry.standard.kind? "quantum.measure" = some Kind.measurement ∧
    arrayIndexed.answer.isOk = true ∧
    ∃ op, arrayIndexed.block.operations = arrayTyped.operations ++ [op] ∧
      Kind.measurement.verify arrayIndexed.block op ≠ .ok () := by
  have appended : arrayIndexed.block.operations.length = 1 := by decide +kernel
  have refused : ∀ op ∈ arrayIndexed.block.operations,
      (Kind.measurement.verify arrayIndexed.block op).isOk = false := by
    decide +kernel
  obtain ⟨op, hop⟩ := List.length_eq_one_iff.mp appended
  refine ⟨fun e he => ?_, by decide +kernel, by decide +kernel, op, hop, fun h => ?_⟩
  · rcases List.mem_pair.mp he with rfl | rfl
    · exact ⟨by decide, rfl⟩
    · exact ⟨by decide, rfl⟩
  · have := refused op (hop ▸ List.mem_singleton_self op)
    rw [h] at this
    cases this

end GateAsm
