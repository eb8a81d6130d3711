import GateAsm.Proofs.Mirrored
import Mathlib.Data.Set.Function

/-!
# The text of blocks that are built

The printer shows each operation of an orderly block as a line, and the lines run in the empty block one after the
other. What they leave is the block up to a renaming of its values, without the inputs that nothing uses.
-/

namespace GateAsm

namespace Block

variable {r : Registry} {b d d' : Block} {ops : List Operation} {ids : List Nat} {op : Operation} {l : Line}

/-! ## Lines -/

/-- The operation is printed as the line: it says the statement, and either all its results are named or none. -/
structure Prints (r : Registry) (b : Block) (op : Operation) (l : Line) : Prop where
  said : ∃ c, b.Says b.displayNames op l.kind c l.statement
  writable : l.Writable r
  names : (∀ id ∈ op.results, Visible (b.displayText id)) ∧ l.names = op.results.map b.displayText ∨
    (∀ id ∈ op.results, ¬ Visible (b.displayText id)) ∧ l.names = []

theorem Orderly.prints (ho : b.Orderly r) (hop : op ∈ b.operations) : ∃ l, b.Prints r op l := by
  obtain ⟨k, c, user, hrec⟩ := ho.made op hop
  have displays := ho.displays
  have shown : ∀ id < b.values.length, b.shownName b.displayNames id = .text (b.displayText id) := displays.text
  have operands : ∀ id ∈ op.operands, IsValueName (b.displayText id) := fun id hid =>
    (displays.named id (ho.operand_lt hop hid)).resolve_right (not_not.mpr (displays.operand op hop id hid))
  obtain ⟨m, said, writable, rfl⟩ : ∃ m, b.Says b.displayNames op k c m ∧ m.Writable k ∧ m.tags = user := by
    refine hrec.toHolds.says hrec.mnemonic (fun id hid => ⟨operands id hid, shown id (ho.operand_lt hop hid)⟩)
      (fun id hid => ?_) (hrec.head _ fun id hid => operands id (hrec.operands ▸ hid)) hrec.tags
    exact ho.typed id ((List.mem_append.mp hid).elim (ho.operand_lt hop) (ho.result_lt hop))
  rcases displays.uniform op hop with visible | hidden
  · refine ⟨⟨op.results.map b.displayText, k, m⟩, ⟨c, said⟩, ⟨writable, fun n hn => ?_, hrec.registered⟩,
      .inl ⟨visible, rfl⟩⟩
    obtain ⟨id, hid, rfl⟩ := List.mem_map.mp hn
    exact (displays.named id (ho.result_lt hop hid)).resolve_right (not_not.mpr (visible id hid))
  · exact ⟨⟨[], k, m⟩, ⟨c, said⟩, ⟨writable, nofun, hrec.registered⟩, .inr ⟨hidden, rfl⟩⟩

theorem Prints.shows (h : b.Prints r op l) (ho : b.Orderly r) (hop : op ∈ b.operations) :
    b.Shows b.displayNames op l := by
  refine ⟨h.said, op.results.map b.displayText, ?_, ?_⟩
  · rw [List.map_map]
    exact List.map_congr_left fun id hid => ho.displays.text id (ho.result_lt hop hid)
  · rcases h.names with ⟨visible, names⟩ | ⟨hidden, names⟩
    · rw [names, if_neg]
      rw [List.any_map, Bool.not_eq_true, List.any_eq_false]
      exact fun id hid => by simpa [Visible] using visible id hid
    · rw [names]
      cases hres : op.results with
      | nil => rfl
      | cons id rest =>
        have marked := Bool.eq_true_of_not_eq_false (hidden id (hres ▸ List.mem_cons_self))
        rw [if_pos]
        rw [List.map_cons, List.any_cons, marked]
        rfl

theorem exists_paired {α β : Type} {R : α → β → Prop} {xs : List α} (h : ∀ x ∈ xs, ∃ y, R x y) :
    ∃ ys, Paired R xs ys := by
  induction xs with
  | nil => exact ⟨[], trivial⟩
  | cons x xs ih =>
    obtain ⟨y, hy⟩ := h x List.mem_cons_self
    obtain ⟨ys, hys⟩ := ih fun z hz => h z (List.mem_cons_of_mem _ hz)
    exact ⟨y :: ys, hy, hys⟩

/-! ## Labels -/

def displayLabel (b : Block) (id : Nat) : Option Label :=
  if (b.displayText id).startsWith anonymousMark then none else some (.text (b.displayText id))

theorem displayLabel_eq_some {id : Nat} {x : Label} :
    b.displayLabel id = some x ↔ Visible (b.displayText id) ∧ x = .text (b.displayText id) := by
  unfold displayLabel Visible
  split
  · next h => simp [h]
  · next h => simp [h, eq_comm]

theorem Prints.labels_eq (h : b.Prints r op l) {types : List Attr} (hlen : types.length = op.results.length) :
    l.labels.getD (types.map fun _ => none) = op.results.map b.displayLabel := by
  rcases h.names with ⟨visible, names⟩ | ⟨hidden, names⟩
  · have labels : op.results.map b.displayLabel = op.results.map fun id => some (.text (b.displayText id)) :=
      List.map_congr_left fun id hid => displayLabel_eq_some.mpr ⟨visible id hid, rfl⟩
    rw [Line.labels, names, labels]
    cases hres : op.results with
    | nil =>
      rw [hres] at hlen
      simp [List.length_eq_zero_iff.mp hlen]
    | cons id rest => simp
  · have labels : op.results.map b.displayLabel = op.results.map fun _ => none :=
      List.map_congr_left fun id hid => Option.eq_none_iff_forall_ne_some.mpr fun x hx =>
        hidden id hid (displayLabel_eq_some.mp hx).1
    rw [Line.labels, names, labels]
    simp [List.map_const', hlen]

/-! ## Running a line -/

theorem Orderly.displayText_inj (ho : b.Orderly r) {xs : List Nat} (hxs : ∀ id ∈ xs, id < b.values.length)
    (hv : ∀ id ∈ xs, Visible (b.displayText id)) (hd : xs.Nodup) : (xs.map b.displayText).Nodup :=
  List.Nodup.map_on (fun id hid id' hid' he => ho.displays.distinct id (hxs id hid) id' (hxs id' hid')
    (hv id hid) he) hd

theorem Prints.names_nodup (h : b.Prints r op l) (ho : b.Orderly r) (hop : op ∈ b.operations) (hd : op.results.Nodup) :
    l.names.Nodup := by
  rcases h.names with ⟨visible, names⟩ | ⟨-, names⟩
  · rw [names]
    exact ho.displayText_inj (fun id hid => ho.result_lt hop hid) visible hd
  · rw [names]
    exact List.nodup_nil

theorem Orderly.labels_nodup (ho : b.Orderly r) (hop : op ∈ b.operations) (hd : op.results.Nodup) :
    ((op.results.map b.displayLabel).filterMap id).Nodup := by
  rw [List.filterMap_map, List.Nodup, List.pairwise_filterMap]
  refine hd.imp_of_mem fun hid hid' hne x hx y hy he => hne ?_
  obtain ⟨hv, rfl⟩ := displayLabel_eq_some.mp hx
  obtain ⟨-, rfl⟩ := displayLabel_eq_some.mp hy
  exact ho.displays.distinct _ (ho.result_lt hop hid) _ (ho.result_lt hop hid') hv (Label.text.inj he)

theorem Prints.count (h : b.Prints r op l) : l.statement.results.length = op.results.length := by
  obtain ⟨content, said⟩ := h.said
  have := congrArg List.length said.results
  rw [typesOf, List.length_map, List.length_map] at this
  exact this.symm

/-- The results of an operation are named by texts that are not in scope in front of it. -/
theorem Prints.fresh (h : b.Mirrors r ops ids d) (ho : b.Orderly r) (hops : ops ++ [op] <+: b.operations) {id : Nat}
    (hid : id ∈ op.results) (hv : Visible (b.displayText id)) : d.lookup (b.displayText id) = none := by
  have hop : op ∈ b.operations := hops.subset (List.mem_append_right _ List.mem_cons_self)
  refine (h.lookup_eq_none ho ((List.prefix_append _ _).trans hops) (ho.result_lt hop hid) hv).mpr fun hmem => ?_
  exact (ho.results_fresh hops).2 id hid (h.known id hmem)

theorem Prints.created (h : b.Prints r op l) (ho : b.Orderly r) (hops : ops ++ [op] <+: b.operations)
    (hm : b.Mirrors r ops ids d) (c : TypeContext) :
    ∃ n d', d.createOperation (l.tupled.statement.state c l.kind d) l.labels = (.ok n, d') := by
  have hop : op ∈ b.operations := hops.subset (List.mem_append_right _ List.mem_cons_self)
  have count : (l.tupled.statement.state c l.kind d).resultTypes.length = op.results.length :=
    (Parser.length_resultTypes _ _ _ _).trans h.count
  have given : ∀ names : Option (List (Option Label)), d.createOperation (l.tupled.statement.state c l.kind d) names =
      d.createOperation (l.tupled.statement.state c l.kind d)
        (some (names.getD ((l.tupled.statement.state c l.kind d).resultTypes.map fun _ => none))) := by
    intro names
    cases names <;> rfl
  rw [given, h.labels_eq count]
  have present : (l.tupled.statement.state c l.kind d).operands =
      (l.statement.content.physical.map fun n => (d.lookup n).getD 0).map some := rfl
  refine ⟨_, createOperation_texts present ?_ (fun x hx => ?_) (ho.labels_nodup hop (ho.results_fresh hops).1)⟩
  · rw [List.length_map, count]
  · obtain ⟨id, hid, hx⟩ := List.mem_map.mp hx
    obtain ⟨hv, rfl⟩ := displayLabel_eq_some.mp hx
    exact ⟨_, rfl, hv, Prints.fresh hm ho hops hid hv⟩

theorem Prints.valueOf {c : TypeContext} (hm : b.Mirrors r ops ids (l.tupled.front c d)) (ho : b.Orderly r)
    (hops : ops ++ [op] <+: b.operations) (hthere : ∀ id ∈ op.operands, id ∈ ids) :
    ∀ id ∈ op.operands, ids[l.tupled.valueOf c d (b.displayText id)]? = some id := by
  intro id hid
  have hop : op ∈ b.operations := hops.subset (List.mem_append_right _ List.mem_cons_self)
  obtain ⟨v, hv⟩ := List.mem_iff_getElem?.mp (hthere id hid)
  have found := (hm.lookup_eq_some ho ((List.prefix_append _ _).trans hops) (ho.operand_lt hop hid)
    (ho.displays.operand op hop id hid)).mpr hv
  rw [Line.valueOf, found]
  exact hv

/-- The operation that is recorded for a line mirrors the one that the line was printed for. -/
theorem Prints.mirrored {c : TypeContext} {op' : Operation} {content : Content Nat}
    (said : b.Says b.displayNames op l.kind content l.statement) (hw : l.Writable r)
    (hvalues : ∀ id ∈ op.operands, ids[l.tupled.valueOf c d (b.displayText id)]? = some id)
    (hrec : op'.Records l.kind (l.statement.content.map (l.tupled.valueOf c d)) (tupledTags l.statement.tags))
    (hres : op'.results = List.range' ids.length op.results.length) : op.Mirrored r (ids ++ op.results) op' := by
  have same : op'.opcode = op.opcode := hrec.opcode.trans said.records.opcode.symm
  have reserved : ∀ key ∈ l.kind.structuralTags, op'.tag? key = op.tag? key := fun key hkey => by
    rw [hrec.structural key hkey, said.records.structural key hkey, said.content, Content.structural_map,
      Content.structural_map]
  refine ⟨same, ?_, ?_, Operation.segmentSizes_congr same (reserved _ l.kind.sizesTag_structural), ?_, ?_⟩
  · refine map_getElem?_append op.results ?_
    rw [hrec.operands, said.content, Content.physical_map, Content.physical_map, ← said.records.operands, List.map_map,
      List.map_map]
    exact List.map_congr_left hvalues
  · rw [hres]
    refine List.ext_getElem (by simp) fun i hi hi' => ?_
    have hlt : i < op.results.length := by simpa using hi
    simp [hlt]
  · rw [said.records.opcode, Registry.reservedTags, hw.registered]
    exact reserved
  · rw [hrec.userTags_eq hw.registered, said.records.userTags_eq hw.registered]

theorem Prints.runs (h : b.Prints r op l) (ho : b.Orderly r) (hops : ops ++ [op] <+: b.operations)
    (hm : b.Mirrors r ops ids d)
    (c : TypeContext) : ∃ d' more, l.tupled.Runs c d d' ∧ b.Mirrors r (ops ++ [op]) (ids ++ more) d' ∧
      ∀ id ∈ more, id ∈ op.operands ++ op.results := by
  obtain ⟨content, said⟩ := h.said
  have hop : op ∈ b.operations := hops.subset (List.mem_append_right _ List.mem_cons_self)
  have before : ops <+: b.operations := (List.prefix_append _ _).trans hops
  have lawful := h.writable.statement.toLawful
  obtain ⟨types, hlen, uses, typed⟩ := said.uses_eq lawful c
  have used : ∀ x ∈ op.operands.zip types, x.1 ∈ b.inputs ++ ops.flatMap (·.results) ∧ x.1 < b.values.length ∧
      Visible (b.displayText x.1) ∧ b.HasType x.1 x.2 := fun x hx => by
    have hid := (List.of_mem_zip hx).1
    exact ⟨ho.ordered ops op hops x.1 hid, ho.operand_lt hop hid, ho.displays.operand op hop x.1 hid, typed x hx⟩
  -- first the operands come into scope, then the operation is created
  obtain ⟨consistent, more, hfront, there, only⟩ := hm.mentionAll ho before used
  have uses : l.tupled.statement.uses c = (op.operands.zip types).map fun x => (b.displayText x.1, x.2) := uses
  rw [← uses] at consistent hfront
  have hfront : b.Mirrors r ops (ids ++ more) (l.tupled.front c d) := hfront
  obtain ⟨n, d', created⟩ := h.created ho hops hfront c
  have hrun : l.tupled.Runs c d d' := by
    refine ⟨consistent, ?_, h.names_nodup ho hop (ho.results_fresh hops).1, fun n hn => ?_, n, created⟩
    · rcases h.names with ⟨-, names⟩ | ⟨-, names⟩
      · refine .inr ?_
        show l.names.length = l.statement.results.length
        rw [names, List.length_map, h.count]
      · exact .inl names
    · rcases h.names with ⟨visible, names⟩ | ⟨-, names⟩
      · obtain ⟨id, hid, rfl⟩ := List.mem_map.mp (names ▸ (show n ∈ l.names from hn))
        exact Prints.fresh hfront ho hops hid (visible id hid)
      · rw [show l.tupled.names = [] from names] at hn
        cases hn
  have there : ∀ id ∈ op.operands, id ∈ ids ++ more := fun id hid => by
    obtain ⟨x, hx, rfl⟩ := List.mem_map.mp (List.map_fst_zip (Nat.le_of_eq hlen.symm) ▸ hid)
    exact there x hx
  obtain ⟨op', hnew, hrec, hres⟩ := hrun.recorded ⟨lawful.fits, addable_tupledTags lawful.tags, lawful.types⟩
  obtain ⟨operands, hc⟩ := hrun.creates
  have hcount := (Parser.length_resultTypes l.tupled.statement c l.kind (l.tupled.front c d)).trans h.count
  rw [show l.tupled.labels = l.labels from rfl, show l.tupled.kind = l.kind from rfl, h.labels_eq hcount] at hc
  refine ⟨d', more ++ op.results, hrun, ?_, fun id hid => ?_⟩
  · rw [← List.append_assoc]
    refine hfront.creates ho hops hc there hcount rfl (typesOf_zip said.results (TypeContext.plain_keepAll _ _))
      (fun n hn i => ?_) fun o ho' => ?_
    · rw [List.getElem?_map, Option.map_eq_some_iff]
      refine exists_congr fun id => and_congr_right fun _ => ?_
      rw [displayLabel_eq_some, Label.text.injEq]
      exact ⟨fun he => he.2.symm, fun he => ⟨he ▸ hn, he.symm⟩⟩
    · have front : (l.tupled.front c d).operations = d.operations := operations_mentionAll _
      obtain rfl := last_eq (front ▸ ho') hnew
      rw [hfront.length, show l.tupled.statement.results.length = _ from h.count] at hres
      exact Prints.mirrored said h.writable (Prints.valueOf hfront ho hops there) hrec hres
  · rcases List.mem_append.mp hid with hid | hid
    · obtain ⟨x, hx, rfl⟩ := only id hid
      exact List.mem_append_left _ (List.of_mem_zip hx).1
    · exact List.mem_append_right _ hid

/-- The lines that operations are printed as run one after the other, and leave a block that mirrors the whole. -/
theorem Mirrors.runAll {rest : List Operation} {ls : List Line} (hp : Paired (b.Prints r) rest ls) (ho : b.Orderly r)
    (hops : ops ++ rest = b.operations) (hm : b.Mirrors r ops ids d) (c : TypeContext) :
    ∃ d' more, Line.RunAll (ls.map Line.tupled) c d d' ∧ b.Mirrors r b.operations (ids ++ more) d' ∧
      ∀ id ∈ more, ∃ op ∈ rest, id ∈ op.operands ++ op.results := by
  induction rest generalizing ls ops ids d c with
  | nil =>
    cases ls with
    | cons l ls => cases hp
    | nil =>
      rw [List.append_nil] at hops
      exact ⟨d, [], rfl, by rwa [List.append_nil, ← hops], nofun⟩
  | cons op rest ih =>
    cases ls with
    | nil => cases hp
    | cons l ls =>
      rw [List.append_cons] at hops
      obtain ⟨d₁, first, hrun, hone, used⟩ := hp.1.runs ho ⟨rest, hops⟩ hm c
      obtain ⟨d', others, hruns, hall, used'⟩ := ih hp.2 hops hone (l.tupled.statement.context c)
      refine ⟨d', first ++ others, ⟨d₁, hrun, hruns⟩, by rw [← List.append_assoc]; exact hall, fun id hid => ?_⟩
      rcases List.mem_append.mp hid with hid | hid
      · exact ⟨op, List.mem_cons_self, used id hid⟩
      · obtain ⟨o, hmem, hid⟩ := used' id hid
        exact ⟨o, List.mem_cons_of_mem _ hmem, hid⟩

end Block

/-! ## Renaming -/

/-- The operation is the other one over renamed values, with tuples for lists in the user's tags. -/
structure Operation.Renamed (r : Registry) (f : Nat → Nat) (op op' : Operation) : Prop where
  opcode : op'.opcode = op.opcode
  operands : op'.operands = op.operands.map f
  results : op'.results = op.results.map f
  sizes : op'.segmentSizes = op.segmentSizes
  structural : ∀ key ∈ r.reservedTags op.opcode, op'.tag? key = op.tag? key
  user : op'.userTags r = tupledTags (op.userTags r)

namespace Block

def Kept (b : Block) (id : Nat) : Prop := id < b.values.length ∧ (id ∈ b.inputs → b.isUnused id = false)

/-- The block `d` is `b` up to a renaming of its values, without the inputs that nothing uses. Values keep their
names, and anonymous ones that are used have new ones. -/
structure Renamed (r : Registry) (b : Block) (f : Nat → Nat) (d : Block) : Prop where
  bijective : Set.BijOn f {id | b.Kept id} {v | v < d.values.length}
  typed : ∀ id, b.Kept id → ∃ t u : Ty, b.typeOf id = .type t ∧ d.typeOf (f id) = .type u ∧ t.same u = true
  named : ∀ id, b.Kept id → b.isAnonymous id = false → d.nameOf (f id) = b.nameOf id
  numbered : ∀ id, b.Kept id → b.isAnonymous id = true → b.isUnused id = false →
    ∃ n, IsValueName n ∧ b.lookup n = none ∧ d.nameOf (f id) = .text n
  inputs : ∀ id, b.Kept id → (f id ∈ d.inputs ↔ id ∈ b.inputs)
  operations : Paired (Operation.Renamed r f) b.operations d.operations

theorem eq_map_idxOf {xs places found : List Nat} (hxs : xs.Nodup) (h : places.map (xs[·]?) = found.map some) :
    places = found.map xs.idxOf := by
  induction places generalizing found with
  | nil => cases found with
    | nil => rfl
    | cons => cases h
  | cons i places ih =>
    cases found with
    | nil => cases h
    | cons x found =>
      obtain ⟨hx, rest⟩ := List.cons.inj h
      obtain ⟨hi, rfl⟩ := List.getElem?_eq_some_iff.mp hx
      rw [List.map_cons, hxs.idxOf_getElem, ih rest]

section
variable {r : Registry} {b d : Block} {ids : List Nat} {id : Nat}

theorem Orderly.isUnused_eq_false (ho : b.Orderly r) (hid : id < b.values.length) :
    b.isUnused id = false ↔ ∃ op ∈ b.operations, id ∈ op.operands := by
  rw [← Bool.not_eq_true, ho.unused id hid]
  simp

theorem Mirrors.renamed (hm : b.Mirrors r b.operations ids d) (ho : b.Orderly r)
    (hused : ∀ id ∈ ids, ∃ op ∈ b.operations, id ∈ op.operands ++ op.results) : b.Renamed r ids.idxOf d := by
  -- the values that are kept are those that came up while the lines ran
  have kept : ∀ id, b.Kept id ↔ id ∈ ids := by
    intro id
    constructor
    · rintro ⟨hlt, hkept⟩
      rcases List.mem_append.mp (ho.parts.mem_iff.mpr (List.mem_range.mpr hlt)) with hin | hres
      · obtain ⟨op, hop, hid⟩ := (ho.isUnused_eq_false hlt).mp (hkept hin)
        exact hm.operands op hop id hid
      · obtain ⟨op, hop, hid⟩ := List.mem_flatMap.mp hres
        exact hm.results op hop id hid
    · intro hid
      have hlt := hm.lt ho (List.prefix_refl _) hid
      refine ⟨hlt, fun hin => ?_⟩
      obtain ⟨op, hop, hid⟩ := hused id hid
      rcases List.mem_append.mp hid with hid | hid
      · exact (ho.isUnused_eq_false hlt).mpr ⟨op, hop, hid⟩
      · have apart := (List.nodup_append.mp (ho.parts.nodup_iff.mpr List.nodup_range)).2.2
        exact absurd rfl (apart id hin id (List.mem_flatMap.mpr ⟨op, hop, hid⟩))
  have place : ∀ id, b.Kept id → ids[ids.idxOf id]? = some id := fun id hid => List.getElem?_idxOf ((kept id).mp hid)
  have lookup : ∀ id, b.Kept id → Visible (b.displayText id) → d.lookup (b.displayText id) = some (ids.idxOf id) :=
    fun id hid hv => (hm.lookup_eq_some ho (List.prefix_refl _) hid.1 hv).mpr (place id hid)
  refine ⟨⟨fun id hid => ?_, fun id hid id' hid' he => ?_, fun v hv => ?_⟩, fun id hid => ?_, fun id hid ha => ?_,
    fun id hid ha hu => ?_, fun id hid => ?_, hm.operations.imp fun op op' hop => ?_⟩
  · show ids.idxOf id < d.values.length
    rw [hm.length]
    exact List.idxOf_lt_length_of_mem ((kept id).mp hid)
  · have he : ids.idxOf id = ids.idxOf id' := he
    exact Option.some.inj ((place id hid).symm.trans (he ▸ place id' hid'))
  · have hv : v < ids.length := hm.length ▸ hv
    exact ⟨ids[v], (kept _).mpr (List.getElem_mem hv), hm.distinct.idxOf_getElem v hv⟩
  · obtain ⟨u, hu, given⟩ := hm.typed _ id (place id hid)
    obtain ⟨t, ht, -⟩ := ho.typed id hid.1
    exact ⟨t, u, ht, hu, (hasType_type ht).mp given⟩
  · rcases ho.named id hid.1 with ⟨n, hn, hl⟩ | ⟨-, s, hs⟩
    · have text := ho.displays.own id n hl
      rw [nameOf_of_lookup ho.wellScoped hl]
      exact nameOf_of_lookup hm.wellScoped (text ▸ lookup id hid (text ▸ hn.visible))
    · rw [isAnonymous_of_name hid.1 hs, startsWith_anonymous] at ha
      cases ha
  · obtain ⟨op, hop, hused⟩ := (ho.isUnused_eq_false hid.1).mp hu
    have hv := ho.displays.operand op hop id hused
    refine ⟨b.displayText id, (ho.displays.named id hid.1).resolve_right (not_not.mpr hv), ho.displays.free id hid.1 ?_,
      nameOf_of_lookup hm.wellScoped (lookup id hid hv)⟩
    intro n hl
    rw [isAnonymous_of_name hid.1 (nameOf_of_lookup ho.wellScoped hl), visible_of_lookup hl] at ha
    cases ha
  · rw [hm.inputs, place id hid]
    simp
  · exact ⟨hop.opcode, eq_map_idxOf hm.distinct hop.operands, eq_map_idxOf hm.distinct hop.results, hop.sizes,
      hop.structural, hop.user⟩

end

end Block

theorem Line.separated_of_forall {ls : List Line} (h : ∀ l ∈ ls, ¬ l.statement.Bare) : Line.Separated ls := by
  induction ls with
  | nil => trivial
  | cons l ls ih =>
    cases ls with
    | nil => trivial
    | cons l' ls =>
      exact ⟨fun hb => absurd hb (h l List.mem_cons_self), ih fun x hx => h x (List.mem_cons_of_mem _ hx)⟩

/-- **The text of a block that is built denotes the block.** A block of instructions none of which is bare can be
printed, and its text is read into the same block up to a renaming of values: inputs that nothing uses are gone,
values keep their names, and anonymous ones that are used have names that are new. -/
theorem Reading.module_assembled {env : ParserEnv} {b : Block} (hr : env.registry.Sound) (hb : b.Assembled env.registry)
    (hbare : ∀ op ∈ b.operations, ¬ op.Bare env.registry) (indent : Nat) (c : TypeContext) :
    ∃ text, b.format env.registry indent = .ok text ∧ (Reading.module env text c .empty).answer = .ok () ∧
      ∃ f, b.Renamed env.registry f (Reading.module env text c .empty).block := by
  have ho := hb.orderly hr
  obtain ⟨ls, hls⟩ := Block.exists_paired fun op hop => (ho.prints hop).imp fun l hl => And.intro hop hl
  have lines : ∀ l ∈ ls, l.Writable env.registry ∧ ¬ l.statement.Bare := hls.forall_right fun op hop l hl => by
    obtain ⟨content, said⟩ := hl.2.said
    exact ⟨hl.2.writable, fun hl' => hbare op hop ((said.bare_iff hl.2.writable.registered).mpr hl')⟩
  have writable : ∀ l ∈ ls, l.Writable env.registry := fun l hl => (lines l hl).1
  have separated : Line.Separated ls := Line.separated_of_forall fun l hl => (lines l hl).2
  obtain ⟨d, ids, hruns, hm, hused⟩ := (Block.Mirrors.empty env.registry b).runAll (hls.imp fun _ _ hl => hl.2) ho rfl c
  have printed : b.format env.registry indent = .ok (moduleText indent ls) := by
    show b.formatWith env.registry.printEnv indent = _
    refine Block.formatWith_eq hr writable (fun op hop id hid => ?_) (hls.imp fun _ _ hl => hl.2.shows ho hl.1) indent
    rcases ho.named id (ho.result_lt hop hid) with ⟨n, -, hl⟩ | ⟨-, s, hs⟩
    · rw [Block.nameOf_of_lookup ho.wellScoped hl]; rfl
    · rw [hs]; rfl
  obtain ⟨reads, block⟩ := module_moduleText hr writable indent Block.wellScoped_empty hruns
  exact ⟨_, printed, reads.mpr separated, _, block separated ▸ hm.renamed ho hused⟩

def allocation : Kind := ⟨"quantum.alloc", [], false, false, "allocate a qubit or a register"⟩

def qubitRequest : BuildRequest := ⟨[], [], .attr .none, [], [.type .qubit], none⟩

def allocated : Block := (allocation.build .empty qubitRequest).2

def measureRequest : BuildRequest := ⟨[some 0], [], .attr .none, [], [], none⟩

/-- A qubit that has no name is allocated and measured; reading the text finds it under a new name. -/
theorem Reading.module_assembled_measured : ∃ b : Block, b.Assembled .standard ∧ b.operations.length = 2 ∧
    ∃ text, b.format .standard 0 = .ok text ∧ (Reading.module ⟨.standard, false⟩ text .default .empty).answer = .ok () ∧
      ∃ f, b.Renamed .standard f (Reading.module ⟨.standard, false⟩ text .default .empty).block := by
  obtain ⟨m, first⟩ := exists_answer (x := allocation.build .empty qubitRequest) (by decide +kernel)
  obtain ⟨n, second⟩ := exists_answer (x := Kind.measurement.build allocated measureRequest) (by decide +kernel)
  have qubit : Ty.qubit.Readable := ⟨rfl, trivial, nofun, nofun⟩
  have absent : ∀ a : Attr, a = .none → ∀ x, a.toReal ≠ .ok x := by
    rintro a rfl x hx
    cases hx
  have asked : qubitRequest.Writable .empty :=
    ⟨nofun, nofun, fun v x hv hx => absurd hx (absent v (Supplied.attr.inj hv).symm x), nofun, List.nodup_nil,
      List.forall_mem_singleton.mpr ⟨_, rfl, qubit⟩, nofun⟩
  have present : 0 < allocated.values.length := by decide +kernel
  have measured : measureRequest.Writable allocated :=
    ⟨fun id hid => Option.some.inj (List.mem_singleton.mp hid) ▸ present, nofun,
      fun v x hv hx => absurd hx (absent v (Supplied.attr.inj hv).symm x), nofun, List.nodup_nil, nofun, nofun⟩
  have hb : (Kind.measurement.build allocated measureRequest).2.Assembled .standard :=
    .built (.built .empty (by decide) (by decide) asked first) (by decide) (by decide) measured second
  have bare : ∀ op ∈ (Kind.measurement.build allocated measureRequest).2.operations, ¬ op.Bare .standard := by
    decide +kernel
  exact ⟨_, hb, by decide +kernel,
    @Reading.module_assembled ⟨.standard, false⟩ _ Registry.sound_standard hb bare 0 .default⟩

end GateAsm
