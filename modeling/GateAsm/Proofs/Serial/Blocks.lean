import GateAsm.Proofs.Built
import GateAsm.Proofs.Serial.Alike
import GateAsm.Proofs.Serial.Attributes
import GateAsm.Proofs.Serial.Copies

/-!
# Blocks in serialized form

The serialized form of a block holds its inputs and operations, values by their names. Reading it makes the block
again, so that nothing is lost but the numbers of values (`Block.Restored`).
-/

namespace GateAsm

namespace Block

/-! ## What is kept -/

def labelled (b : Block) (id : Nat) : Label × Attr := (b.nameOf id, b.typeOf id)

def spelled (b : Block) (op : Operation) : Label × String × List Label × List (Label × Attr) × List (String × Attr) :=
  (op.opcode, op.name, op.operands.map b.nameOf, op.results.map b.labelled, op.attrs)

/-- The block `d` is `b` again, up to the numbers of values. -/
structure Restored (b d : Block) : Prop where
  inputs : d.inputs.map d.labelled = b.inputs.map b.labelled
  operations : d.operations.map d.spelled = b.operations.map b.spelled
  values : ∀ l, (d.inScope? l).bind d.value? = (b.inScope? l).bind b.value?
  format : ∀ registry indent, d.format registry indent = b.format registry indent

/-- All values are inputs or results. -/
def Whole (b : Block) : Prop := b.values.length = b.order.length

section
variable {b d : Block} {id : Nat}

theorem Named.value?_eq (h : b.Named) (hid : id ∈ b.order) : b.value? id = some (b.recorded b.operations id) := by
  have scope := h.inScope hid
  have hlt := h.useDef.wellScoped.lt scope
  have hv := Block.value?_of_lt hlt
  have uses := h.useDef.uses id scope
  simp only [usesOf, hv, Option.map_some, Option.getD_some] at uses
  simp [hv, recorded, nameOf, typeOf, definer, ← uses]

theorem Whole.mem_order (hw : b.Whole) (h : b.Named) (hid : id < b.values.length) : id ∈ b.order := by
  have sub : b.order ⊆ List.range b.values.length := fun x hx =>
    List.mem_range.mpr (h.useDef.wellScoped.lt (h.inScope hx))
  have perm := (List.subperm_of_subset h.nodup sub).perm_of_length_le (by rw [List.length_range, hw])
  exact perm.mem_iff.mpr (List.mem_range.mpr hid)

theorem Named.length_scope (h : b.Named) : b.scope.length = b.order.length := by
  have distinct : (b.scope.map (·.2)).Nodup := by
    refine List.pairwise_map.mpr (h.useDef.names.imp_of_mem fun he he' apart heq => ?_)
    obtain ⟨n, hn⟩ := h.text _ (List.mem_map_of_mem he)
    rw [← (h.useDef.wellScoped _ he).2, ← (h.useDef.wellScoped _ he').2, ← heq, hn] at apart
    simp at apart
  have perm := (List.perm_ext_iff_of_nodup distinct h.nodup).mpr fun id => by
    rw [← Block.InScope, h.useDef.origin, List.append_nil, order]
  rw [← perm.length_eq, List.length_map]

theorem made_whole (b : Block) : made b.inputs b.operations = b.order := rfl

variable (h : b.Named) (hw : b.Whole) (hc : b.Copies b.inputs b.operations d)
include h hc

theorem Copies.inScope?_eq (l : Label) : d.inScope? l = (b.inScope? l).map b.place := by
  cases hb : b.inScope? l with
  | some id =>
    obtain ⟨e, he, rfl⟩ := Option.map_eq_some_iff.mp hb
    have mem := List.mem_of_find?_eq_some he
    have scope : b.InScope e.2 := List.mem_map_of_mem mem
    obtain ⟨n, hn⟩ := h.text e.2 scope
    have same : e.1.same l = true := List.find?_some (p := fun x : Label × Nat => x.1.same l) he
    rw [← (h.useDef.wellScoped e mem).2, hn] at same
    obtain rfl : l = .text n := by
      cases l with
      | text m => simpa [eq_comm] using same
      | data j => cases j <;> simp [Label.same, Label.number?] at same
    have made : e.2 ∈ made b.inputs b.operations := by
      have := (h.useDef.origin e.2).mp scope
      rwa [List.append_nil] at this
    rw [← hn, hc.inScope?_place h (List.prefix_refl _) made]
    rfl
  | none =>
    simp only [Option.map_none, Block.inScope?, Option.map_eq_none_iff, List.find?_eq_none] at hb ⊢
    intro x hx
    rw [hc.scope] at hx
    obtain ⟨id, hid, rfl⟩ := List.mem_map.mp hx
    obtain ⟨e, he, rfl⟩ := List.mem_map.mp (h.inScope hid)
    rw [(h.useDef.wellScoped e he).2]
    exact hb e he

include hw

theorem Copies.value?_place (id : Nat) : d.value? (b.place id) = b.value? id := by
  by_cases hid : id ∈ b.order
  · rw [hc.value?, made_whole, h.getElem?_place (List.prefix_refl _) hid, h.value?_eq hid]
    rfl
  · have out : b.values.length ≤ id := Nat.le_of_not_lt fun hlt => hid (hw.mem_order h hlt)
    have last : b.place id = b.order.length := List.idxOf_eq_length hid
    rw [hc.value?, made_whole, last, Block.value?, List.getElem?_eq_none out, List.getElem?_eq_none (Nat.le_refl _)]
    rfl

theorem Copies.alike : Alike b.place b d where
  value := hc.value?_place h hw
  injective id hid x heq := by
    have inOrder : id ∈ b.order := List.mem_append_right _ hid
    have hx : x ∈ b.order := by
      have := h.place_lt (List.prefix_refl _) inOrder
      rwa [← heq, place, List.idxOf_lt_length_iff] at this
    exact h.place_inj hx inOrder heq
  scope := hc.inScope?_eq h
  length := by
    rw [hc.scope, List.length_map, made_whole, ← h.length_scope]
  operations := hc.operations

/-- A block that is made again whole is restored. -/
theorem Copies.restored : b.Restored d := by
  have alike := hc.alike h hw
  have label : ∀ id, d.labelled (b.place id) = b.labelled id := fun id => by
    rw [labelled, alike.nameOf, alike.typeOf, labelled]
  have name : ∀ id, d.nameOf (b.place id) = b.nameOf id := alike.nameOf
  refine ⟨?_, ?_, ?_, fun registry indent => alike.formatWith_eq _ indent⟩
  · simp [hc.inputs, label]
  · simp [hc.operations, spelled, placed, label, name]
  · intro l
    rw [hc.inScope?_eq h]
    cases b.inScope? l with
    | none => rfl
    | some id => exact hc.value?_place h hw id

end

end Block

/-! ## What is written -/

structure Operation.Portable (op : Operation) : Prop where
  opcode : ∃ x, op.opcode = .text x
  distinct : (op.attrs.map (·.1)).Nodup
  tags : ∀ e ∈ op.attrs, e.2.Portable

structure Block.Portable (b : Block) : Prop where
  named : b.Named
  whole : b.Whole
  types : ∀ id, b.InScope id → (b.typeOf id).Portable
  operations : ∀ op ∈ b.operations, op.Portable

namespace Wire

def CarriesValue (b : Block) (id : Nat) (j : Json) : Prop :=
  ∃ n t, b.nameOf id = .text n ∧ j = .obj [("name", .str n), ("type", t)] ∧
    Carries t (b.typeOf id) ∧ (b.typeOf id).Portable

def CarriesOperation (b : Block) (op : Operation) (j : Json) : Prop :=
  ∃ x rs fs, op.opcode = .text x ∧ (∀ id ∈ op.operands, ∃ n, b.nameOf id = .text n) ∧
    Paired (CarriesValue b) op.results rs ∧ CarriesEntries fs op.attrs ∧ op.Portable ∧
    j = .obj [("opcode", .str x),
      ("operands", .arr (op.operands.map fun id => (b.nameOf id).json)), ("results", .arr rs), ("attrs", .obj fs)]

theorem mapM_paired {α β ε : Type} {f : α → Except ε β} {R : α → β → Prop} {xs : List α}
    (h : ∀ x ∈ xs, ∃ y, f x = .ok y ∧ R x y) : ∃ ys, xs.mapM f = .ok ys ∧ Paired R xs ys := by
  induction xs with
  | nil => exact ⟨[], rfl, trivial⟩
  | cons x xs ih =>
    obtain ⟨hx, hxs⟩ := List.forall_mem_cons.mp h
    obtain ⟨y, hy, hr⟩ := hx
    obtain ⟨ys, hys, hrs⟩ := ih hxs
    exact ⟨y :: ys, Kind.mapM_eq_ok_cons.mpr ⟨y, ys, hy, hys, rfl⟩, hr, hrs⟩

section
variable {b : Block} (h : b.Portable)
include h

theorem value_ok {id : Nat} (hid : b.InScope id) : ∃ j, value b id = .ok j ∧ CarriesValue b id j := by
  obtain ⟨n, hn⟩ := h.named.text id hid
  obtain ⟨t, ht, carried⟩ := carries_portable (h.types id hid)
  exact ⟨_, by rw [value, ht, hn]; rfl, n, t, hn, rfl, carried, h.types id hid⟩

theorem operation_ok {op : Operation} (hop : op ∈ b.operations) :
    ∃ j, operation b op = .ok j ∧ CarriesOperation b op j := by
  have scope : ∀ id ∈ op.results, b.InScope id := fun id hid =>
    h.named.inScope (List.mem_append_right _ (List.mem_flatMap.mpr ⟨op, hop, hid⟩))
  have portable := h.operations op hop
  obtain ⟨x, hx⟩ := portable.opcode
  obtain ⟨rs, hrs, results⟩ := mapM_paired fun id hid => value_ok h (scope id hid)
  obtain ⟨fs, hfs, carried⟩ := carries_tags portable.tags
  have operands : ∀ id ∈ op.operands, ∃ n, b.nameOf id = .text n := fun id hid =>
    h.named.text id (h.named.useDef.operand_inScope hop hid)
  exact ⟨_, by rw [operation, hrs, hfs, hx]; rfl, x, rs, fs, hx, operands, results, carried, portable, rfl⟩

theorem block_ok : ∃ ins ops,
    block b = .ok (registered "quantir.Block" [("inputs", .arr ins), ("operations", .arr ops)]) ∧
    Paired (CarriesValue b) b.inputs ins ∧ Paired (CarriesOperation b) b.operations ops := by
  obtain ⟨ins, hins, inputs⟩ := mapM_paired fun id hid =>
    value_ok h (h.named.inScope (List.mem_append_left _ (hid : id ∈ b.inputs)))
  obtain ⟨ops, hops, operations⟩ := mapM_paired fun op hop => operation_ok h hop
  exact ⟨ins, ops, by rw [block, hins, hops]; rfl, inputs, operations⟩

end

/-! ## What is written is JSON -/

theorem CarriesValue.writable {b : Block} {id : Nat} {j : Json} (h : CarriesValue b id j) : j.Writable := by
  obtain ⟨n, t, -, rfl, carried, -⟩ := h
  exact ⟨by simp, trivial, carried.writable, trivial⟩

theorem allWritable_of_paired {α : Type} {R : α → Json → Prop} (hR : ∀ x j, R x j → j.Writable) {xs : List α}
    {js : List Json} (h : Paired R xs js) : Json.AllWritable js := by
  induction xs generalizing js with
  | nil =>
    cases js with
    | nil => trivial
    | cons j js => cases h
  | cons x xs ih =>
    cases js with
    | nil => cases h
    | cons j js => exact ⟨hR x j h.1, ih h.2⟩

theorem writable_names (b : Block) {ids : List Nat} (h : ∀ id ∈ ids, ∃ n, b.nameOf id = .text n) :
    Json.AllWritable (ids.map fun id => (b.nameOf id).json) := by
  induction ids with
  | nil => trivial
  | cons id ids ih =>
    obtain ⟨⟨n, hn⟩, hrest⟩ := List.forall_mem_cons.mp h
    have name : (b.nameOf id).json.Writable := by
      rw [hn]
      trivial
    exact ⟨name, ih hrest⟩

theorem CarriesOperation.writable {b : Block} {op : Operation} {j : Json} (h : CarriesOperation b op j) :
    j.Writable := by
  obtain ⟨x, rs, fs, -, operands, results, carried, portable, rfl⟩ := h
  refine ⟨by simp, trivial, writable_names b operands, allWritable_of_paired (fun _ _ => CarriesValue.writable) results,
    ⟨?_, carried.writable⟩, trivial⟩
  rw [carried.keys]
  exact portable.distinct

/-! ## Reading values -/

section
variable {b d : Block} {c : TypeContext} {depth : Nat}

theorem CarriesValue.loads {id : Nat} {j : Json} (h : CarriesValue b id j) (hd : j.depth ≤ depth) (hc : c.Plain) :
    ∃ fields n, j = .obj fields ∧ b.nameOf id = .text n ∧ Json.lookup "name" fields = some (.str n) ∧
      ∃ t, Json.lookup "type" fields = some t ∧ ∃ e, e.Plain ∧ Loads (readWithin depth t) c (b.typeOf id) e := by
  obtain ⟨n, t, hn, rfl, carried, portable⟩ := h
  have nested : t.depth < depth := by
    simp only [Json.depth, Json.depthFields] at hd
    omega
  exact ⟨_, n, rfl, hn, rfl, t, rfl, (carried.restores depth c nested).loads hc portable.settled⟩

theorem loads_readInputs (h : b.Named) {ins ids : List Nat} {js : List Json} (hp : Paired (CarriesValue b) ids js)
    (hd : Json.depthItems js ≤ depth) (hc : c.Plain) (hcopy : b.Copies ins [] d) (hids : ins ++ ids <+: b.inputs) :
    ∃ d' e, e.Plain ∧ Loads (readInputs (readWithin depth) d js) c d' e ∧ b.Copies (ins ++ ids) [] d' := by
  induction ids generalizing ins js d c with
  | nil =>
    cases js with
    | nil => exact ⟨d, c, hc, loads_pure.mpr ⟨rfl, rfl⟩, by rwa [List.append_nil]⟩
    | cons j js => cases hp
  | cons id ids ih =>
    cases js with
    | nil => cases hp
    | cons j js =>
      rw [Json.depthItems, Nat.max_le] at hd
      obtain ⟨fields, n, rfl, hn, hname, t, ht, e, he, hload⟩ := hp.1.loads hd.1 hc
      have next : ins ++ [id] <+: b.inputs := by
        rw [List.append_cons] at hids
        exact (List.prefix_append _ _).trans hids
      -- one more input is made, and the rest is read into the longer copy
      obtain ⟨d₁, hadd, hcopy⟩ := hcopy.addInput h next
      rw [hn] at hadd
      obtain ⟨d', e', he', hrest, hlast⟩ := ih hp.2 hd.2 he hcopy (by rwa [List.append_cons] at hids)
      refine ⟨d', e', he', ?_, by rwa [List.append_cons]⟩
      rw [readInputs]
      refine loads_bind.mpr ⟨fields, c, loads_fieldsOf.mpr ⟨rfl, rfl⟩, ?_⟩
      refine loads_bind.mpr ⟨_, c, loads_field.mpr ⟨hname, rfl⟩, loads_bind.mpr ⟨t, c, loads_field.mpr ⟨ht, rfl⟩, ?_⟩⟩
      refine loads_bind.mpr ⟨_, e, hload, loads_bind.mpr ⟨_, e, loads_change.mpr ⟨hadd, rfl⟩, hrest⟩⟩

/-! ## Reading operations -/

theorem loads_operands (h : b.Named) {ops : List Operation} (hcopy : b.Copies b.inputs ops d)
    (hmade : Block.made b.inputs ops <+: b.order) {ids : List Nat} (hids : ∀ id ∈ ids, id ∈ Block.made b.inputs ops) :
    Loads ((ids.map fun id => (b.nameOf id).json).mapM (operand d)) c (ids.map b.place) c := by
  induction ids with
  | nil => exact loads_pure.mpr ⟨rfl, rfl⟩
  | cons id ids ih =>
    obtain ⟨hid, hrest⟩ := List.forall_mem_cons.mp hids
    obtain ⟨n, hn⟩ := h.text id (h.inScope (hmade.subset hid))
    have label : Label.ofJson (b.nameOf id).json = b.nameOf id := by rw [hn]; rfl
    have found : Loads (operand d (b.nameOf id).json) c (b.place id) c :=
      loads_operand.mpr ⟨by rw [label]; exact Block.isKey_of_text hn,
        by rw [label]; exact hcopy.inScope?_place h hmade hid, rfl⟩
    exact loads_mapM_cons.mpr ⟨_, c, _, found, ih hrest, rfl⟩

section
variable {ids : List Nat} {rs : List Json} (hp : Paired (CarriesValue b) ids rs)
include hp

theorem loads_types (hd : Json.depthItems rs ≤ depth) (hc : c.Plain) : ∃ e, e.Plain ∧
    Loads (rs.mapM fun r => do readWithin depth (← field (← fieldsOf r) "type")) c (ids.map b.typeOf) e := by
  induction ids generalizing rs c with
  | nil =>
    cases rs with
    | nil => exact ⟨c, hc, loads_pure.mpr ⟨rfl, rfl⟩⟩
    | cons r rs => cases hp
  | cons id ids ih =>
    cases rs with
    | nil => cases hp
    | cons r rs =>
      rw [Json.depthItems, Nat.max_le] at hd
      obtain ⟨fields, n, rfl, -, -, t, ht, e, he, hload⟩ := hp.1.loads hd.1 hc
      obtain ⟨e', he', hrest⟩ := ih hp.2 hd.2 he
      refine ⟨e', he', loads_mapM_cons.mpr ⟨_, e, _, ?_, hrest, rfl⟩⟩
      refine loads_bind.mpr ⟨fields, c, loads_fieldsOf.mpr ⟨rfl, rfl⟩, ?_⟩
      exact loads_bind.mpr ⟨t, c, loads_field.mpr ⟨ht, rfl⟩, hload⟩

theorem loads_names : Loads (rs.mapM fun r => do return valueName (← field (← fieldsOf r) "name")) c
    (ids.map fun id => some (b.nameOf id)) c := by
  induction ids generalizing rs with
  | nil =>
    cases rs with
    | nil => exact loads_pure.mpr ⟨rfl, rfl⟩
    | cons r rs => cases hp
  | cons id ids ih =>
    cases rs with
    | nil => cases hp
    | cons r rs =>
      obtain ⟨n, t, hn, rfl, -⟩ := hp.1
      refine loads_mapM_cons.mpr ⟨_, c, _, ?_, ih hp.2, rfl⟩
      refine loads_bind.mpr ⟨_, c, loads_fieldsOf.mpr ⟨rfl, rfl⟩, ?_⟩
      exact loads_bind.mpr ⟨.str n, c, loads_field.mpr ⟨rfl, rfl⟩, loads_pure.mpr ⟨congrArg some hn, rfl⟩⟩

end

theorem loads_readOperation (h : b.Named) {ops : List Operation} {op : Operation} {j : Json}
    (hj : CarriesOperation b op j)
    (hd : j.depth ≤ depth) (hc : c.Plain) (hcopy : b.Copies b.inputs ops d) (hops : ops ++ [op] <+: b.operations) :
    ∃ d' e, e.Plain ∧ Loads (readOperation (readWithin depth) d j) c d' e ∧ b.Copies b.inputs (ops ++ [op]) d' := by
  obtain ⟨x, rs, fs, hx, -, results, carried, portable, rfl⟩ := hj
  have before : ops <+: b.operations := (List.prefix_append _ _).trans hops
  have made := Block.made_front before
  simp only [Json.depth, Json.depthFields] at hd
  have operands := loads_operands (c := c) h hcopy made fun id hid =>
    h.operand_made (Block.getElem?_of_front hops) before (Nat.le_refl _) hid
  obtain ⟨e, he, attrs⟩ := (carried.restores depth c (by omega)).loads hc (map_settled_portable portable.tags)
  obtain ⟨e', he', types⟩ := @loads_types b e depth _ _ results (by omega) he
  obtain ⟨n, d', hcreate, hcopy⟩ := hcopy.createOperation h hops
  refine ⟨d', e', he', ?_, hcopy⟩
  -- the fields are read in the order of the source; only types and attributes touch the context
  unfold readOperation
  refine loads_bind.mpr ⟨_, c, loads_fieldsOf.mpr ⟨rfl, rfl⟩, ?_⟩
  refine loads_bind.mpr ⟨_, c, loads_field.mpr ⟨rfl, rfl⟩, loads_bind.mpr ⟨_, c, loads_field.mpr ⟨rfl, rfl⟩, ?_⟩⟩
  refine loads_bind.mpr ⟨_, c, loads_pure.mpr ⟨rfl, rfl⟩, loads_bind.mpr ⟨_, c, operands, ?_⟩⟩
  refine loads_bind.mpr ⟨_, c, loads_field.mpr ⟨rfl, rfl⟩, loads_bind.mpr ⟨_, e, attrs, ?_⟩⟩
  refine loads_bind.mpr ⟨_, e, loads_field.mpr ⟨rfl, rfl⟩, loads_bind.mpr ⟨_, e, loads_pure.mpr ⟨rfl, rfl⟩, ?_⟩⟩
  refine loads_bind.mpr ⟨_, e', types, loads_bind.mpr ⟨_, e', loads_names results, ?_⟩⟩
  have opcode : Label.ofJson (.str x) = op.opcode := hx.symm
  rw [opcode, hcreate]
  exact loads_pure.mpr ⟨rfl, rfl⟩

/-- The operations of the block are made again one after the other. -/
theorem loads_readOperations (h : b.Named) {ops rest : List Operation} {js : List Json}
    (hp : Paired (CarriesOperation b) rest js) (hd : Json.depthItems js ≤ depth) (hc : c.Plain)
    (hcopy : b.Copies b.inputs ops d) (hops : ops ++ rest <+: b.operations) :
    ∃ d' e, Loads (js.foldlM (readOperation (readWithin depth)) d) c d' e ∧ b.Copies b.inputs (ops ++ rest) d' := by
  induction rest generalizing ops js d c with
  | nil =>
    cases js with
    | nil => exact ⟨d, c, loads_pure.mpr ⟨rfl, rfl⟩, by rwa [List.append_nil]⟩
    | cons j js => cases hp
  | cons op rest ih =>
    cases js with
    | nil => cases hp
    | cons j js =>
      rw [Json.depthItems, Nat.max_le] at hd
      rw [List.append_cons] at hops
      have next : ops ++ [op] <+: b.operations := (List.prefix_append _ _).trans hops
      obtain ⟨d₁, e, he, hone, hcopy⟩ := loads_readOperation h hp.1 hd.1 hc hcopy next
      obtain ⟨d', e', hrest, hlast⟩ := ih hp.2 hd.2 he hcopy hops
      refine ⟨d', e', ?_, by rwa [List.append_cons]⟩
      rw [List.foldlM_cons]
      exact loads_bind.mpr ⟨d₁, e, hone, hrest⟩

theorem loads_readBlock (h : b.Portable) {fields : List (String × Json)} {ins ops : List Json}
    (hins : Json.lookup "inputs" fields = some (.arr ins)) (hops : Json.lookup "operations" fields = some (.arr ops))
    (inputs : Paired (CarriesValue b) b.inputs ins) (operations : Paired (CarriesOperation b) b.operations ops)
    (hd : Json.depthItems ins ≤ depth ∧ Json.depthItems ops ≤ depth) (hc : c.Plain) :
    ∃ d e, Loads (readBlock (readWithin depth) fields) c d e ∧ b.Restored d := by
  obtain ⟨d, e, he, made, hcopy⟩ := loads_readInputs h.named inputs hd.1 hc (.empty b) (List.prefix_refl _)
  obtain ⟨d', e', created, hcopy⟩ := loads_readOperations h.named operations hd.2 he hcopy (List.prefix_refl _)
  refine ⟨d', e', ?_, hcopy.restored h.named h.whole⟩
  refine loads_bind.mpr ⟨_, c, loads_field.mpr ⟨hins, rfl⟩, loads_bind.mpr ⟨ins, c, loads_pure.mpr ⟨rfl, rfl⟩, ?_⟩⟩
  refine loads_bind.mpr ⟨d, e, made, loads_bind.mpr ⟨_, e, loads_field.mpr ⟨hops, rfl⟩, ?_⟩⟩
  exact loads_bind.mpr ⟨ops, e, loads_pure.mpr ⟨rfl, rfl⟩, created⟩

end

/-- **A portable block is restored** from its serialized form, which can be written. -/
theorem block_restored {b : Block} (h : b.Portable) : ∃ j, block b = .ok j ∧ j.Writable ∧
    ∀ c, c.Plain → ∃ d e, Loads (readBlockValue j) c d e ∧ b.Restored d := by
  obtain ⟨ins, ops, hj, inputs, operations⟩ := block_ok h
  refine ⟨_, hj, ?_, fun c hc => ?_⟩
  · exact ⟨by simp [kindField], allWritable_of_paired (fun _ _ => CarriesValue.writable) inputs,
      allWritable_of_paired (fun _ _ => CarriesOperation.writable) operations, trivial, trivial⟩
  · refine loads_readBlock h rfl rfl inputs operations ?_ hc
    simp only [registered, Json.depth, List.cons_append, List.nil_append, Json.depthFields]
    omega

end Wire

end GateAsm
