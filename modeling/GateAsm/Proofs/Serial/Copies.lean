import GateAsm.Proofs.UseDef
import Mathlib.Tactic.ByContra

/-!
# Blocks that are made again

A block can be made again value by value: all inputs first, and then the operations with their results, under the
names that the values have. `Copies` says how far that has come; the numbers of values change, since inputs may have
been added behind results. Each step of making the block leads from one such state to the next.
-/

namespace GateAsm.Block

/-! ## Places -/

def order (b : Block) : List Nat := b.inputs ++ b.results

def place (b : Block) (id : Nat) : Nat := b.order.idxOf id

/-- What is recorded of a value as long as only these operations are there. -/
def recorded (b : Block) (ops : List Operation) (id : Nat) : Value :=
  ⟨b.nameOf id, b.typeOf id, b.definer id, users ops id⟩

def placed (b : Block) (op : Operation) : Operation :=
  { op with operands := op.operands.map b.place, results := op.results.map b.place }

/-- Definitions and uses agree, and all values have texts for names. -/
structure Named (b : Block) : Prop where
  useDef : b.UseDef []
  text : ∀ id, b.InScope id → ∃ n, b.nameOf id = .text n

namespace Named

variable {b : Block} {ids : List Nat} {id v : Nat}

theorem nodup (h : b.Named) : b.order.Nodup := by
  have := h.useDef.distinct
  rwa [List.append_nil] at this

theorem inScope (h : b.Named) (hid : id ∈ b.order) : b.InScope id :=
  (h.useDef.origin id).mpr (by rwa [List.append_nil])

theorem place_of_getElem? (h : b.Named) (hids : ids <+: b.order) (hv : ids[v]? = some id) : b.place id = v := by
  obtain ⟨hlt, rfl⟩ := List.getElem?_eq_some_iff.mp hv
  rw [hids.getElem hlt]
  exact h.nodup.idxOf_getElem v _

theorem getElem?_place (h : b.Named) (hids : ids <+: b.order) (hid : id ∈ ids) : ids[b.place id]? = some id := by
  obtain ⟨v, hv, rfl⟩ := List.mem_iff_getElem.mp hid
  have at_ : ids[v]? = some ids[v] := List.getElem?_eq_getElem hv
  rwa [h.place_of_getElem? hids at_]

theorem place_lt (h : b.Named) (hids : ids <+: b.order) (hid : id ∈ ids) : b.place id < ids.length :=
  (List.getElem?_eq_some_iff.mp (h.getElem?_place hids hid)).1

theorem place_inj (h : b.Named) {x : Nat} (hx : x ∈ b.order) (hid : id ∈ b.order) (heq : b.place x = b.place id) :
    x = id := by
  have := h.getElem?_place (List.prefix_refl _) hx
  rw [heq, h.getElem?_place (List.prefix_refl _) hid] at this
  exact (Option.some.inj this).symm

theorem mem_map_place (h : b.Named) (hid : id ∈ b.order) {xs : List Nat} (hxs : ∀ x ∈ xs, x ∈ b.order) :
    b.place id ∈ xs.map b.place ↔ id ∈ xs := by
  rw [List.mem_map]
  constructor
  · rintro ⟨x, hx, heq⟩
    exact h.place_inj (hxs x hx) hid heq ▸ hx
  · intro hx
    exact ⟨id, hx, rfl⟩

theorem map_place (h : b.Named) {more : List Nat} (hids : ids ++ more <+: b.order) :
    more.map b.place = List.range' ids.length more.length := by
  apply List.ext_getElem
  · rw [List.length_map, List.length_range']
  · intro i hi _
    have inside : i < more.length := by rwa [List.length_map] at hi
    have at_ : (ids ++ more)[ids.length + i]? = some more[i] := by
      rw [List.getElem?_append_right (Nat.le_add_right _ _), Nat.add_sub_cancel_left, List.getElem?_eq_getElem]
    rw [List.getElem_map, h.place_of_getElem? hids at_, List.getElem_range', Nat.one_mul]

theorem name_inj (h : b.Named) {x : Nat} (hx : b.InScope x) (hid : b.InScope id) (heq : b.nameOf x = b.nameOf id) :
    x = id := by
  obtain ⟨n, hn⟩ := h.text id hid
  have named : ∀ e ∈ b.scope, b.nameOf e.2 = b.nameOf id → e.1 = .text n := fun e he heq =>
    (h.useDef.wellScoped e he).2.symm.trans (heq.trans hn)
  obtain ⟨e, he, rfl⟩ := List.mem_map.mp hx
  obtain ⟨e', he', rfl⟩ := List.mem_map.mp hid
  have first := named e he heq
  have second := named e' he' rfl
  obtain ⟨i, hi, rfl⟩ := List.mem_iff_getElem.mp he
  obtain ⟨j, hj, rfl⟩ := List.mem_iff_getElem.mp he'
  have apart := List.pairwise_iff_getElem.mp h.useDef.names
  by_contra hne
  rcases Nat.lt_trichotomy i j with hlt | rfl | hlt
  · have := apart i j hi hj hlt
    rw [first, second] at this
    simp at this
  · exact hne rfl
  · have := apart j i hj hi hlt
    rw [first, second] at this
    simp at this

end Named

/-! ## Copies -/

def made (ins : List Nat) (ops : List Operation) : List Nat := ins ++ ops.flatMap (·.results)

/-- The block `d` holds some of the inputs and operations of `b`, made again in order. -/
structure Copies (b : Block) (ins : List Nat) (ops : List Operation) (d : Block) : Prop where
  values : d.values = (made ins ops).map (b.recorded ops)
  scope : d.scope = (made ins ops).map fun id => (b.nameOf id, b.place id)
  inputs : d.inputs = ins.map b.place
  operations : d.operations = ops.map b.placed

theorem Copies.empty (b : Block) : b.Copies [] [] .empty := ⟨rfl, rfl, rfl, rfl⟩

section
variable {b d : Block} {ins : List Nat} {ops : List Operation} {id : Nat}

theorem Copies.length (hc : b.Copies ins ops d) : d.values.length = (made ins ops).length := by
  rw [hc.values, List.length_map]

theorem Copies.value? (hc : b.Copies ins ops d) (v : Nat) : d.value? v = ((made ins ops)[v]?).map (b.recorded ops) := by
  rw [Block.value?, hc.values, List.getElem?_map]

theorem Copies.inScope?_place (h : b.Named) (hc : b.Copies ins ops d) (hids : made ins ops <+: b.order)
    (hid : id ∈ made ins ops) : d.inScope? (b.nameOf id) = some (b.place id) := by
  obtain ⟨n, hn⟩ := h.text id (h.inScope (hids.subset hid))
  have here : (b.nameOf id, b.place id) ∈ d.scope := hc.scope ▸ List.mem_map_of_mem hid
  cases hfind : d.scope.find? (·.1.same (b.nameOf id)) with
  | none =>
    have := List.find?_eq_none.mp hfind _ here
    rw [hn] at this
    simp at this
  | some e =>
    have same := List.find?_some hfind
    have mem := List.mem_of_find?_eq_some hfind
    rw [hc.scope] at mem
    obtain ⟨x, hx, rfl⟩ := List.mem_map.mp mem
    rw [hn] at same
    have heq : b.nameOf x = b.nameOf id := (same_text_iff.mp same).trans hn.symm
    rw [inScope?, hfind, Option.map_some, h.name_inj (h.inScope (hids.subset hx)) (h.inScope (hids.subset hid)) heq]

theorem Copies.inScope?_none (h : b.Named) (hc : b.Copies ins ops d) (hids : made ins ops <+: b.order)
    (hid : id ∈ b.order) (hnew : id ∉ made ins ops) : d.inScope? (b.nameOf id) = none := by
  obtain ⟨n, hn⟩ := h.text id (h.inScope hid)
  rw [inScope?, Option.map_eq_none_iff, List.find?_eq_none, hc.scope]
  intro e he same
  obtain ⟨x, hx, rfl⟩ := List.mem_map.mp he
  rw [hn] at same
  have heq : b.nameOf x = b.nameOf id := (same_text_iff.mp same).trans hn.symm
  exact hnew (h.name_inj (h.inScope (hids.subset hx)) (h.inScope hid) heq ▸ hx)

theorem isKey_of_text {l : Label} {n : String} (h : l = .text n) : l.isKey = true := by rw [h]; rfl

/-! ## Inputs -/

theorem Copies.addInput (h : b.Named) (hc : b.Copies ins [] d) (hids : ins ++ [id] <+: b.inputs) :
    ∃ d', d.addInput (some (b.nameOf id)) (b.typeOf id) = .ok (d.values.length, d') ∧ b.Copies (ins ++ [id]) [] d' := by
  have whole : ins ++ [id] <+: b.order := hids.trans (List.prefix_append _ _)
  have before : made ins [] <+: b.order := by
    rw [made, List.flatMap_nil, List.append_nil]
    exact (List.prefix_append _ _).trans whole
  have hid : id ∈ b.order := whole.subset (by simp)
  have hnew : id ∉ made ins [] := by
    have := h.nodup.sublist whole.sublist
    rw [List.nodup_append] at this
    simp only [made, List.flatMap_nil, List.append_nil]
    exact fun hin => this.2.2 id hin id (List.mem_singleton_self _) rfl
  obtain ⟨n, hn⟩ := h.text id (h.inScope hid)
  have here : b.place id = d.values.length := by
    have := h.map_place whole
    rw [hc.length, made, List.flatMap_nil, List.append_nil]
    simpa using this
  have free : b.definer id = none := h.useDef.free id (by simpa using hids.subset (by simp))
  have added : d.addInput (some (b.nameOf id)) (b.typeOf id) = .ok (d.values.length,
      { (d.enter (b.typeOf id) (b.nameOf id)).2 with inputs := d.inputs ++ [d.values.length] }) := by
    rw [Block.addInput, Block.addValue, isKey_of_text hn, hc.inScope?_none h before hid hnew]
    rfl
  refine ⟨_, added, ?_, ?_, ?_, hc.operations⟩
  · show d.values ++ [_] = _
    rw [hc.values]
    simp [made, recorded, free, users]
  · show d.scope ++ [_] = _
    rw [hc.scope, ← here]
    simp [made]
  · show d.inputs ++ [_] = _
    rw [hc.inputs, ← here]
    simp

/-! ## Results -/

def enterAll (d : Block) (b : Block) (ids : List Nat) : Block :=
  { d with
    values := d.values ++ ids.map fun id => ⟨b.nameOf id, b.typeOf id, none, []⟩
    scope := d.scope ++ ids.map fun id => (b.nameOf id, b.place id) }

theorem addResults_enterAll (h : b.Named) {ids : List Nat} (hids : ∀ id ∈ ids, id ∈ b.order) (hd : ids.Nodup)
    (hfree : ∀ id ∈ ids, d.inScope? (b.nameOf id) = none)
    (hplace : ids.map b.place = List.range' d.values.length ids.length) :
    d.addResults (ids.map fun id => (b.typeOf id, some (b.nameOf id))) = (.ok (ids.map b.place), d.enterAll b ids) := by
  induction ids generalizing d with
  | nil => simp [addResults, enterAll]
  | cons id ids ih =>
    obtain ⟨hid, hids⟩ := List.forall_mem_cons.mp hids
    obtain ⟨free, later⟩ := List.forall_mem_cons.mp hfree
    obtain ⟨fresh, hd⟩ := List.nodup_cons.mp hd
    rw [List.map_cons, List.length_cons, List.range'_succ, List.cons.injEq] at hplace
    obtain ⟨here, behind⟩ := hplace
    obtain ⟨n, hn⟩ := h.text id (h.inScope hid)
    have stays : ∀ x ∈ ids, (d.enter (b.typeOf id) (b.nameOf id)).2.inScope? (b.nameOf x) = none := by
      intro x hx
      have apart : (b.nameOf id).same (b.nameOf x) = false := by
        -- two results of one name would be one value, as all values stand in scope under their names
        obtain ⟨m, hm⟩ := h.text x (h.inScope (hids x hx))
        by_contra hsame
        rw [Bool.not_eq_false, hm, same_text_iff, ← hm] at hsame
        exact fresh (h.name_inj (h.inScope hid) (h.inScope (hids x hx)) hsame ▸ hx)
      rw [inScope?_enter, later x hx, apart]
      rfl
    have rest := ih hids hd stays (by simpa [Block.enter] using behind)
    rw [List.map_cons, addResults, Block.addValue, isKey_of_text hn, free]
    simp only [Bool.not_true, Bool.false_eq_true, if_false, Option.isSome_none, rest]
    simp [enterAll, Block.enter, here]

theorem createOperation_enterAll {op : Operation} (hadd : d.addResults (op.results.map fun id =>
      (b.typeOf id, some (b.nameOf id))) = (.ok (op.results.map b.place), d.enterAll b op.results)) :
    d.createOperation ⟨op.opcode, (op.operands.map b.place).map some, op.attrs, op.results.map b.typeOf⟩
        (some (op.results.map fun id => some (b.nameOf id))) =
      (.ok d.operations.length, ((d.enterAll b op.results).appendOperation
        ⟨op.opcode, (op.operands.map b.place).map some, op.attrs, op.results.map b.typeOf⟩
        (op.results.map b.place) (op.operands.map b.place)).2) := by
  have zipped : (op.results.map b.typeOf).zip (op.results.map fun id => some (b.nameOf id)) =
      op.results.map fun id => (b.typeOf id, some (b.nameOf id)) := List.zip_map' ..
  simp only [Block.createOperation, Option.getD_some, List.length_map, bne_self_eq_false, Bool.false_eq_true, if_false,
    zipped, hadd, takeWhile_some]
  simp [Block.appendOperation, enterAll]

/-! ## Operations -/

theorem made_append (ins : List Nat) (ops : List Operation) (op : Operation) :
    made ins (ops ++ [op]) = made ins ops ++ op.results := by
  simp [made]

theorem made_front (hops : ops <+: b.operations) : made b.inputs ops <+: b.order := by
  obtain ⟨rest, hrest⟩ := hops
  refine ⟨rest.flatMap (·.results), ?_⟩
  rw [order, results, ← hrest, List.flatMap_append, made, List.append_assoc]

theorem getElem?_of_front {op : Operation} {rest : List Operation} (hops : ops ++ op :: rest <+: b.operations) :
    b.operations[ops.length]? = some op := by
  obtain ⟨more, hmore⟩ := hops
  rw [← hmore, List.append_assoc, List.getElem?_append_right (Nat.le_refl _), Nat.sub_self]
  rfl

theorem Named.operand_made (h : b.Named) {o : Operation} {k x : Nat} (hk : b.operations[k]? = some o)
    (hops : ops <+: b.operations) (hle : k ≤ ops.length) (hx : x ∈ o.operands) : x ∈ made b.inputs ops := by
  have before : b.operations.take k <+: ops :=
    List.prefix_of_prefix_length_le (List.take_prefix _ _) hops (by rw [List.length_take]; omega)
  rcases List.mem_append.mp (h.useDef.operands k o hk x hx) with hin | hin
  · exact List.mem_append_left _ hin
  · obtain ⟨o', ho', hr⟩ := List.mem_flatMap.mp hin
    exact List.mem_append_right _ (List.mem_flatMap.mpr ⟨o', before.subset ho', hr⟩)

theorem recorded_append (b : Block) (ops : List Operation) (op : Operation) (id : Nat) :
    b.recorded (ops ++ [op]) id =
      if id ∈ op.operands then (b.recorded ops id).useBy ⟨ops.length, none⟩ else b.recorded ops id := by
  have unlinked : (⟨ops.length, none⟩ : OperationRef) ∉ users ops id := fun hin =>
    Nat.lt_irrefl _ (position_lt_of_mem_users hin)
  by_cases hused : id ∈ op.operands
  · simp [hused, recorded, Value.useBy, unlinked, users_append]
  · simp [hused, recorded, users_append]

section
variable {op : Operation} (h : b.Named) (hops : ops ++ [op] <+: b.operations)
include h hops

theorem Named.result_unused {x : Nat} (hx : x ∈ op.results) : x ∉ made b.inputs ops ∧ users (ops ++ [op]) x = [] := by
  have hnew : x ∉ made b.inputs ops := by
    have := h.nodup.sublist (made_front hops).sublist
    rw [made_append, List.nodup_append] at this
    exact fun hin => this.2.2 x hin x hx rfl
  refine ⟨hnew, users_eq_nil fun o ho hin => hnew ?_⟩
  obtain ⟨k, hk⟩ := List.mem_iff_getElem?.mp ho
  have hlt := (List.getElem?_eq_some_iff.mp hk).1
  have at_ : b.operations[k]? = some o := by
    obtain ⟨more, hmore⟩ := hops
    rw [← hmore, List.getElem?_append_left hlt, hk]
  rw [List.length_append, List.length_singleton] at hlt
  exact h.operand_made at_ ((List.prefix_append _ _).trans hops) (by omega) hin

theorem Named.recorded_result {id : Nat} (hid : id ∈ op.results) :
    (Value.mk (b.nameOf id) (b.typeOf id) none []).defineBy ⟨ops.length, none⟩ = b.recorded (ops ++ [op]) id := by
  have defined := h.useDef.defined ops.length op (getElem?_of_front hops) id hid
  simp [recorded, Value.defineBy, defined, (h.result_unused hops hid).2]

/-- What the values record after the next operation is linked to them. -/
theorem Copies.value?_created (hc : b.Copies b.inputs ops d) (v : Nat) :
    ((d.enterAll b op.results).link ⟨ops.length, none⟩ (op.results.map b.place) (op.operands.map b.place)).value? v =
      ((made b.inputs (ops ++ [op]))[v]?).map (b.recorded (ops ++ [op])) := by
  have whole := made_front hops
  have before : ops <+: b.operations := (List.prefix_append _ _).trans hops
  have entered : (d.enterAll b op.results).values = (made b.inputs ops).map (b.recorded ops) ++
      op.results.map fun id => ⟨b.nameOf id, b.typeOf id, none, []⟩ := by rw [enterAll, hc.values]
  have length : (d.enterAll b op.results).values.length = (made b.inputs (ops ++ [op])).length := by
    simp [entered, made_append]
  by_cases hv : v < (made b.inputs (ops ++ [op])).length
  · obtain ⟨id, hid⟩ : ∃ id, (made b.inputs (ops ++ [op]))[v]? = some id := ⟨_, List.getElem?_eq_getElem hv⟩
    have inOrder : id ∈ b.order := whole.subset (List.mem_of_getElem? hid)
    obtain rfl := h.place_of_getElem? whole hid
    have operands : ∀ x ∈ op.operands, x ∈ made b.inputs ops := fun x hx =>
      h.operand_made (getElem?_of_front hops) before (Nat.le_refl _) hx
    have inResults : b.place id ∈ op.results.map b.place ↔ id ∈ op.results :=
      h.mem_map_place inOrder fun x hx => whole.subset (made_append .. ▸ List.mem_append_right _ hx)
    have inOperands : b.place id ∈ op.operands.map b.place ↔ id ∈ op.operands :=
      h.mem_map_place inOrder fun x hx => (made_front before).subset (operands x hx)
    obtain ⟨w, hw, hlink⟩ := @Block.value?_link (d.enterAll b op.results) (b.place id) ⟨ops.length, none⟩
      (op.results.map b.place) (op.operands.map b.place) (by rw [length]; exact hv)
    simp only [hlink, hid, Option.map_some, inResults, inOperands]
    rw [Block.value?, entered] at hw
    rw [made_append] at hid
    -- a value was there before the operation and may be used by it, or it is a result and used by none
    by_cases hold : b.place id < (made b.inputs ops).length
    · rw [List.getElem?_append_left hold] at hid
      rw [List.getElem?_append_left (by rw [List.length_map]; exact hold), List.getElem?_map, hid, Option.map_some,
        Option.some.injEq] at hw
      have made := List.mem_of_getElem? hid
      have other : id ∉ op.results := fun hr => (h.result_unused hops hr).1 made
      rw [if_neg other, ← hw, recorded_append]
    · have hge := Nat.le_of_not_lt hold
      rw [List.getElem?_append_right hge] at hid
      rw [List.getElem?_append_right (by rw [List.length_map]; exact hge), List.length_map, List.getElem?_map, hid,
        Option.map_some, Option.some.injEq] at hw
      have result := List.mem_of_getElem? hid
      have other : id ∉ op.operands := fun hin => (h.result_unused hops result).1 (operands id hin)
      rw [if_pos result, if_neg other, ← hw, h.recorded_result hops result]
  · have out := Nat.le_of_not_lt hv
    rw [List.getElem?_eq_none out, Block.value?, List.getElem?_eq_none]
    · rfl
    · rwa [length_link, length]

end

theorem Copies.createOperation (h : b.Named) (hc : b.Copies b.inputs ops d) {op : Operation}
    (hops : ops ++ [op] <+: b.operations) : ∃ n d',
    d.createOperation ⟨op.opcode, (op.operands.map b.place).map some, op.attrs, op.results.map b.typeOf⟩
      (some (op.results.map fun id => some (b.nameOf id))) = (.ok n, d') ∧ b.Copies b.inputs (ops ++ [op]) d' := by
  have whole := made_front hops
  rw [made_append] at whole
  have before := made_front ((List.prefix_append _ _).trans hops)
  have places : op.results.map b.place = List.range' d.values.length op.results.length := by
    rw [hc.length]
    exact h.map_place whole
  have inOrder : ∀ id ∈ op.results, id ∈ b.order := fun id hid => whole.subset (List.mem_append_right _ hid)
  have distinct : op.results.Nodup := (List.nodup_append.mp (h.nodup.sublist whole.sublist)).2.1
  have free : ∀ id ∈ op.results, d.inScope? (b.nameOf id) = none := fun id hid =>
    hc.inScope?_none h before (inOrder id hid) (h.result_unused hops hid).1
  have hadd := addResults_enterAll h inOrder distinct free places
  have count : d.operations.length = ops.length := by rw [hc.operations, List.length_map]
  refine ⟨_, _, createOperation_enterAll hadd, ?_, ?_, hc.inputs, ?_⟩
  · apply List.ext_getElem?
    intro v
    rw [List.getElem?_map, ← hc.value?_created h hops v, ← count]
    rfl
  · show d.scope ++ _ = _
    rw [hc.scope, made_append, List.map_append]
  · show d.operations ++ _ = _
    have name := h.useDef.opNames ops.length op (getElem?_of_front hops)
    rw [hc.operations, List.map_append, List.map_singleton, placed]
    simp [enterAll, count, name, OperationRef.name]

end

end GateAsm.Block
