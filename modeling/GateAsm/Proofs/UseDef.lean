import GateAsm.Proofs.Fresh
import GateAsm.Proofs.Growth

/-!
# Definitions and uses

A block keeps the same facts in several places: the values in scope, the list of inputs, and at each value
its defining operation and its uses. `UseDef` says that they agree. Between the entry of results and the end
of the operation that they belong to, some values wait for their definition; each step of creating an
operation preserves the agreement up to these.
-/

namespace GateAsm.Block

/-! ## What values record -/

def definer (b : Block) (id : Nat) : Option OperationRef := (b.value? id).bind (·.definedBy)

def usesOf (b : Block) (id : Nat) : List OperationRef := ((b.value? id).map (·.uses)).getD []

def results (b : Block) : List Nat := b.operations.flatMap (·.results)

/-- The operations that have a value among their operands, each once, in order. -/
def users (ops : List Operation) (id : Nat) : List OperationRef :=
  (ops.zipIdx.filter fun x => x.1.operands.contains id).map fun x => ⟨x.2, none⟩

def InScope (b : Block) (id : Nat) : Prop := id ∈ b.scope.map (·.2)

section
variable {b : Block} {id : Nat} {type : Attr} {l : Label} {op : OperationRef} {results operands : List Nat}

theorem WellScoped.lt (h : b.WellScoped) (hid : b.InScope id) : id < b.values.length := by
  obtain ⟨e, he, rfl⟩ := List.mem_map.mp hid
  exact (h e he).1

@[simp]
theorem definer_enter : (b.enter type l).2.definer id = b.definer id := by
  rw [definer, value?_enter]
  by_cases h : id = b.values.length
  · have : b.value? id = none := List.getElem?_eq_none (Nat.le_of_eq h.symm)
    simp [h, definer, value?]
  · rw [if_neg h, definer]

@[simp]
theorem usesOf_enter : (b.enter type l).2.usesOf id = b.usesOf id := by
  rw [usesOf, value?_enter]
  by_cases h : id = b.values.length
  · simp [h, usesOf, value?]
  · rw [if_neg h, usesOf]

theorem value?_link (hid : id < b.values.length) :
    ∃ v, b.value? id = some v ∧ (b.link op results operands).value? id =
      some (let w := if id ∈ results then v.defineBy op else v
        if id ∈ operands then w.useBy op else w) := by
  refine ⟨b.values[id], List.getElem?_eq_getElem hid, ?_⟩
  have hv := Block.value?_of_lt hid
  simp only [link, value?_mapValues, hv, Option.map_some, List.contains_eq_mem, decide_eq_true_eq]

theorem definer_link (hid : id < b.values.length) :
    (b.link op results operands).definer id = if id ∈ results then some op else b.definer id := by
  obtain ⟨v, hv, hlink⟩ := @value?_link b id op results operands hid
  have keeps (w : Value) : (w.useBy op).definedBy = w.definedBy := by
    unfold Value.useBy
    split <;> rfl
  simp only [definer, hlink, hv, Option.bind_some]
  by_cases hr : id ∈ results <;> by_cases ho : id ∈ operands <;> simp [hr, ho, keeps, Value.defineBy]

theorem usesOf_link (hid : id < b.values.length) (hnew : op ∉ b.usesOf id) :
    (b.link op results operands).usesOf id = b.usesOf id ++ if id ∈ operands then [op] else [] := by
  obtain ⟨v, hv, hlink⟩ := @value?_link b id op results operands hid
  have uses : b.usesOf id = v.uses := by rw [usesOf, hv]; rfl
  rw [uses] at hnew ⊢
  rw [usesOf, hlink]
  by_cases hr : id ∈ results <;> by_cases ho : id ∈ operands <;> simp [hr, ho, hnew, Value.useBy, Value.defineBy]

end

theorem users_append (ops : List Operation) (op : Operation) (id : Nat) :
    users (ops ++ [op]) id = users ops id ++ if id ∈ op.operands then [⟨ops.length, none⟩] else [] := by
  simp only [users, List.zipIdx_append, List.filter_append, List.map_append, List.zipIdx_singleton, Nat.zero_add]
  by_cases h : id ∈ op.operands <;> simp [h]

theorem position_lt_of_mem_users {ops : List Operation} {id : Nat} {r : OperationRef} (h : r ∈ users ops id) :
    r.position < ops.length := by
  obtain ⟨x, hx, rfl⟩ := List.mem_map.mp h
  have := List.snd_lt_add_of_mem_zipIdx (List.mem_filter.mp hx).1
  simpa using this

theorem users_eq_nil {ops : List Operation} {id : Nat} (h : ∀ op ∈ ops, id ∉ op.operands) : users ops id = [] := by
  simp only [users, List.map_eq_nil_iff, List.filter_eq_nil_iff]
  intro x hx
  simpa using h x.1 (List.fst_mem_of_mem_zipIdx hx)

/-! ## The operation at the end -/

def nextOperation (b : Block) (s : OperationState) (results operands : List Nat) : Operation :=
  ⟨s.opcode, operands, results, s.attrs, s!"op{b.operations.length}"⟩

section
variable {b : Block} {s : OperationState} {results operands : List Nat}

theorem operations_appendOperation : (b.appendOperation s results operands).2.operations =
    b.operations ++ [b.nextOperation s results operands] := rfl

theorem results_appendOperation : (b.appendOperation s results operands).2.results = b.results ++ results := by
  rw [Block.results, operations_appendOperation, List.flatMap_append, List.flatMap_singleton]
  rfl

theorem getElem?_appendOperation {k : Nat} {op : Operation}
    (hk : (b.appendOperation s results operands).2.operations[k]? = some op) :
    b.operations[k]? = some op ∨ k = b.operations.length ∧ op = b.nextOperation s results operands := by
  rw [operations_appendOperation] at hk
  rcases Nat.lt_or_ge k b.operations.length with hlt | hge
  · rw [List.getElem?_append_left hlt] at hk
    exact .inl hk
  · have := (List.getElem?_eq_some_iff.mp hk).1
    obtain rfl : k = b.operations.length := by simp at this; omega
    simp only [List.getElem?_concat_length, Option.some.injEq] at hk
    exact .inr ⟨rfl, hk.symm⟩

end

/-! ## Agreement -/

/-- Scope, inputs, operations and what the values record agree, except that the values `pending` wait for the
operation that defines them. -/
structure UseDef (pending : List Nat) (b : Block) : Prop where
  wellScoped : b.WellScoped
  names : b.scope.Pairwise fun e e' => e.1.same e'.1 = false
  distinct : (b.inputs ++ b.results ++ pending).Nodup
  origin : ∀ id, b.InScope id ↔ id ∈ b.inputs ++ b.results ++ pending
  free : ∀ id ∈ b.inputs ++ pending, b.definer id = none
  defined : ∀ (k : Nat) op, b.operations[k]? = some op → ∀ id ∈ op.results, b.definer id = some ⟨k, none⟩
  operands : ∀ (k : Nat) op, b.operations[k]? = some op → ∀ id ∈ op.operands,
    id ∈ b.inputs ++ (b.operations.take k).flatMap (·.results)
  uses : ∀ id, b.InScope id → b.usesOf id = users b.operations id
  opNames : ∀ (k : Nat) op, b.operations[k]? = some op → op.name = s!"op{k}"

namespace UseDef

variable {b b' : Block} {pending : List Nat} {id : Nat} {type : Attr} {l : Label}

theorem lt (h : b.UseDef pending) (hid : id ∈ b.inputs ++ b.results ++ pending) : id < b.values.length :=
  h.wellScoped.lt ((h.origin id).mpr hid)

theorem operand_inScope (h : b.UseDef pending) {op : Operation} (hop : op ∈ b.operations) (hid : id ∈ op.operands) :
    b.InScope id := by
  obtain ⟨k, hk, rfl⟩ := List.mem_iff_getElem.mp hop
  rw [h.origin]
  apply List.mem_append_left
  rcases List.mem_append.mp (h.operands k _ (List.getElem?_eq_getElem hk) id hid) with hin | hin
  · exact List.mem_append_left _ hin
  · obtain ⟨o, ho, hin⟩ := List.mem_flatMap.mp hin
    exact List.mem_append_right _ (List.mem_flatMap.mpr ⟨o, List.mem_of_mem_take ho, hin⟩)

theorem empty : Block.empty.UseDef [] where
  wellScoped := wellScoped_empty
  names := .nil
  distinct := List.nodup_nil
  origin _ := by simp [InScope, Block.empty, results]
  free _ h := absurd h List.not_mem_nil
  defined k op h := by simp [Block.empty] at h
  operands k op h := by simp [Block.empty] at h
  uses _ h := absurd h List.not_mem_nil
  opNames k op h := by simp [Block.empty] at h

theorem withCount (h : b.UseDef pending) (n : Nat) : { b with anonymousCount := n }.UseDef pending :=
  ⟨h.wellScoped, h.names, h.distinct, h.origin, h.free, h.defined, h.operands, h.uses, h.opNames⟩

theorem enter (h : b.UseDef pending) (type : Attr) (hfree : b.inScope? l = none) :
    (b.enter type l).2.UseDef (pending ++ [b.values.length]) where
  wellScoped := wellScoped_enter b type l h.wellScoped
  names := by
    refine List.pairwise_append.mpr ⟨h.names, List.pairwise_singleton .., ?_⟩
    intro e he e' he'
    obtain rfl := List.mem_singleton.mp he'
    simp only [inScope?, Option.map_eq_none_iff, List.find?_eq_none, Bool.not_eq_true] at hfree
    exact hfree e he
  distinct := by
    show (b.inputs ++ b.results ++ (pending ++ [b.values.length])).Nodup
    rw [← List.append_assoc]
    refine List.nodup_append.mpr ⟨h.distinct, by simp, ?_⟩
    intro x hx y hy he
    obtain rfl := List.mem_singleton.mp hy
    exact Nat.ne_of_lt (h.lt hx) he
  origin id := by
    show id ∈ (b.scope ++ [(l, b.values.length)]).map (·.2) ↔
      id ∈ b.inputs ++ b.results ++ (pending ++ [b.values.length])
    rw [List.map_append, List.mem_append, ← List.append_assoc, List.mem_append]
    exact or_congr (h.origin id) Iff.rfl
  free id hid := by
    rw [definer_enter]
    have : id ∈ b.inputs ++ pending ∨ id = b.values.length := by
      simpa [Block.enter, or_assoc] using hid
    rcases this with hid | rfl
    · exact h.free id hid
    · simp [definer, value?]
  defined k op hop id hid := by
    rw [definer_enter]
    exact h.defined k op hop id hid
  operands := h.operands
  uses id hid := by
    rw [usesOf_enter]
    -- nobody uses the new value yet, since operands are values that were there before
    have : b.InScope id ∨ id = b.values.length := by
      simpa [InScope, Block.enter, or_comm, exists_or] using hid
    rcases this with hid | rfl
    · exact h.uses id hid
    · have nobody : ∀ op ∈ b.operations, b.values.length ∉ op.operands := fun op hop hid =>
        Nat.lt_irrefl _ (h.wellScoped.lt (h.operand_inScope hop hid))
      show b.usesOf b.values.length = users b.operations b.values.length
      rw [users_eq_nil nobody]
      simp [usesOf, value?]
  opNames := h.opNames

theorem addValue (h : b.UseDef pending) {name : Option Label} (hadd : b.addValue type name = .ok (id, b')) :
    b'.UseDef (pending ++ [id]) := by
  cases name with
  | none =>
    obtain ⟨rfl, rfl⟩ := Prod.mk.inj (Except.ok.inj hadd)
    exact (h.withCount _).enter type (freshName_scope b b.anonymousCount)
  | some n =>
    simp only [Block.addValue] at hadd
    split at hadd
    · cases hadd
    · split at hadd
      · cases hadd
      · next hfree =>
        obtain ⟨rfl, rfl⟩ := Prod.mk.inj (Except.ok.inj hadd)
        exact h.enter type (by simpa using hfree)

theorem addResults (h : b.UseDef pending) {items : List (Attr × Option Label)} {ids : List Nat}
    (hadd : b.addResults items = (.ok ids, b')) : b'.UseDef (pending ++ ids) := by
  induction items generalizing b pending ids with
  | nil =>
    cases hadd
    rwa [List.append_nil]
  | cons item items ih =>
    obtain ⟨type, name⟩ := item
    simp only [Block.addResults] at hadd
    split at hadd
    · cases hadd
    · next id b₁ hone =>
      split at hadd
      · cases hadd
      · next ids' b₂ hrest =>
        cases hadd
        have := ih (h.addValue hone) hrest
        rwa [List.append_assoc, List.singleton_append] at this

theorem toInput (h : b.UseDef [id]) : { b with inputs := b.inputs ++ [id] }.UseDef [] := by
  have mem (x : Nat) (zs : List Nat) : x ∈ (b.inputs ++ [id]) ++ zs ↔ x ∈ b.inputs ++ zs ++ [id] := by
    simp only [List.mem_append]
    exact or_right_comm
  refine ⟨h.wellScoped, h.names, ?_, ?_, ?_, h.defined, ?_, h.uses, h.opNames⟩
  · have := h.distinct
    rw [List.append_nil, List.append_assoc]
    rw [List.append_assoc] at this
    exact (List.Perm.append_left _ List.perm_append_comm).nodup_iff.mp this
  · intro x
    rw [List.append_nil]
    exact (h.origin x).trans (mem x b.results).symm
  · intro x hx
    rw [List.append_nil] at hx
    exact h.free x hx
  · intro k op hop x hx
    exact (mem x _).mpr (List.mem_append_left _ (h.operands k op hop x hx))

theorem addInput (h : b.UseDef []) {name : Option Label} (hadd : b.addInput name type = .ok (id, b')) :
    b'.UseDef [] := by
  unfold Block.addInput at hadd
  cases hv : b.addValue type name with
  | error e => rw [hv] at hadd; cases hadd
  | ok x =>
    obtain ⟨i, b₁⟩ := x
    rw [hv] at hadd
    cases hadd
    exact (h.addValue hv).toInput

theorem not_pending (h : b.UseDef pending) (hid : id ∈ b.inputs ++ b.results) : id ∉ pending := fun hr =>
  (List.nodup_append.mp h.distinct).2.2 id hid id hr rfl

theorem appendOperation {results operands : List Nat} (h : b.UseDef results) (s : OperationState)
    (hops : ∀ id ∈ operands, id ∈ b.inputs ++ b.results) :
    (b.appendOperation s results operands).2.UseDef [] where
  wellScoped e he := by
    obtain ⟨hlt, hname⟩ := h.wellScoped e he
    exact ⟨Nat.lt_of_lt_of_eq hlt (length_link ..).symm, (nameOf_link ..).trans hname⟩
  names := h.names
  distinct := by
    rw [results_appendOperation, List.append_nil, ← List.append_assoc]
    exact h.distinct
  origin id := by
    rw [results_appendOperation, List.append_nil, ← List.append_assoc]
    exact h.origin id
  -- only the results that were pending change their operation
  free id hid := by
    rw [List.append_nil] at hid
    have hin : id ∈ b.inputs ++ b.results := List.mem_append_left _ hid
    refine (definer_link (h.lt (List.mem_append_left _ hin))).trans ?_
    rw [if_neg (h.not_pending hin)]
    exact h.free id (List.mem_append_left _ hid)
  defined k op hk id hid := by
    rcases getElem?_appendOperation hk with hold | ⟨rfl, rfl⟩
    · have hin : id ∈ b.inputs ++ b.results := List.mem_append_right _
        (List.mem_flatMap.mpr ⟨op, List.mem_of_getElem? hold, hid⟩)
      refine (definer_link (h.lt (List.mem_append_left _ hin))).trans ?_
      rw [if_neg (h.not_pending hin)]
      exact h.defined k op hold id hid
    · refine (definer_link (h.lt (List.mem_append_right _ hid))).trans ?_
      exact if_pos hid
  operands k op hk id hid := by
    rw [operations_appendOperation]
    rcases getElem?_appendOperation hk with hold | ⟨rfl, rfl⟩
    · have hlt := (List.getElem?_eq_some_iff.mp hold).1
      rw [List.take_append_of_le_length (Nat.le_of_lt hlt)]
      exact h.operands k op hold id hid
    · rw [List.take_left]
      exact hops id hid
  uses id hid := by
    have hold : b.InScope id := hid
    -- the position is one that no operation had before, so no value records the use already
    have fresh : (⟨b.operations.length, none⟩ : OperationRef) ∉ b.usesOf id := by
      rw [h.uses id hold]
      exact fun hmem => Nat.lt_irrefl _ (position_lt_of_mem_users hmem)
    refine (usesOf_link (h.wellScoped.lt hold) fresh).trans ?_
    rw [operations_appendOperation, users_append, h.uses id hold]
    rfl
  opNames k op hk := by
    rcases getElem?_appendOperation hk with hold | ⟨rfl, rfl⟩
    · exact h.opNames k op hold
    · rfl

/-- **Creating an operation** on values in scope preserves the agreement. -/
theorem createOperation (h : b.UseDef []) {s : OperationState} {labels : Option (List (Option Label))} {n : Nat}
    (hs : ∀ id, some id ∈ s.operands → b.InScope id) (hc : b.createOperation s labels = (.ok n, b')) :
    b'.UseDef [] := by
  simp only [Block.createOperation] at hc
  split at hc
  · cases hc
  · split at hc
    · cases hc
    · next results b₁ hadd =>
      split at hc
      · obtain ⟨-, rfl⟩ := Prod.mk.inj hc
        have entered := h.addResults hadd
        obtain ⟨-, hall⟩ := addResults_ok hadd
        refine entered.appendOperation s fun id hid => ?_
        obtain ⟨o, ho, rfl⟩ := List.mem_filterMap.mp hid
        have := (h.origin id).mp (hs id ((List.takeWhile_sublist _).subset ho))
        rw [List.append_nil] at this
        rwa [Block.results, hall.inputs, hall.operations]
      · cases hc

end UseDef

end GateAsm.Block
