import GateAsm.Proofs.Display
import GateAsm.Proofs.FixedPoint

/-!
# Blocks that are read for others

The text of an orderly block is read into a block that mirrors it. Its values are those of the block in the order
in which the text brings them up: an input where it is first used, and the results of each operation behind its
operands. Values are told apart by the names under which they are shown.
-/

namespace GateAsm

/-! ## Operations -/

/-- The operation is the other one over renamed values, with tuples for lists in the user's tags. -/
structure Operation.Mirrored (r : Registry) (ids : List Nat) (op op' : Operation) : Prop where
  opcode : op'.opcode = op.opcode
  operands : op'.operands.map (ids[·]?) = op.operands.map some
  results : op'.results.map (ids[·]?) = op.results.map some
  sizes : op'.segmentSizes = op.segmentSizes
  structural : ∀ key ∈ r.reservedTags op.opcode, op'.tag? key = op.tag? key
  user : op'.userTags r = tupledTags (op.userTags r)

theorem getElem?_append_eq_some {α : Type} {xs ys : List α} {i : Nat} {x : α} :
    (xs ++ ys)[i]? = some x ↔ xs[i]? = some x ∨ ∃ j, i = xs.length + j ∧ ys[j]? = some x := by
  rcases Nat.lt_or_ge i xs.length with h | h
  · rw [List.getElem?_append_left h]
    exact ⟨.inl, fun hx => hx.resolve_right fun ⟨j, hj, _⟩ => by omega⟩
  · rw [List.getElem?_append_right h, List.getElem?_eq_none h]
    constructor
    · exact fun hx => .inr ⟨i - xs.length, by omega, hx⟩
    · rintro (hx | ⟨j, rfl, hx⟩)
      · cases hx
      · rwa [Nat.add_sub_cancel_left]

theorem map_getElem?_append {α : Type} {xs : List α} {places : List Nat} {found : List α} (ys : List α)
    (h : places.map (xs[·]?) = found.map some) : places.map ((xs ++ ys)[·]?) = found.map some := by
  rw [← h]
  refine List.map_congr_left fun i hi => ?_
  obtain ⟨x, -, hx⟩ := List.mem_map.mp (h ▸ List.mem_map_of_mem (f := (xs[·]?)) hi)
  rw [← hx]
  exact getElem?_append_eq_some.mpr (.inl hx.symm)

theorem Operation.Mirrored.append {r : Registry} {ids : List Nat} {op op' : Operation} (h : op.Mirrored r ids op')
    (more : List Nat) : op.Mirrored r (ids ++ more) op' :=
  { h with operands := map_getElem?_append more h.operands, results := map_getElem?_append more h.results }

theorem Paired.forall_right {α β : Type} {R : α → β → Prop} {P : β → Prop} {xs : List α} {ys : List β}
    (h : Paired R xs ys) (hR : ∀ x ∈ xs, ∀ y, R x y → P y) : ∀ y ∈ ys, P y := by
  induction xs generalizing ys with
  | nil =>
    cases ys with
    | nil => nofun
    | cons => cases h
  | cons x xs ih =>
    cases ys with
    | nil => cases h
    | cons y ys =>
      exact List.forall_mem_cons.mpr ⟨hR x List.mem_cons_self y h.1, ih h.2 fun z hz =>
        hR z (List.mem_cons_of_mem _ hz)⟩

namespace Block

/-! ## Blocks -/

/-- The block `d` has values for those of `b` in the list, in its order, under the names under which they are
shown, and operations for the first ones of `b`. -/
structure Mirrors (r : Registry) (b : Block) (ops : List Operation) (ids : List Nat) (d : Block) : Prop where
  wellScoped : d.WellScoped
  length : d.values.length = ids.length
  distinct : ids.Nodup
  known : ∀ id ∈ ids, id ∈ b.inputs ++ ops.flatMap (·.results)
  results : ∀ op ∈ ops, ∀ id ∈ op.results, id ∈ ids
  operands : ∀ op ∈ ops, ∀ id ∈ op.operands, id ∈ ids
  typed : ∀ v id, ids[v]? = some id → ∃ t : Ty, d.typeOf v = .type t ∧ b.HasType id t
  found : ∀ n, Visible n → ∀ v, d.lookup n = some v ↔ ∃ id, ids[v]? = some id ∧ b.displayText id = n
  inputs : ∀ v, v ∈ d.inputs ↔ ∃ id ∈ b.inputs, ids[v]? = some id
  operations : Paired (Operation.Mirrored r ids) ops d.operations

section
variable {r : Registry} {b d d' : Block} {ops : List Operation} {ids : List Nat} {op : Operation} {id : Nat}

theorem Mirrors.empty (r : Registry) (b : Block) : b.Mirrors r [] [] .empty where
  wellScoped := wellScoped_empty
  length := rfl
  distinct := .nil
  known := nofun
  results := nofun
  operands := nofun
  typed := nofun
  found n _ v := by rw [lookup_empty]; simp
  inputs v := ⟨nofun, nofun⟩
  operations := trivial

theorem Mirrors.lt (h : b.Mirrors r ops ids d) (ho : b.Orderly r) (hops : ops <+: b.operations) (hid : id ∈ ids) :
    id < b.values.length := by
  refine ho.part_lt ?_
  rcases List.mem_append.mp (h.known id hid) with hid | hid
  · exact List.mem_append_left _ hid
  · obtain ⟨op, hop, hid⟩ := List.mem_flatMap.mp hid
    exact List.mem_append_right _ (List.mem_flatMap.mpr ⟨op, hops.subset hop, hid⟩)

theorem Mirrors.lookup_eq_some (h : b.Mirrors r ops ids d) (ho : b.Orderly r) (hops : ops <+: b.operations)
    (hid : id < b.values.length) (hv : Visible (b.displayText id)) {v : Nat} :
    d.lookup (b.displayText id) = some v ↔ ids[v]? = some id := by
  rw [h.found _ hv v]
  constructor
  · rintro ⟨id', hid', he⟩
    rwa [ho.displays.distinct id hid id' (h.lt ho hops (List.mem_of_getElem? hid')) hv he.symm]
  · exact fun hv => ⟨id, hv, rfl⟩

theorem Mirrors.lookup_eq_none (h : b.Mirrors r ops ids d) (ho : b.Orderly r) (hops : ops <+: b.operations)
    (hid : id < b.values.length) (hv : Visible (b.displayText id)) : d.lookup (b.displayText id) = none ↔ id ∉ ids := by
  rw [List.mem_iff_getElem?, not_exists, Option.eq_none_iff_forall_ne_some]
  exact forall_congr' fun v => not_congr (h.lookup_eq_some ho hops hid hv)

/-! ## Operands -/

theorem HasType.congr {t u : Ty} (h : b.HasType id t) (hsame : u.plain = t.plain) (hb : b.Typed)
    (hid : id < b.values.length) :
    b.HasType id u := by
  obtain ⟨s, hs, -⟩ := hb id hid
  rw [hasType_type hs, Ty.same_iff] at h ⊢
  rw [h, hsame]

theorem lookup_withInput_eq_some {m n : String} {t : Ty} {v : Nat} (hm : Visible m) (hfree : b.lookup n = none) :
    (b.withInput n t).lookup m = some v ↔ b.lookup m = some v ∨ n = m ∧ v = b.values.length := by
  rw [lookup_withInput hm]
  by_cases he : n = m
  · subst he
    rw [hfree]
    simp [eq_comm]
  · simp [he]

theorem Mirrors.place (h : b.Mirrors r ops ids d) {more : List Nat} {v id : Nat} :
    (ids ++ more)[v]? = some id ↔ ids[v]? = some id ∨ ∃ i, v = d.values.length + i ∧ more[i]? = some id := by
  rw [h.length]
  exact getElem?_append_eq_some

theorem Mirrors.place_lt (h : b.Mirrors r ops ids d) {v id : Nat} (hid : ids[v]? = some id) : v < d.values.length :=
  h.length ▸ (List.getElem?_eq_some_iff.mp hid).1

theorem Mirrors.withInput {t : Ty} (h : b.Mirrors r ops ids d) (input : id ∈ b.inputs) (absent : id ∉ ids)
    (hfree : d.lookup (b.displayText id) = none) (ht : b.HasType id t) :
    b.Mirrors r ops (ids ++ [id]) (d.withInput (b.displayText id) t) := by
  have place : ∀ v x, (ids ++ [id])[v]? = some x ↔ ids[v]? = some x ∨ v = d.values.length ∧ x = id := by
    intro v x
    rw [h.place]
    simp [List.getElem?_singleton, eq_comm]
  refine ⟨wellScoped_withInput h.wellScoped, ?_, ?_, ?_, fun op hop x hx => ?_, fun op hop x hx => ?_,
    fun v x hx => ?_, fun n hn v => ?_, fun v => ?_, ?_⟩
  · rw [length_withInput, h.length, List.length_append, List.length_singleton]
  · exact h.distinct.append (List.nodup_singleton id) (List.disjoint_singleton.mpr absent)
  · intro x hx
    rcases List.mem_append.mp hx with hx | hx
    · exact h.known x hx
    · obtain rfl := List.mem_singleton.mp hx
      exact List.mem_append_left _ input
  · exact List.mem_append_left _ (h.results op hop x hx)
  · exact List.mem_append_left _ (h.operands op hop x hx)
  · rcases (place v x).mp hx with hx | ⟨rfl, rfl⟩
    · rw [extends_withInput.typeOf v (h.place_lt hx)]
      exact h.typed v x hx
    · exact ⟨t, typeOf_withInput, ht⟩
  · rw [lookup_withInput_eq_some hn hfree, h.found n hn]
    simp only [place]
    constructor
    · rintro (⟨x, hx, he⟩ | ⟨he, hw⟩)
      · exact ⟨x, .inl hx, he⟩
      · exact ⟨id, .inr ⟨hw, rfl⟩, he⟩
    · rintro ⟨x, hx | ⟨hw, rfl⟩, he⟩
      · exact .inl ⟨x, hx, he⟩
      · exact .inr ⟨he, hw⟩
  · show v ∈ d.inputs ++ [d.values.length] ↔ _
    rw [List.mem_append, h.inputs, List.mem_singleton]
    simp only [place]
    constructor
    · rintro (⟨x, hx, hv⟩ | rfl)
      · exact ⟨x, hx, .inl hv⟩
      · exact ⟨id, input, .inr ⟨rfl, rfl⟩⟩
    · rintro ⟨x, hx, hv | ⟨rfl, -⟩⟩
      · exact .inl ⟨x, hx, hv⟩
      · exact .inr rfl
  · exact h.operations.imp fun _ _ hm => hm.append [id]

theorem Mirrors.mention {t : Ty} (h : b.Mirrors r ops ids d) (ho : b.Orderly r) (hops : ops <+: b.operations)
    (hid : id ∈ b.inputs ++ ops.flatMap (·.results)) (hlt : id < b.values.length) (hv : Visible (b.displayText id))
    (ht : b.HasType id t) : (∀ v, d.lookup (b.displayText id) = some v → d.HasType v t) ∧
      ∃ more, b.Mirrors r ops (ids ++ more) (d.mention (b.displayText id, t)) ∧ id ∈ ids ++ more ∧
      ∀ x ∈ more, x = id := by
  -- the value is there under the name that it is shown by, or it becomes an input
  cases hl : d.lookup (b.displayText id) with
  | some v =>
    have place := (h.lookup_eq_some ho hops hlt hv).mp hl
    refine ⟨fun w hw => ?_, [], ?_, List.mem_append_left _ (List.mem_of_getElem? place), List.forall_mem_nil _⟩
    · cases hw
      obtain ⟨u, hu, given⟩ := h.typed v id place
      obtain ⟨s, hs, -⟩ := ho.typed id hlt
      rw [hasType_type hs, Ty.same_iff] at given ht
      exact (hasType_type hu).mpr (Ty.same_iff.mpr (given.symm.trans ht))
    · rwa [mention_of_some hl, List.append_nil]
  | none =>
    have absent := (h.lookup_eq_none ho hops hlt hv).mp hl
    have input : id ∈ b.inputs := (List.mem_append.mp hid).resolve_right fun hres => by
      obtain ⟨op, hop, hres⟩ := List.mem_flatMap.mp hres
      exact absent (h.results op hop id hres)
    refine ⟨nofun, [id], ?_, List.mem_append_right _ List.mem_cons_self, fun x hx => List.mem_singleton.mp hx⟩
    rw [mention_of_none hl]
    exact h.withInput input absent hl ht

/-- Uses of values bring up those that are not there, and agree with what is there. -/
theorem Mirrors.mentionAll {uses : List (Nat × Ty)} (h : b.Mirrors r ops ids d) (ho : b.Orderly r)
    (hops : ops <+: b.operations)
    (huses : ∀ x ∈ uses, x.1 ∈ b.inputs ++ ops.flatMap (·.results) ∧ x.1 < b.values.length ∧
      Visible (b.displayText x.1) ∧ b.HasType x.1 x.2) :
    d.Consistent (uses.map fun x => (b.displayText x.1, x.2)) ∧
      ∃ more, b.Mirrors r ops (ids ++ more) (d.mentionAll (uses.map fun x => (b.displayText x.1, x.2))) ∧
        (∀ x ∈ uses, x.1 ∈ ids ++ more) ∧ ∀ id ∈ more, ∃ x ∈ uses, x.1 = id := by
  induction uses generalizing d ids with
  | nil => exact ⟨⟨nofun, nofun⟩, [], by rwa [List.append_nil], nofun, nofun⟩
  | cons x uses ih =>
    obtain ⟨hid, hlt, hv, ht⟩ := huses x List.mem_cons_self
    obtain ⟨agrees, first, hfirst, here, only⟩ := h.mention ho hops hid hlt hv ht
    obtain ⟨consistent, rest, hrest, later, others⟩ := ih hfirst fun y hy => huses y (List.mem_cons_of_mem _ hy)
    refine ⟨(consistent_cons_iff h.wellScoped fun u hu => ?_).mpr ⟨agrees, consistent⟩, first ++ rest, ?_, ?_, ?_⟩
    · obtain ⟨y, hy, rfl⟩ := List.mem_map.mp (show u ∈ (x :: uses).map fun y => (b.displayText y.1, y.2) from hu)
      exact (huses y hy).2.2.1
    · rw [← List.append_assoc]; exact hrest
    · rw [← List.append_assoc]
      exact List.forall_mem_cons.mpr ⟨List.mem_append_left _ here, later⟩
    · intro id hid
      rcases List.mem_append.mp hid with hid | hid
      · exact ⟨x, List.mem_cons_self, (only id hid).symm⟩
      · obtain ⟨y, hy, he⟩ := others id hid
        exact ⟨y, List.mem_cons_of_mem _ hy, he⟩

/-! ## Results -/

theorem Orderly.results_fresh (ho : b.Orderly r) (hops : ops ++ [op] <+: b.operations) :
    op.results.Nodup ∧ ∀ id ∈ op.results, id ∉ b.inputs ++ ops.flatMap (·.results) := by
  obtain ⟨rest, hrest⟩ := hops
  have parts := ho.parts.nodup_iff.mpr List.nodup_range
  rw [← hrest, List.flatMap_append, List.flatMap_append, List.flatMap_singleton, ← List.append_assoc,
    ← List.append_assoc] at parts
  obtain ⟨front, -, -⟩ := List.nodup_append.mp parts
  obtain ⟨-, distinct, apart⟩ := List.nodup_append.mp front
  exact ⟨distinct, fun id hid hmem => apart id hmem id hid rfl⟩

theorem Creates.typed_results {s : OperationState} {labels : List (Option Label)} {operands ids : List Nat}
    {types : List Ty} (hc : d.Creates s labels operands d') (hcount : s.resultTypes.length = ids.length)
    (hs : s.resultTypes = types.map .type)
    (htypes : ∀ x ∈ ids.zip types, b.HasType x.1 x.2) {i : Nat} (hid : ids[i]? = some id) :
    ∃ t : Ty, d'.typeOf (d.values.length + i) = .type t ∧ b.HasType id t := by
  have hi : i < types.length := by
    rw [hs, List.length_map] at hcount
    exact hcount ▸ (List.getElem?_eq_some_iff.mp hid).1
  have hl : i < labels.length := by rw [hc.count, hs, List.length_map]; exact hi
  have hitem := List.getElem?_eq_getElem hi
  refine ⟨types[i], (hc.item i (.type types[i]) _ ?_ (List.getElem?_eq_getElem hl)).1, ?_⟩
  · rw [hs, List.getElem?_map, hitem]; rfl
  · exact htypes (id, types[i]) (List.mem_of_getElem? (List.getElem?_zip_eq_some.mpr ⟨hid, hitem⟩))

/-- An operation that is created over the values of the next one of the block, with its results labelled as
they are shown, mirrors it. -/
theorem Mirrors.creates {s : OperationState} {labels : List (Option Label)} {operands : List Nat} {types : List Ty}
    (h : b.Mirrors r ops ids d) (ho : b.Orderly r) (hops : ops ++ [op] <+: b.operations)
    (hc : d.Creates s labels operands d')
    (hthere : ∀ id ∈ op.operands, id ∈ ids) (hcount : s.resultTypes.length = op.results.length)
    (hs : s.resultTypes = types.map .type) (htypes : ∀ x ∈ op.results.zip types, b.HasType x.1 x.2)
    (hlabels : ∀ n, Visible n → ∀ i : Nat, labels[i]? = some (some (Label.text n)) ↔
      ∃ id, op.results[i]? = some id ∧ b.displayText id = n)
    (hop : ∀ op', d'.operations = d.operations ++ [op'] → op.Mirrored r (ids ++ op.results) op') :
    b.Mirrors r (ops ++ [op]) (ids ++ op.results) d' := by
  obtain ⟨distinct, fresh⟩ := ho.results_fresh hops
  refine ⟨hc.wellScoped h.wellScoped, ?_, ?_, ?_, ?_, ?_, ?_, ?_, ?_, ?_⟩
  · rw [hc.length, h.length, hcount, List.length_append]
  · exact h.distinct.append distinct fun id hid hres => fresh id hres (h.known id hid)
  · intro id hid
    rw [List.flatMap_append, List.flatMap_singleton, ← List.append_assoc]
    exact (List.mem_append.mp hid).elim (fun hid => List.mem_append_left _ (h.known id hid)) (List.mem_append_right _)
  · intro o hmem id hid
    rcases List.mem_append.mp hmem with hmem | hmem
    · exact List.mem_append_left _ (h.results o hmem id hid)
    · obtain rfl := List.mem_singleton.mp hmem
      exact List.mem_append_right _ hid
  · intro o hmem id hid
    rcases List.mem_append.mp hmem with hmem | hmem
    · exact List.mem_append_left _ (h.operands o hmem id hid)
    · obtain rfl := List.mem_singleton.mp hmem
      exact List.mem_append_left _ (hthere id hid)
  · intro v id hid
    rcases h.place.mp hid with hid | ⟨i, rfl, hres⟩
    · rw [hc.extends_.typeOf v (h.place_lt hid)]
      exact h.typed v id hid
    · exact hc.typed_results hcount hs htypes hres
  · intro n hn v
    rw [hc.lookup n hn, h.found n hn]
    simp only [h.place, hlabels n hn]
    constructor
    · rintro (⟨id, hid, he⟩ | ⟨i, ⟨id, hid, he⟩, hv⟩)
      · exact ⟨id, .inl hid, he⟩
      · exact ⟨id, .inr ⟨i, hv, hid⟩, he⟩
    · rintro ⟨id, hid | ⟨i, hv, hid⟩, he⟩
      · exact .inl ⟨id, hid, he⟩
      · exact .inr ⟨i, ⟨id, hid, he⟩, hv⟩
  · intro v
    rw [hc.inputs, h.inputs]
    refine exists_congr fun id => and_congr_right fun hin => ?_
    rw [h.place]
    refine ⟨.inl, fun hid => hid.resolve_right ?_⟩
    rintro ⟨i, -, hid⟩
    exact fresh id (List.mem_of_getElem? hid) (List.mem_append_left _ hin)
  · obtain ⟨name, hnew⟩ := hc.operations
    rw [hnew]
    exact (h.operations.imp fun _ _ hm => hm.append op.results).concat (hop _ hnew)

end

end Block

end GateAsm
