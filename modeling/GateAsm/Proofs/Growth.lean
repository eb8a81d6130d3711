import GateAsm.Proofs.Scope

/-!
# Operations at the end of a block

Creating an operation enters its results as new values, in order, and appends its record.
`createOperation_ok` says everything that a success does to a block; no value and no operation that was
there changes its name, its type or its place.
-/

namespace GateAsm.Block

/-! ## Values -/

def isUnused (b : Block) (id : Nat) : Bool := ((b.value? id).map (·.uses.isEmpty)).getD true

def GivenName (l : Label) : Option Label → Prop
  | some n => l = n
  | none => ∃ s, l = .text (anonymousMark ++ s)

theorem freshName_anonymous (b : Block) (tries count : Nat) :
    ∃ s, (b.freshName tries count).1 = anonymousMark ++ s := by
  induction tries generalizing count with
  | zero => exact ⟨_, rfl⟩
  | succ tries ih =>
    simp only [freshName]
    split
    · exact ⟨_, rfl⟩
    · exact ih (count + 1)

structure Adds (b : Block) (type : Attr) (name : Option Label) (l : Label) (b' : Block) : Prop where
  values : b'.values = b.values ++ [⟨l, type, none, []⟩]
  scope : b'.scope = b.scope ++ [(l, b.values.length)]
  inputs : b'.inputs = b.inputs
  operations : b'.operations = b.operations
  given : GivenName l name
  free : ∀ n, name = some n → b.inScope? n = none

theorem addValue_ok {b b' : Block} {type : Attr} {name : Option Label} {id : Nat}
    (h : b.addValue type name = .ok (id, b')) : id = b.values.length ∧ ∃ l, b.Adds type name l b' := by
  cases name with
  | none =>
    obtain ⟨rfl, rfl⟩ := Prod.mk.inj (Except.ok.inj h)
    obtain ⟨s, hs⟩ := b.freshName_anonymous b.scope.length b.anonymousCount
    refine ⟨rfl, .text (anonymousMark ++ s), ?_, ?_, rfl, rfl, ⟨s, rfl⟩, nofun⟩
    · simp [hs]
    · simp [hs]
  | some n =>
    simp only [addValue] at h
    split at h
    · cases h
    · split at h
      · cases h
      · next hfree =>
        obtain ⟨rfl, rfl⟩ := Prod.mk.inj (Except.ok.inj h)
        refine ⟨rfl, n, rfl, rfl, rfl, rfl, rfl, fun m hm => ?_⟩
        cases hm
        simpa using hfree

section
variable {b b' : Block} {type : Attr} {name : Option Label} {l : Label}

theorem Adds.value? (h : b.Adds type name l b') (id : Nat) :
    b'.value? id = if id = b.values.length then some ⟨l, type, none, []⟩ else b.value? id := by
  have : b'.value? id = (b.enter type l).2.value? id := by simp only [Block.value?, h.values, enter]
  rw [this, value?_enter]

theorem Adds.length (h : b.Adds type name l b') : b'.values.length = b.values.length + 1 := by
  rw [h.values]; simp

theorem Adds.extends (h : b.Adds type name l b') : b.Extends b' where
  length_le := by rw [h.length]; exact Nat.le_succ _
  nameOf id hid := by rw [Block.nameOf, h.value?, if_neg (Nat.ne_of_lt hid)]; rfl
  typeOf id hid := by rw [Block.typeOf, h.value?, if_neg (Nat.ne_of_lt hid)]; rfl
  operations := ⟨[], by rw [h.operations, List.append_nil]⟩

theorem Adds.typeOf (h : b.Adds type name l b') : b'.typeOf b.values.length = type := by
  rw [Block.typeOf, h.value?, if_pos rfl]; rfl

theorem Adds.nameOf (h : b.Adds type name l b') : b'.nameOf b.values.length = l := by
  rw [Block.nameOf, h.value?, if_pos rfl]; rfl

theorem Adds.isUnused (h : b.Adds type name l b') (id : Nat) : b'.isUnused id = b.isUnused id := by
  rw [Block.isUnused, Block.isUnused, h.value?]
  split
  · next hid =>
    have : b.value? id = none := List.getElem?_eq_none (Nat.le_of_eq hid.symm)
    rw [this]; rfl
  · rfl

theorem Adds.wellScoped (h : b.Adds type name l b') (hb : b.WellScoped) : b'.WellScoped := by
  intro e he
  rw [h.length]
  rw [h.scope, List.mem_append, List.mem_singleton] at he
  rcases he with he | rfl
  · obtain ⟨hlt, hname⟩ := hb e he
    exact ⟨Nat.lt_succ_of_lt hlt, (h.extends.nameOf e.2 hlt).trans hname⟩
  · exact ⟨Nat.lt_succ_self _, h.nameOf⟩

theorem Adds.lookup (h : b.Adds type name l b') {m : String} (hm : Visible m) :
    b'.lookup m = (b.lookup m).or (if l.same (.text m) then some b.values.length else none) := by
  have : b'.inScope? (.text m) = (b.enter type l).2.inScope? (.text m) := by simp only [inScope?, h.scope, enter]
  rw [lookup_eq hm, lookup_eq hm, this, inScope?_enter]

theorem not_visible_anonymous (s : String) : ¬ Visible (anonymousMark ++ s) := by
  rw [visible_iff, String.toList_append]
  exact fun h => h (List.prefix_append _ _)

theorem Adds.lookup_eq_some (h : b.Adds type name l b') {m : String} (hm : Visible m) {id : Nat} :
    b'.lookup m = some id ↔ b.lookup m = some id ∨ name = some (.text m) ∧ id = b.values.length := by
  rw [h.lookup hm]
  cases name with
  | none =>
    obtain ⟨s, rfl⟩ := h.given
    have : ¬ (Label.text (anonymousMark ++ s)).same (.text m) = true := by
      intro he
      cases same_text_iff.mp he
      exact not_visible_anonymous s hm
    rw [if_neg this]; simp
  | some n =>
    obtain rfl : l = n := h.given
    by_cases hl : l = .text m
    · subst hl
      have : b.lookup m = none := (lookup_eq hm).trans (h.free _ rfl)
      rw [this, if_pos (same_text_iff.mpr rfl)]
      simp [eq_comm]
    · rw [if_neg (mt same_text_iff.mp hl)]; simp [hl]

end

theorem addValue_text {b : Block} {type : Attr} {n : String} (h : b.inScope? (.text n) = none) :
    ∃ b', b.addValue type (some (.text n)) = .ok (b.values.length, b') := by
  simp only [addValue, Label.isKey, Bool.not_true, Bool.false_eq_true, if_false, h, Option.isSome_none]
  exact ⟨_, rfl⟩

theorem addValue_none (b : Block) (type : Attr) :
    ∃ b', b.addValue type none = .ok (b.values.length, b') := ⟨_, rfl⟩

/-! ## Results -/

structure AddsAll (b : Block) (items : List (Attr × Option Label)) (b' : Block) : Prop where
  extends_ : b.Extends b'
  length : b'.values.length = b.values.length + items.length
  inputs : b'.inputs = b.inputs
  operations : b'.operations = b.operations
  wellScoped : b.WellScoped → b'.WellScoped
  item : ∀ i x, items[i]? = some x →
    b'.typeOf (b.values.length + i) = x.1 ∧ GivenName (b'.nameOf (b.values.length + i)) x.2
  lookup : ∀ m, Visible m → ∀ id, b'.lookup m = some id ↔
    b.lookup m = some id ∨ ∃ i x, items[i]? = some x ∧ x.2 = some (.text m) ∧ id = b.values.length + i
  unused : ∀ id, b'.isUnused id = b.isUnused id

theorem addResults_ok {b b' : Block} {items : List (Attr × Option Label)} {ids : List Nat}
    (h : b.addResults items = (.ok ids, b')) :
    ids = List.range' b.values.length items.length ∧ b.AddsAll items b' := by
  induction items generalizing b ids with
  | nil =>
    cases h
    exact ⟨rfl, .refl b', rfl, rfl, rfl, id, by simp, by simp, fun _ => rfl⟩
  | cons item items ih =>
    obtain ⟨type, name⟩ := item
    simp only [addResults] at h
    split at h
    · cases h
    · next id b₁ hadd =>
      split at h
      · cases h
      · next ids' b₂ hrest =>
        cases h
        obtain ⟨rfl, l, hadds⟩ := addValue_ok hadd
        obtain ⟨rfl, hall⟩ := ih hrest
        have hlen := hadds.length
        refine ⟨?_, hadds.extends.trans hall.extends_, ?_, ?_, ?_, ?_, ?_, ?_,
          fun id => (hall.unused id).trans (hadds.isUnused id)⟩
        · rw [hlen]; rfl
        · rw [hall.length, hlen, List.length_cons]; omega
        · rw [hall.inputs, hadds.inputs]
        · rw [hall.operations, hadds.operations]
        · exact fun hb => hall.wellScoped (hadds.wellScoped hb)
        -- the first item is the value that was added here, any other one is added behind it
        · intro i x hx
          cases i with
          | zero =>
            obtain rfl : (type, name) = x := by simpa using hx
            have hlt : b.values.length < b₁.values.length := by rw [hlen]; exact Nat.lt_succ_self _
            rw [Nat.add_zero, hall.extends_.typeOf _ hlt, hall.extends_.nameOf _ hlt, hadds.typeOf, hadds.nameOf]
            exact ⟨rfl, hadds.given⟩
          | succ i =>
            have := hall.item i x (by simpa using hx)
            rwa [hlen, Nat.add_assoc, Nat.add_comm 1 i] at this
        · intro m hm id
          rw [hall.lookup m hm id, hadds.lookup_eq_some hm, or_assoc]
          refine or_congr Iff.rfl ?_
          constructor
          · rintro (⟨rfl, rfl⟩ | ⟨i, x, hx, hn, rfl⟩)
            · exact ⟨0, (type, _), rfl, rfl, rfl⟩
            · exact ⟨i + 1, x, by simpa using hx, hn, by rw [hlen]; omega⟩
          · rintro ⟨i, x, hx, hn, rfl⟩
            cases i with
            | zero =>
              obtain rfl : (type, name) = x := by simpa using hx
              exact .inl ⟨hn, rfl⟩
            | succ i => exact .inr ⟨i, x, by simpa using hx, hn, by rw [hlen]; omega⟩

theorem addResults_texts {b : Block} {items : List (Attr × Option Label)}
    (htexts : ∀ x ∈ items, ∀ l, x.2 = some l → ∃ n, l = .text n ∧ Visible n ∧ b.lookup n = none)
    (hdistinct : (items.filterMap (·.2)).Nodup) :
    ∃ b', b.addResults items = (.ok (List.range' b.values.length items.length), b') := by
  induction items generalizing b with
  | nil => exact ⟨b, rfl⟩
  | cons item items ih =>
    obtain ⟨type, name⟩ := item
    obtain ⟨b₁, h₁⟩ : ∃ b₁, b.addValue type name = .ok (b.values.length, b₁) := by
      cases name with
      | none => exact addValue_none b type
      | some l =>
        obtain ⟨n, rfl, hn, hl⟩ := htexts _ List.mem_cons_self l rfl
        exact addValue_text ((lookup_eq hn).symm.trans hl)
    obtain ⟨-, l, hadds⟩ := addValue_ok h₁
    have later : ∀ x ∈ items, ∀ l, x.2 = some l → ∃ n, l = .text n ∧ Visible n ∧ b₁.lookup n = none := by
      intro x hx l' hl'
      obtain ⟨n, rfl, hn, hl⟩ := htexts x (List.mem_cons_of_mem _ hx) l' hl'
      refine ⟨n, rfl, hn, ?_⟩
      cases hfound : b₁.lookup n with
      | none => rfl
      | some id =>
        rcases (hadds.lookup_eq_some hn).mp hfound with h | ⟨rfl, -⟩
        · rw [hl] at h; cases h
        · rw [List.filterMap_cons, List.nodup_cons] at hdistinct
          exact absurd (List.mem_filterMap.mpr ⟨x, hx, hl'⟩) hdistinct.1
    have rest : (items.filterMap (·.2)).Nodup := by
      cases name with
      | none => exact hdistinct
      | some l => exact (List.nodup_cons.mp hdistinct).2
    obtain ⟨b₂, h₂⟩ := ih later rest
    rw [hadds.length] at h₂
    exact ⟨b₂, by simp only [addResults, h₁, h₂]; rfl⟩

/-! ## Operations -/

section
variable (b : Block) (ids : List Nat) (f : Value → Value) (id : Nat)

theorem value?_mapValues :
    (b.mapValues ids f).value? id = (b.value? id).map fun v => if ids.contains id then f v else v := by
  simp only [value?, mapValues, List.getElem?_map, List.getElem?_zipIdx, Option.map_map, Nat.zero_add]
  rfl

theorem length_mapValues : (b.mapValues ids f).values.length = b.values.length := by simp [mapValues]

theorem nameOf_mapValues (hf : ∀ v, (f v).name = v.name) : (b.mapValues ids f).nameOf id = b.nameOf id := by
  have (v : Value) : (if ids.contains id then f v else v).name = v.name := by split <;> simp [hf]
  simp only [nameOf, value?_mapValues, Option.map_map, Function.comp_def, this]

theorem typeOf_mapValues (hf : ∀ v, (f v).type = v.type) : (b.mapValues ids f).typeOf id = b.typeOf id := by
  have (v : Value) : (if ids.contains id then f v else v).type = v.type := by split <;> simp [hf]
  simp only [typeOf, value?_mapValues, Option.map_map, Function.comp_def, this]

end

theorem isEmpty_useBy (op : OperationRef) (v : Value) : (v.useBy op).uses.isEmpty = false := by
  unfold Value.useBy
  split
  · next h => cases hu : v.uses <;> simp [hu] at h ⊢
  · simp

section
variable (b : Block) (op : OperationRef) (results operands : List Nat)

theorem name_useBy (v : Value) : (v.useBy op).name = v.name := by unfold Value.useBy; split <;> rfl

theorem type_useBy (v : Value) : (v.useBy op).type = v.type := by unfold Value.useBy; split <;> rfl

theorem nameOf_link (id : Nat) : (b.link op results operands).nameOf id = b.nameOf id := by
  rw [link, nameOf_mapValues _ _ _ _ (name_useBy op), nameOf_mapValues _ _ (Value.defineBy op) _ (fun _ => rfl)]

theorem typeOf_link (id : Nat) : (b.link op results operands).typeOf id = b.typeOf id := by
  rw [link, typeOf_mapValues _ _ _ _ (type_useBy op), typeOf_mapValues _ _ (Value.defineBy op) _ (fun _ => rfl)]

theorem length_link : (b.link op results operands).values.length = b.values.length := by
  rw [link, length_mapValues, length_mapValues]

theorem isUnused_link {id : Nat} (hid : id < b.values.length) :
    (b.link op results operands).isUnused id = (b.isUnused id && !operands.contains id) := by
  have hv := Block.value?_of_lt hid
  simp only [isUnused, link, value?_mapValues, hv, Option.map_some, Option.getD_some]
  cases operands.contains id with
  | true => simp [isEmpty_useBy]
  | false => cases results.contains id <;> simp [Value.defineBy]

end

/-- An operation was created with these operands, its results named as asked for. -/
structure Creates (b : Block) (s : OperationState) (labels : List (Option Label)) (operands : List Nat)
    (b' : Block) : Prop where
  present : s.operands = operands.map some
  count : labels.length = s.resultTypes.length
  extends_ : b.Extends b'
  length : b'.values.length = b.values.length + s.resultTypes.length
  inputs : b'.inputs = b.inputs
  operations : ∃ name, b'.operations = b.operations ++
    [⟨s.opcode, operands, List.range' b.values.length s.resultTypes.length, s.attrs, name⟩]
  wellScoped : b.WellScoped → b'.WellScoped
  item : ∀ i type label, s.resultTypes[i]? = some type → labels[i]? = some label →
    b'.typeOf (b.values.length + i) = type ∧ GivenName (b'.nameOf (b.values.length + i)) label
  lookup : ∀ m, Visible m → ∀ id, b'.lookup m = some id ↔
    b.lookup m = some id ∨ ∃ i, labels[i]? = some (some (.text m)) ∧ id = b.values.length + i
  unused : ∀ id, id < b'.values.length → b'.isUnused id = (b.isUnused id && !operands.contains id)

theorem takeWhile_isSome {os : List (Option Nat)}
    (h : ((os.takeWhile Option.isSome).filterMap id).length = os.length) :
    os = ((os.takeWhile Option.isSome).filterMap id).map some := by
  induction os with
  | nil => rfl
  | cons o os ih =>
    cases o with
    | none => simp at h
    | some x =>
      simp only [List.takeWhile_cons, Option.isSome_some, if_true, List.filterMap_cons, id_eq, List.length_cons,
        Nat.add_right_cancel_iff] at h
      simpa using ih h

theorem takeWhile_some (ids : List Nat) : ((ids.map some).takeWhile Option.isSome).filterMap id = ids := by
  induction ids with
  | nil => rfl
  | cons x ids ih => simpa using ih

theorem AddsAll.creates {b b₁ : Block} {s : OperationState} {labels : List (Option Label)} {operands : List Nat}
    (hall : b.AddsAll (s.resultTypes.zip labels) b₁) (hcount : labels.length = s.resultTypes.length)
    (hoperands : s.operands = operands.map some) :
    b.Creates s labels operands
      (b₁.appendOperation s (List.range' b.values.length s.resultTypes.length) operands).2 := by
  have hzip : (s.resultTypes.zip labels).length = s.resultTypes.length := by
    rw [List.length_zip, hcount, Nat.min_self]
  refine ⟨hoperands, hcount, ?_, ?_, hall.inputs, ?_, ?_, ?_, ?_, ?_⟩
  · exact hall.extends_.trans
      ⟨Nat.le_of_eq (length_link ..).symm, fun id _ => nameOf_link .., fun id _ => typeOf_link ..,
        List.prefix_append _ _⟩
  · rw [← hzip, ← hall.length]; exact length_link ..
  · exact ⟨_, by rw [← hall.operations]; rfl⟩
  · intro hb e he
    obtain ⟨hlt, hname⟩ := hall.wellScoped hb e he
    exact ⟨Nat.lt_of_lt_of_le hlt (Nat.le_of_eq (length_link ..).symm), (nameOf_link ..).trans hname⟩
  · intro i type label ht hl
    have hitem := hall.item i (type, label) (List.getElem?_zip_eq_some.mpr ⟨ht, hl⟩)
    exact ⟨(typeOf_link ..).trans hitem.1, Eq.mpr (congrArg (GivenName · label) (nameOf_link ..)) hitem.2⟩
  · intro m hm id
    refine (hall.lookup m hm id).trans (or_congr Iff.rfl ?_)
    constructor
    · rintro ⟨i, x, hx, hn, rfl⟩
      obtain ⟨-, hl⟩ := List.getElem?_zip_eq_some.mp hx
      exact ⟨i, hn ▸ hl, rfl⟩
    · rintro ⟨i, hl, rfl⟩
      have hi : i < s.resultTypes.length := hcount ▸ (List.getElem?_eq_some_iff.mp hl).1
      exact ⟨i, (s.resultTypes[i], _), List.getElem?_zip_eq_some.mpr ⟨List.getElem?_eq_getElem hi, hl⟩, rfl, rfl⟩
  · intro id hid
    have hlt : id < b₁.values.length := Nat.lt_of_lt_of_eq hid (length_link ..)
    exact (isUnused_link b₁ ⟨b₁.operations.length, none⟩ _ operands hlt).trans (by rw [hall.unused])

theorem createOperation_ok {b b' : Block} {s : OperationState} {names : Option (List (Option Label))} {n : Nat}
    (h : b.createOperation s names = (.ok n, b')) :
    n = b.operations.length ∧ ∃ operands, b.Creates s (names.getD (s.resultTypes.map fun _ => none)) operands b' := by
  simp only [createOperation] at h
  split at h
  · cases h
  · next hlen =>
    split at h
    · cases h
    · next results b₁ hadd =>
      split at h
      · next hsome =>
        obtain ⟨rfl, hall⟩ := addResults_ok hadd
        have hcount := Decidable.not_not.mp (mt bne_iff_ne.mpr hlen)
        have hcreates := hall.creates hcount (takeWhile_isSome hsome)
        have hzip : (s.resultTypes.zip (names.getD (s.resultTypes.map fun _ => none))).length =
            s.resultTypes.length := by rw [List.length_zip, hcount, Nat.min_self]
        rw [hzip] at h
        obtain ⟨hn, rfl⟩ := Prod.mk.inj h
        exact ⟨(Except.ok.inj hn).symm.trans (congrArg List.length hall.operations), _, hcreates⟩
      · cases h

/-- An operation is created if the names of its results are texts that are not in scope and differ. -/
theorem createOperation_texts {b : Block} {s : OperationState} {labels : List (Option Label)} {operands : List Nat}
    (hoperands : s.operands = operands.map some) (hcount : labels.length = s.resultTypes.length)
    (htexts : ∀ l, some l ∈ labels → ∃ n, l = .text n ∧ Visible n ∧ b.lookup n = none)
    (hdistinct : (labels.filterMap id).Nodup) :
    ∃ b', b.createOperation s (some labels) = (.ok b.operations.length, b') := by
  have items : ∀ x ∈ s.resultTypes.zip labels, ∀ l, x.2 = some l →
      ∃ n, l = .text n ∧ Visible n ∧ b.lookup n = none := by
    intro x hx l hl
    exact htexts l (hl ▸ (List.of_mem_zip hx).2)
  have distinct : ((s.resultTypes.zip labels).filterMap (·.2)).Nodup := by
    have : (s.resultTypes.zip labels).filterMap (·.2) = labels.filterMap id := by
      conv => rhs; rw [← List.map_snd_zip (Nat.le_of_eq hcount), List.filterMap_map]
      rfl
    rw [this]; exact hdistinct
  obtain ⟨b₁, hadd⟩ := addResults_texts items distinct
  obtain ⟨-, hall⟩ := addResults_ok hadd
  refine ⟨(b₁.appendOperation s (List.range' b.values.length (s.resultTypes.zip labels).length) operands).2, ?_⟩
  simp only [createOperation, Option.getD_some, hcount, bne_self_eq_false, Bool.false_eq_true, if_false, hadd,
    hoperands, takeWhile_some, List.length_map, if_true, appendOperation, hall.operations]

end GateAsm.Block
