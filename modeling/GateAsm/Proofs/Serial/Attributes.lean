import GateAsm.Proofs.PlainTypes
import GateAsm.Proofs.Serial.Settled
import GateAsm.Proofs.Written.Operands

/-!
# Attributes in serialized form

The serialized form of a value can be written, and reading it at any depth that suffices gives the value again, up to
what a context may have in the place of its types (`Wire.carries_attr`). Those values that come back as they are from
every context of plain types are portable (`Attr.Portable`).
-/

namespace GateAsm

namespace Attr

mutual

def Portable : Attr → Prop
  | none | bool _ | str _ | accessors _ => True
  | int n => FewDigits n
  | float x => x.number ≠ .nan ∧ x.bits < 2 ^ 64
  | symbol name => ∃ s, name = .text s
  | type t => t.Readable
  | array a => a.WellFormed
  | list items => AllPortable items
  | tuple items => AllPortable items
  | dict entries => EntriesPortable entries
  | _ => False

def AllPortable : List Attr → Prop
  | [] => True
  | a :: items => Portable a ∧ AllPortable items

/-- The keys are texts and differ, and all values come back. -/
def EntriesPortable : List (Attr × Attr) → Prop
  | [] => True
  | (k, v) :: entries => (∃ s, k = str s) ∧ (∀ e ∈ entries, e.1 ≠ k) ∧ Portable v ∧ EntriesPortable entries

end

mutual

theorem Portable.serializable : {a : Attr} → a.Portable → a.Serializable
  | none, _ | bool _, _ | str _, _ | accessors _, _ => trivial
  | int _, h => h
  | float _, h => h.2
  | symbol _, h => h
  | type _, h => .inl h
  | array _, h => h
  | list _, h => AllPortable.serializable h
  | tuple _, h => AllPortable.serializable h
  | dict _, h => EntriesPortable.serializable h

theorem AllPortable.serializable : {items : List Attr} → AllPortable items → AllSerializable items
  | [], _ => trivial
  | _ :: _, h => ⟨h.1.serializable, h.2.serializable⟩

theorem EntriesPortable.serializable : {entries : List (Attr × Attr)} → EntriesPortable entries →
    EntriesSerializable entries
  | [], _ => trivial
  | _ :: _, h => ⟨h.1, h.2.1, h.2.2.1.serializable, h.2.2.2.serializable⟩

end

mutual

theorem Portable.settled : {a : Attr} → a.Portable → a.settled = a
  | none, _ | bool _, _ | int _, _ | str _, _ | symbol _, _ | accessors _, _ | array _, _ => rfl
  | float _, h => congrArg float (if_neg h.1)
  | type _, h => congrArg type h.plain
  | list _, h => congrArg list (AllPortable.settled h)
  | tuple _, h => congrArg tuple (AllPortable.settled h)
  | dict _, h => congrArg dict (EntriesPortable.settled h)

theorem AllPortable.settled : {items : List Attr} → AllPortable items → mapItems Double.quiet Ty.plain items = items
  | [], _ => rfl
  | _ :: _, h => congrArg₂ List.cons h.1.settled h.2.settled

theorem EntriesPortable.settled : {entries : List (Attr × Attr)} → EntriesPortable entries →
    mapEntries Double.quiet Ty.plain entries = entries
  | [], _ => rfl
  | (k, _) :: _, h => congrArg₂ (fun v entries => (k, v) :: entries) h.2.2.1.settled h.2.2.2.settled

end

theorem quiet_of_settled {a : Attr} (h : a.settled = a) : a.quiet = a := by rw [← h, quiet_settled]

end Attr

namespace Wire

/-! ## Reading at a depth -/

section
variable {α β : Type} {settle : α → α} {c : TypeContext} {x : α} {xs : List α}

/-- The step answers with the value, up to what is left open; from a context of plain types it answers with a settled
value itself, and leaves such a context. -/
def Restores (settle : α → α) (p : Loader α) (c : TypeContext) (x : α) : Prop :=
  ∃ y d, Loads p c y d ∧ settle y = settle x ∧ (c.Plain → settle x = x → d.Plain ∧ y = x)

theorem restores_pure : Restores settle (pure x) c x :=
  ⟨x, c, loads_pure.mpr ⟨rfl, rfl⟩, rfl, fun hc _ => ⟨hc, rfl⟩⟩

theorem Restores.loads {p : Loader α} (h : Restores settle p c x) (hc : c.Plain) (hx : settle x = x) :
    ∃ d, d.Plain ∧ Loads p c x d := by
  obtain ⟨y, d, hload, -, exact_⟩ := h
  obtain ⟨hd, rfl⟩ := exact_ hc hx
  exact ⟨d, hd, hload⟩

/-- A value is made of one that is read, and settled as that is. -/
theorem Restores.made {make : α → β} {settle' : β → β} {p : Loader α} (h : Restores settle p c x)
    (hm : ∀ y, settle' (make y) = make (settle y)) (inj : Function.Injective make) :
    Restores settle' (p >>= fun y => pure (make y)) c (make x) := by
  obtain ⟨y, d, hload, same, exact_⟩ := h
  refine ⟨make y, d, loads_bind.mpr ⟨y, d, hload, loads_pure.mpr ⟨rfl, rfl⟩⟩, by rw [hm, hm, same], fun hc hx => ?_⟩
  rw [hm] at hx
  obtain ⟨hd, rfl⟩ := exact_ hc (inj hx)
  exact ⟨hd, rfl⟩

theorem Restores.cons {f : β → Loader α} {b : β} {bs : List β} (h : Restores settle (f b) c x)
    (hs : ∀ d, Restores (List.map settle) (bs.mapM f) d xs) :
    Restores (List.map settle) ((b :: bs).mapM f) c (x :: xs) := by
  obtain ⟨y, d, first, same, exact_⟩ := h
  obtain ⟨ys, e, rest, alike, exacts⟩ := hs d
  refine ⟨y :: ys, e, loads_mapM_cons.mpr ⟨y, d, ys, first, rest, rfl⟩, congrArg₂ List.cons same alike, fun hc hx => ?_⟩
  obtain ⟨hy, hys⟩ := List.cons.inj hx
  obtain ⟨hd, rfl⟩ := exact_ hc hy
  obtain ⟨he, rfl⟩ := exacts hd hys
  exact ⟨he, rfl⟩

end

/-- The serialized form can be written, and the value is read from it. -/
structure Carries (j : Json) (a : Attr) : Prop where
  writable : j.Writable
  restores : ∀ depth c, j.depth < depth → Restores Attr.settled (readWithin depth j) c a

structure CarriesAll (js : List Json) (as : List Attr) : Prop where
  writable : Json.AllWritable js
  restores : ∀ depth c, Json.depthItems js < depth →
    Restores (List.map Attr.settled) (readItems (readWithin depth) js) c as

structure CarriesEntries (fields : List (String × Json)) (entries : List (String × Attr)) : Prop where
  keys : fields.map (·.1) = entries.map (·.1)
  writable : Json.FieldsWritable fields
  restores : ∀ depth c, Json.depthFields fields < depth →
    Restores (List.map (Prod.map id Attr.settled)) (readEntries (readWithin depth) fields) c entries

theorem readWithin_obj {fields : List (String × Json)} {kind : String}
    (h : Json.lookup kindField fields = some (.str kind))
    (depth : Nat) : readWithin (depth + 1) (.obj fields) = readKind (readWithin depth) kind fields := by
  simp only [readWithin, readObject, h, Option.getD_some]

section
variable {fields : List (String × Json)} {kind : String} {a : Attr}
    (h : Json.lookup kindField fields = some (.str kind)) (hw : (Json.obj fields).Writable)
include h hw

/-- A value is read by its kind, and its parts with one level of depth less. -/
theorem carries_obj (hread : ∀ depth c, Json.depthFields fields < depth →
    Restores Attr.settled (readKind (readWithin depth) kind fields) c a) : Carries (.obj fields) a := by
  refine ⟨hw, fun depth c hd => ?_⟩
  cases depth with
  | zero => cases hd
  | succ depth =>
    rw [readWithin_obj h]
    exact hread depth c (Nat.lt_of_succ_lt_succ hd)

theorem carries_of_pure (hread : ∀ read, readKind read kind fields = pure a) : Carries (.obj fields) a :=
  carries_obj h hw fun depth c _ => by
    rw [hread]
    exact restores_pure

end

/-! ## Scalars -/

theorem carries_none : Carries (plain "_null" []) .none :=
  carries_of_pure rfl ⟨by simp, trivial, trivial⟩ fun _ => rfl

theorem carries_bool (b : Bool) : Carries (plain "_bool" [("v", .bool b)]) (.bool b) :=
  carries_of_pure rfl ⟨by simp [kindField], trivial, trivial, trivial⟩ fun _ => rfl

theorem carries_int {n : Int} (h : FewDigits n) : Carries (plain "_int" [("v", .int n)]) (.int n) :=
  carries_of_pure rfl ⟨by simp [kindField], trivial, h, trivial⟩ fun _ => rfl

theorem carries_float {x : Double} (h : x.quiet = x ∧ x.bits < 2 ^ 64) :
    Carries (plain "_float" [("v", .float x)]) (.float x) :=
  carries_of_pure rfl ⟨by simp [kindField], trivial, h, trivial⟩ fun _ => rfl

theorem carries_str (s : String) : Carries (plain "_str" [("v", .str s)]) (.str s) :=
  carries_of_pure rfl ⟨by simp [kindField], trivial, trivial, trivial⟩ fun _ => rfl

theorem carries_symbol (s : String) : Carries (registered "quantir.SymbolRef" [("name", .str s)]) (.symbol (.text s)) :=
  carries_of_pure rfl ⟨by simp [kindField], trivial, trivial, trivial⟩ fun _ => rfl

/-! ## Arrays -/

theorem writable_extents {ns : List Nat} (h : ∀ n ∈ ns, n ≤ NumArray.maxBytes) :
    Json.AllWritable (ns.map fun n => Json.int (n : Nat)) := by
  induction ns with
  | nil => trivial
  | cons n ns ih =>
    obtain ⟨hn, hns⟩ := List.forall_mem_cons.mp h
    exact ⟨fewDigits_of_int64 (int64_extent hn), ih hns⟩

theorem carries_array {a : NumArray} (h : a.WellFormed) : Carries (array a) (.array a) :=
  carries_of_pure rfl ⟨by simp [kindField], trivial, trivial, writable_extents (extent_le h), trivial, trivial⟩
    fun _ => readArray_array h

/-! ## Accessors -/

theorem readKind_constant {n : Int} (h : InInt64 n) (read : Json → Loader Attr) :
    readKind read "quantir.Constant" [("value", .int n), (kindField, .str "quantir.Constant")] =
      pure (.constant n) := by
  show (if InInt64 n then pure (.constant n) else throw (.accessor (.outOfRange n)) : Loader Attr) = _
  exact if_pos h

theorem readWithin_component {x : Component} (h : x.Legal) (depth : Nat) :
    readWithin (depth + 1) (component x) = pure (Attr.ofComponent x) := by
  cases x with
  | constant n => exact (readWithin_obj rfl depth).trans (readKind_constant h _)
  | dynamic => rfl

theorem readComponents_components {xs : List Component} (h : ∀ x ∈ xs, x.Legal) (depth : Nat) :
    readComponents (readWithin (depth + 1)) (xs.map component) = pure xs := by
  unfold readComponents
  induction xs with
  | nil => rfl
  | cons x xs ih =>
    obtain ⟨hx, hxs⟩ := List.forall_mem_cons.mp h
    have same : Component.ofAttr (Attr.ofComponent x) = .ok x := by cases x <;> rfl
    simp [readWithin_component hx, same, ih hxs]

theorem writable_component {x : Component} (h : x.Legal) : (component x).Writable := by
  cases x with
  | constant n => exact ⟨by simp [kindField], fewDigits_of_int64 h, trivial, trivial⟩
  | dynamic => exact ⟨by simp, trivial, trivial⟩

theorem writable_components {xs : List Component} (h : ∀ x ∈ xs, x.Legal) : Json.AllWritable (xs.map component) := by
  induction xs with
  | nil => trivial
  | cons x xs ih =>
    obtain ⟨hx, hxs⟩ := List.forall_mem_cons.mp h
    exact ⟨writable_component hx, ih hxs⟩

theorem carries_constant {n : Int} (h : InInt64 n) : Carries (component (.constant n)) (.constant n) :=
  carries_of_pure rfl (writable_component (x := .constant n) h) (readKind_constant h)

theorem carries_dynamic : Carries (component .dynamic) .dynamic :=
  carries_of_pure rfl (writable_component (x := .dynamic) trivial) fun _ => rfl

theorem carries_accessors (a : Accessors) :
    Carries (registered "quantir.AccessorArray" [("elements", .arr (a.components.map component))]) (.accessors a) := by
  refine carries_obj rfl ⟨by simp [kindField], writable_components a.legal, trivial, trivial⟩ fun depth c hd => ?_
  -- components are objects of their own, so one more level of depth is used up
  obtain ⟨k, rfl⟩ : ∃ k, depth = k + 1 := Nat.exists_eq_add_one.mpr (Nat.zero_lt_of_lt hd)
  have found : Accessors.ofComponents? a.components = some a := Accessors.ofComponents?_eq_some_iff.mpr rfl
  show Restores Attr.settled (readComponents (readWithin (k + 1)) (a.components.map component) >>= _) c _
  rw [readComponents_components a.legal, pure_bind, Accessors.ofComponents, found]
  exact restores_pure

/-! ## Types -/

section
variable {t : Ty}

theorem restores_intern (t : Ty) (c : TypeContext) : Restores Attr.settled (intern (.ok t)) c (.type t) := by
  refine ⟨_, _, loads_intern.mpr ⟨t, rfl, rfl, rfl⟩, congrArg Attr.type (Ty.same_iff.mp (c.intern_same t)),
    fun hc ht => ?_⟩
  obtain ⟨same, plain⟩ := hc.intern (t := t) (Attr.type.inj ht)
  exact ⟨plain, congrArg Attr.type same⟩

theorem carries_of_intern {fields : List (String × Json)} {kind : String}
    (h : Json.lookup kindField fields = some (.str kind)) (hw : (Json.obj fields).Writable)
    (hread : ∀ read, readKind read kind fields = intern (.ok t)) : Carries (.obj fields) (.type t) := by
  refine carries_obj h hw fun depth c _ => ?_
  rw [hread]
  exact restores_intern t c

theorem carries_base (b : GateBase) : ∃ j, type b.ty = .ok j ∧ Carries j (.type b.ty) := by
  cases b with
  | gate1 => exact ⟨_, rfl, carries_of_intern rfl ⟨by simp, trivial, trivial⟩ fun _ => rfl⟩
  | gate2 => exact ⟨_, rfl, carries_of_intern rfl ⟨by simp, trivial, trivial⟩ fun _ => rfl⟩
  | circuit => exact ⟨_, rfl, carries_of_intern rfl ⟨by simp, trivial, trivial⟩ fun _ => rfl⟩

end

theorem carries_integer {n : Nat} (h : 1 ≤ n ∧ n ≤ 64) :
    Carries (registered "quantir.IntegerType" [("width", .int n)]) (.type (.integer (.ofNat n))) := by
  have few : FewDigits n := fewDigits_of_int64 (int64_extent (Nat.le_trans h.2 (by decide)))
  refine carries_of_intern rfl ⟨by simp [kindField], few, trivial, trivial⟩ fun read => ?_
  have made : Ty.ofIntegerWidth (.int n) = .ok (.integer (.ofNat n)) := by
    simp [Ty.ofIntegerWidth, show (1 : Int) ≤ n ∧ (n : Int) ≤ 64 by omega]
  exact congrArg intern made

theorem carries_float_type {n : Nat} (h : n = 16 ∨ n = 32 ∨ n = 64) :
    Carries (registered "quantir.FloatType" [("width", .int n)]) (.type (.float (.ofNat n))) := by
  have few : FewDigits n := fewDigits_of_int64 (int64_extent (by rcases h with rfl | rfl | rfl <;> decide))
  refine carries_of_intern rfl ⟨by simp [kindField], few, trivial, trivial⟩ fun read => ?_
  have made : Ty.ofFloatWidth (.int n) = .ok (.float (.ofNat n)) := by
    rcases h with rfl | rfl | rfl <;> rfl
  exact congrArg intern made

theorem writable_count {n : Option Nat} (h : ∀ m, n = some m → FewDigits m) : (count n).Writable := by
  cases n with
  | none => trivial
  | some n => exact h n rfl

theorem carries_register {n : Option Nat} (few : ∀ m, n = some m → FewDigits m) (h : ∀ m, n = some m → 1 < m) :
    Carries (registered "quantum.RegisterType" [("size", count n)]) (.type (.register n)) := by
  refine carries_of_intern rfl ⟨by simp [kindField], writable_count few, trivial, trivial⟩ fun read => ?_
  have made : Ty.ofRegisterSize (rawAttr (count n)) = .ok (.register n) := by
    cases n with
    | none => rfl
    | some n => simp [count, rawAttr, Ty.ofRegisterSize, h n rfl]
  exact congrArg intern made

theorem eq_base_of_settled {y : Attr} {b : GateBase} (h : y.settled = (Attr.type b.ty).settled) : y = .type b.ty := by
  cases y with
  | type t =>
    have same : t.same b.ty = true := Ty.same_iff.mpr (Attr.type.inj h)
    rw [Ty.base?_eq_some_iff.mp ((Ty.base?_eq_of_same same).trans (Ty.base?_ty b))]
  | _ => cases h

theorem carries_controlled {b : GateBase} {n : Option Nat} {base : Json} (few : ∀ m, n = some m → FewDigits m)
    (h : ∀ m, n = some m → 0 < m) (hbase : Carries base (.type b.ty)) :
    Carries (registered "quantum.ControlledGateType" [("base", base), ("num_ctrls", count n)])
      (.type (.controlled b n)) := by
  refine carries_obj rfl ⟨by simp [kindField], hbase.writable, writable_count few, trivial, trivial⟩
    fun depth c hd => ?_
  have nested : base.depth < depth := by
    simp only [List.cons_append, List.nil_append, Json.depthFields] at hd
    omega
  -- the base is read first, and the gate is made in the context that it leaves
  obtain ⟨y, d, hload, same, exact_⟩ := hbase.restores depth c nested
  obtain rfl := eq_base_of_settled same
  obtain ⟨z, e, hkept, like, kept⟩ := restores_intern (.controlled b n) d
  have made : Ty.ofBaseAndCount (.type b.ty) (rawAttr (count n)) = .ok (.controlled b n) := by
    cases n with
    | none => simp [count, rawAttr, Ty.ofBaseAndCount, Attr.type?]
    | some n => simp [count, rawAttr, Ty.ofBaseAndCount, Attr.type?, h n rfl]
  refine ⟨z, e, ?_, like, fun hc ht => kept (exact_ hc (by cases b <;> rfl)).1 ht⟩
  show Loads (do
    let base ← readWithin depth (← field _ "base")
    intern (Ty.ofBaseAndCount base (rawAttr (← field _ "num_ctrls")))) c _ e
  refine loads_bind.mpr ⟨base, c, loads_field.mpr ⟨rfl, rfl⟩, loads_bind.mpr ⟨_, d, hload, ?_⟩⟩
  refine loads_bind.mpr ⟨count n, d, loads_field.mpr ⟨rfl, rfl⟩, ?_⟩
  rw [made]
  exact hkept

theorem carries_truthWidth : Carries (registered "quantir.IntegerType" [("width", .bool true)])
    (.type (.integer ⟨1, .bool⟩)) :=
  carries_of_intern rfl ⟨by simp [kindField], trivial, trivial, trivial⟩ fun _ => rfl

theorem carries_type {t : Ty} (h : t.Readable) : ∃ j, type t = .ok j ∧ Carries j (.type t) := by
  cases t with
  | index => exact ⟨_, rfl, carries_of_intern rfl ⟨by simp, trivial, trivial⟩ fun _ => rfl⟩
  | integer w =>
    obtain ⟨n, form⟩ := w
    obtain rfl : form = .int := by simpa [Ty.plain, Width.ofNat, eq_comm] using h.plain
    exact ⟨_, rfl, carries_integer h.wellFormed⟩
  | float w =>
    obtain ⟨n, form⟩ := w
    obtain rfl : form = .int := by simpa [Ty.plain, Width.ofNat, eq_comm] using h.plain
    exact ⟨_, rfl, carries_float_type h.wellFormed⟩
  | qubit => exact ⟨_, rfl, carries_of_intern rfl ⟨by simp, trivial, trivial⟩ fun _ => rfl⟩
  | register n =>
    refine ⟨_, rfl, carries_register (fun m hm => h.few m hm) fun m hm => ?_⟩
    subst hm
    exact h.wellFormed
  | gate1 => exact carries_base .gate1
  | gate2 => exact carries_base .gate2
  | circuit => exact carries_base .circuit
  | controlled b n =>
    obtain ⟨base, hbase, carried⟩ := carries_base b
    have positive : ∀ m, n = some m → 0 < m := by
      intro m hm
      subst hm
      exact h.wellFormed
    have := carries_controlled (fun m hm => h.few m hm) positive carried
    cases b with
    | gate1 => cases hbase; exact ⟨_, rfl, this⟩
    | gate2 => cases hbase; exact ⟨_, rfl, this⟩
    | circuit => cases hbase; exact ⟨_, rfl, this⟩
  | abstract => exact absurd rfl h.concrete

theorem carries_integral {t : Ty} (h : t.Integral) : ∃ j, type t = .ok j ∧ Carries j (.type t) := by
  rcases h with h | rfl
  · exact carries_type h
  · exact ⟨_, rfl, carries_truthWidth⟩

/-! ## Values with parts -/

theorem carriesAll_nil : CarriesAll [] [] := ⟨trivial, fun _ _ _ => restores_pure⟩

theorem carriesAll_cons {j : Json} {js : List Json} {a : Attr} {as : List Attr} (h : Carries j a)
    (hs : CarriesAll js as) :
    CarriesAll (j :: js) (a :: as) := by
  refine ⟨⟨h.writable, hs.writable⟩, fun depth c hd => ?_⟩
  rw [Json.depthItems, Nat.max_lt] at hd
  exact (h.restores depth c hd.1).cons fun d => hs.restores depth d hd.2

theorem carriesEntries_nil : CarriesEntries [] [] := ⟨rfl, trivial, fun _ _ _ => restores_pure⟩

theorem carriesEntries_cons {k : String} {j : Json} {fields : List (String × Json)} {a : Attr}
    {entries : List (String × Attr)} (h : Carries j a) (hs : CarriesEntries fields entries) :
    CarriesEntries ((k, j) :: fields) ((k, a) :: entries) := by
  refine ⟨by rw [List.map_cons, hs.keys, List.map_cons], ⟨h.writable, hs.writable⟩, fun depth c hd => ?_⟩
  rw [Json.depthFields, Nat.max_lt] at hd
  have entry : Restores (Prod.map id Attr.settled) (do return (k, ← readWithin depth j)) c (k, a) :=
    (h.restores depth c hd.1).made (fun _ => rfl) fun _ _ hk => (Prod.mk.inj hk).2
  exact Restores.cons (f := fun e : String × Json => do return (e.1, ← readWithin depth e.2)) entry
    fun d => hs.restores depth d hd.2

theorem carries_items {kind : String} {f : List Attr → Attr} {js : List Json} {as : List Attr}
    (hread : ∀ read fields,
      readKind read kind fields = do return f (← readItems read (← iterate (← field fields "items"))))
    (hf : ∀ as, (f as).settled = f (as.map Attr.settled)) (inj : Function.Injective f)
    (h : CarriesAll js as) : Carries (plain kind [("items", .arr js)]) (f as) := by
  refine carries_obj rfl ⟨by simp [kindField], trivial, h.writable, trivial⟩ fun depth c hd => ?_
  have nested : Json.depthItems js < depth := by
    simp only [Json.depth, Json.depthFields] at hd
    omega
  rw [hread]
  exact (h.restores depth c nested).made hf inj

section
variable {js : List Json} {as : List Attr} (h : CarriesAll js as)
include h

theorem carries_list : Carries (plain "_list" [("items", .arr js)]) (.list as) :=
  carries_items (fun _ _ => rfl) (fun as => congrArg Attr.list (Attr.mapItems_eq _ _ as)) (fun _ _ => Attr.list.inj) h

theorem carries_tuple : Carries (plain "_tuple" [("items", .arr js)]) (.tuple as) :=
  carries_items (fun _ _ => rfl) (fun as => congrArg Attr.tuple (Attr.mapItems_eq _ _ as)) (fun _ _ => Attr.tuple.inj) h

end

def textEntries (es : List (String × Attr)) : List (Attr × Attr) := es.map fun e => (.str e.1, e.2)

section
variable (es : List (String × Attr))

theorem map_textEntries (f : Double → Double) (g : Ty → Ty) :
    (Attr.dict (textEntries es)).map f g = .dict (textEntries (es.map (Prod.map id (Attr.map f g)))) := by
  rw [Attr.map, Attr.mapEntries_eq, textEntries, textEntries, List.map_map, List.map_map]
  rfl

theorem textKeys_textEntries : textKeys (textEntries es) = true := by
  induction es with
  | nil => rfl
  | cons e es ih => exact ih

theorem fields_textEntries : fields (textEntries es) = tags es := by
  induction es with
  | nil => rfl
  | cons e es ih =>
    rw [tags, ← ih]
    rfl

theorem attr_textEntries :
    attr (.dict (textEntries es)) = (tags es).map fun fs => plain "_dict" [("items", .obj fs)] := by
  rw [attr, textKeys_textEntries, fields_textEntries]

end

theorem textEntries_injective : Function.Injective fun es => Attr.dict (textEntries es) := by
  intro es es' h
  refine List.map_injective_iff.mpr (fun e e' h => ?_) (Attr.dict.inj h)
  obtain ⟨hk, hv⟩ := Prod.mk.inj h
  exact Prod.ext (Attr.str.inj hk) hv

theorem carries_dict {fields : List (String × Json)} {entries : List (String × Attr)}
    (h : CarriesEntries fields entries) (hn : (entries.map (·.1)).Nodup) :
    Carries (plain "_dict" [("items", .obj fields)]) (.dict (textEntries entries)) := by
  refine carries_obj rfl ⟨by simp [kindField], trivial, ⟨by rw [h.keys]; exact hn, h.writable⟩, trivial⟩
    fun depth c hd => ?_
  have nested : Json.depthFields fields < depth := by
    simp only [Json.depth, Json.depthFields] at hd
    omega
  exact (h.restores depth c nested).made (fun es => map_textEntries es _ _) textEntries_injective

/-! ## Values -/

def quietValues (es : List (String × Attr)) : List (String × Attr) := es.map (Prod.map id Attr.quiet)

theorem Carries.of_quiet {j : Json} {a : Attr} (h : Carries j a) (hj : attr a = .ok j) (ha : a.quiet = a) :
    ∃ j, attr a = .ok j ∧ attr a.quiet = .ok j.quiet ∧ Carries j.quiet a.quiet := by
  refine ⟨j, hj, ?_⟩
  rw [ha, h.writable.quiet]
  exact ⟨hj, h⟩

mutual

/-- **A value has a serialized form**, and with quiet NaNs, which the text does not tell from others, it is read from
that form. -/
theorem carries_attr : (a : Attr) → a.Serializable →
    ∃ j, attr a = .ok j ∧ attr a.quiet = .ok j.quiet ∧ Carries j.quiet a.quiet
  | .none, _ => carries_none.of_quiet rfl rfl
  | .bool b, _ => (carries_bool b).of_quiet rfl rfl
  | .int _, h => (carries_int h).of_quiet rfl rfl
  | .float x, h => ⟨_, rfl, rfl, carries_float ⟨x.quiet_quiet, Double.quiet_lt h⟩⟩
  | .str s, _ => (carries_str s).of_quiet rfl rfl
  | .symbol (.text s), _ => (carries_symbol s).of_quiet rfl rfl
  | .constant _, h => (carries_constant h).of_quiet rfl rfl
  | .dynamic, _ => carries_dynamic.of_quiet rfl rfl
  | .accessors a, _ => (carries_accessors a).of_quiet rfl rfl
  | .type _, h => by
    obtain ⟨j, hj, carried⟩ := carries_integral h
    exact carried.of_quiet hj rfl
  | .array _, h => (carries_array h).of_quiet rfl rfl
  | .list items, h => by
    obtain ⟨js, hjs, hquiet, carried⟩ := carries_attrs items h
    refine ⟨plain "_list" [("items", .arr js)], by rw [attr, hjs]; rfl, ?_, carries_list carried⟩
    rw [Attr.quiet, Attr.map, attr, hquiet]
    rfl
  | .tuple items, h => by
    obtain ⟨js, hjs, hquiet, carried⟩ := carries_attrs items h
    refine ⟨plain "_tuple" [("items", .arr js)], by rw [attr, hjs]; rfl, ?_, carries_tuple carried⟩
    rw [Attr.quiet, Attr.map, attr, hquiet]
    rfl
  | .dict entries, h => by
    obtain ⟨es, rfl, distinct, fs, hfs, hquiet, carried⟩ := carries_entries entries h
    have same : (quietValues es).map (·.1) = es.map (·.1) := by rw [quietValues, List.map_map]; rfl
    have quiet : (Attr.dict (textEntries es)).quiet = .dict (textEntries (quietValues es)) := map_textEntries ..
    refine ⟨plain "_dict" [("items", .obj fs)], by rw [attr_textEntries, hfs]; rfl, ?_, ?_⟩
    · rw [quiet, attr_textEntries, hquiet]
      rfl
    · rw [quiet]
      exact carries_dict carried (by rw [same]; exact distinct)

theorem carries_attrs : (as : List Attr) → Attr.AllSerializable as →
    ∃ js, attrs as = .ok js ∧ attrs (Attr.mapItems Double.quiet id as) = .ok (Json.quietItems js) ∧
      CarriesAll (Json.quietItems js) (Attr.mapItems Double.quiet id as)
  | [], _ => ⟨[], rfl, rfl, carriesAll_nil⟩
  | a :: as, h => by
    obtain ⟨j, hj, hquiet, first⟩ := carries_attr a h.1
    obtain ⟨js, hjs, hquiets, rest⟩ := carries_attrs as h.2
    refine ⟨j :: js, by rw [attrs, hj, hjs]; rfl, ?_, carriesAll_cons first rest⟩
    rw [Attr.quiet] at hquiet
    rw [Attr.mapItems, attrs, hquiet, hquiets]
    rfl

theorem carries_entries : (entries : List (Attr × Attr)) → Attr.EntriesSerializable entries →
    ∃ es, entries = textEntries es ∧ (es.map (·.1)).Nodup ∧
      ∃ fs, tags es = .ok fs ∧ tags (quietValues es) = .ok (Json.quietFields fs) ∧
        CarriesEntries (Json.quietFields fs) (quietValues es)
  | [], _ => ⟨[], rfl, List.nodup_nil, [], rfl, rfl, carriesEntries_nil⟩
  | (.str k, v) :: entries, h => by
    obtain ⟨j, hj, hquiet, first⟩ := carries_attr v h.2.2.1
    obtain ⟨es, rfl, distinct, fs, hfs, hquiets, rest⟩ := carries_entries entries h.2.2.2
    refine ⟨(k, v) :: es, rfl, List.nodup_cons.mpr ⟨fun hk => ?_, distinct⟩, (k, j) :: fs,
      by rw [tags, hj, hfs]; rfl, ?_, carriesEntries_cons first rest⟩
    · obtain ⟨e, he, hek⟩ := List.mem_map.mp hk
      exact h.2.1 _ (List.mem_map_of_mem he) (congrArg Attr.str hek)
    · show tags ((k, v.quiet) :: quietValues es) = _
      rw [tags, hquiet, hquiets]
      rfl

end

/-! ## Portable values -/

/-- A portable value is read from its serialized form. -/
theorem carries_portable {a : Attr} (h : a.Portable) : ∃ j, attr a = .ok j ∧ Carries j a := by
  obtain ⟨j, -, hj, carried⟩ := carries_attr a h.serializable
  rw [Attr.quiet_of_settled h.settled] at hj carried
  exact ⟨j.quiet, hj, carried⟩

theorem map_settled_portable {entries : List (String × Attr)} (h : ∀ e ∈ entries, e.2.Portable) :
    entries.map (Prod.map id Attr.settled) = entries :=
  (List.map_congr_left fun e he => congrArg (Prod.mk e.1) (h e he).settled).trans (List.map_id _)

theorem carries_tags {entries : List (String × Attr)} (h : ∀ e ∈ entries, e.2.Portable) :
    ∃ fs, tags entries = .ok fs ∧ CarriesEntries fs entries := by
  induction entries with
  | nil => exact ⟨[], rfl, carriesEntries_nil⟩
  | cons e entries ih =>
    obtain ⟨hv, hrest⟩ := List.forall_mem_cons.mp h
    obtain ⟨j, hj, first⟩ := carries_portable hv
    obtain ⟨fs, hfs, rest⟩ := ih hrest
    exact ⟨(e.1, j) :: fs, by rw [tags, hj, hfs]; rfl, carriesEntries_cons first rest⟩

end Wire

end GateAsm
