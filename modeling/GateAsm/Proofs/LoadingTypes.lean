import GateAsm.Proofs.Interning
import GateAsm.Proofs.Loading

/-!
# What loading does to a context

The reader of serialized values changes the context by asking for types only, so whatever it reads, and
whether it succeeds or not, the context grows (`Wire.grows_read`). The types in its answer are then all kept
(`Wire.kept_read`).
-/

namespace GateAsm

namespace Wire

/-- Whatever comes of the step, the context has grown. -/
def Keeps {α : Type} (p : Loader α) : Prop := ∀ c : TypeContext, c.Grows (p c).2

/-! ## Control -/

section
variable {α β : Type}

theorem keeps_pure (a : α) : Keeps (pure a : Loader α) := fun c => .refl c

theorem keeps_throw (f : WireFault) : Keeps (throw f : Loader α) := fun c => .refl c

theorem grows_bind {p : Loader α} {f : α → Loader β} {c : TypeContext} (hp : c.Grows (p c).2)
    (hf : ∀ a d, Loads p c a d → d.Grows (f a d).2) : c.Grows ((p >>= f) c).2 := by
  rw [bind_apply]
  cases h : p c with
  | mk answer d =>
    rw [h] at hp
    cases answer with
    | error e => exact hp
    | ok a => exact hp.trans (hf a d h)

theorem keeps_bind {p : Loader α} {f : α → Loader β} (hp : Keeps p) (hf : ∀ a, Keeps (f a)) : Keeps (p >>= f) :=
  fun c => grows_bind (hp c) fun a d _ => hf a d

theorem keeps_ite {q : Prop} [Decidable q] {p p' : Loader α} (hp : Keeps p) (hp' : Keeps p') :
    Keeps (if q then p else p') := by
  split
  · exact hp
  · exact hp'

theorem keeps_mapM {f : α → Loader β} (hf : ∀ a, Keeps (f a)) (as : List α) : Keeps (as.mapM f) := by
  induction as with
  | nil => exact keeps_pure []
  | cons a as ih =>
    rw [List.mapM_cons]
    exact keeps_bind (hf a) fun b => keeps_bind ih fun bs => keeps_pure (b :: bs)

theorem keeps_foldlM {f : β → α → Loader β} (hf : ∀ x a, Keeps (f x a)) (as : List α) (x : β) :
    Keeps (as.foldlM f x) := by
  induction as generalizing x with
  | nil => exact keeps_pure x
  | cons a as ih =>
    rw [List.foldlM_cons]
    exact keeps_bind (hf x a) ih

/-! ## Parts of a value -/

theorem keeps_field (fields : List (String × Json)) (key : String) : Keeps (field fields key) := by
  unfold field
  split
  · exact keeps_pure _
  · exact keeps_throw _

theorem keeps_ofShape (x : Except Mismatch α) : Keeps (ofShape x) := by
  cases x with
  | ok a => exact keeps_pure a
  | error m => exact keeps_throw _

theorem keeps_change (x : Except BlockFault α) : Keeps (change x) := by
  unfold change
  split
  · exact keeps_pure _
  · exact keeps_throw _
  · exact keeps_throw _

end

theorem keeps_iterate (j : Json) : Keeps (iterate j) := by
  unfold iterate
  split
  · exact keeps_pure _
  · exact keeps_pure _
  · exact keeps_pure _
  · exact keeps_throw _

theorem keeps_fieldsOf (j : Json) : Keeps (fieldsOf j) := by
  unfold fieldsOf
  split
  · exact keeps_pure _
  · exact keeps_throw _

theorem keeps_operand (b : Block) (j : Json) : Keeps (operand b j) := by
  unfold operand
  refine keeps_ite (keeps_throw _) ?_
  split
  · exact keeps_pure _
  · exact keeps_throw _

theorem keeps_intern {t : Except TypeFault Ty} (ht : ∀ u, t = .ok u → u.Made ∧ u.tyClass ≠ .controlled) :
    Keeps (intern t) := by
  intro c
  cases t with
  | error f => exact .refl c
  | ok t =>
    refine TypeContext.grows_intern (ht t rfl).1 fun b n h => ?_
    subst h
    exact absurd rfl (ht _ rfl).2

theorem grows_intern_controlled {base count : Attr} {c : TypeContext} (hb : ∀ b, base = .type b → ⟨b, []⟩ ∈ c.stored) :
    c.Grows (intern (Ty.ofBaseAndCount base count) c).2 := by
  cases ht : Ty.ofBaseAndCount base count with
  | error f => exact .refl c
  | ok t =>
    refine TypeContext.grows_intern (Ty.made_ofBaseAndCount ht) fun b n h => ?_
    obtain ⟨b', n', typed, rfl⟩ := Ty.base_ofBaseAndCount ht
    cases h
    exact hb _ typed

/-! ## Arrays -/

theorem keeps_element (j : Json) : Keeps (element j) := by
  unfold element
  split
  · exact keeps_pure _
  · split
    · exact keeps_pure _
    · exact keeps_throw _
    · exact keeps_pure _
  · exact keeps_pure _
  · exact keeps_pure _
  · exact keeps_throw _
  · exact keeps_throw _
  · exact keeps_throw _
  · exact keeps_throw _

theorem keeps_bytes (j : Json) : Keeps (bytes j) := by
  unfold bytes
  split
  · refine keeps_ite (keeps_throw _) ?_
    split
    · exact keeps_pure _
    · exact keeps_throw _
  · exact keeps_throw _

theorem keeps_extent (j : Json) : Keeps (extent j) := by
  unfold extent
  split
  · exact keeps_ite (keeps_pure _) (keeps_throw _)
  · exact keeps_throw _

theorem keeps_readArray (fields : List (String × Json)) : Keeps (readArray fields) := by
  refine keeps_bind (keeps_field _ _) fun _ => keeps_bind (keeps_element _) fun stated =>
    keeps_bind (keeps_field _ _) fun _ => keeps_bind (keeps_iterate _) fun shape =>
    keeps_bind (keeps_field _ _) fun _ => keeps_bind (keeps_bytes _) fun buffer =>
    keeps_bind (keeps_ofShape _) fun e => ?_
  refine keeps_ite (keeps_throw _) (keeps_bind (keeps_mapM keeps_extent _) fun extents => ?_)
  split
  · exact keeps_pure _
  · exact keeps_throw _

end Wire

/-! ## Types in a value -/

inductive Attr.Mentions (t : Ty) : Attr → Prop
  | type : Mentions t (.type t)
  | list {items : List Attr} {a : Attr} : a ∈ items → Mentions t a → Mentions t (.list items)
  | tuple {items : List Attr} {a : Attr} : a ∈ items → Mentions t a → Mentions t (.tuple items)
  | key {entries : List (Attr × Attr)} {e : Attr × Attr} : e ∈ entries → Mentions t e.1 → Mentions t (.dict entries)
  | value {entries : List (Attr × Attr)} {e : Attr × Attr} : e ∈ entries → Mentions t e.2 → Mentions t (.dict entries)

namespace Wire

def Kept (c : TypeContext) (a : Attr) : Prop := ∀ t, a.Mentions t → ⟨t, []⟩ ∈ c.stored

def Answers (p : Loader Attr) : Prop := ∀ c a d, Loads p c a d → Kept d a

theorem Kept.grows {c d : TypeContext} {a : Attr} (h : Kept c a) (hd : c.Grows d) : Kept d a :=
  fun t ht => hd.mem (h t ht)

theorem Loads.grows {α : Type} {p : Loader α} {c d : TypeContext} {a : α} (h : Loads p c a d) (hp : Keeps p) :
    c.Grows d := by
  have := hp c
  rwa [h] at this

theorem answers_pure {a : Attr} (h : ∀ t, ¬ a.Mentions t) : Answers (pure a) := by
  intro c b d hl
  obtain ⟨rfl, rfl⟩ := loads_pure.mp hl
  exact fun t ht => absurd ht (h t)

theorem answers_throw (f : WireFault) : Answers (throw f) := fun _ _ _ h => absurd h not_loads_throw

theorem answers_bind {α : Type} {p : Loader α} {f : α → Loader Attr} (hf : ∀ x, Answers (f x)) :
    Answers (p >>= f) := by
  intro c a d h
  obtain ⟨x, e, -, second⟩ := loads_bind.mp h
  exact hf x e a d second

theorem answers_ite {q : Prop} [Decidable q] {p p' : Loader Attr} (hp : Answers p) (hp' : Answers p') :
    Answers (if q then p else p') := by
  split
  · exact hp
  · exact hp'

theorem answers_intern (t : Except TypeFault Ty) : Answers (intern t) := by
  intro c a d h
  obtain ⟨u, hu, rfl, rfl⟩ := loads_intern.mp h
  intro v hv
  cases hv
  exact c.intern_mem u

theorem answers_readArray (fields : List (String × Json)) : Answers (readArray fields) := by
  refine answers_bind fun _ => answers_bind fun stated => answers_bind fun _ => answers_bind fun shape =>
    answers_bind fun _ => answers_bind fun buffer => answers_bind fun e => ?_
  refine answers_ite (answers_throw _) (answers_bind fun extents => ?_)
  split
  · exact answers_pure nofun
  · exact answers_throw _

theorem answers_mapM {α β : Type} {f : α → Loader β} (hf : ∀ x, Keeps (f x)) {g : β → Attr}
    (answers : ∀ x c b d, Loads (f x) c b d → Kept d (g b)) {xs : List α} {c d : TypeContext} {bs : List β}
    (h : Loads (xs.mapM f) c bs d) : ∀ b ∈ bs, Kept d (g b) := by
  induction xs generalizing c bs with
  | nil => obtain ⟨rfl, -⟩ := loads_mapM_nil.mp h; nofun
  | cons x xs ih =>
    obtain ⟨b, e, bs, first, rest, rfl⟩ := loads_mapM_cons.mp h
    intro y hy
    rcases List.mem_cons.mp hy with rfl | hy
    · exact (answers x c y e first).grows (rest.grows (keeps_mapM hf xs))
    · exact ih rest y hy

/-! ## Values -/

section
variable {read : Json → Loader Attr} (hr : ∀ j, Keeps (read j)) (ha : ∀ j, Answers (read j))
include hr

theorem keeps_readComponents (js : List Json) : Keeps (readComponents read js) := by
  refine keeps_mapM (fun j => keeps_bind (hr j) fun a => ?_) js
  split
  · exact keeps_throw _
  · exact keeps_pure _

theorem keeps_readEntries (entries : List (String × Json)) : Keeps (readEntries read entries) := by
  refine keeps_mapM (fun e => ?_) entries
  exact keeps_bind (hr e.2) fun _ => keeps_pure _

theorem keeps_readInputs (js : List Json) (b : Block) : Keeps (readInputs read b js) := by
  induction js generalizing b with
  | nil => exact keeps_pure b
  | cons j js ih =>
    exact keeps_bind (keeps_fieldsOf j) fun fields => keeps_bind (keeps_field _ _) fun _ =>
      keeps_bind (keeps_field _ _) fun _ => keeps_bind (hr _) fun _ => keeps_bind (keeps_change _) fun _ => ih _

theorem keeps_readOperation (b : Block) (j : Json) : Keeps (readOperation read b j) := by
  refine keeps_bind (keeps_fieldsOf j) fun fields => keeps_bind (keeps_field _ _) fun _ =>
    keeps_bind (keeps_field _ _) fun _ => keeps_bind (keeps_iterate _) fun _ =>
    keeps_bind (keeps_mapM (keeps_operand b) _) fun operands => keeps_bind (keeps_field _ _) fun attrs => ?_
  extract_lets rest
  have keeps_rest : ∀ attrs, Keeps (rest attrs) := by
    intro attrs
    refine keeps_bind (keeps_field _ _) fun _ => keeps_bind (keeps_iterate _) fun results =>
      keeps_bind (keeps_mapM ?_ results) fun _ => keeps_bind (keeps_mapM ?_ results) fun _ => ?_
    · exact fun r => keeps_bind (keeps_fieldsOf r) fun _ => keeps_bind (keeps_field _ _) fun _ => hr _
    · exact fun r => keeps_bind (keeps_fieldsOf r) fun _ => keeps_bind (keeps_field _ _) fun _ => keeps_pure _
    · split
      · exact keeps_pure _
      · exact keeps_throw _
  split
  · exact keeps_bind (keeps_readEntries hr _) keeps_rest
  · exact keeps_bind (keeps_throw _) keeps_rest

theorem keeps_readBlock (fields : List (String × Json)) : Keeps (readBlock read fields) :=
  keeps_bind (keeps_field _ _) fun _ => keeps_bind (keeps_iterate _) fun _ =>
    keeps_bind (keeps_readInputs hr _ _) fun _ => keeps_bind (keeps_field _ _) fun _ =>
    keeps_bind (keeps_iterate _) fun ops => keeps_foldlM (keeps_readOperation hr) ops _

theorem keeps_readRegistered (kind : String) (fields : List (String × Json)) :
    Keeps (readRegistered read kind fields) := by
  unfold readRegistered
  split
  · refine keeps_bind (keeps_field _ _) fun _ => ?_
    split
    · exact keeps_ite (keeps_pure _) (keeps_throw _)
    · exact keeps_throw _
  · exact keeps_pure _
  · refine keeps_bind (keeps_field _ _) fun _ => keeps_bind (keeps_iterate _) fun _ =>
      keeps_bind (keeps_readComponents hr _) fun _ => ?_
    split
    · exact keeps_pure _
    · exact keeps_throw _
  · exact keeps_bind (keeps_field _ _) fun _ => keeps_pure _
  · refine keeps_bind (keeps_readBlock hr _) fun _ => ?_
    split
    · exact keeps_pure _
    · exact keeps_throw _
  · exact keeps_throw _

include ha

theorem keeps_readType? {kind : String} {fields : List (String × Json)} {p : Loader Attr}
    (h : readType? read kind fields = some p) : Keeps p := by
  have width : ∀ (make : Attr → Except TypeFault Ty) (key : String),
      (∀ {a u}, make a = .ok u → u.Made ∧ u.tyClass ≠ .controlled) →
      Keeps (field fields key >>= fun j => intern (make (rawAttr j))) := fun make key hm =>
    keeps_bind (keeps_field _ _) fun _ => keeps_intern fun _ => hm
  have plain : ∀ t : Ty, t.Made → t.tyClass ≠ .controlled → Keeps (intern (.ok t)) := fun t ht hc =>
    keeps_intern fun u hu => Except.ok.inj hu ▸ ⟨ht, hc⟩
  unfold readType? at h
  split at h
  · cases h; exact plain _ trivial nofun
  · cases h; exact width _ _ fun h => ⟨Ty.made_ofIntegerWidth h, by rw [Ty.tyClass_ofIntegerWidth h]; nofun⟩
  · cases h; exact width _ _ fun h => ⟨Ty.made_ofFloatWidth h, by rw [Ty.tyClass_ofFloatWidth h]; nofun⟩
  · cases h; exact plain _ trivial nofun
  · cases h; exact width _ _ fun h => ⟨Ty.made_ofRegisterSize h, by rw [Ty.tyClass_ofRegisterSize h]; nofun⟩
  · cases h; exact plain _ trivial nofun
  · cases h; exact plain _ trivial nofun
  · cases h; exact plain _ trivial nofun
  · cases h
    refine keeps_bind (keeps_field _ _) fun j c => grows_bind (hr j c) fun base d hbase => ?_
    refine grows_bind (keeps_field _ _ d) fun n e hn => grows_intern_controlled fun b hb => ?_
    obtain ⟨-, rfl⟩ := loads_field.mp hn
    exact ha j c base _ hbase b (hb ▸ .type)
  · cases h

theorem keeps_readKind (kind : String) (fields : List (String × Json)) : Keeps (readKind read kind fields) := by
  have items : ∀ f : List Attr → Attr, Keeps (field fields "items" >>= fun j => iterate j >>= fun js =>
      readItems read js >>= fun as => pure (f as)) := fun f =>
    keeps_bind (keeps_field _ _) fun _ => keeps_bind (keeps_iterate _) fun js =>
      keeps_bind (keeps_mapM hr js) fun _ => keeps_pure _
  unfold readKind
  split
  · exact keeps_pure _
  · exact keeps_bind (keeps_field _ _) fun _ => keeps_pure _
  · exact keeps_bind (keeps_field _ _) fun _ => keeps_bind (keeps_ofShape _) fun _ => keeps_pure _
  · exact keeps_bind (keeps_field _ _) fun _ => keeps_bind (keeps_ofShape _) fun _ => keeps_pure _
  · exact keeps_bind (keeps_field _ _) fun _ => keeps_pure _
  · exact items .list
  · exact items .tuple
  · refine keeps_bind (keeps_field _ _) fun _ => ?_
    split
    · exact keeps_bind (keeps_readEntries hr _) fun _ => keeps_pure _
    · exact keeps_throw _
  · exact keeps_readArray fields
  · split
    · next h => exact keeps_readType? hr ha h
    · exact keeps_readRegistered hr _ _

theorem keeps_readObject (j : Json) : Keeps (readObject read j) := by
  unfold readObject
  split
  · split
    · exact keeps_throw _
    · exact keeps_throw _
    · exact keeps_throw _
    · exact keeps_readKind hr ha _ _
    · exact keeps_throw _
  · exact keeps_throw _

theorem answers_items {f : List Attr → Attr} (hf : ∀ as t, (f as).Mentions t → ∃ a ∈ as, a.Mentions t)
    (fields : List (String × Json)) : Answers (field fields "items" >>= fun j => iterate j >>= fun js =>
      readItems read js >>= fun as => pure (f as)) := by
  refine answers_bind fun _ => answers_bind fun js => ?_
  intro c a d h
  obtain ⟨as, e, items, h⟩ := loads_bind.mp h
  obtain ⟨rfl, rfl⟩ := loads_pure.mp h
  intro t ht
  obtain ⟨b, hb, ht⟩ := hf as t ht
  exact answers_mapM hr (g := id) ha items b hb t ht

omit hr ha in
theorem answers_readType? {kind : String} {fields : List (String × Json)} {p : Loader Attr}
    (h : readType? read kind fields = some p) : Answers p := by
  unfold readType? at h
  split at h
  · cases h; exact answers_intern _
  · cases h; exact answers_bind fun _ => answers_intern _
  · cases h; exact answers_bind fun _ => answers_intern _
  · cases h; exact answers_intern _
  · cases h; exact answers_bind fun _ => answers_intern _
  · cases h; exact answers_intern _
  · cases h; exact answers_intern _
  · cases h; exact answers_intern _
  · cases h
    exact answers_bind fun _ => answers_bind fun _ => answers_bind fun _ => answers_intern _
  · cases h

omit hr ha in
theorem answers_readRegistered (kind : String) (fields : List (String × Json)) :
    Answers (readRegistered read kind fields) := by
  unfold readRegistered
  split
  · refine answers_bind fun _ => ?_
    split
    · exact answers_ite (answers_pure nofun) (answers_throw _)
    · exact answers_throw _
  · exact answers_pure nofun
  · refine answers_bind fun _ => answers_bind fun _ => answers_bind fun _ => ?_
    split
    · exact answers_pure nofun
    · exact answers_throw _
  · exact answers_bind fun _ => answers_pure nofun
  · refine answers_bind fun _ => ?_
    split
    · exact answers_pure nofun
    · exact answers_throw _
  · exact answers_throw _

theorem answers_readKind (kind : String) (fields : List (String × Json)) : Answers (readKind read kind fields) := by
  unfold readKind
  split
  · exact answers_pure nofun
  · exact answers_bind fun _ => answers_pure nofun
  · exact answers_bind fun _ => answers_bind fun _ => answers_pure nofun
  · exact answers_bind fun _ => answers_bind fun _ => answers_pure nofun
  · exact answers_bind fun _ => answers_pure nofun
  · exact answers_items hr ha (fun _ _ h => by cases h with | list hm h => exact ⟨_, hm, h⟩) fields
  · exact answers_items hr ha (fun _ _ h => by cases h with | tuple hm h => exact ⟨_, hm, h⟩) fields
  · refine answers_bind fun _ => ?_
    split
    · next entries =>
      intro c a d h
      obtain ⟨es, e, loaded, h⟩ := loads_bind.mp h
      obtain ⟨rfl, rfl⟩ := loads_pure.mp h
      have kept : ∀ x ∈ es, Kept d x.2 := by
        refine answers_mapM (fun x => ?_) (fun x c y d hy => ?_) loaded
        · exact keeps_bind (hr x.2) fun _ => keeps_pure _
        · obtain ⟨v, e, hv, hy⟩ := loads_bind.mp hy
          obtain ⟨rfl, rfl⟩ := loads_pure.mp hy
          exact ha x.2 c v _ hv
      intro t ht
      cases ht with
      | key he h =>
        obtain ⟨x, -, rfl⟩ := List.mem_map.mp he
        cases h
      | value he h =>
        obtain ⟨x, hx, rfl⟩ := List.mem_map.mp he
        exact kept x hx t h
    · exact answers_throw _
  · exact answers_readArray fields
  · split
    · next h => exact answers_readType? h
    · exact answers_readRegistered _ _

theorem answers_readObject (j : Json) : Answers (readObject read j) := by
  unfold readObject
  split
  · split
    · exact answers_throw _
    · exact answers_throw _
    · exact answers_throw _
    · exact answers_readKind hr ha _ _
    · exact answers_throw _
  · exact answers_throw _

end

/-- Reading a value lets the context grow, and the types in what is read are kept; both by induction on the depth,
since the base of a gate under control qubits has to be kept for the gate to be taken. -/
theorem keeps_answers_readWithin (depth : Nat) : ∀ j, Keeps (readWithin depth j) ∧ Answers (readWithin depth j) := by
  induction depth with
  | zero => exact fun _ => ⟨keeps_throw _, answers_throw _⟩
  | succ depth ih =>
    have keeps := fun j => (ih j).1
    have answers := fun j => (ih j).2
    exact fun j => ⟨keeps_readObject keeps answers j, answers_readObject keeps answers j⟩

/-- Reading a serialized value changes the context by the types that it asks for, also if it fails. -/
theorem grows_read (j : Json) (c : TypeContext) : c.Grows (read j c).2 := (keeps_answers_readWithin _ j).1 c

theorem kept_read {j : Json} {c d : TypeContext} {a : Attr} (h : Loads (read j) c a d) : Kept d a :=
  (keeps_answers_readWithin _ j).2 c a d h

end Wire

end GateAsm
