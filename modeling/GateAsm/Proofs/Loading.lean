import GateAsm.Wire.Read

/-!
# Steps of reading serialized values

`Loads p c a d` says that the step `p` answers `a` from the context `c` and leaves the context `d`. Each
step of the reader has one equivalence, so that a success is taken apart, or put together, part by part.
-/

namespace GateAsm.Wire

/-- The step succeeds in the context `c` with the answer `a` and leaves the context `d`. -/
def Loads {α : Type} (p : Loader α) (c : TypeContext) (a : α) (d : TypeContext) : Prop := p c = (.ok a, d)

section
variable {α β : Type} {c d : TypeContext} {a : α} {b : β}

theorem Loads.unique {p : Loader α} {a' : α} {d' : TypeContext} (h : Loads p c a d) (h' : Loads p c a' d') :
    a = a' ∧ d = d' := by
  unfold Loads at h h'
  rw [h] at h'
  cases h'
  exact ⟨rfl, rfl⟩

theorem bind_apply (p : Loader α) (f : α → Loader β) (c : TypeContext) :
    (p >>= f) c = ExceptT.bindCont f (p c).1 (p c).2 := rfl

@[simp]
theorem loads_pure {x : α} : Loads (pure x) c a d ↔ a = x ∧ d = c := by
  constructor
  · intro h
    cases h
    exact ⟨rfl, rfl⟩
  · rintro ⟨rfl, rfl⟩
    rfl

@[simp]
theorem not_loads_throw {f : WireFault} : ¬ Loads (throw f) c a d := by
  intro h
  cases h

@[simp]
theorem loads_bind {p : Loader α} {f : α → Loader β} :
    Loads (p >>= f) c b d ↔ ∃ a e, Loads p c a e ∧ Loads (f a) e b d := by
  simp only [Loads, bind_apply]
  rcases p c with ⟨f' | a, e⟩
  · constructor
    · intro h
      cases h
    · rintro ⟨a, e', he, -⟩
      cases he
  · constructor
    · intro h
      exact ⟨a, e, rfl, h⟩
    · rintro ⟨a', e', he, h⟩
      cases he
      exact h

@[simp]
theorem loads_ite {q : Prop} [Decidable q] {p p' : Loader α} :
    Loads (if q then p else p') c a d ↔ (q ∧ Loads p c a d) ∨ (¬ q ∧ Loads p' c a d) := by
  by_cases h : q <;> simp [h]

@[simp]
theorem loads_get {x : TypeContext} : Loads get c x d ↔ x = c ∧ d = c := by
  constructor
  · intro h
    cases h
    exact ⟨rfl, rfl⟩
  · rintro ⟨rfl, rfl⟩
    rfl

@[simp]
theorem loads_set {e : TypeContext} {x : PUnit} : Loads (set e) c x d ↔ d = e := by
  constructor
  · intro h
    cases h
    rfl
  · rintro rfl
    rfl

/-! ## Parts of a value -/

@[simp]
theorem loads_field {fields : List (String × Json)} {key : String} {j : Json} :
    Loads (field fields key) c j d ↔ Json.lookup key fields = some j ∧ d = c := by
  unfold field
  cases Json.lookup key fields <;> simp [eq_comm]

theorem loads_fieldsOf {j : Json} {fields : List (String × Json)} :
    Loads (fieldsOf j) c fields d ↔ j = .obj fields ∧ d = c := by
  cases j <;> simp [fieldsOf, eq_comm]

theorem loads_change {x : Except BlockFault α} : Loads (change x) c a d ↔ x = .ok a ∧ d = c := by
  cases x with
  | ok x => simp [change, eq_comm]
  | error f => cases f <;> simp [change]

theorem loads_intern {t : Except TypeFault Ty} {x : Attr} :
    Loads (intern t) c x d ↔ ∃ u, t = .ok u ∧ x = .type (c.intern u).1 ∧ d = (c.intern u).2 := by
  cases t with
  | error f => simp [intern]
  | ok u =>
    simp only [intern, loads_bind, loads_get, loads_set, loads_pure, Except.ok.injEq, exists_eq_left']
    constructor
    · rintro ⟨_, _, ⟨rfl, rfl⟩, _, _, rfl, rfl, rfl⟩
      exact ⟨rfl, rfl⟩
    · rintro ⟨rfl, rfl⟩
      exact ⟨c, c, ⟨rfl, rfl⟩, ⟨⟩, _, rfl, rfl, rfl⟩

theorem loads_operand {b : Block} {j : Json} {id : Nat} :
    Loads (operand b j) c id d ↔ (Label.ofJson j).isKey = true ∧ b.inScope? (.ofJson j) = some id ∧ d = c := by
  unfold operand
  by_cases hk : (Label.ofJson j).isKey = true
  · cases hs : b.inScope? (.ofJson j) with
    | none => simp [hk, hs]
    | some i => simp [hk, hs, eq_comm]
  · simp [hk]

/-! ## Lists -/

@[simp]
theorem loads_mapM_nil {f : α → Loader β} {bs : List β} : Loads (List.mapM f []) c bs d ↔ bs = [] ∧ d = c := by
  simp

theorem loads_mapM_cons {f : α → Loader β} {as : List α} {bs : List β} :
    Loads (List.mapM f (a :: as)) c bs d ↔
      ∃ b e bs', Loads (f a) c b e ∧ Loads (List.mapM f as) e bs' d ∧ bs = b :: bs' := by
  simp only [List.mapM_cons, loads_bind, loads_pure]
  constructor
  · rintro ⟨b, e, hb, bs', e', hbs, rfl, rfl⟩
    exact ⟨b, e, bs', hb, hbs, rfl⟩
  · rintro ⟨b, e, bs', hb, hbs, rfl⟩
    exact ⟨b, e, hb, bs', d, hbs, rfl, rfl⟩

theorem Loads.forall_mem {f : α → Loader β} {P : β → Prop} (hf : ∀ a c b d, Loads (f a) c b d → P b) {as : List α}
    {bs : List β} (h : Loads (as.mapM f) c bs d) : ∀ b ∈ bs, P b := by
  induction as generalizing c bs with
  | nil =>
    obtain ⟨rfl, rfl⟩ := loads_mapM_nil.mp h
    exact fun b hb => absurd hb List.not_mem_nil
  | cons a as ih =>
    obtain ⟨b, e, bs', hb, hbs, rfl⟩ := loads_mapM_cons.mp h
    exact List.forall_mem_cons.mpr ⟨hf a c b e hb, ih hbs⟩

theorem Loads.foldlM {f : β → α → Loader β} {P : β → Prop} (hf : ∀ x a c y d, P x → Loads (f x a) c y d → P y)
    {as : List α} {x y : β} (hx : P x) (h : Loads (as.foldlM f x) c y d) : P y := by
  induction as generalizing x c with
  | nil =>
    obtain ⟨rfl, rfl⟩ := loads_pure.mp h
    exact hx
  | cons a as ih =>
    rw [List.foldlM_cons, loads_bind] at h
    obtain ⟨z, e, hz, h⟩ := h
    exact ih (hf x a c z e hx hz) h

end

end GateAsm.Wire
