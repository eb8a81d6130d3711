import GateAsm.Parser.Scope

/-!
# Names and values

A block grows when values and operations are added: what was there keeps its name and its type. A name
that is used and not in scope becomes an input; `Block.mentionAll` is the block after several uses, and
`Consistent` says when the uses agree with the scope and with each other.
-/

namespace GateAsm

namespace Block

/-! ## Growth -/

/-- The values and operations of a block are those of another one as well, perhaps with others behind. -/
structure Extends (b b' : Block) : Prop where
  length_le : b.values.length ≤ b'.values.length
  nameOf : ∀ id < b.values.length, b'.nameOf id = b.nameOf id
  typeOf : ∀ id < b.values.length, b'.typeOf id = b.typeOf id
  operations : b.operations <+: b'.operations

theorem Extends.refl (b : Block) : b.Extends b :=
  ⟨Nat.le_refl _, fun _ _ => rfl, fun _ _ => rfl, List.prefix_refl _⟩

theorem Extends.trans {b c d : Block} (h : b.Extends c) (h' : c.Extends d) : b.Extends d where
  length_le := Nat.le_trans h.length_le h'.length_le
  nameOf id hid := (h'.nameOf id (Nat.lt_of_lt_of_le hid h.length_le)).trans (h.nameOf id hid)
  typeOf id hid := (h'.typeOf id (Nat.lt_of_lt_of_le hid h.length_le)).trans (h.typeOf id hid)
  operations := h.operations.trans h'.operations

/-- Every value in scope is one of the block, and in scope under its name. -/
def WellScoped (b : Block) : Prop := ∀ e ∈ b.scope, e.2 < b.values.length ∧ b.nameOf e.2 = e.1

theorem wellScoped_empty : Block.empty.WellScoped := by
  intro e he; cases he

/-- The name may stand in a text. -/
def Visible (name : String) : Prop := name.startsWith anonymousMark = false

theorem visible_iff {n : String} : Visible n ↔ ¬ ['%', '#'] <+: n.toList := by
  unfold Visible
  rw [String.startsWith_string_eq_false_iff]
  simp [anonymousMark]

theorem lookup_eq {b : Block} {n : String} (hn : Visible n) : b.lookup n = b.inScope? (.text n) := by
  unfold lookup
  rw [hn]; rfl

theorem lookup_empty {n : String} : Block.empty.lookup n = none := by
  unfold lookup; split <;> rfl

theorem lookup_lt {b : Block} (h : b.WellScoped) {n : String} {id : Nat} (hl : b.lookup n = some id) :
    id < b.values.length := by
  unfold lookup at hl
  split at hl
  · cases hl
  · obtain ⟨e, he, rfl⟩ := Option.map_eq_some_iff.mp hl
    exact (h e (List.mem_of_find?_eq_some he)).1

theorem visible_of_lookup {b : Block} {n : String} {id : Nat} (hl : b.lookup n = some id) : Visible n := by
  unfold lookup at hl
  split at hl
  · cases hl
  · next hn => exact eq_false_of_ne_true hn

theorem same_text_iff {l : Label} {n : String} : l.same (.text n) = true ↔ l = .text n := by
  cases l with
  | text m => simp
  | data j => cases j <;> simp [Label.same, Label.number?]

theorem nameOf_of_lookup {b : Block} (h : b.WellScoped) {n : String} {id : Nat} (hl : b.lookup n = some id) :
    b.nameOf id = .text n := by
  unfold lookup at hl
  split at hl
  · cases hl
  · obtain ⟨e, he, rfl⟩ := Option.map_eq_some_iff.mp hl
    have same : e.1.same (.text n) = true := List.find?_some (p := fun x : Label × Nat => x.1.same (.text n)) he
    exact (h e (List.mem_of_find?_eq_some he)).2.trans (same_text_iff.mp same)

theorem value?_of_lt {b : Block} {id : Nat} (hid : id < b.values.length) : b.value? id = some b.values[id] :=
  List.getElem?_eq_getElem hid

section
variable (b : Block) (type : Attr) (name : Label)

theorem value?_enter (id : Nat) :
    (b.enter type name).2.value? id =
      if id = b.values.length then some ⟨name, type, none, []⟩ else b.value? id := by
  simp only [value?, enter]
  split
  · next h => subst h; simp
  · next h =>
    rw [List.getElem?_append]
    split
    · rfl
    · rw [List.getElem?_eq_none (by simp; omega), List.getElem?_eq_none (by omega)]

theorem extends_enter : b.Extends (b.enter type name).2 where
  length_le := by simp [enter]
  nameOf id hid := by rw [Block.nameOf, value?_enter, if_neg (Nat.ne_of_lt hid)]; rfl
  typeOf id hid := by rw [Block.typeOf, value?_enter, if_neg (Nat.ne_of_lt hid)]; rfl
  operations := List.prefix_refl _

theorem wellScoped_enter (h : b.WellScoped) : (b.enter type name).2.WellScoped := by
  intro e he
  have hlen : (b.enter type name).2.values.length = b.values.length + 1 := by simp [enter]
  rw [hlen]
  rcases List.mem_append.mp he with he | he
  · obtain ⟨hlt, hname⟩ := h e he
    exact ⟨Nat.lt_succ_of_lt hlt, ((extends_enter b type name).nameOf e.2 hlt).trans hname⟩
  · obtain rfl := List.mem_singleton.mp he
    refine ⟨Nat.lt_succ_self _, ?_⟩
    rw [Block.nameOf, value?_enter, if_pos rfl]; rfl

theorem inScope?_enter (m : Label) :
    (b.enter type name).2.inScope? m =
      (b.inScope? m).or (if name.same m then some b.values.length else none) := by
  simp only [inScope?, enter, List.find?_append]
  cases b.scope.find? (·.1.same m) with
  | some e => rfl
  | none =>
    simp only [Option.none_or, List.find?_cons, List.find?_nil, Option.map_none]
    split
    · next h => simp [h]
    · next h => simp [h]

end

/-! ## Inputs -/

def withInput (b : Block) (n : String) (t : Ty) : Block :=
  { (b.enter (.type t) (.text n)).2 with inputs := b.inputs ++ [b.values.length] }

def mention (b : Block) (use : String × Ty) : Block :=
  if (b.lookup use.1).isSome then b else b.withInput use.1 use.2

/-- The block after names are used at types: those that are not in scope become inputs in order. -/
def mentionAll (b : Block) (uses : List (String × Ty)) : Block := uses.foldl mention b

@[simp]
theorem mentionAll_nil (b : Block) : b.mentionAll [] = b := rfl

@[simp]
theorem mentionAll_cons (b : Block) (use : String × Ty) (uses : List (String × Ty)) :
    b.mentionAll (use :: uses) = (b.mention use).mentionAll uses := rfl

theorem addInput_text {b : Block} {n : String} {t : Ty} (h : b.inScope? (.text n) = none) :
    b.addInput (some (.text n)) (.type t) = .ok (b.values.length, b.withInput n t) := by
  simp [addInput, addValue, Label.isKey, h, Except.map, withInput, enter]

section
variable {b : Block} {n m : String} {t : Ty} {id : Nat}

theorem lookup_withInput (hm : Visible m) :
    (b.withInput n t).lookup m = (b.lookup m).or (if n = m then some b.values.length else none) := by
  rw [lookup_eq hm, lookup_eq hm]
  exact (inScope?_enter b (.type t) (.text n) (.text m)).trans (by simp [Label.same])

theorem extends_withInput : b.Extends (b.withInput n t) :=
  have h := extends_enter b (.type t) (.text n)
  ⟨h.length_le, h.nameOf, h.typeOf, h.operations⟩

theorem wellScoped_withInput (h : b.WellScoped) : (b.withInput n t).WellScoped :=
  wellScoped_enter b _ _ h

theorem typeOf_withInput : (b.withInput n t).typeOf b.values.length = .type t := by
  have h : (b.withInput n t).value? b.values.length = some ⟨.text n, .type t, none, []⟩ :=
    (value?_enter b (.type t) (.text n) b.values.length).trans (if_pos rfl)
  rw [Block.typeOf, h]; rfl

theorem nameOf_withInput : (b.withInput n t).nameOf b.values.length = .text n := by
  have h : (b.withInput n t).value? b.values.length = some ⟨.text n, .type t, none, []⟩ :=
    (value?_enter b (.type t) (.text n) b.values.length).trans (if_pos rfl)
  rw [Block.nameOf, h]; rfl

theorem mention_of_some (h : b.lookup n = some id) : b.mention (n, t) = b := by
  rw [mention, h]; rfl

theorem mention_of_none (h : b.lookup n = none) : b.mention (n, t) = b.withInput n t := by
  rw [mention, h]; rfl

/-- What holds of a block and is kept by each new input holds after names are used. -/
theorem mentionAll_induction {P : Block → Prop} {uses : List (String × Ty)} (h : P b)
    (new : ∀ c, P c → ∀ use ∈ uses, c.lookup use.1 = none → P (c.withInput use.1 use.2)) : P (b.mentionAll uses) := by
  refine List.foldlRecOn uses mention h fun c hc (n, t) huse => ?_
  cases hl : c.lookup n with
  | some id => rw [mention_of_some hl]; exact hc
  | none => rw [mention_of_none hl]; exact new c hc (n, t) huse hl

theorem extends_mentionAll (uses : List (String × Ty)) : b.Extends (b.mentionAll uses) :=
  mentionAll_induction (P := b.Extends) (.refl b) fun _ hc _ _ _ => hc.trans extends_withInput

theorem operations_mentionAll (uses : List (String × Ty)) : (b.mentionAll uses).operations = b.operations :=
  mentionAll_induction (P := fun c => c.operations = b.operations) rfl fun _ hc _ _ _ => hc

theorem wellScoped_mentionAll (h : b.WellScoped) (uses : List (String × Ty)) : (b.mentionAll uses).WellScoped :=
  mentionAll_induction h fun _ hc _ _ _ => wellScoped_withInput hc

theorem lookup_mentionAll_of_some (hm : Visible m) (h : b.lookup m = some id) (uses : List (String × Ty)) :
    (b.mentionAll uses).lookup m = some id := by
  refine mentionAll_induction (P := fun c => c.lookup m = some id) h fun c hc use _ _ => ?_
  rw [lookup_withInput hm, hc]; rfl

theorem extends_mention (use : String × Ty) : b.Extends (b.mention use) := extends_mentionAll [use]

theorem wellScoped_mention (h : b.WellScoped) (use : String × Ty) : (b.mention use).WellScoped :=
  wellScoped_mentionAll h [use]

theorem lookup_mention_of_some (hm : Visible m) (h : b.lookup m = some id) (use : String × Ty) :
    (b.mention use).lookup m = some id := lookup_mentionAll_of_some hm h [use]

theorem lookup_mention_of_ne (hm : Visible m) (h : n ≠ m) : (b.mention (n, t)).lookup m = b.lookup m := by
  cases hl : b.lookup n with
  | some id => rw [mention_of_some hl]
  | none => rw [mention_of_none hl, lookup_withInput hm, if_neg h, Option.or_none]

theorem lookup_mention_self (hn : Visible n) :
    (b.mention (n, t)).lookup n = some ((b.lookup n).getD b.values.length) := by
  cases hl : b.lookup n with
  | some id => rw [mention_of_some hl, hl]; rfl
  | none => rw [mention_of_none hl, lookup_withInput hn, hl]; simp

theorem typeOf_mention (h : b.lookup n = none) : (b.mention (n, t)).typeOf b.values.length = .type t := by
  rw [mention_of_none h]
  exact typeOf_withInput

end

/-! ## Consistent uses -/

def HasType (b : Block) (id : Nat) (t : Ty) : Prop := (b.typeOf id).isType t = .ok true

theorem HasType.extend {b b' : Block} {id : Nat} {t : Ty} (h : b.Extends b') (hid : id < b.values.length) :
    b'.HasType id t ↔ b.HasType id t := by
  rw [HasType, HasType, h.typeOf id hid]

theorem hasType_type {b : Block} {id : Nat} {t t' : Ty} (h : b.typeOf id = .type t) :
    b.HasType id t' ↔ t.same t' = true := by
  rw [HasType, h, Attr.isType]
  constructor
  · intro h; exact Except.ok.inj h
  · intro h; rw [h]

/-- The uses of names agree with the scope and with each other. -/
structure Consistent (b : Block) (uses : List (String × Ty)) : Prop where
  known : ∀ use ∈ uses, ∀ id, b.lookup use.1 = some id → b.HasType id use.2
  new : ∀ use ∈ uses, ∀ use' ∈ uses, use.1 = use'.1 → b.lookup use.1 = none → use.2.same use'.2 = true

section
variable {b : Block} {use : String × Ty} {uses : List (String × Ty)} (hb : b.WellScoped)
  (hv : ∀ u ∈ use :: uses, Visible u.1)
include hb hv

theorem Consistent.mention (h : b.Consistent (use :: uses)) : (b.mention use).Consistent uses := by
  obtain ⟨n, t⟩ := use
  have later : ∀ u ∈ uses, u ∈ (n, t) :: uses := fun u hu => List.mem_cons_of_mem _ hu
  refine ⟨fun use huse id hid => ?_, fun use huse use' huse' he hl => ?_⟩
  · have hu : Visible use.1 := hv use (later use huse)
    cases hl : b.lookup use.1 with
    | some id' =>
      rw [lookup_mention_of_some hu hl] at hid
      cases hid
      exact (HasType.extend (extends_mention (n, t)) (lookup_lt hb hl)).mpr (h.known use (later use huse) _ hl)
    | none =>
      -- a name that was not in scope is the one that has become an input
      by_cases hne : n = use.1
      · subst hne
        rw [lookup_mention_self hu, hl] at hid
        obtain rfl := Option.some.inj hid
        exact (hasType_type (typeOf_mention hl)).mpr (h.new (use.1, t) List.mem_cons_self use (later use huse) rfl hl)
      · rw [lookup_mention_of_ne hu hne, hl] at hid
        cases hid
  · refine h.new use (later use huse) use' (later use' huse') he ?_
    cases hl' : b.lookup use.1 with
    | none => rfl
    | some id => rw [lookup_mention_of_some (hv use (later use huse)) hl'] at hl; cases hl

theorem Consistent.of_mention (first : ∀ id, b.lookup use.1 = some id → b.HasType id use.2)
    (h : (b.mention use).Consistent uses) : b.Consistent (use :: uses) := by
  obtain ⟨n, t⟩ := use
  have hn : Visible n := hv (n, t) List.mem_cons_self
  -- all later uses of a name that has become an input agree with its type
  have agrees : ∀ use ∈ uses, use.1 = n → b.lookup n = none → t.plain = use.2.plain := by
    intro use huse he hl
    have := h.known use huse b.values.length (by rw [he, lookup_mention_self hn, hl]; rfl)
    exact Ty.same_iff.mp ((hasType_type (typeOf_mention hl)).mp this)
  refine ⟨fun use huse id hid => ?_, fun use huse use' huse' he hl => ?_⟩
  · rcases List.mem_cons.mp huse with rfl | hmem
    · exact first id hid
    · exact (HasType.extend (extends_mention (n, t)) (lookup_lt hb hid)).mp
        (h.known use hmem id (lookup_mention_of_some (hv use huse) hid _))
  · rw [Ty.same_iff]
    by_cases hne : use.1 = n
    · have plain : ∀ u ∈ (n, t) :: uses, u.1 = n → t.plain = u.2.plain := by
        intro u hu hun
        rcases List.mem_cons.mp hu with rfl | hu
        · rfl
        · exact agrees u hu hun (hne ▸ hl)
      exact (plain use huse hne).symm.trans (plain use' huse' (he.symm.trans hne))
    · have hmem : use ∈ uses := (List.mem_cons.mp huse).resolve_left fun h => hne (congrArg Prod.fst h)
      have hmem' : use' ∈ uses := (List.mem_cons.mp huse').resolve_left fun h => hne (he.trans (congrArg Prod.fst h))
      refine Ty.same_iff.mp (h.new use hmem use' hmem' he ?_)
      rw [lookup_mention_of_ne (hv use huse) (Ne.symm hne)]; exact hl

theorem consistent_cons_iff : b.Consistent (use :: uses) ↔
    (∀ id, b.lookup use.1 = some id → b.HasType id use.2) ∧ (b.mention use).Consistent uses :=
  ⟨fun h => ⟨h.known use List.mem_cons_self, h.mention hb hv⟩, fun h => .of_mention hb hv h.1 h.2⟩

end

end Block

end GateAsm
