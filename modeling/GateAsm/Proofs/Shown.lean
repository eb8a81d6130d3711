import GateAsm.Proofs.Discarded
import GateAsm.Proofs.Display
import GateAsm.Proofs.Keys
import GateAsm.Proofs.Pieces
import Mathlib.Order.Bounds.Basic

/-!
# Names that tell values apart

The printer needs no more of a block than that its values have different names and that results are among them. One
counter runs over all operations and skips the numbers whose names are taken, wherever in the block that is. So no two
values are shown alike, and a result that is used is bound on the line of its operation
(`Block.displayNames_fresh`).
-/

namespace GateAsm.Block

/-- Values have different names, and the results of operations are among them, each anonymous or under a name that can
be written. -/
structure Labelled (b : Block) : Prop extends b.Keyed where
  results : ∀ op ∈ b.operations, ∀ id ∈ op.results, b.InScope id
  named : ∀ op ∈ b.operations, ∀ id ∈ op.results, ∃ n, b.nameOf id = .text n ∧ (¬ Visible n ∨ IsValueName n)

theorem UseDef.labelled {b : Block} (h : b.UseDef [])
    (named : ∀ op ∈ b.operations, ∀ id ∈ op.results, ∃ n, b.nameOf id = .text n ∧ (¬ Visible n ∨ IsValueName n)) :
    b.Labelled where
  toKeyed := h.keyed
  results op hop id hid := by
    rw [h.origin, List.append_nil]
    exact List.mem_append_right _ (List.mem_flatMap.mpr ⟨op, hop, hid⟩)
  named := named

def Binds (b : Block) (op : Operation) : Prop := ∃ id ∈ op.results, b.isAnonymous id = false ∨ b.usesOf id ≠ []

variable {b : Block} {op : Operation} {id id' : Nat} {n : String}

/-! ## The search for a number -/

theorem freeNumber_le {tries m k : Nat} (hk : m ≤ k) (free : b.inScope? (numberedName k) = none) :
    b.freeNumber tries m ≤ k := by
  induction tries generalizing m with
  | zero => exact hk
  | succ tries ih =>
    rw [freeNumber]
    split
    · exact hk
    · next taken =>
      have apart : m ≠ k := by
        intro same
        rw [same, free] at taken
        exact taken rfl
      exact ih (by omega)

theorem isLeast_freeNumber (b : Block) (m : Nat) :
    IsLeast {k | m ≤ k ∧ b.inScope? (numberedName k) = none} (b.freeNumber b.scope.length m) :=
  ⟨⟨le_freeNumber .., freeNumber_scope ..⟩, fun _ hk => freeNumber_le hk.1 hk.2⟩

/-! ## Who is numbered -/

theorem Labelled.lt (h : b.Labelled) (hop : op ∈ b.operations) (hid : id ∈ op.results) : id < b.values.length :=
  h.wellScoped.lt (h.results op hop id hid)

theorem Labelled.binds_iff (h : b.Labelled) (hop : op ∈ b.operations) :
    b.Binds op ↔ op.results.all b.isIdle = false := by
  rw [List.all_eq_false]
  refine exists_congr fun id => and_congr_right fun hid => ?_
  rw [isIdle_eq (h.lt hop hid), Bool.and_eq_true, not_and_or, Bool.not_eq_true, isUnused_iff]

theorem Labelled.mem_numberedResults (h : b.Labelled) :
    id ∈ b.numberedResults b.operations ↔
      ∃ op ∈ b.operations, id ∈ op.results ∧ b.isAnonymous id = true ∧ b.Binds op := by
  simp only [numberedResults, List.mem_flatMap, List.mem_filter]
  refine exists_congr fun op => ?_
  constructor
  · rintro ⟨⟨hop, active⟩, hid, anonymous⟩
    exact ⟨hop, hid, anonymous, (h.binds_iff hop).mpr (by simpa using active)⟩
  · rintro ⟨hop, hid, anonymous, binds⟩
    exact ⟨⟨hop, by rw [(h.binds_iff hop).mp binds]; rfl⟩, hid, anonymous⟩

/-! ## What is shown -/

theorem shownName_cases (b : Block) (id : Nat) :
    (id ∉ b.numberedResults b.operations ∧ b.shownName b.displayNames id = b.nameOf id) ∨
      id ∈ b.numberedResults b.operations ∧ ∃ m, (id, numberedName m) ∈ b.displayNames ∧
        b.inScope? (numberedName m) = none ∧ b.shownName b.displayNames id = .text (numberedName m) := by
  obtain ⟨next, numbers⟩ := b.nameOperations_numbers b.operations 0
  by_cases hm : id ∈ b.numberedResults b.operations
  · exact .inr ⟨hm, numbers.shown hm⟩
  · exact .inl ⟨hm, numbers.unshown hm⟩

theorem Keyed.apart (h : b.Keyed) (hid : b.InScope id) (hid' : b.InScope id') (hne : id ≠ id') :
    (b.nameOf id).same (b.nameOf id') = false := by
  obtain ⟨e, he, rfl⟩ := List.mem_map.mp hid
  obtain ⟨e', he', rfl⟩ := List.mem_map.mp hid'
  have : Std.Symm fun x y : Label × Nat => x.1.same y.1 = false :=
    ⟨fun x y differ => Bool.eq_false_iff.mpr fun same => by rw [Label.same_symm same] at differ; cases differ⟩
  rw [(h.wellScoped e he).2, (h.wellScoped e' he').2]
  exact h.names.forall he he' fun same => hne (congrArg Prod.snd same)

theorem Keyed.name_not_free (h : b.Keyed) (hid : b.InScope id) (free : b.inScope? (.text n) = none) :
    (b.nameOf id).same (.text n) = false := by
  obtain ⟨e, he, rfl⟩ := List.mem_map.mp hid
  have apart := List.find?_eq_none.mp (Option.map_eq_none_iff.mp free) e he
  rw [(h.wellScoped e he).2]
  simpa using apart

theorem Keyed.shownName_apart (h : b.Keyed) (hid : b.InScope id) (hid' : b.InScope id') (hne : id ≠ id') :
    (b.shownName b.displayNames id).same (b.shownName b.displayNames id') = false := by
  have turned : ∀ {l : Label} {n : String}, l.same (.text n) = false → (Label.text n).same l = false := fun differ =>
    Bool.eq_false_iff.mpr fun same => by rw [Label.same_symm same] at differ; cases differ
  -- two own names differ, two numbers differ, and a number is nobody's own name
  rcases b.shownName_cases id with ⟨-, shown⟩ | ⟨-, m, hm, free, shown⟩ <;>
    rcases b.shownName_cases id' with ⟨-, shown'⟩ | ⟨-, m', hm', free', shown'⟩ <;> rw [shown, shown']
  · exact h.apart hid hid' hne
  · exact h.name_not_free hid free'
  · exact turned (h.name_not_free hid' free)
  · obtain ⟨next, numbers⟩ := b.nameOperations_numbers b.operations 0
    refine decide_eq_false fun same => hne ?_
    exact congrArg Prod.fst (List.inj_on_of_nodup_map numbers.nodup hm hm' same)

/-- The results of an operation that binds one are all shown under names that can be written. -/
theorem Labelled.shownName_bound (h : b.Labelled) (hop : op ∈ b.operations) (binds : b.Binds op)
    (hid : id ∈ op.results) :
    ∃ n, IsValueName n ∧ b.shownName b.displayNames id = .text n := by
  rcases b.shownName_cases id with ⟨hm, shown⟩ | ⟨-, m, -, -, shown⟩
  · obtain ⟨n, name, hidden | valueName⟩ := h.named op hop id hid
    · -- an anonymous result of this operation would be numbered
      have anonymous : b.isAnonymous id = true := by
        rw [isAnonymous_of_name (h.lt hop hid) name]
        exact Bool.eq_true_of_not_eq_false hidden
      exact absurd (h.mem_numberedResults.mpr ⟨op, hop, hid, anonymous, binds⟩) hm
    · exact ⟨n, valueName, shown.trans name⟩
  · exact ⟨numberedName m, isValueName_numberedName m, shown⟩

theorem exists_texts {f : Nat → Label} {ids : List Nat} (h : ∀ id ∈ ids, ∃ n, IsValueName n ∧ f id = .text n) :
    ∃ ns : List String, ids.map f = ns.map .text ∧ ∀ n ∈ ns, IsValueName n := by
  induction ids with
  | nil => exact ⟨[], rfl, nofun⟩
  | cons id ids ih =>
    obtain ⟨⟨n, hn, shown⟩, others⟩ := List.forall_mem_cons.mp h
    obtain ⟨ns, hns, valueNames⟩ := ih others
    exact ⟨n :: ns, by rw [List.map_cons, shown, hns]; rfl, List.forall_mem_cons.mpr ⟨hn, valueNames⟩⟩

theorem formatOperation_bound {names : ShownNames} {bound : List String} (hne : bound ≠ [])
    (hnames : ∀ n ∈ bound, IsValueName n) (shown : op.results.map (b.shownName names) = bound.map .text)
    (env : PrintEnv) :
    b.formatOperation env names op =
      (fun body => ", ".intercalate bound ++ " = " ++ body) <$> Printer.operation env b names op := by
  have visible : bound.any (·.startsWith anonymousMark) = false :=
    List.any_eq_false.mpr fun n hn => by simp [show n.startsWith anonymousMark = false from (hnames n hn).visible]
  have texts := Printer.texts_iff.mpr shown
  unfold formatOperation
  cases Printer.operation env b names op with
  | error e => rfl
  | ok body =>
    rw [ok_bind, texts, ok_bind, visible, Bool.or_false, if_neg (by simpa using hne)]
    rfl

theorem Labelled.checkResultNames (h : b.Labelled) : b.checkResultNames = .ok () := by
  refine if_pos (List.all_eq_true.mpr fun id hid => ?_)
  obtain ⟨op, hop, hid⟩ := List.mem_flatMap.mp hid
  obtain ⟨n, name, -⟩ := h.named op hop id hid
  rw [name]
  rfl

/-- **Names for display.** The search for the next number always ends, at the first one that is free. Exactly those
anonymous results are numbered whose operation has a result that is named or used; their names are a percent sign with a
number, no two of them are the same, and none is the name of a value. So no two values are shown alike, and a result
that is used is shown as one token that names a value and is bound on the line of its operation. -/
theorem displayNames_fresh (h : b.Labelled) :
    b.checkResultNames = .ok () ∧
      (∀ m, IsLeast {k | m ≤ k ∧ b.inScope? (numberedName k) = none} (b.freeNumber b.scope.length m)) ∧
      (∀ id, id ∈ b.displayNames.map (·.1) ↔
        ∃ op ∈ b.operations, id ∈ op.results ∧ b.isAnonymous id = true ∧ b.Binds op) ∧
      (∀ e ∈ b.displayNames, (∃ m : Nat, e.2 = "%" ++ toString m) ∧ ∀ id, b.InScope id → b.nameOf id ≠ .text e.2) ∧
      (b.displayNames.map (·.2)).Nodup ∧
      (∀ id id', b.InScope id → b.InScope id' → id ≠ id' →
        (b.shownName b.displayNames id).same (b.shownName b.displayNames id') = false) ∧
      ∀ op ∈ b.operations, ∀ id ∈ op.results, b.usesOf id ≠ [] →
        ∃ n bound, b.shownName b.displayNames id = .text n ∧
          (∃ tokens, TokenStream.ofText n = .ok tokens ∧ tokens.tokens.map Token.word = [⟨.valueName, n⟩]) ∧
          n ∈ bound ∧ op.results.map (b.shownName b.displayNames) = bound.map .text ∧
          ∀ env, b.formatOperation env b.displayNames op =
            (fun body => ", ".intercalate bound ++ " = " ++ body) <$> Printer.operation env b b.displayNames op := by
  -- one counter runs over all operations
  obtain ⟨next, numbers⟩ := b.nameOperations_numbers b.operations 0
  have keys : b.displayNames.map (·.1) = b.numberedResults b.operations := numbers.values
  refine ⟨h.checkResultNames, b.isLeast_freeNumber, fun id => keys ▸ h.mem_numberedResults, fun e he => ?_,
    numbers.nodup, fun id id' hid hid' hne => h.shownName_apart hid hid' hne, fun op hop id hid used => ?_⟩
  · obtain ⟨-, ⟨ms, hms, -, free⟩, -⟩ := numbers
    obtain ⟨m, hm, name⟩ := List.mem_map.mp (hms ▸ List.mem_map_of_mem (f := Prod.snd) he)
    refine ⟨⟨m, name.symm⟩, fun id hid same => ?_⟩
    have apart := h.name_not_free hid (free m hm).2.2
    rw [same, ← name, same_text_iff.mpr rfl] at apart
    cases apart
  · have binds : b.Binds op := ⟨id, hid, .inr used⟩
    obtain ⟨bound, shown, valueNames⟩ := exists_texts fun i hi => h.shownName_bound hop binds hi
    obtain ⟨n, hn, same⟩ := List.mem_map.mp (shown ▸ List.mem_map_of_mem (f := b.shownName b.displayNames) hid)
    have lexed := ofText_of_lexes (emits_valueName (valueNames n hn)).lexes
    exact ⟨n, bound, same.symm, lexed, hn, shown, formatOperation_bound (List.ne_nil_of_mem hn) valueNames shown⟩

def nameless : Block := (empty.createOperation ⟨.text "x", [], [], [.type .qubit]⟩ none).2

def firstNumberTaken : Block :=
  (nameless.createOperation ⟨.text "y", [some 0], [], [.type .qubit]⟩ (some [some (.text "%0")])).2

theorem labelled_firstNumberTaken : firstNumberTaken.Labelled := by
  have created : empty.createOperation ⟨.text "x", [], [], [.type .qubit]⟩ none = (.ok 0, nameless) := rfl
  have createdNext : nameless.createOperation ⟨.text "y", [some 0], [], [.type .qubit]⟩ (some [some (.text "%0")]) =
    (.ok 1, firstNumberTaken) := rfl
  have first := UseDef.empty.createOperation (fun id hid => by cases hid) created
  have second := first.createOperation (fun id hid => ?_) createdNext
  · refine second.labelled fun op hop id hid => ?_
    rcases List.mem_pair.mp hop with rfl | rfl <;> rw [List.mem_singleton.mp hid]
    · exact ⟨anonymousMark ++ "0", rfl, .inl (not_visible_anonymous "0")⟩
    · exact ⟨"%0", rfl, .inr (by decide)⟩
  · obtain rfl : id = 0 := Option.some.inj (List.mem_singleton.mp hid)
    exact List.mem_singleton.mpr rfl

/-- The result without a name is used, and is shown under the second number, since the first one is taken. -/
theorem displayNames_fresh_firstNumberTaken :
    firstNumberTaken.Labelled ∧ firstNumberTaken.displayNames = [(0, "%1")] ∧
      (∀ id, firstNumberTaken.InScope id → firstNumberTaken.nameOf id ≠ .text "%1") ∧
      ∀ env, ∃ op ∈ firstNumberTaken.operations, firstNumberTaken.formatOperation env firstNumberTaken.displayNames op =
        ("%1 = " ++ ·) <$> Printer.operation env firstNumberTaken firstNumberTaken.displayNames op := by
  have names : firstNumberTaken.displayNames = [(0, "%1")] := by decide +kernel
  obtain ⟨-, -, -, taken, -, -, bound⟩ := displayNames_fresh labelled_firstNumberTaken
  refine ⟨labelled_firstNumberTaken, names, ?_, fun env => ?_⟩
  · exact (taken (0, "%1") (by rw [names]; exact List.mem_cons_self)).2
  · obtain ⟨n, ns, -, -, -, shown, text⟩ :=
      bound _ List.mem_cons_self 0 (List.mem_singleton.mpr rfl) (List.cons_ne_nil _ _)
    refine ⟨_, List.mem_cons_self, ?_⟩
    have only : ["%1"].map Label.text = ns.map .text := by rw [names] at shown; exact shown
    rw [text env, ← List.map_injective_iff.mpr (fun _ _ => Label.text.inj) only]
    rfl

end GateAsm.Block
