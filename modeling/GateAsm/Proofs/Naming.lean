import GateAsm.Proofs.Discipline
import GateAsm.Proofs.Repeated

/-!
# The names of a module

A name that a line uses and no line in front of it has used or bound becomes an input of the block; a name
that a line binds has to be new to all lines so far and to its own operands. `Line.Named` is what lines keep
to and what the block has for their names; each line that runs preserves it (`Line.Named.run`), so that it
holds of a module.
-/

namespace GateAsm

namespace Line

def used (l : Line) : List String := l.statement.content.physical

def typings (l : Line) : List (String × Ty) := l.statement.writtenUses ++ l.names.zip l.statement.results

/-- The names that lines use and none of them binds, in the order in which they come up. -/
def free (ls : List Line) : List String :=
  ((ls.flatMap used).filter fun n => n ∉ ls.flatMap names).eraseDups

end Line

/-- The operands of the operation are the values that those of the line stand for, and have names; so are the
results, if the line has names for them. -/
structure Block.Follows (b : Block) (op : Operation) (l : Line) : Prop where
  operands : op.operands.map some = l.used.map b.lookup
  named : ∀ id ∈ op.operands, b.isAnonymous id = false
  results : l.names = [] ∨ op.results.map some = l.names.map b.lookup

/-- Lines that keep to the rules about names, and what a block has for them. -/
structure Line.Named (ls : List Line) (b : Block) : Prop where
  once : (ls.flatMap Line.names).Nodup
  apart : ∀ l ∈ ls, ∀ n ∈ l.names, n ∉ l.used
  later : ls.Pairwise fun l l' => ∀ n ∈ l'.names, n ∉ l.used
  scope : ∀ n, Block.Visible n → ((b.lookup n).isSome = true ↔ n ∈ ls.flatMap Line.names ∨ n ∈ ls.flatMap Line.used)
  typed : ∀ x ∈ ls.flatMap Line.typings, ∃ id t, b.lookup x.1 = some id ∧ b.typeOf id = .type t ∧ t.same x.2 = true
  inputs : b.inputs.map b.nameOf = (Line.free ls).map .text
  distinct : (b.inputs.map b.nameOf).Nodup
  operations : Paired b.Follows b.operations ls

/-! ## Types that are written -/

theorem Parser.operandTypes_map (f : Ty → Ty) (pinned : List Bool) (i : Ty) (types : List Ty) :
    (Parser.operandTypes pinned i types).map f = Parser.operandTypes pinned (f i) (types.map f) := by
  induction pinned generalizing types with
  | nil => rfl
  | cons p pinned ih =>
    cases p with
    | true => exact congrArg (f i :: ·) (ih types)
    | false =>
      cases types with
      | nil => rfl
      | cons t types => exact congrArg (f t :: ·) (ih types)

namespace Statement

variable {m : Statement} {c : TypeContext} {n : String} {t : Ty}

theorem uses_plain (m : Statement) (c : TypeContext) :
    (m.uses c).map (Prod.map id Ty.plain) = m.writtenUses.map (Prod.map id Ty.plain) := by
  have index : (indexAfter c m.types).1.plain = Ty.index.plain := Ty.same_iff.mp (TypeContext.intern_same _ _)
  unfold uses typedUses writtenUses Content.physical
  rw [← List.zip_map_right, ← List.zip_map_right, Parser.operandTypes_map, Parser.operandTypes_map, index,
    TypeContext.plain_keepAll]

theorem written_of_uses {front back : List (String × Ty)} (h : m.uses c = front ++ (n, t) :: back) :
    ∃ front' t' back', m.writtenUses = front' ++ (n, t') :: back' ∧ t.same t' = true ∧
      ∀ u, (n, u) ∈ front → ∃ u', (n, u') ∈ front' ∧ u.same u' = true := by
  have same := m.uses_plain c
  rw [h, List.map_append, List.map_cons] at same
  obtain ⟨front', others, hw, hfront, hothers⟩ := List.map_eq_append_iff.mp same.symm
  obtain ⟨⟨n', t'⟩, back', rfl, he, -⟩ := List.map_eq_cons_iff.mp hothers
  obtain ⟨rfl, plain⟩ := Prod.mk.inj he
  refine ⟨front', t', back', hw, Ty.same_iff.mpr plain.symm, fun u hu => ?_⟩
  have mapped := List.mem_map_of_mem (f := Prod.map id Ty.plain) hu
  rw [← hfront] at mapped
  obtain ⟨⟨n', u'⟩, hu', he⟩ := List.mem_map.mp mapped
  obtain ⟨rfl, plain⟩ := Prod.mk.inj he
  exact ⟨u', hu', Ty.same_iff.mpr plain.symm⟩

theorem mem_uses_of_written {u : String × Ty} (h : u ∈ m.writtenUses) (c : TypeContext) :
    ∃ t, (u.1, t) ∈ m.uses c ∧ t.same u.2 = true := by
  have mapped : Prod.map id Ty.plain u ∈ (m.uses c).map (Prod.map id Ty.plain) := by
    rw [uses_plain]
    exact List.mem_map_of_mem h
  obtain ⟨⟨n, t⟩, ht, he⟩ := List.mem_map.mp mapped
  obtain ⟨rfl, plain⟩ := Prod.mk.inj he
  exact ⟨t, ht, Ty.same_iff.mpr plain⟩

end Statement

/-! ## Uses -/

namespace Block

variable {b b' : Block} {uses : List (String × Ty)} {n m : String}

theorem Follows.extend {op : Operation} {l : Line} (h : b.Follows op l) (hb : b.WellScoped) (he : b.Extends b')
    (found : ∀ n id, b.lookup n = some id → b'.lookup n = some id) : b'.Follows op l := by
  have later : ∀ {ids : List Nat} {ns : List String}, ids.map some = ns.map b.lookup →
      ids.map some = ns.map b'.lookup := by
    intro ids ns same
    rw [same]
    refine List.map_congr_left fun n hn => ?_
    obtain ⟨id, -, hid⟩ := List.mem_map.mp (same ▸ List.mem_map_of_mem hn)
    rw [← hid, found n id hid.symm]
  refine ⟨later h.operands, fun id hid => ?_, h.results.imp_right later⟩
  obtain ⟨n, -, hn⟩ := List.mem_map.mp (h.operands ▸ List.mem_map_of_mem hid)
  rw [he.isAnonymous_eq (lookup_lt hb hn)]
  exact h.named id hid

theorem isSome_lookup_mention (hm : Visible m) (u : String × Ty) :
    ((b.mention u).lookup m).isSome = true ↔ (b.lookup m).isSome = true ∨ u.1 = m := by
  obtain ⟨n, t⟩ := u
  by_cases h : n = m
  · subst h
    simp [lookup_mention_self hm]
  · have kept : (b.mention (n, t)).lookup m = b.lookup m := lookup_mention_of_ne hm h
    simp [kept, h]

theorem isSome_lookup_mentionAll (hm : Visible m) :
    ((b.mentionAll uses).lookup m).isSome = true ↔ (b.lookup m).isSome = true ∨ m ∈ uses.map (·.1) := by
  induction uses generalizing b with
  | nil => simp
  | cons u uses ih =>
    rw [mentionAll_cons, ih, isSome_lookup_mention hm, List.map_cons, List.mem_cons, or_assoc, eq_comm (a := u.1)]

def inputNames (b : Block) : List Label := b.inputs.map b.nameOf

def InputsIn (b : Block) : Prop := ∀ id ∈ b.inputs, id < b.values.length

theorem InputsIn.withInput (h : b.InputsIn) {t : Ty} : (b.withInput n t).InputsIn := by
  intro id hid
  rw [length_withInput]
  rcases List.mem_append.mp hid with hid | hid
  · exact Nat.lt_succ_of_lt (h id hid)
  · rw [List.mem_singleton.mp hid]
    exact Nat.lt_succ_self _

theorem Extends.inputNames (h : b.Extends b') (hin : b.InputsIn) (same : b'.inputs = b.inputs) :
    b'.inputNames = b.inputNames := by
  unfold Block.inputNames
  rw [same]
  exact List.map_congr_left fun id hid => h.nameOf id (hin id hid)

theorem inputNames_withInput (hin : b.InputsIn) {t : Ty} :
    (b.withInput n t).inputNames = b.inputNames ++ [.text n] := by
  have old : b.inputs.map (b.withInput n t).nameOf = b.inputNames :=
    List.map_congr_left fun id hid => extends_withInput.nameOf id (hin id hid)
  unfold inputNames
  rw [show (b.withInput n t).inputs = b.inputs ++ [b.values.length] from rfl, List.map_append, old, List.map_singleton,
    nameOf_withInput]
  rfl

/-- Names that are not in scope become inputs, each where it is used first. -/
theorem inputs_mentionAll (hin : b.InputsIn) (hv : ∀ u ∈ uses, Visible u.1) :
    (b.mentionAll uses).InputsIn ∧ (b.mentionAll uses).inputNames =
      b.inputNames ++ (((uses.map (·.1)).filter fun n => (b.lookup n).isNone).eraseDups).map .text := by
  induction uses generalizing b with
  | nil => exact ⟨hin, (List.append_nil _).symm⟩
  | cons u uses ih =>
    obtain ⟨n, t⟩ := u
    have others : ∀ u ∈ uses, Visible u.1 := fun u hu => hv u (List.mem_cons_of_mem _ hu)
    rw [mentionAll_cons, List.map_cons]
    cases hl : b.lookup n with
    | some id =>
      rw [List.filter_cons_of_neg (by simp [hl])]
      rw [mention_of_some hl]
      exact ih hin others
    | none =>
      obtain ⟨inside, names⟩ := ih (b := b.withInput n t) hin.withInput others
      rw [mention_of_none hl]
      refine ⟨inside, ?_⟩
      -- the first use of a name takes all further ones out of the list
      have rest : ((uses.map (·.1)).filter fun m => ((b.withInput n t).lookup m).isNone) =
          ((uses.map (·.1)).filter fun m => (b.lookup m).isNone).filter fun m => !m == n := by
        rw [List.filter_filter]
        refine List.filter_congr fun m hm => ?_
        obtain ⟨u, hu, rfl⟩ := List.mem_map.mp hm
        rw [lookup_withInput (others u hu)]
        by_cases he : n = u.1
        · simp [he]
        · rw [if_neg he, Option.or_none]
          simp [Ne.symm he]
      rw [names, inputNames_withInput hin, List.filter_cons_of_pos (by simp [hl]), List.eraseDups_cons, rest,
        List.append_assoc]
      rfl

end Block

/-! ## One line -/

namespace Line

/-- The line is a legal instruction with names as a text has them. -/
structure Textual (l : Line) : Prop where
  lawful : l.statement.Lawful l.kind
  used : ∀ n ∈ l.used, Block.Visible n
  names : ∀ n ∈ l.names, Block.Visible n

variable {ls : List Line} {l : Line} {c : TypeContext} {b b' : Block} {n m : String} {id : Nat}

theorem Textual.uses (hl : l.Textual) (c : TypeContext) : ∀ u ∈ l.statement.uses c, Block.Visible u.1 :=
  fun _ hu => hl.used _ (List.of_mem_zip hu).1

theorem getElem?_labels (l : Line) (types : List Attr) {i : Nat} :
    (l.labels.getD (types.map fun _ => none))[i]? = some (some (.text m)) ↔ l.names[i]? = some m := by
  unfold labels
  cases l.names with
  | nil => simp [List.getElem?_replicate]
  | cons n ns =>
    show ((n :: ns).map fun n => some (Label.text n))[i]? = _ ↔ _
    rw [List.getElem?_map]
    simp

namespace Runs

theorem lookup_iff (h : l.Runs c b b') (hm : Block.Visible m) : b'.lookup m = some id ↔
    (l.front c b).lookup m = some id ∨ ∃ i, l.names[i]? = some m ∧ id = (l.front c b).values.length + i := by
  obtain ⟨operands, creates⟩ := h.creates
  rw [creates.lookup m hm]
  simp only [getElem?_labels]

theorem lookup_front (h : l.Runs c b b') (hm : Block.Visible m) (hl : (l.front c b).lookup m = some id) :
    b'.lookup m = some id := (h.lookup_iff hm).mpr (.inl hl)

theorem lookup_of_some (h : l.Runs c b b') (hl : b.lookup m = some id) : b'.lookup m = some id :=
  h.lookup_front (Block.visible_of_lookup hl) (Block.lookup_mentionAll_of_some (Block.visible_of_lookup hl) hl _)

theorem isSome_lookup_front (hl : l.Textual) (c : TypeContext) (hm : Block.Visible m) :
    ((l.front c b).lookup m).isSome = true ↔ (b.lookup m).isSome = true ∨ m ∈ l.used := by
  rw [front, Block.isSome_lookup_mentionAll hm, hl.lawful.names_uses]
  rfl

theorem isSome_lookup (h : l.Runs c b b') (hl : l.Textual) (hm : Block.Visible m) :
    (b'.lookup m).isSome = true ↔ (b.lookup m).isSome = true ∨ m ∈ l.names ∨ m ∈ l.used := by
  constructor
  · intro hs
    obtain ⟨id, hid⟩ := Option.isSome_iff_exists.mp hs
    rcases (h.lookup_iff hm).mp hid with hid | ⟨i, hi, -⟩
    · exact ((isSome_lookup_front hl c hm).mp (Option.isSome_of_eq_some hid)).imp_right .inr
    · exact .inr (.inl (List.mem_of_getElem? hi))
  · rintro (hs | hn | hu)
    · obtain ⟨id, hid⟩ := Option.isSome_iff_exists.mp hs
      exact Option.isSome_of_eq_some (h.lookup_of_some hid)
    · obtain ⟨i, hi⟩ := List.mem_iff_getElem?.mp hn
      exact Option.isSome_of_eq_some ((h.lookup_iff hm).mpr (.inr ⟨i, hi, rfl⟩))
    · obtain ⟨id, hid⟩ := Option.isSome_iff_exists.mp ((isSome_lookup_front (b := b) hl c hm).mpr (.inr hu))
      exact Option.isSome_of_eq_some (h.lookup_front hm hid)

theorem new (h : l.Runs c b b') (hl : l.Textual) (hn : n ∈ l.names) : (b.lookup n).isSome = false ∧ n ∉ l.used := by
  have free := h.fresh n hn
  have none := mt (isSome_lookup_front (b := b) hl c (hl.names n hn)).mpr (by rw [free]; exact nofun)
  exact ⟨by simpa using fun hs => none (.inl hs), fun hu => none (.inr hu)⟩

theorem operand_typed (h : l.Runs c b b') (hl : l.Textual) (hb : b.WellScoped) (ht : b.HoldsTypes) {x : String × Ty}
    (hx : x ∈ l.statement.writtenUses) :
    ∃ id t, b'.lookup x.1 = some id ∧ b'.typeOf id = .type t ∧ t.same x.2 = true := by
  obtain ⟨operands, creates⟩ := h.creates
  have inside : (l.front c b).WellScoped := Block.wellScoped_mentionAll hb _
  have typed : (l.front c b).HoldsTypes := ht.mentionAll hb _
  obtain ⟨t, hu, same⟩ := Statement.mem_uses_of_written hx c
  obtain ⟨id, hid, has⟩ := h.consistent.found hb (hl.uses c) _ hu
  obtain ⟨u, htype⟩ := typed.lookup hid
  have agree := (Block.hasType_type htype).mp has
  refine ⟨id, u, h.lookup_front (hl.uses c (x.1, t) hu) hid, ?_, ?_⟩
  · rw [creates.extends_.typeOf id (Block.lookup_lt inside hid)]
    exact htype
  · rw [Ty.same_iff] at agree same ⊢
    exact agree.trans same

theorem result_typed (h : l.Runs c b b') (hl : l.Textual) {x : String × Ty} (hx : x ∈ l.names.zip l.statement.results) :
    ∃ id t, b'.lookup x.1 = some id ∧ b'.typeOf id = .type t ∧ t.same x.2 = true := by
  obtain ⟨operands, creates⟩ := h.creates
  obtain ⟨i, hi⟩ := List.mem_iff_getElem?.mp hx
  obtain ⟨hn, hr⟩ := List.getElem?_zip_eq_some.mp hi
  have visible := hl.names _ (List.mem_of_getElem? hn)
  have plain := congrArg (·[i]?) (TypeContext.plain_keepAll (indexAfter c l.statement.types).2 l.statement.results)
  simp only [List.getElem?_map, hr, Option.map_some] at plain
  obtain ⟨t, kept, same⟩ := Option.map_eq_some_iff.mp plain
  have type : (l.statement.state c l.kind (l.front c b)).resultTypes[i]? = some (.type t) := by
    simp only [Statement.state, List.getElem?_map, kept, Option.map_some]
  obtain ⟨htype, -⟩ := creates.item i _ _ type ((getElem?_labels l _).mpr hn)
  exact ⟨_, t, (h.lookup_iff visible).mpr (.inr ⟨i, hn, rfl⟩), htype, Ty.same_iff.mpr same⟩

theorem follows (h : l.Runs c b b') (hl : l.Textual) (hb : b.WellScoped) :
    ∃ op, b'.operations = b.operations ++ [op] ∧ b'.Follows op l := by
  have inside : b'.WellScoped := h.wellScoped hb
  have found : ∀ n ∈ l.used, b'.lookup n = some (l.valueOf c b n) := fun n hn =>
    h.lookup_front (hl.used n hn) (h.lookup_valueOf hl.lawful hl.used hb n hn)
  obtain ⟨op, hops, records, results⟩ := h.recorded hl.lawful
  have operands : op.operands = l.used.map (l.valueOf c b) := by
    rw [records.operands, Content.physical_map]
    rfl
  refine ⟨op, hops, ?_, ?_, ?_⟩
  · rw [operands, List.map_map]
    exact List.map_congr_left fun n hn => (found n hn).symm
  · intro id hid
    rw [operands] at hid
    obtain ⟨n, hn, rfl⟩ := List.mem_map.mp hid
    have hlookup := found n hn
    rw [Block.isAnonymous_of_name (Block.lookup_lt inside hlookup) (Block.nameOf_of_lookup inside hlookup)]
    exact hl.used n hn
  · refine h.count.imp_right fun count => List.ext_getElem? fun i => ?_
    rw [results, List.getElem?_map, List.getElem?_map]
    rcases Nat.lt_or_ge i l.names.length with hi | hi
    · have hn : l.names[i]? = some l.names[i] := List.getElem?_eq_getElem hi
      have value := (h.lookup_iff (hl.names _ (List.getElem_mem hi))).mpr (.inr ⟨i, hn, rfl⟩)
      rw [hn, List.getElem?_range' (count ▸ hi), Option.map_some, Option.map_some, value, Nat.one_mul]
    · rw [List.getElem?_eq_none hi, List.getElem?_eq_none (by rw [List.length_range', ← count]; exact hi)]
      rfl

theorem holdsTypes (h : l.Runs c b b') (hb : b.WellScoped) (ht : b.HoldsTypes) : b'.HoldsTypes := by
  obtain ⟨n, created⟩ := h.created
  have front := (ht.mentionAll hb (l.statement.uses c)).typedAs
  refine front.createOperation (Block.wellScoped_mentionAll hb _) (fun a ha => ?_) created
  obtain ⟨t, -, rfl⟩ := List.mem_map.mp ha
  exact ⟨t, rfl⟩

end Runs

/-! ## Several lines -/

/-- What lines hand on to the next one. -/
structure Carries (ls : List Line) (b : Block) : Prop extends Named ls b where
  wellScoped : b.WellScoped
  types : b.HoldsTypes
  inputsIn : b.InputsIn

theorem carries_empty : Carries [] .empty where
  once := List.nodup_nil
  apart := nofun
  later := .nil
  scope n _ := by rw [Block.lookup_empty]; simp
  typed := nofun
  inputs := rfl
  distinct := List.nodup_nil
  operations := trivial
  wellScoped := Block.wellScoped_empty
  types := Block.holdsTypes_empty
  inputsIn := nofun

theorem eraseDups_free {us vs bound more : List String} (h : ∀ n ∈ more, n ∉ us ∧ n ∉ vs) :
    ((us ++ vs).filter fun n => n ∉ bound ++ more).eraseDups =
      (us.filter fun n => n ∉ bound).eraseDups ++ (vs.filter fun n => n ∉ bound ∧ n ∉ us).eraseDups := by
  have kept : ((us ++ vs).filter fun n => n ∉ bound ++ more) = (us ++ vs).filter fun n => n ∉ bound := by
    refine List.filter_congr fun n hn => decide_eq_decide.mpr ?_
    rw [List.mem_append, not_or]
    refine and_iff_left fun hm => ?_
    rcases List.mem_append.mp hn with hn | hn
    · exact (h n hm).1 hn
    · exact (h n hm).2 hn
  have added : (vs.filter fun n => n ∉ bound).removeAll (us.filter fun n => n ∉ bound) =
      vs.filter fun n => n ∉ bound ∧ n ∉ us := by
    unfold List.removeAll
    rw [List.filter_filter]
    refine List.filter_congr fun n _ => ?_
    by_cases hb : n ∈ bound
    · simp [hb]
    · simp [hb]
  rw [kept, List.filter_append, List.eraseDups_append, added]

theorem free_concat (h : ∀ n ∈ l.names, n ∉ ls.flatMap used ∧ n ∉ l.used) :
    free (ls ++ [l]) = free ls ++ (l.used.filter fun n => n ∉ ls.flatMap names ∧ n ∉ ls.flatMap used).eraseDups := by
  unfold free
  rw [← eraseDups_free h, List.flatMap_append, List.flatMap_append, List.flatMap_singleton, List.flatMap_singleton]

theorem nodup_eraseDups (ns : List String) : ns.eraseDups.Nodup := by
  match ns with
  | [] => exact List.nodup_nil
  | n :: ns =>
    rw [List.eraseDups_cons, List.nodup_cons, List.mem_eraseDups]
    refine ⟨?_, nodup_eraseDups _⟩
    simp
termination_by ns.length
decreasing_by exact Nat.lt_succ_of_le (List.length_filter_le _ _)

theorem Carries.inputs_run (h : Carries ls b) (hl : l.Textual) (hrun : l.Runs c b b') :
    b'.InputsIn ∧ b'.inputNames = (free (ls ++ [l])).map .text := by
  obtain ⟨operands, creates⟩ := hrun.creates
  obtain ⟨inside, entered⟩ := Block.inputs_mentionAll h.inputsIn (hl.uses c)
  have same : b'.inputNames = (l.front c b).inputNames := creates.extends_.inputNames inside creates.inputs
  refine ⟨fun id hid => ?_, ?_⟩
  · rw [creates.inputs] at hid
    exact Nat.lt_of_lt_of_le (inside id hid) creates.extends_.length_le
  · have new : (l.used.filter fun n => (b.lookup n).isNone) =
        l.used.filter fun n => n ∉ ls.flatMap names ∧ n ∉ ls.flatMap used := by
      refine List.filter_congr fun n hn => ?_
      have known := h.scope n (hl.used n hn)
      rw [Bool.eq_iff_iff, decide_eq_true_iff, ← not_or, ← known]
      simp
    rw [same, front, entered, hl.lawful.names_uses, show b.inputNames = _ from h.inputs, free_concat, List.map_append]
    · rw [← new]
      rfl
    · intro n hn
      obtain ⟨none, unused⟩ := hrun.new hl hn
      refine ⟨fun hu => ?_, unused⟩
      rw [(h.scope n (hl.names n hn)).mpr (.inr hu)] at none
      cases none

theorem mem_names_concat : n ∈ (ls ++ [l]).flatMap names ↔ n ∈ ls.flatMap names ∨ n ∈ l.names := by
  rw [List.flatMap_append, List.flatMap_singleton, List.mem_append]

theorem mem_used_concat : n ∈ (ls ++ [l]).flatMap used ↔ n ∈ ls.flatMap used ∨ n ∈ l.used := by
  rw [List.flatMap_append, List.flatMap_singleton, List.mem_append]

theorem Carries.run (h : Carries ls b) (hl : l.Textual) (hrun : l.Runs c b b') : Carries (ls ++ [l]) b' := by
  obtain ⟨inside, names⟩ := h.inputs_run hl hrun
  obtain ⟨op, hops, follows⟩ := hrun.follows hl h.wellScoped
  have found : ∀ n id, b.lookup n = some id → b'.lookup n = some id := fun n id => hrun.lookup_of_some
  have fresh : ∀ n ∈ l.names, (n ∉ ls.flatMap Line.names ∧ n ∉ ls.flatMap used) ∧ n ∉ l.used := by
    intro n hn
    obtain ⟨none, unused⟩ := hrun.new hl hn
    rw [← Bool.not_eq_true, h.scope n (hl.names n hn), not_or] at none
    exact ⟨none, unused⟩
  refine ⟨⟨?_, ?_, ?_, fun n hn => ?_, fun x hx => ?_, names, ?_, ?_⟩, hrun.wellScoped h.wellScoped,
    hrun.holdsTypes h.wellScoped h.types, inside⟩
  · rw [List.flatMap_append, List.flatMap_singleton, List.nodup_append]
    exact ⟨h.once, hrun.distinct, fun m hm n hn he => (fresh n hn).1.1 (he ▸ hm)⟩
  · intro l' hl' n hn
    rcases List.mem_append.mp hl' with hl' | hl'
    · exact h.apart l' hl' n hn
    · rw [List.mem_singleton.mp hl'] at hn ⊢
      exact (fresh n hn).2
  · rw [List.pairwise_append]
    refine ⟨h.later, List.pairwise_singleton _ _, fun l₁ h₁ l₂ h₂ n hn hu => ?_⟩
    rw [List.mem_singleton.mp h₂] at hn
    exact (fresh n hn).1.2 (List.mem_flatMap.mpr ⟨l₁, h₁, hu⟩)
  · rw [hrun.isSome_lookup hl hn, h.scope n hn, mem_names_concat, mem_used_concat, or_or_or_comm]
  · rw [List.flatMap_append, List.flatMap_singleton, List.mem_append] at hx
    rcases hx with hx | hx
    · obtain ⟨id, t, hid, htype, same⟩ := h.typed x hx
      refine ⟨id, t, found _ id hid, ?_, same⟩
      rw [hrun.extends.typeOf id (Block.lookup_lt h.wellScoped hid)]
      exact htype
    · rcases List.mem_append.mp hx with hx | hx
      · exact hrun.operand_typed hl h.wellScoped h.types hx
      · exact hrun.result_typed hl hx
  · rw [show b'.inputs.map b'.nameOf = _ from names]
    exact (nodup_eraseDups _).map fun _ _ => Label.text.inj
  · rw [hops]
    exact (h.operations.imp fun _ _ ho => ho.extend h.wellScoped hrun.extends found).concat follows

theorem Carries.runAll (h : Carries ls b) {ls' : List Line} (hl : ∀ l ∈ ls', l.Textual) (hrun : RunAll ls' c b b') :
    Carries (ls ++ ls') b' := by
  induction ls' generalizing ls b c with
  | nil =>
    obtain rfl : b' = b := hrun
    rwa [List.append_nil]
  | cons l ls' ih =>
    obtain ⟨b₁, first, others⟩ := hrun
    have one := h.run (hl l List.mem_cons_self) first
    have all := ih one (fun x hx => hl x (List.mem_cons_of_mem _ hx)) others
    rwa [List.append_assoc, List.singleton_append] at all

end Line

end GateAsm
