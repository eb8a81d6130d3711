import GateAsm.Proofs.Running
import GateAsm.Proofs.Written.Reading
import GateAsm.Proofs.Written.Recovered

/-!
# Canonical text

The text of a block that was read from a text is read back as the very same block, unless a bare operation
stands directly in front of one whose results have names (`Block.Separated`). Then the text is not read at
all: nothing but a line break separates the two, and the bare one takes the names for its operands.
-/

namespace GateAsm

/-! ## Bare operations -/

def Registry.reservedTags (r : Registry) : Label → List String
  | .text name => ((r.kind? name).map Kind.structuralTags).getD []
  | .data _ => []

def Operation.userTags (r : Registry) (op : Operation) : List (String × Attr) :=
  op.attrs.filter fun t => !(r.reservedTags op.opcode).contains t.1

def Operation.Bare (r : Registry) (op : Operation) : Prop :=
  op.operands = [] ∧ op.results = [] ∧ op.userTags r = []

instance (r : Registry) (op : Operation) : Decidable (op.Bare r) := by unfold Operation.Bare; infer_instance

/-- No bare operation stands directly in front of one that has a result with a name. -/
def Block.SeparatedFrom (r : Registry) (b : Block) : List Operation → Prop
  | [] => True
  | [_] => True
  | op :: op' :: ops => (op.Bare r → ∀ id ∈ op'.results, b.isAnonymous id = true) ∧ b.SeparatedFrom r (op' :: ops)

def Block.Separated (r : Registry) (b : Block) : Prop := b.SeparatedFrom r b.operations

instance Block.decidableSeparatedFrom (r : Registry) (b : Block) : (ops : List Operation) →
    Decidable (b.SeparatedFrom r ops)
  | [] => .isTrue trivial
  | [_] => .isTrue trivial
  | _ :: op' :: ops =>
    have := b.decidableSeparatedFrom r (op' :: ops)
    inferInstanceAs (Decidable (_ ∧ _))

instance (r : Registry) (b : Block) : Decidable (b.Separated r) := b.decidableSeparatedFrom r b.operations

section
variable {r : Registry} {b : Block} {names : ShownNames} {op op' : Operation} {k : Kind} {c : Content Nat}
  {user : List (String × Attr)} {m : Statement} {l l' : Line}

theorem Operation.Records.userTags_eq (h : op.Records k c user) (hk : r.kind? k.name = some k) :
    op.userTags r = user := by
  have reserved : r.reservedTags op.opcode = k.structuralTags := by
    rw [h.opcode, Registry.reservedTags, hk]; rfl
  rw [Operation.userTags, reserved, h.others]

theorem Content.physical_eq_nil_iff {ρ : Type} {c : Content ρ} : c.physical = [] ↔ c.mains = [] := by
  unfold physical flagged mains
  cases c.head with
  | generic a => cases a <;> cases c.operands <;> simp [AngleOf.references]
  | call callee count => cases c.operands <;> simp

/-- An operation is bare exactly if it says a bare statement. -/
theorem Block.Says.bare_iff (h : b.Says names op k c m) (hk : r.kind? k.name = some k) : op.Bare r ↔ m.Bare := by
  have operands : op.operands = [] ↔ m.types = [] := by
    rw [h.records.operands, Content.physical_eq_nil_iff]
    have := congrArg List.length h.types
    simp only [Block.typesOf, List.length_map] at this
    rw [← List.length_eq_zero_iff, ← List.length_eq_zero_iff (l := m.types), this]
  have results : op.results = [] ↔ m.results = [] := by
    have := congrArg List.length h.results
    simp only [Block.typesOf, List.length_map] at this
    rw [← List.length_eq_zero_iff, ← List.length_eq_zero_iff (l := m.results), this]
  unfold Operation.Bare Statement.Bare
  rw [operands, results, h.records.userTags_eq hk, and_congr_right_iff]
  exact fun _ => and_comm

theorem Block.Leaves.names_eq_nil_iff (h : b.Leaves op l) :
    l.names = [] ↔ ∀ id ∈ op.results, b.isAnonymous id = true := by
  obtain ⟨ts, shown, bound⟩ := h.shown.bound
  have anonymous : ∀ id ∈ op.results, ∃ t ∈ ts, b.isAnonymous id = t.startsWith anonymousMark := by
    intro id hid
    obtain ⟨t, ht, hname⟩ := List.mem_map.mp (shown ▸ List.mem_map_of_mem hid)
    exact ⟨t, ht, Block.isAnonymous_of_name (h.results id hid).1 hname.symm⟩
  have named : ∀ t ∈ ts, ∃ id ∈ op.results, b.isAnonymous id = t.startsWith anonymousMark := by
    intro t ht
    obtain ⟨id, hid, hname⟩ := List.mem_map.mp (shown.symm ▸ List.mem_map_of_mem (f := Label.text) ht)
    exact ⟨id, hid, Block.isAnonymous_of_name (h.results id hid).1 hname⟩
  rw [bound]
  cases hany : ts.any (·.startsWith anonymousMark) with
  | true =>
    obtain ⟨t, ht, hmark⟩ := List.any_eq_true.mp hany
    obtain ⟨id, hid, ha⟩ := named t ht
    rcases h.uniform with all | none
    · exact ⟨fun _ => all, fun _ => rfl⟩
    · rw [none id hid, hmark] at ha; cases ha
  | false =>
    have marks := List.any_eq_false.mp hany
    simp only [Bool.false_eq_true, if_false]
    constructor
    · rintro rfl id hid
      obtain ⟨t, ht, -⟩ := anonymous id hid
      cases ht
    · intro all
      refine List.eq_nil_iff_forall_not_mem.mpr fun t ht => ?_
      obtain ⟨id, hid, ha⟩ := named t ht
      exact marks t ht (ha.symm.trans (all id hid))

theorem Block.separatedFrom_iff {ops : List Operation} {ls : List Line} (h : Paired b.Leaves ops ls)
    (hl : ∀ l ∈ ls, l.Writable r) : b.SeparatedFrom r ops ↔ Line.Separated ls := by
  induction ops generalizing ls with
  | nil => cases ls <;> first | exact Iff.rfl | cases h
  | cons op ops ih =>
    cases ls with
    | nil => cases h
    | cons l ls =>
      obtain ⟨first, rest⟩ := h
      have := ih rest fun x hx => hl x (List.mem_cons_of_mem _ hx)
      cases ops with
      | nil => cases ls <;> first | exact Iff.rfl | cases rest
      | cons op' ops =>
        cases ls with
        | nil => cases rest
        | cons l' ls =>
          obtain ⟨c, said⟩ := first.shown.said
          refine and_congr ?_ this
          rw [said.bare_iff (hl l List.mem_cons_self).registered, rest.1.names_eq_nil_iff]

end

/-! ## Names for display -/

namespace Block

variable {b : Block} {op : Operation} {l : Line}

theorem isIdle_of_anonymous (hb : b.Quiet) {id : Nat} (hid : id < b.values.length) (ha : b.isAnonymous id = true) :
    b.isIdle id = true := by
  have hv := Block.value?_of_lt hid
  have unused := hb id hid ha
  simp only [isUnused, isAnonymous, hv, Option.map_some, Option.getD_some] at ha unused
  simp only [isIdle, hv, ha, unused, Bool.and_self]

theorem nameResults_of_named {ids : List Nat} (h : ∀ id ∈ ids, b.isAnonymous id = false) (n : Nat) :
    b.nameResults ids n = ([], n) := by
  induction ids with
  | nil => rfl
  | cons id ids ih =>
    rw [nameResults, if_neg (by simp [h id List.mem_cons_self])]
    exact ih fun x hx => h x (List.mem_cons_of_mem _ hx)

theorem nameOperations_of_leaves (hb : b.Quiet) {ops : List Operation} {ls : List Line} (h : Paired b.Leaves ops ls)
    (n : Nat) : b.nameOperations ops n = [] := by
  induction ops generalizing ls n with
  | nil => rfl
  | cons op ops ih =>
    cases ls with
    | nil => cases h
    | cons l ls =>
      obtain ⟨first, rest⟩ := h
      rw [nameOperations]
      rcases first.uniform with all | none
      · rw [if_pos (List.all_eq_true.mpr fun id hid =>
          isIdle_of_anonymous hb (first.results id hid).1 (all id hid))]
        exact ih rest n
      · split
        · exact ih rest n
        · rw [nameResults_of_named none]
          exact ih rest n

end Block

/-! ## Texts that are read -/

section
variable {r : Registry} {l : Line} {ls : List Line} {c : TypeContext} {b b' : Block}

/-- A block that is read from a text is one in which lines have run that can be written again. -/
theorem Reading.module_lines {env : ParserEnv} {text : String} (hr : env.registry.Sound)
    (h : (Reading.module env text c .empty).answer = .ok ()) :
    ∃ ls : List Line, (∀ l ∈ ls, l.Writable env.registry ∧ l.tupled = l) ∧
      Line.RunAll ls c .empty (Reading.module env text c .empty).block := by
  obtain ⟨s, t, hblock, rfl, hspelled, hread, hlast⟩ := run_ok h
  obtain ⟨xs, hs, hend, hstates, hrun⟩ := Parser.instructions_sound (fun _ _ hk => hr.valid_of_kind? hk)
    (Nat.le_refl _) (hblock ▸ Block.wellScoped_empty) (visible_of_spelled hspelled) (Parser.yields_get_bind.mp hread)
  rw [hblock, hlast] at hrun
  refine ⟨xs.map (·.2), ?_, hrun⟩
  intro l hl
  obtain ⟨x, hx, rfl⟩ := List.mem_map.mp hl
  refine (hstates x hx).writable hr fun w hw => hspelled w ?_
  rw [hs.words]
  exact List.mem_append_left _ (List.mem_flatMap.mpr ⟨x, hx, hw⟩)

end

/-- **Canonical text is a fixed point exactly if it is separated.** A block that was read from a text can be
printed, and its text is read back if and only if no bare operation stands directly in front of one whose
results have names; then the same block comes out. -/
theorem Reading.module_format {env env' : ParserEnv} {c c' : TypeContext} {text : String} {b : Block}
    (hr : env.registry.Sound) (hc : c.Plain) (hc' : c'.Plain) (hsame : env'.registry = env.registry)
    (h : (Reading.module env text c .empty).answer = .ok ()) (hb : (Reading.module env text c .empty).block = b)
    (indent : Nat) :
    ∃ printed, b.format env.registry indent = .ok printed ∧
      ((Reading.module env' printed c' .empty).answer = .ok () ↔ b.Separated env.registry) ∧
      (b.Separated env.registry → (Reading.module env' printed c' .empty).block = b) := by
  subst hb
  obtain ⟨ls, hls, hrun⟩ := module_lines hr h
  generalize (Reading.module env text c .empty).block = b at hrun
  have writable : ∀ l ∈ ls, l.Writable env.registry := fun l hl => (hls l hl).1
  obtain ⟨hclean, -, ops, hops, hleaves⟩ := Line.RunAll.leaves hrun writable Block.clean_empty hc
  rw [show Block.empty.operations = [] from rfl, List.nil_append] at hops
  subst hops
  have names : b.displayNames = [] := Block.nameOperations_of_leaves hclean.quiet hleaves 0
  have printed : b.format env.registry indent = .ok (moduleText indent ls) := by
    show b.formatWith env.registry.printEnv indent = _
    refine Block.formatWith_eq hr writable (fun op hop id hid => ?_) ?_ indent
    · obtain ⟨l, -, hl⟩ := hleaves.exists_of_mem hop
      exact (hl.results id hid).2
    · rw [names]; exact hleaves.imp fun _ _ hl => hl.shown
  have again : Line.RunAll (ls.map Line.tupled) c' .empty b := by
    rw [List.map_congr_left fun l hl => (hls l hl).2, List.map_id']
    exact Line.RunAll.change_context (fun l hl => (writable l hl).statement.plain) hc hc' hrun
  have sound : env'.registry.Sound := hsame ▸ hr
  have again_writable : ∀ l ∈ ls, l.Writable env'.registry := hsame ▸ writable
  obtain ⟨reads, block⟩ := module_moduleText sound again_writable indent Block.wellScoped_empty again
  have separated : b.Separated env.registry ↔ Line.Separated ls := Block.separatedFrom_iff hleaves writable
  exact ⟨_, printed, reads.trans separated.symm, fun hsep => block (separated.mp hsep)⟩

def allocTwice : String := "quantum.alloc {}\n%r = quantum.alloc -> qubit"

/-- The braces are not printed, and then the name in the second line is taken for an operand of the first. -/
theorem Reading.module_format_alloc :
    (Reading.module ⟨.standard, false⟩ allocTwice .default .empty).answer = .ok () ∧
      ∃ printed, (Reading.module ⟨.standard, false⟩ allocTwice .default .empty).block.format .standard 0 = .ok printed ∧
        (Reading.module ⟨.standard, false⟩ printed .default .empty).answer ≠ .ok () := by
  have reads : (Reading.module ⟨.standard, false⟩ allocTwice .default .empty).answer = .ok () :=
    eq_ok_of_isOk (by decide +kernel)
  have close : ¬ (Reading.module ⟨.standard, false⟩ allocTwice .default .empty).block.Separated .standard := by
    decide +kernel
  obtain ⟨printed, hprinted, hreads, -⟩ := @Reading.module_format ⟨.standard, false⟩ ⟨.standard, false⟩ _ _ _ _
    Registry.sound_standard TypeContext.plain_default TypeContext.plain_default rfl reads rfl 0
  exact ⟨reads, printed, hprinted, by rw [Ne, hreads]; exact close⟩

end GateAsm
