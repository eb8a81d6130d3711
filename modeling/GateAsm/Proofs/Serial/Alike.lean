import GateAsm.Proofs.Display

/-!
# Blocks that print alike

The text of a block does not depend on the numbers of its values: if another block has the same operations over
renumbered values, with the same records and names, the printer does the same for both (`Alike.formatWith_eq`),
whether it succeeds or fails.
-/

namespace GateAsm

def Operation.over (f : Nat → Nat) (op : Operation) : Operation :=
  { op with operands := op.operands.map f, results := op.results.map f }

section
variable (f : Nat → Nat) (op : Operation)

@[simp]
theorem Operation.opcode_over : (op.over f).opcode = op.opcode := rfl

@[simp]
theorem Operation.operands_over : (op.over f).operands = op.operands.map f := rfl

@[simp]
theorem Operation.results_over : (op.over f).results = op.results.map f := rfl

@[simp]
theorem Operation.attrs_over : (op.over f).attrs = op.attrs := rfl

@[simp]
theorem Operation.mnemonic_over : (op.over f).mnemonic = op.mnemonic := rfl

@[simp]
theorem Operation.tag?_over (key : String) : (op.over f).tag? key = op.tag? key := rfl

@[simp]
theorem Operation.segmentSizes_over : (op.over f).segmentSizes = op.segmentSizes := rfl

@[simp]
theorem Operation.requiredTag_over (key : String) :
    Printer.requiredTag (op.over f) key = Printer.requiredTag op key := rfl

end

/-! ## Operands -/

namespace Printer

def renumber {α : Type} (f : Nat → Nat) (x : α × List Nat) : α × List Nat := (x.1, x.2.map f)

section
variable {f : Nat → Nat} {shown shown' : Nat → Label} (hs : ∀ id, shown' (f id) = shown id)
include hs

theorem map_shown (ids : List Nat) : (ids.map f).map shown' = ids.map shown := by
  rw [List.map_map]
  exact List.map_congr_left fun id _ => hs id

theorem componentTexts_map (cs : List Attr) (ids : List Nat) :
    componentTexts shown' cs (ids.map f) = renumber f <$> componentTexts shown cs ids := by
  induction cs generalizing ids with
  | nil => rfl
  | cons c cs ih =>
    cases c with
    | dynamic =>
      cases ids with
      | nil => rfl
      | cons id ids => simp [componentTexts, ih, hs, renumber]
    | constant n => simp [componentTexts, ih, renumber]
    | _ => rfl

theorem accessors_map (a : Attr) (ids : List Nat) :
    accessors shown' a (ids.map f) = renumber f <$> accessors shown a ids := by
  simp only [accessors, componentTexts_map hs, map_bind, bind_map_left]
  refine bind_congr fun full => ?_
  cases full with
  | false => rfl
  | true => simp [renumber]

theorem slots_map (op : Operation) (ss : List Slot) (sizes : List Int) (ids : List Nat) (mark : String) :
    slots shown' (op.over f) ss sizes (ids.map f) mark = renumber f <$> slots shown op ss sizes ids mark := by
  induction ss generalizing sizes ids mark with
  | nil => rfl
  | cons s ss ih =>
    simp only [slots]
    split
    · exact ih ..
    · cases ids with
      | nil => rfl
      | cons id ids =>
        cases s.register with
        | true => simp [accessors_map hs, ih, hs, renumber]
        | false => simp [ih, hs, renumber]

theorem angle_map (op : Operation) (size : Int) : angle shown' (op.over f) size =
    (fun x => (x.1, x.2.1.map f, x.2.2.map f)) <$> angle shown op size := by
  simp only [angle, Operation.tag?_over, Operation.operands_over]
  cases op.tag? angleTag with
  | some a => simp
  | none =>
    by_cases hsize : size = 0
    · simp [hsize]
    · cases op.operands with
      | nil => simp [hsize]
      | cons id ids => simp [hsize, hs]

theorem arguments_map (arrays : Attr) (i : Nat) (args references : List Nat) :
    arguments shown' arrays i (args.map f) (references.map f) = arguments shown arrays i args references := by
  induction args generalizing i references with
  | nil => rfl
  | cons arg args ih =>
    simp only [List.map_cons, arguments, hs]
    refine bind_congr fun n => ?_
    split
    · simp [accessors_map hs, ih, renumber]
    · simp [ih]

end

end Printer

/-! ## Blocks -/

namespace Block

theorem mem_displayNames {b : Block} {x : Nat × String} (hx : x ∈ b.displayNames) :
    x.1 ∈ b.operations.flatMap (·.results) := by
  obtain ⟨next, hn⟩ := b.nameOperations_numbers b.operations 0
  have := List.mem_map_of_mem (f := (·.1)) hx
  rw [Block.displayNames, hn.values] at this
  obtain ⟨op, hop, hid⟩ := List.mem_flatMap.mp this
  exact List.mem_flatMap.mpr ⟨op, List.mem_of_mem_filter hop, List.mem_of_mem_filter hid⟩

/-- The block `d` is `b` with other numbers for the values. -/
structure Alike (f : Nat → Nat) (b d : Block) : Prop where
  value : ∀ id, d.value? (f id) = b.value? id
  injective : ∀ id ∈ b.operations.flatMap (·.results), ∀ x, f x = f id → x = id
  scope : ∀ l, d.inScope? l = (b.inScope? l).map f
  length : d.scope.length = b.scope.length
  operations : d.operations = b.operations.map (Operation.over f)

namespace Alike

variable {f : Nat → Nat} {b d : Block} (h : Alike f b d)
include h

theorem nameOf (id : Nat) : d.nameOf (f id) = b.nameOf id := by rw [Block.nameOf, h.value, Block.nameOf]

theorem typeOf (id : Nat) : d.typeOf (f id) = b.typeOf id := by rw [Block.typeOf, h.value, Block.typeOf]

theorem typesOf (ids : List Nat) : d.typesOf (ids.map f) = b.typesOf ids := by
  rw [Block.typesOf, List.map_map]
  exact List.map_congr_left fun id _ => h.typeOf id

theorem isIdle (id : Nat) : d.isIdle (f id) = b.isIdle id := by rw [Block.isIdle, h.value, Block.isIdle]

theorem isAnonymous (id : Nat) : d.isAnonymous (f id) = b.isAnonymous id := by
  rw [Block.isAnonymous, h.value, Block.isAnonymous]

/-! ### Names for display -/

theorem freeNumber (tries n : Nat) : d.freeNumber tries n = b.freeNumber tries n := by
  induction tries generalizing n with
  | zero => rfl
  | succ tries ih => simp only [Block.freeNumber, h.scope, Option.isNone_map, ih]

theorem nameResults (ids : List Nat) (n : Nat) :
    d.nameResults (ids.map f) n = ((b.nameResults ids n).1.map fun x => (f x.1, x.2), (b.nameResults ids n).2) := by
  induction ids generalizing n with
  | nil => rfl
  | cons id ids ih =>
    simp only [List.map_cons, Block.nameResults, h.isAnonymous, h.length, h.freeNumber, ih]
    split <;> rfl

theorem nameOperations (ops : List Operation) (n : Nat) :
    d.nameOperations (ops.map (Operation.over f)) n = (b.nameOperations ops n).map fun x => (f x.1, x.2) := by
  induction ops generalizing n with
  | nil => rfl
  | cons op ops ih =>
    have idle : d.isIdle ∘ f = b.isIdle := funext h.isIdle
    simp only [List.map_cons, Block.nameOperations, Operation.results_over, List.all_map, idle, h.nameResults, ih]
    split
    · rfl
    · rw [List.map_append]

theorem displayNames : d.displayNames = b.displayNames.map fun x => (f x.1, x.2) := by
  rw [Block.displayNames, h.operations, h.nameOperations, Block.displayNames]

theorem shownName (id : Nat) : d.shownName d.displayNames (f id) = b.shownName b.displayNames id := by
  have same : ∀ x ∈ b.displayNames, decide (f x.1 = f id) = decide (x.1 = id) := by
    intro x hx
    rw [decide_eq_decide]
    exact ⟨fun heq => (h.injective _ (mem_displayNames hx) id heq.symm).symm, congrArg f⟩
  -- `f` is injective on results, so that both look-ups stop at the same entry
  have found : (b.displayNames.find? fun x => f x.1 = f id) = b.displayNames.find? (·.1 = id) := by
    rw [← List.head?_filter, ← List.head?_filter, List.filter_congr same]
  rw [Block.shownName, h.displayNames, List.find?_map]
  simp only [Function.comp_def, found, h.nameOf, Option.map_map, Block.shownName]

/-! ### Operations -/

theorem checkResultNames : d.checkResultNames = b.checkResultNames := by
  have texts : ((d.operations.flatMap (·.results)).all fun id => (d.nameOf id).text?.isSome) =
      (b.operations.flatMap (·.results)).all fun id => (b.nameOf id).text?.isSome := by
    have named : (fun id => (d.nameOf id).text?.isSome) ∘ f = fun id => (b.nameOf id).text?.isSome :=
      funext fun id => congrArg (fun l : Label => l.text?.isSome) (h.nameOf id)
    simp only [h.operations, List.all_flatMap, List.all_map, Function.comp_def, Operation.results_over] at named ⊢
    simp only [named]
  rw [Block.checkResultNames, texts, Block.checkResultNames]

theorem labels (ids : List Nat) :
    (ids.map f).map (d.shownName d.displayNames) = ids.map (b.shownName b.displayNames) :=
  Printer.map_shown h.shownName ids

theorem generic (env : PrintEnv) (k : Kind) (op : Operation) :
    Printer.generic env d d.displayNames k (op.over f) = Printer.generic env b b.displayNames k op := by
  simp only [Printer.generic, Operation.segmentSizes_over, Operation.mnemonic_over, Operation.attrs_over,
    Operation.results_over, Operation.operands_over, Printer.angle_map h.shownName, Printer.slots_map h.shownName,
    bind_map_left, pure_bind, Printer.renumber, ← List.map_append, List.nil_append, h.typesOf, h.labels]

theorem call (env : PrintEnv) (k : Kind) (op : Operation) :
    Printer.call env d d.displayNames k (op.over f) = Printer.call env b b.displayNames k op := by
  have windowed : ∀ (ids : List Nat) (low high : Int), window (ids.map f) low high = (window ids low high).map f := by
    intro ids low high
    simp [window]
  simp only [Printer.call, Operation.segmentSizes_over, Operation.mnemonic_over, Operation.attrs_over,
    Operation.results_over, Operation.operands_over, Operation.tag?_over, Operation.requiredTag_over, List.length_map,
    windowed, Printer.arguments_map h.shownName, h.typesOf, h.labels]
  refine bind_congr fun ns => ?_
  cases op.results with
  | nil => rfl
  | cons id ids =>
    cases ids with
    | nil => simp only [List.map_cons, List.map_nil, h.typeOf]
    | cons _ _ => rfl

theorem operation (env : PrintEnv) (op : Operation) :
    Printer.operation env d d.displayNames (op.over f) = Printer.operation env b b.displayNames op := by
  simp only [Printer.operation, Operation.opcode_over, Operation.mnemonic_over, h.call, h.generic]

theorem formatOperation (env : PrintEnv) (op : Operation) :
    d.formatOperation env d.displayNames (op.over f) = b.formatOperation env b.displayNames op := by
  simp only [Block.formatOperation, h.operation, Operation.results_over, h.labels]

/-- **Blocks that are alike have the same text**, or none for the same reason. -/
theorem formatWith_eq (env : PrintEnv) (indent : Nat) : d.formatWith env indent = b.formatWith env indent := by
  have lines : d.operations.mapM (d.formatOperation env d.displayNames) =
      b.operations.mapM (b.formatOperation env b.displayNames) := by
    rw [h.operations, List.mapM_map]
    exact congrArg (List.mapM · b.operations) (funext (h.formatOperation env))
  simp only [Block.formatWith, h.checkResultNames, lines]

end Alike

end Block

end GateAsm
