import GateAsm.Block.Printer
import GateAsm.Proofs.Printing
import GateAsm.Proofs.Written.Lines

/-!
# Blocks as they are printed

An operation of a block says a statement: its content under the names by which values are shown, with the
types that the values have. The operation is printed as that statement, and a block as the lines that its
operations are with the names of their results.
-/

namespace GateAsm

def Paired {α β : Type} (R : α → β → Prop) : List α → List β → Prop
  | [], [] => True
  | x :: xs, y :: ys => R x y ∧ Paired R xs ys
  | _, _ => False

section
variable {α β : Type} {R S : α → β → Prop} {xs : List α} {ys : List β}

theorem Paired.imp (h : Paired R xs ys) (himp : ∀ x y, R x y → S x y) : Paired S xs ys := by
  induction xs generalizing ys with
  | nil => cases ys <;> exact h
  | cons x xs ih =>
    cases ys with
    | nil => cases h
    | cons y ys => exact ⟨himp x y h.1, ih h.2⟩

theorem Paired.concat (h : Paired R xs ys) {x : α} {y : β} (hr : R x y) : Paired R (xs ++ [x]) (ys ++ [y]) := by
  induction xs generalizing ys with
  | nil =>
    cases ys with
    | nil => exact ⟨hr, trivial⟩
    | cons => cases h
  | cons a xs ih =>
    cases ys with
    | nil => cases h
    | cons b ys => exact ⟨h.1, ih h.2⟩

theorem Paired.exists_of_mem (h : Paired R xs ys) {x : α} (hx : x ∈ xs) : ∃ y ∈ ys, R x y := by
  induction xs generalizing ys with
  | nil => cases hx
  | cons a xs ih =>
    cases ys with
    | nil => cases h
    | cons y ys =>
      rcases List.mem_cons.mp hx with rfl | hx
      · exact ⟨y, List.mem_cons_self, h.1⟩
      · obtain ⟨z, hz, hr⟩ := ih h.2 hx
        exact ⟨z, List.mem_cons_of_mem _ hz, hr⟩

end

namespace Block

def shownText (b : Block) (names : ShownNames) (id : Nat) : String := ((b.shownName names id).text?).getD ""

/-- The operation has the content, and says the statement under the names by which values are shown. -/
structure Says (b : Block) (names : ShownNames) (op : Operation) (k : Kind) (c : Content Nat) (m : Statement) :
    Prop where
  records : op.Records k c m.tags
  content : m.content = c.map (b.shownText names)
  shown : ∀ id ∈ op.operands, b.shownName names id = .text (b.shownText names id)
  types : b.typesOf c.mains = m.types.map .type
  indices : ∀ x ∈ c.flagged, x.2 = true → b.typeOf x.1 = .type .index
  results : b.typesOf op.results = m.results.map .type

/-- The operation is shown as the line: it says the statement, and its results have the names of the line, or
one of them has no name to show. -/
structure Shows (b : Block) (names : ShownNames) (op : Operation) (l : Line) : Prop where
  said : ∃ c, b.Says names op l.kind c l.statement
  bound : ∃ ts : List String, op.results.map (b.shownName names) = ts.map .text ∧
    l.names = if ts.any (·.startsWith anonymousMark) then [] else ts

section
variable {env : PrintEnv} {b : Block} {names : ShownNames} {op : Operation} {l : Line}

variable (names) in
theorem shownText_eq {id : Nat} {n : String} (h : b.shownName names id = .text n) : b.shownText names id = n := by
  rw [shownText, h]; rfl

theorem Says.print {k : Kind} {c : Content Nat} {m : Statement} (h : b.Says names op k c m) (hk : k.Valid)
    (hreg : env.registry.kind? k.name = some k) (hw : m.Writable k) :
    Printer.operation env b names op = .ok (m.text k) := by
  obtain ⟨content, types, tags, results⟩ := m
  obtain rfl : content = c.map (b.shownText names) := h.content
  exact Printer.operation_eq hreg hk h.records h.shown h.types h.results hw

theorem Shows.format (h : b.Shows names op l) (hk : l.kind.Valid) (hl : l.Writable env.registry) :
    formatOperation env b names op = .ok l.text := by
  obtain ⟨c, said⟩ := h.said
  obtain ⟨ts, shown, bound⟩ := h.bound
  unfold formatOperation Line.text
  rw [said.print hk hl.registered hl.statement, ok_bind, shown, Printer.texts_map, ok_bind, bound]
  cases hany : ts.any (·.startsWith anonymousMark) with
  | true => simp [pure_eq_ok]
  | false => cases ts <;> simp [pure_eq_ok, String.append_assoc]

theorem formatLines_eq {ops : List Operation} {ls : List Line} (h : Paired (b.Shows names) ops ls)
    (hr : env.registry.Sound) (hl : ∀ l ∈ ls, l.Writable env.registry) :
    ops.mapM (formatOperation env b names) = .ok (ls.map Line.text) := by
  induction ops generalizing ls with
  | nil =>
    cases ls with
    | nil => rfl
    | cons l ls => cases h
  | cons op ops ih =>
    cases ls with
    | nil => cases h
    | cons l ls =>
      have hwl := hl l List.mem_cons_self
      have first := h.1.format (hr.valid_of_kind? hwl.registered) hwl
      rw [List.mapM_cons, first, ok_bind, ih h.2 fun x hx => hl x (List.mem_cons_of_mem _ hx), ok_bind]
      rfl

/-- A block is printed as the lines that its operations are shown as. -/
theorem formatWith_eq {ls : List Line} (hr : env.registry.Sound) (hl : ∀ l ∈ ls, l.Writable env.registry)
    (hnamed : ∀ op ∈ b.operations, ∀ id ∈ op.results, ((b.nameOf id).text?).isSome = true)
    (h : Paired (b.Shows b.displayNames) b.operations ls) (indent : Nat) :
    b.formatWith env indent = .ok (moduleText indent ls) := by
  have results : b.checkResultNames = .ok () := by
    refine if_pos (List.all_eq_true.mpr fun id hid => ?_)
    obtain ⟨op, hop, hid⟩ := List.mem_flatMap.mp hid
    exact hnamed op hop id hid
  unfold formatWith
  rw [results, ok_bind, formatLines_eq h hr hl, ok_bind, List.map_map]
  rfl

end

end Block

end GateAsm
