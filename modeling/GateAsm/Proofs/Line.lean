import GateAsm.Proofs.Growth
import GateAsm.Proofs.Statement

/-!
# Lines

A line is an instruction with the names of its results. Running it in a block brings its operands into
scope and creates its operation behind all others; several lines run one after the other.
-/

namespace GateAsm

/-- An instruction with the names of its results, of which there may be none. -/
structure Line where
  names : List String
  kind : Kind
  statement : Statement

namespace Line

def labels (l : Line) : Option (List (Option Label)) :=
  if l.names.isEmpty then none else some (l.names.map fun n => some (.text n))

def front (l : Line) (c : TypeContext) (b : Block) : Block := b.mentionAll (l.statement.uses c)

/-- The line can run in a block, and leaves another one. -/
structure Runs (l : Line) (c : TypeContext) (b b' : Block) : Prop where
  consistent : b.Consistent (l.statement.uses c)
  count : l.names = [] ∨ l.names.length = l.statement.results.length
  distinct : l.names.Nodup
  fresh : ∀ n ∈ l.names, (l.front c b).lookup n = none
  created : ∃ n, (l.front c b).createOperation (l.statement.state c l.kind (l.front c b)) l.labels = (.ok n, b')

def RunAll : List Line → TypeContext → Block → Block → Prop
  | [], _, b, b' => b' = b
  | l :: ls, c, b, b' => ∃ b₁, l.Runs c b b₁ ∧ RunAll ls (l.statement.context c) b₁ b'

section
variable {l : Line} {c : TypeContext} {b b' b'' : Block}

theorem Runs.unique (h : l.Runs c b b') (h' : l.Runs c b b'') : b' = b'' := by
  obtain ⟨n, h⟩ := h.created
  obtain ⟨m, h'⟩ := h'.created
  rw [h] at h'
  exact (Prod.mk.inj h').2

theorem Runs.creates (h : l.Runs c b b') : ∃ operands,
    (l.front c b).Creates (l.statement.state c l.kind (l.front c b))
      (l.labels.getD ((l.statement.state c l.kind (l.front c b)).resultTypes.map fun _ => none)) operands b' := by
  obtain ⟨n, h⟩ := h.created
  exact (Block.createOperation_ok h).2

theorem Runs.wellScoped (h : l.Runs c b b') (hb : b.WellScoped) : b'.WellScoped := by
  obtain ⟨operands, hc⟩ := h.creates
  exact hc.wellScoped (Block.wellScoped_mentionAll hb _)

theorem Runs.extends (h : l.Runs c b b') : b.Extends b' := by
  obtain ⟨operands, hc⟩ := h.creates
  exact (Block.extends_mentionAll _).trans hc.extends_

end

end Line

end GateAsm
