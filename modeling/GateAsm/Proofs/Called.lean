import GateAsm.Proofs.Created

/-!
# Calls that are read

The parser of calls takes exactly the texts of their form. In the operation that is created the references
of all arguments stand behind the arguments; how many of them belong to an argument is what its accessors
say, and regrouping deals them out again.
-/

namespace GateAsm

/-- The tokens in front of `rest` are a call, and its operands agree with the scope and with each other. -/
structure CallSyntax.Stands (g : CallSyntax) (env : ParserEnv) (k : Kind) (s : ParserState) (rest : List Token)
    (m : Statement) : Prop where
  words : Splits g.words s.rest rest
  states : g.States env.registry k m
  consistent : s.block.Consistent (m.uses s.context)

section
variable {b : Block} {fs : List (Filler String)} {ids : List Nat}

theorem CallSyntax.Stands.inScope {g : CallSyntax} {env : ParserEnv} {k : Kind} {s : ParserState} {rest : List Token}
    {m : Statement} (h : g.Stands env k s rest m) (hcall : k.callForm = true) (hb : s.block.WellScoped)
    (hv : Parser.VisibleTokens s.rest) :
    ∀ x ∈ m.content.physical, ((s.block.mentionAll (m.uses s.context)).lookup x).isSome = true := by
  have written : BodySyntax.States env k m (.call g) := ⟨hcall, h.states⟩
  have visible : ∀ x ∈ m.content.physical, Block.Visible x := fun x hx => hv.of_splits h.words (written.written hx)
  have used : ∀ u ∈ m.uses s.context, Block.Visible u.1 := fun u hu => visible _ (List.of_mem_zip hu).1
  intro x hx
  rw [← (h.states.lawful hcall).names_uses s.context] at hx
  obtain ⟨u, hu, rfl⟩ := List.mem_map.mp hx
  obtain ⟨id, hl, -⟩ := h.consistent.found hb used u hu
  simp [hl]

end

namespace Parser

variable {env : ParserEnv} {kind : Kind} {s t : ParserState}

end Parser

end GateAsm
