import GateAsm.Proofs.Grammar.Instruction
import GateAsm.Proofs.Written.Operands

/-!
# Statements as they are written

`Statement.text` is the text of an instruction without names for its results, and `Statement.form` the
form that the text has. The parser comes back to the same statement, with tuples for lists in tags. An
instruction of a single word, or with an angle besides, is not told from an operand in the next line;
it is `Bare`.
-/

namespace GateAsm

namespace Statement

def text (k : Kind) (m : Statement) : String :=
  match m.content.head with
  | .generic a => k.name ++ a.written ++ operandsText " " m.content.operands ++ tagsText m.tags ++
      typesText " : " m.types ++ typesText " -> " m.results
  | .call callee count => k.name ++ " " ++ "@" ++ callee ++ "(" ++ toString count ++
      operandsText ", " m.content.operands ++ ")" ++ tagsText m.tags ++ typesText " : " m.types ++
      typesText " -> " m.results

def form (m : Statement) : BodySyntax :=
  match m.content.head with
  | .generic a => .generic ⟨a.form, m.content.operands.map Filler.form, tagsForm m.tags, m.types.map Ty.form,
      m.results.map Ty.form⟩
  | .call callee count => .call ⟨"@" ++ callee, toString count, m.content.operands.map Filler.form, tagsForm m.tags,
      m.types.map Ty.form, (m.results.headD .index).form⟩

def tupled (m : Statement) : Statement := { m with tags := tupledTags m.tags }

/-- Nothing stands behind the operands, of which there are none. -/
def Bare (m : Statement) : Prop := m.types = [] ∧ m.tags = [] ∧ m.results = []

instance (m : Statement) : Decidable m.Bare := by unfold Bare; infer_instance

end Statement

def Head.Writable : Head String → Prop
  | .generic a => a.Writable
  | .call callee count => IsName callee ∧ FewDigits count

structure Statement.Writable (k : Kind) (m : Statement) : Prop extends m.Lawful k where
  mnemonic : IsName k.name
  head : m.content.head.Writable
  named : ∀ f ∈ m.content.operands, f.Named
  own : WritableTags m.tags
  readable : ∀ t ∈ m.types, t.Readable
  results : ∀ t ∈ m.results, t.Readable
  single : k.callForm = true → ∃ t, m.results = [t]

section
variable {k : Kind} {m : Statement}

theorem Statement.Writable.physical_named (h : m.Writable k) : ∀ n ∈ m.content.physical, IsValueName n := by
  intro n hn
  rcases Content.mem_physical.mp hn with ⟨a, ha, hn⟩ | ⟨f, hf, hn⟩
  · have hhead := h.head
    rw [ha] at hhead
    cases a with
    | reference r => obtain rfl := List.mem_singleton.mp hn; exact hhead
    | _ => cases hn
  · rcases List.mem_cons.mp hn with rfl | hn
    · exact (h.named f hf).1
    · exact (h.named f hf).2 n hn

theorem Statement.emits_text (h : m.Writable k) : Emits (m.text k).toList (⟨.word, k.name⟩ :: m.form.words) := by
  have hhead := h.head
  have tail := (follows_tags h.own).append ((follows_colonTypes h.readable).append (follows_arrowTypes h.results))
  unfold text form
  cases hc : m.content.head with
  | generic a =>
    rw [hc] at hhead
    have := (emits_name h.mnemonic).append ((AngleOf.follows_written hhead).append
      ((follows_operands h.named).append tail))
    simpa [BodySyntax.words, GroupSyntax.words] using this
  | call callee count =>
    rw [hc] at hhead
    obtain ⟨t, ht⟩ : ∃ t, m.results = [t] := h.single (by
      have := h.fits
      unfold Content.Fits at this
      rw [hc] at this
      exact this.1)
    have closed : Follows [ ')' ] [.mark .closeParen] := Emits.nil.behind_mark (c := ')') rfl
    have args := (emits_int count).append ((follows_arguments h.named).append (closed.append tail))
    have := (emits_name h.mnemonic).append
      (((emits_symbol hhead.1).append (args.behind_mark (c := '(') rfl)).behind_space (c := ' ') rfl)
    simpa [BodySyntax.words, CallSyntax.words, CallSyntax.front, ht, TypeSyntax.marked, listed_cons] using this

theorem Statement.states_form {env : ParserEnv} (hr : env.registry.Sound) (h : m.Writable k) :
    m.form.States env k m.tupled := by
  have hhead := h.head
  have hfits := h.fits
  have own : Addable k.structuralTags [] m.tupled.tags := addable_tupledTags h.tags
  unfold form
  unfold Content.Fits at hfits
  cases hc : m.content.head with
  | generic a =>
    rw [hc] at hhead hfits
    obtain ⟨hcall, hrot, hfill, hleast⟩ := hfits
    refine ⟨hcall, fun hr => by rw [hrot hr]; rfl, slotsAllow_form hfill, ?_, ?_, tagValues?_form h.own, own,
      tys?_form hr h.readable, h.types, tys?_form hr h.results⟩
    · rw [List.length_map]; exact hleast
    · exact ⟨a, _, AngleOf.angle?_form hhead _, Filler.fillers?_form hfill.legal, by rw [tupled, ← hc]⟩
  | call callee count =>
    rw [hc] at hhead hfits
    obtain ⟨hcall, hlegal, hsmall⟩ := hfits
    obtain ⟨t, ht⟩ := h.single hcall
    refine ⟨hcall, ⟨count, _, intLiteral?_toString hhead.2, Filler.fillers?_form hlegal, ?_⟩, hsmall,
      tagValues?_form h.own, own, tys?_form hr h.readable, h.types, t, ?_, ht⟩
    · simp [tupled, ← hc]
    · rw [ht]; exact Ty.ty?_form hr (h.results t (by rw [ht]; exact List.mem_singleton_self t))

/-- Exactly a bare instruction goes on with the name of a value, and none with a word or at the end. -/
theorem Statement.openers_form (h : m.Writable k) :
    (.valueName ∈ m.form.openers k ↔ m.Bare) ∧ .word ∉ m.form.openers k ∧ .endOfText ∉ m.form.openers k := by
  have hfits := h.fits
  have hcount := h.types
  unfold form Bare
  unfold Content.Fits at hfits
  cases hc : m.content.head with
  | generic a =>
    have operands : m.types = [] → m.content.operands = [] := by
      intro ht
      rw [ht, Content.mains, hc] at hcount
      simpa using (List.append_eq_nil_iff.mp (List.length_eq_zero_iff.mp hcount.symm)).2
    cases hres : m.results with
    | cons t ts => simp [BodySyntax.openers, GroupSyntax.openers]
    | nil =>
      cases htypes : m.types with
      | cons t ts => simp [BodySyntax.openers, GroupSyntax.openers]
      | nil =>
        cases htags : m.tags with
        | cons e es => simp [BodySyntax.openers, GroupSyntax.openers, tagsForm]
        | nil =>
          rw [operands htypes]
          simp only [BodySyntax.openers, GroupSyntax.openers, tagsForm, operandOpeners, List.map_nil]
          cases k.rotation <;> cases a <;> simp [AngleOf.form]
  | call callee count =>
    rw [hc] at hfits
    obtain ⟨t, ht⟩ := h.single hfits.1
    simp [BodySyntax.openers, ht]

end

end GateAsm
