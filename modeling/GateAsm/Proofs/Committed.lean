import GateAsm.Proofs.Diagnosed
import GateAsm.Proofs.TypeHistory

/-!
# One instruction and the end of its text

A text is read as a single instruction by reading an instruction and then the end. The operation is in the
block when the end is missed, and what is given back on an error is given back by the instruction alone. So
the block is as before exactly if the error is not behind the instruction (`Reading.instruction_commits`).
-/

namespace GateAsm

/-! ## What an instruction commits -/

/-- One operation was appended, at this position. There may be new inputs, and what was there keeps its
name and its type. -/
structure Block.Commits (b : Block) (op : Nat) (b' : Block) : Prop where
  position : op = b.operations.length
  operations : ∃ o, b'.operations = b.operations ++ [o]
  inputs : b.inputs <+: b'.inputs
  extends_ : b.Extends b'

namespace Block

variable {b c d : Block} {es : List (String × Nat)} {op : Nat}

theorem Gains.operations_eq (h : b.Gains es c) : c.operations = b.operations := by
  rw [h.others]

theorem Gains.extends (h : b.Gains es c) : b.Extends c := by
  refine ⟨h.values.length_le, ?_, ?_, ?_⟩
  · intro id hid
    rw [nameOf, value?_eq_of_prefix h.values hid, nameOf]
  · intro id hid
    rw [typeOf, value?_eq_of_prefix h.values hid, typeOf]
  · rw [h.operations_eq]

theorem Gains.commits {s : OperationState} {names : Option (List (Option Label))} (h : b.Gains es c)
    (hop : c.createOperation s names = (.ok op, d)) : b.Commits op d := by
  obtain ⟨hposition, operands, creates⟩ := createOperation_ok hop
  obtain ⟨name, hops⟩ := creates.operations
  rw [h.operations_eq] at hposition hops
  refine ⟨hposition, ⟨_, hops⟩, ?_, h.extends.trans creates.extends_⟩
  rw [creates.inputs, h.inputs_eq]
  exact List.prefix_append _ _

theorem Commits.not_recovers (h : b.Commits op d) : ¬ b.Recovers d := by
  intro recovers
  obtain ⟨o, ho⟩ := h.operations
  have := congrArg List.length (recovers.operations.symm.trans ho)
  simp at this

end Block

namespace Parser

variable {env : ParserEnv} {expected : Option Kind} {s t u : ParserState} {n : Nat}

/-- The front of an instruction is read step by step, with a mnemonic in it, and then its operation is created. -/
theorem instruction_front {R : ParserState → ParserState → Prop} (hR : Frame R)
    (h : Yields (instruction env expected) s n t) : ∃ v x ts u b st labels, R (s.withTags []) v ∧ v.rest = x :: ts ∧
      R (v.facing ts) u ∧ u.block.createOperation st labels = (.ok n, b) ∧
      t = ((u.withBlock b).record (.parsed st.opcode.display st.operands.length)).withTags s.tags := by
  obtain ⟨v, hbody, rfl⟩ := yields_instruction.mp h
  obtain ⟨names, u₁, h₁, hbody⟩ := yields_bind.mp hbody
  obtain ⟨kind, u₂, h₂, hbody⟩ := yields_bind.mp hbody
  obtain ⟨state, u₃, h₃, hbody⟩ := yields_bind.mp hbody
  obtain ⟨x, u₄, h₄, hbody⟩ := yields_bind.mp hbody
  obtain ⟨y, u₅, h₅, hbody⟩ := yields_bind.mp hbody
  obtain ⟨m, u₆, created, hbody⟩ := yields_bind.mp hbody
  obtain ⟨z, u₇, recorded, last⟩ := yields_bind.mp hbody
  obtain ⟨rfl, rfl⟩ := yields_pure.mp last
  obtain ⟨w, ts, hrest, -, -, rfl⟩ := yields_mnemonic.mp h₂
  obtain ⟨accepted, rfl⟩ := yields_changeBlock.mp created
  obtain rfl := yields_modify.mp recorded
  refine ⟨u₁, w, ts, u₅, _, state, resultLabels names, hR.resultNames.yields h₁, hrest, ?_, Prod.ext accepted rfl, rfl⟩
  exact hR.trans ((hR.operationBody env kind).yields h₃) (hR.trans ((hR.checkResultCount _ names).yields h₄)
    ((hR.checkResultNames [] names).yields h₅))

theorem Frame.consumed {R : ParserState → ParserState → Prop} (hR : Frame R) {x : Token} {ts : List Token}
    (h : s.rest = x :: ts) : R s (s.facing ts) := by
  have := hR.consume s
  rwa [h] at this

theorem instruction_takes (h : Yields (instruction env expected) s n t) :
    t.rest <:+ s.rest ∧ t.rest.length < s.rest.length := by
  obtain ⟨v, x, ts, u, b, st, labels, first, hv, second, -, rfl⟩ := instruction_front frame_suffix h
  have taken : u.rest <:+ ts := second
  have left : x :: ts <:+ s.rest := hv ▸ first
  exact ⟨(taken.trans (List.suffix_cons x ts)).trans left,
    Nat.lt_of_lt_of_le (Nat.lt_succ_of_le taken.length_le) left.length_le⟩

theorem instruction_suffix (h : Yields (instruction env expected) s n t) : t.rest <:+ s.rest := (instruction_takes h).1

theorem commits_of_instruction (h : Yields (instruction env expected) s n t) : s.block.Commits n t.block := by
  obtain ⟨v, x, ts, u, b, st, labels, first, hv, second, created, rfl⟩ := instruction_front frame_gained h
  obtain ⟨es, gains⟩ := frame_gained.trans first (frame_gained.trans (frame_gained.consumed hv) second)
  exact Block.Gains.commits (b := s.block) gains created

theorem expectEnd_of_cons {x : Token} {ts : List Token} (h : s.rest = x :: ts) (hk : x.kind ≠ .endOfText) :
    (expectEnd s).1 = .error (.error ⟨.unexpectedToken "end of input" x, x.location⟩) ∧
      (expectEnd s).2.block = s.block := by
  have hpeek : Yields (peek 0) s x s := yields_peek.mpr ⟨(ahead_of_rest h).symm, rfl⟩
  unfold expectEnd expect expectAs
  rw [bind_apply, hpeek.bind_eq, if_neg hk]
  exact ⟨rfl, rfl⟩

end Parser

/-! ## Single instructions -/

namespace Reading

section
variable (env : ParserEnv) (expected : Option Kind) (text : String) (c : TypeContext) (b : Block)

/-- The text is an instruction and goes on with the token; the instruction leaves the block `b'`. -/
def GoesOn (t : Token) (b' : Block) : Prop :=
  ∃ tokens op s ts, TokenStream.ofText text = .ok tokens ∧
    Parser.Yields (Parser.instruction env expected) (.start tokens c b) op s ∧ s.rest = t :: ts ∧ s.block = b'

/-- The text is an instruction and no more; the operation is the one at `op` in the block `b'`. -/
def Whole (op : Nat) (b' : Block) : Prop :=
  ∃ tokens s, TokenStream.ofText text = .ok tokens ∧
    Parser.Yields (Parser.instruction env expected) (.start tokens c b) op s ∧ s.rest = [] ∧ s.block = b'

end

section
variable {env : ParserEnv} {expected : Option Kind} {text : String} {c : TypeContext} {b b' : Block} {op : Nat}

theorem Whole.commits (h : Whole env expected text c b op b') : b.Commits op b' := by
  obtain ⟨tokens, s, -, read, -, rfl⟩ := h
  exact Parser.commits_of_instruction read

theorem Whole.written (h : Whole env expected text c b op b') (hk : ∀ x k, KindFor env.registry expected x k → k.Valid)
    (hb : b.WellScoped) : ∃ (tokens : TokenStream) (x : LineSyntax) (l : Line), TokenStream.ofText text = .ok tokens ∧
      tokens.tokens.map Token.word = x.words ∧ x.States env expected l ∧ l.Runs c b b' := by
  obtain ⟨tokens, s, htokens, read, hrest, rfl⟩ := h
  have visible := visible_of_spelled (lexes_of_ofText htokens).2
  obtain ⟨x, l, hs, -, hx, hrun, -, -⟩ := Parser.instruction_sound hk (s := .start tokens c b) hb visible read
  rw [hrest] at hs
  exact ⟨tokens, x, l, htokens, hs.words.trans (List.append_nil _), hx, hrun⟩

theorem whole_of_answer (h : (instruction env expected text c b).answer = .ok op) :
    Whole env expected text c b op (instruction env expected text c b).block := by
  obtain ⟨tokens, s, htokens, read⟩ := exists_yields h
  obtain ⟨m, t, first, last⟩ := Parser.yields_bind.mp read
  obtain ⟨x, u, ended, last⟩ := Parser.yields_bind.mp last
  obtain ⟨rfl, rfl⟩ := Parser.yields_pure.mp last
  have suffix : t.rest <:+ tokens.tokens := Parser.instruction_suffix first
  have hrest : t.rest = [] := eq_nil_of_nextKind htokens suffix (Parser.nextKind_of_expectEnd ended)
  obtain ⟨-, rfl⟩ := ended.unique (yields_expectEnd hrest)
  refine ⟨tokens, s, htokens, first, hrest, ?_⟩
  rw [instruction, run_of_yields htokens read]

/-- A token behind the instruction is an error, and one that comes too late for the block. -/
theorem GoesOn.answer {t : Token} (h : GoesOn env expected text c b t b') :
    (instruction env expected text c b).answer = .error (.error ⟨.unexpectedToken "end of input" t, t.location⟩) ∧
      (instruction env expected text c b).block = b' ∧ b.Commits b.operations.length b' := by
  obtain ⟨tokens, op, s, ts, htokens, read, hrest, rfl⟩ := h
  have within : s.rest <:+ tokens.tokens := Parser.instruction_suffix read
  -- a token of the text is never the one for its end
  have token : t.kind ≠ .endOfText := by
    intro hend
    rw [hrest] at within
    cases eq_nil_of_nextKind htokens within hend
  have commits : b.Commits op s.block := Parser.commits_of_instruction read
  obtain ⟨fails, same⟩ := Parser.expectEnd_of_cons hrest token
  have whole : (do let op ← Parser.instruction env expected; Parser.expectEnd; return op : Parser Nat)
      (.start tokens c b) = (.error (.error ⟨.unexpectedToken "end of input" t, t.location⟩),
        (Parser.expectEnd s).2) := by
    rw [read.bind_eq]
    exact Parser.bind_eq_error.mpr (.inl (Prod.ext fails rfl))
  refine ⟨?_, ?_, commits.position ▸ commits⟩
  · simp only [instruction, run, htokens, whole]
  · simp only [instruction, run, htokens, whole, same]

theorem recovers_of_answer {e : ParseError} (h : (instruction env expected text c b).answer = .error (.error e))
    (hend : ∀ t b', ¬ GoesOn env expected text c b t b') : b.Recovers (instruction env expected text c b).block := by
  unfold instruction run at *
  cases htokens : TokenStream.ofText text with
  | error stray => exact ⟨rfl, rfl, List.prefix_refl _, rfl, rfl, rfl⟩
  | ok tokens =>
    rw [htokens] at h
    dsimp only at h ⊢
    cases hp : (do let op ← Parser.instruction env expected; Parser.expectEnd; return op : Parser Nat)
        (.start tokens c b) with
    | mk answer u =>
      rw [hp] at h
      obtain rfl : answer = .error (.error e) := h
      rcases Parser.bind_eq_error.mp hp with hp | ⟨op, s, read, hp⟩
      · exact Parser.instruction_error hp
      · -- the instruction was read, so that the error is one of its end
        cases hrest : s.rest with
        | nil =>
          rw [(yields_expectEnd hrest).bind_eq] at hp
          cases hp
        | cons t ts => exact absurd ⟨tokens, op, s, ts, htokens, read, hrest, rfl⟩ (hend t s.block)

end

/-- **A single instruction is committed in front of the end.** If there is an answer, all tokens belong to the
instruction and one operation was appended. A text that goes on behind its instruction is an error, and the
operation stays in the block. After every other error the block is as before. -/
theorem instruction_commits (env : ParserEnv) (expected : Option Kind) (text : String) (c : TypeContext) (b : Block) :
    (∀ op, (instruction env expected text c b).answer = .ok op →
      b.Commits op (instruction env expected text c b).block ∧
      Whole env expected text c b op (instruction env expected text c b).block ∧
      ((∀ x k, KindFor env.registry expected x k → k.Valid) → b.WellScoped →
        ∃ (tokens : TokenStream) (x : LineSyntax) (l : Line), TokenStream.ofText text = .ok tokens ∧
          tokens.tokens.map Token.word = x.words ∧ x.States env expected l ∧
          l.Runs c b (instruction env expected text c b).block)) ∧
    (∀ e, (instruction env expected text c b).answer = .error (.error e) →
      (b.Recovers (instruction env expected text c b).block ↔ ∀ t b', ¬ GoesOn env expected text c b t b')) ∧
    (∀ t b', GoesOn env expected text c b t b' →
      (instruction env expected text c b).answer = .error (.error ⟨.unexpectedToken "end of input" t, t.location⟩) ∧
      (instruction env expected text c b).block = b' ∧ b.Commits b.operations.length b') := by
  refine ⟨fun op h => ?_, fun e h => ⟨fun recovers t b' goesOn => ?_, recovers_of_answer h⟩, fun t b' h => h.answer⟩
  · have whole := whole_of_answer h
    exact ⟨whole.commits, whole, whole.written⟩
  · obtain ⟨-, hblock, commits⟩ := goesOn.answer
    rw [hblock] at recovers
    exact commits.not_recovers recovers

def goesOn (env : ParserEnv) (expected : Option Kind) (text : String) (c : TypeContext) (b : Block) : Bool :=
  match TokenStream.ofText text with
  | .error _ => false
  | .ok tokens => match Parser.instruction env expected (.start tokens c b) with
    | (.ok _, s) => !s.rest.isEmpty
    | (.error _, _) => false

theorem goesOn_iff {env : ParserEnv} {expected : Option Kind} {text : String} {c : TypeContext} {b : Block} :
    goesOn env expected text c b = true ↔ ∃ t b', GoesOn env expected text c b t b' := by
  unfold goesOn
  constructor
  · intro h
    cases htokens : TokenStream.ofText text with
    | error stray => rw [htokens] at h; cases h
    | ok tokens =>
      cases hread : Parser.instruction env expected (.start tokens c b) with
      | mk answer s =>
        simp only [htokens, hread] at h
        cases answer with
        | error e => cases h
        | ok op =>
          cases hrest : s.rest with
          | nil => simp [hrest] at h
          | cons t ts => exact ⟨t, s.block, tokens, op, s, ts, htokens, hread, hrest, rfl⟩
  · rintro ⟨t, b', tokens, op, s, ts, htokens, read, hrest, -⟩
    have hread : Parser.instruction env expected (.start tokens c b) = (.ok op, s) := read
    simp [htokens, hread, hrest]

def twoInstructions : String := "quantum.alloc -> qubit quantum.alloc -> qubit"

/-- An instruction alone, one with an error, and one that another follows. -/
theorem instruction_commits_twoInstructions :
    (Block.empty.Commits 0 (instruction ⟨.standard, false⟩ none "quantum.alloc -> qubit" .default .empty).block ∧
      ∃ (x : LineSyntax) (l : Line), x.States ⟨.standard, false⟩ none l ∧
        l.Runs .default .empty (instruction ⟨.standard, false⟩ none "quantum.alloc -> qubit" .default .empty).block) ∧
    Block.empty.Recovers (instruction ⟨.standard, false⟩ none "quantum.alloc -> 5" .default .empty).block ∧
    Block.empty.Commits 0 (instruction ⟨.standard, false⟩ none twoInstructions .default .empty).block ∧
    ¬ Block.empty.Recovers (instruction ⟨.standard, false⟩ none twoInstructions .default .empty).block := by
  have valid : ∀ x k, KindFor Registry.standard none x k → k.Valid := fun x k hk =>
    Registry.sound_standard.valid_of_kind? hk
  obtain ⟨answered, -, -⟩ := instruction_commits ⟨.standard, false⟩ none "quantum.alloc -> qubit" .default .empty
  obtain ⟨-, failed, -⟩ := instruction_commits ⟨.standard, false⟩ none "quantum.alloc -> 5" .default .empty
  obtain ⟨-, late, left⟩ := instruction_commits ⟨.standard, false⟩ none twoInstructions .default .empty
  have two : goesOn ⟨.standard, false⟩ none twoInstructions .default .empty = true := by decide +kernel
  obtain ⟨t, b', goesOn⟩ := goesOn_iff.mp two
  obtain ⟨hanswer, rfl, commits⟩ := left t b' goesOn
  refine ⟨?_, ?_, commits, ?_⟩
  · have read : (instruction ⟨.standard, false⟩ none "quantum.alloc -> qubit" .default .empty).answer.isOk = true := by
      decide +kernel
    cases h : (instruction ⟨.standard, false⟩ none "quantum.alloc -> qubit" .default .empty).answer with
    | error f => rw [h] at read; cases read
    | ok op =>
      obtain ⟨commits, -, written⟩ := answered op h
      obtain ⟨-, x, l, -, -, hx, hrun⟩ := written valid Block.wellScoped_empty
      obtain rfl : op = 0 := commits.position
      exact ⟨commits, x, l, hx, hrun⟩
  · have fails :
        isParseError (instruction ⟨.standard, false⟩ none "quantum.alloc -> 5" .default .empty).answer = true := by
      decide +kernel
    obtain ⟨e, he⟩ := exists_of_isParseError fails
    refine (failed e he).mpr fun t b' goesOn => ?_
    have one : Reading.goesOn ⟨.standard, false⟩ none "quantum.alloc -> 5" .default .empty = true :=
      goesOn_iff.mpr ⟨t, b', goesOn⟩
    exact absurd one (by decide +kernel)
  · exact fun recovers => (late _ hanswer).mp recovers t _ goesOn

end Reading

end GateAsm
